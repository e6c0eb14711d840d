import Oberon.Proofs.Confinement
import Oberon.Proofs.Faults
import Oberon.Proofs.Soundness
import Oberon.Proofs.WellFormed

/-!
# Runs of checked programs

What the checker of programs is good for, also where a program was not generated. At any time of
any run, each call that is under way stands in a block of a function of the program, and what it
still has to do there is part of that block (`State.RunsIn`). So the machine takes no jump, meets
no end of a block and makes no call that the checker has not seen. A checked program then has no
fault of its blocks, and of its functions only those that are declared and that nobody provides.
-/

namespace Oberon

open Code Relation

namespace Machine

/-! ## Where calls stand -/

/-- A call under way that stands in a block of a function of the program. -/
structure Frame.RunsIn (p : Program) (f : Frame) : Prop where
  function : ∃ g ∈ p.functions, g.body = .blocks f.blocks
  block : f.block ∈ f.blocks
  rest : ∀ i ∈ f.rest, i ∈ f.block.instrs

/-- A state in which all calls, those that wait included, `RunsIn` the program. -/
structure State.RunsIn (p : Program) (s : State) : Prop where
  frame : s.frame.RunsIn p
  callers : ∀ f ∈ s.callers, f.RunsIn p

namespace Frame.RunsIn

variable {p : Program} {f g : Frame}

/-- `RunsIn` is about where a call stands, so temporaries have nothing to do with it. -/
theorem set? (h : f.RunsIn p) (out : Option Nat) (value : Scalar) :
    (f.set? out value).RunsIn p := by
  cases out with
  | none => exact h
  | some out => exact ⟨h.function, h.block, h.rest⟩

/-- `RunsIn` stays true when a call goes on to its next instruction. -/
theorem next (h : f.RunsIn p) {i : Instr} {rest : List Instr} (hrest : f.rest = i :: rest) :
    ({ f with rest } : Frame).RunsIn p := by
  refine ⟨h.function, h.block, fun j hj => h.rest j ?_⟩
  rw [hrest]
  exact List.mem_cons_of_mem i hj

/-- `Frame.jump` leads to a block of the same function, so `RunsIn` stays true. -/
theorem jump (h : f.RunsIn p) {label : Nat} (hjump : f.jump label = .ok g) : g.RunsIn p := by
  unfold Frame.jump at hjump
  split at hjump
  · rename_i block hblock
    obtain rfl := Except.ok.inj hjump
    exact ⟨h.function, Array.mem_of_getElem? hblock, fun i hi => hi⟩
  · exact nomatch hjump

/-- `Frame.enter` of a function of the program gives a call that `RunsIn` it. -/
theorem enter {function : Function} {blocks : Array Block} (hmem : function ∈ p.functions)
    (hbody : function.body = .blocks blocks) {arguments : List Scalar} {base : Nat}
    {out : Option Nat} (henter : Frame.enter function.name blocks arguments base out = .ok f) :
    f.RunsIn p := by
  unfold Frame.enter at henter
  split at henter
  · rename_i block hblock
    obtain rfl := Except.ok.inj henter
    exact ⟨⟨function, hmem, hbody⟩, Array.mem_of_getElem? hblock, fun i hi => hi⟩
  · exact nomatch henter

end Frame.RunsIn

namespace State.RunsIn

variable {image : Image} {s t : State}

/-- A step of `Image.Moves` stays in the program: `RunsIn` is an invariant. -/
theorem moves (h : s.RunsIn image.program) (hmoves : image.Moves s t) :
    t.RunsIn image.program := by
  cases hmoves.advance with
  | executes hrest hcall hexec =>
    obtain ⟨w, x, rfl, -⟩ := Image.execute_eq hexec hcall
    exact ⟨(h.frame.next hrest).set? _ _, h.callers⟩
  | answers hrest hfound hbody hxs hx => exact ⟨(h.frame.next hrest).set? _ _, h.callers⟩
  | enters hrest hfound hbody hxs henter =>
    have hmem := List.mem_of_find?_eq_some hfound
    exact ⟨.enter hmem hbody henter,
      List.forall_mem_cons.mpr ⟨h.frame.next hrest, h.callers⟩⟩
  | jumps hjump => exact ⟨h.frame.jump hjump, h.callers⟩
  | returns hrest hterm hresult hcallers hx =>
    have hall := h.callers
    rw [hcallers] at hall
    obtain ⟨hcaller, hothers⟩ := List.forall_mem_cons.mp hall
    exact ⟨hcaller.set? _ _, hothers⟩

/-- A run of steps stays in the program, as `RunsIn` says. -/
theorem of_moves (h : s.RunsIn image.program) (hmoves : ReflTransGen image.Moves s t) :
    t.RunsIn image.program := by
  induction hmoves with
  | refl => exact h
  | tail _ hstep ih => exact ih.moves hstep

end State.RunsIn

/-- `start` gives a state that `RunsIn` the program. -/
theorem start_runsIn {p : Program} {w : World} {s : State}
    (h : start p w = .ok (.running s)) : s.RunsIn p := by
  obtain ⟨g, hfound, ⟨-, x, w', -, hprogress⟩ | ⟨blocks, f, hbody, henter, hprogress⟩⟩ := start_ok h
  · cases hprogress
  · obtain rfl := Progress.running.inj hprogress
    exact ⟨.enter (List.mem_of_find?_eq_some hfound) hbody henter, List.forall_mem_nil _⟩

/-- A fault of `run`, of any program, comes from loading the program, from the call of its entry,
for lack of fuel, or from a step of a call that stands in the program. -/
theorem run_error_cases {p : Program} {input : String} {fuel : Nat} {e : Fault}
    (he : run p input fuel = .error e) :
    e.OfData ∨ e.OfCall p entryName ∨ e = .outOfFuel fuel
      ∨ ∃ f : Frame, f.RunsIn p ∧ e.OfStep p f := by
  cases hload : load p with
  | error e' =>
    obtain rfl := Except.error.inj ((run_of_load_error hload input fuel).symm.trans he)
    exact .inl (load_faults p hload)
  | ok loaded =>
    obtain ⟨image, m⟩ := loaded
    cases hstart : start p { memory := m, input := Text.words input } with
    | error e' =>
      obtain rfl := Except.error.inj ((run_of_start_error hload hstart fuel).symm.trans he)
      exact .inr (.inl (start_faults p _ hstart))
    | ok progress =>
      cases progress with
      | halted result world =>
        exact nomatch (run_of_halted hload hstart fuel).symm.trans he
      | running s =>
        rw [run_of_start hload hstart] at he
        have himage := load_program hload
        refine .inr (.inr ((exists_step_of_run he).imp_right ?_))
        rintro ⟨t, hmoves, hstep⟩
        have hs : s.RunsIn image.program := himage ▸ start_runsIn hstart
        refine ⟨t.frame, himage ▸ (hs.of_moves hmoves).frame, ?_⟩
        exact himage ▸ image.step_faults t hstep

/-- A run crashes on no number of bytes but those that an instruction of the program `Accesses`, and
then on more than a word has. -/
theorem accesses_of_crash {p : Program} {input : String} {fuel count : Nat}
    (he : run p input fuel = .error (.crash count)) : 8 < count ∧ p.Accesses count := by
  rcases run_error_cases he with hdata | hcall | hfuel | ⟨f, hf, hfault⟩
  · cases hdata
  · exact absurd rfl (hcall.ne_crash count)
  · cases hfuel
  · obtain ⟨hcount, i, rest, ty, hrest, hi, hty⟩ := hfault.exists_access
    -- the call stands in the program, so the instruction is one of its block
    obtain ⟨g, hg, hbody⟩ := hf.function
    have hblocks : g.blocks = f.blocks := by simp [Function.blocks, hbody]
    exact ⟨hcount, g, hg, f.block, hblocks ▸ hf.block, i, hf.rest i (hrest ▸ List.mem_cons_self),
      ty, hi, hty⟩

/-! ## Faults of checked programs -/

/-- A fault that a program which passes `Program.check` can have. -/
inductive Fault.OfChecked (p : Program) : Fault → Prop
  | data {e : Fault} (h : e.OfData) : OfChecked p e
  | crash (count : Nat) : OfChecked p (.crash count)
  | tooDeep : OfChecked p (.stackOverflow maxDepth)
  | outOfFuel (budget : Nat) : OfChecked p (.outOfFuel budget)
  /-- There is nothing to start. -/
  | noEntry (h : p.function? entryName = none) : OfChecked p (.unknownFunction entryName)
  /-- The function is only declared, and the machine does not provide it. -/
  | missing {g : Function} (h : p.function? g.name = some g) (hexternal : g.isExternal)
    (hname : g.name ∉ provided) : OfChecked p (.unknownFunction g.name)

/-- A call of a program that is `WellFormed` finds its function, unless it is the entry that is
missing. -/
theorem Fault.OfCall.ofChecked {p : Program} {target : String} {e : Fault} (h : e.OfCall p target)
    (hp : p.WellFormed) (htarget : p.function? target = none → target = entryName) :
    e.OfChecked p := by
  cases h with
  | data h => exact .data h
  | tooDeep => exact .tooDeep
  | unknown hnone =>
    obtain rfl := htarget hnone
    exact .noEntry hnone
  | @missing g hfound hbody hname =>
    have hg : g.name = target := by simpa using List.find?_some hfound
    refine .missing (hg ▸ hfound) ?_ hname
    simp [Function.isExternal, hbody]
  | @empty g blocks hfound hbody hempty =>
    -- a function with a body has a first block
    have hnonempty := (hp.functions g (List.mem_of_find?_eq_some hfound)).nonempty
    simp [Function.isExternal, Function.blocks, hbody, hempty] at hnonempty

/-- A step inside of a program that is `WellFormed` has no fault of its blocks. -/
theorem Fault.OfStep.ofChecked {p : Program} {f : Frame} {e : Fault} (h : e.OfStep p f)
    (hp : p.WellFormed) (hf : f.RunsIn p) : e.OfChecked p := by
  obtain ⟨g, hg, hbody⟩ := hf.function
  have hblocks : g.blocks = f.blocks := by simp [Function.blocks, hbody]
  have hblock : f.block.WellFormed p g :=
    (hp.functions g hg).blocks f.block (hblocks ▸ hf.block)
  cases h with
  | data h => exact .data h
  | @instr _ i rest hrest h =>
    cases h with
    | data h => exact .data h
    | access _ h =>
      cases h with
      | data h => exact .data h
      | @crash count _ _ => exact .crash count
    | @call out target result arguments hi h =>
      refine h.ofChecked hp fun hnone => ?_
      -- the instruction is one of the block, whose callees the checker has looked up
      have hmem : Instr.call out target result arguments ∈ f.block.instrs :=
        hf.rest _ (hi ▸ hrest ▸ List.mem_cons_self)
      obtain ⟨callee, hcallee, hname⟩ := hblock.code _ hmem target rfl
      have hsome := List.find?_eq_none.mp hnone callee hcallee
      simp [hname] at hsome
  | unterminated hnone =>
    obtain ⟨t, ht, -⟩ := hblock.terminator
    rw [hnone] at ht
    cases ht
  | @dangling t label hterm htarget hlabel =>
    obtain ⟨t', ht', hwell⟩ := hblock.terminator
    obtain rfl := Option.some.inj (hterm.symm.trans ht')
    have hlt := hwell.targets label htarget
    rw [hblocks] at hlt
    omega

/-- Whatever ends a run of a program that is `WellFormed` is `Fault.OfChecked`. -/
theorem run_faults {p : Program} (hp : p.WellFormed) (input : String) (fuel : Nat) :
    FaultsIn (Fault.OfChecked p) (run p input fuel) := by
  intro e he
  rcases run_error_cases he with hdata | hcall | rfl | ⟨f, hf, hfault⟩
  · exact .data hdata
  · exact hcall.ofChecked hp fun _ => rfl
  · exact .outOfFuel fuel
  · exact hfault.ofChecked hp hf

/-! ## Reports about blocks -/

/-- The report `Frame.missingBlock` of a block that does not exist is none about data. -/
theorem Fault.not_ofData_missingBlock (function : String) :
    ¬ (Frame.missingBlock function).OfData := by
  intro h
  cases h with
  | malformed h => simp [toString] at h

/-- The report of a block without an end is none about data. -/
theorem Fault.not_ofData_unterminated (block : String) :
    ¬ (Fault.malformed ("block `" ++ block ++ "` has no terminator")).OfData := by
  intro h
  cases h with
  | malformed h => simp at h

end Machine

open Machine

/-- A program that the checker accepts never goes to a block that does not exist and never comes to
the end of a block that has none, on any input and with any fuel. It asks for no unknown function
but its entry, if it has none, and functions that it declares as external and that are not among
those the machine provides. -/
theorem Code.Program.run_of_check {p : Program} (h : p.check = .ok ()) (input : String)
    (fuel : Nat) {e : Fault} (he : run p input fuel = .error e) :
    (∀ function, e ≠ Frame.missingBlock function)
      ∧ (∀ block, e ≠ .malformed ("block `" ++ block ++ "` has no terminator"))
      ∧ ∀ name, e = .unknownFunction name → (name = entryName ∧ p.function? entryName = none)
        ∨ ∃ g, p.function? name = some g ∧ g.isExternal
          ∧ name ∉ [printfName, scanfName, putsName] := by
  have hfault := run_faults (check_eq_ok.mp h) input fuel he
  cases hfault with
  | data hdata =>
    refine ⟨?_, ?_, ?_⟩
    · rintro function rfl
      exact Fault.not_ofData_missingBlock function hdata
    · rintro block rfl
      exact Fault.not_ofData_unterminated block hdata
    · rintro name rfl
      cases hdata
  | crash count => exact ⟨nofun, nofun, nofun⟩
  | tooDeep => exact ⟨nofun, nofun, nofun⟩
  | outOfFuel budget => exact ⟨nofun, nofun, nofun⟩
  | noEntry hnone =>
    refine ⟨nofun, nofun, fun name hname => .inl ?_⟩
    obtain rfl := Fault.unknownFunction.inj hname
    exact ⟨rfl, hnone⟩
  | @missing g hfound hexternal hname =>
    refine ⟨nofun, nofun, fun name heq => .inr ?_⟩
    obtain rfl := Fault.unknownFunction.inj heq
    exact ⟨g, hfound, hexternal, hname⟩

/-- A program that was not generated: its entry calls a function in a loop, which prints its
argument and hands it on to a function that is declared and that nobody provides. -/
def Code.Program.chiming : Program where
  name := "Chiming"
  target := "any"
  strings := [⟨"note", [0x6F, 0x6E]⟩]
  functions :=
    [.external putsName [.ptr] .status false, .external "chime" [.ptr] .status false,
      { name := "ring", parameters := [.ptr], result := .status
        body := .blocks
          #[{ name := "first", instrs := [.call none putsName .status [.param 0 .ptr]]
              terminator := some (.jump 1) },
            { name := "second", instrs := [.call (some 0) "chime" .status [.param 0 .ptr]]
              terminator := some (.ret (some (.temp 0 .status))) }] },
      { name := entryName, parameters := [], result := .status
        body := .blocks
          #[{ name := "again", instrs := [.call (some 1) "ring" .status [.string "note"]]
              terminator := some (.branch (.temp 1 .status) 0 1) },
            { name := "over", terminator := some (.ret (some (.int 0 32))) }] }]

theorem Code.Program.run_of_check_chiming :
    Program.chiming.check = .ok ()
      ∧ run Program.chiming "" 100 = .error (.unknownFunction "chime")
      ∧ ((("chime" : String) = entryName ∧ Program.chiming.function? entryName = none)
        ∨ ∃ g, Program.chiming.function? "chime" = some g ∧ g.isExternal
          ∧ "chime" ∉ [printfName, scanfName, putsName]) := by
  have hcheck : Program.chiming.check = .ok () := by decide +kernel
  have hrun : run Program.chiming "" 100 = .error (.unknownFunction "chime") := by decide +kernel
  exact ⟨hcheck, hrun, (Program.run_of_check hcheck "" 100 hrun).2.2 "chime" rfl⟩

end Oberon
