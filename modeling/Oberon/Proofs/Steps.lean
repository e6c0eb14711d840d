import Oberon.Proofs.Soundness

/-!
# What a step can do

A step is one of five things: an instruction that is no call, a call that the machine answers, a
call of a function that gets a frame, a jump to another block, or a return to the caller
(`Image.Advance`). What holds along all runs is proved by looking at each of them once. A run that
succeeds ends with a return for which nobody waits.
-/

namespace Oberon.Machine

open Code Relation

/-! ## Frames -/

section

variable (f : Frame) (out : Option Nat) (x : Scalar)

@[simp] theorem Frame.function_set? : (f.set? out x).function = f.function := by
  cases out <;> rfl

@[simp] theorem Frame.blocks_set? : (f.set? out x).blocks = f.blocks := by
  cases out <;> rfl

@[simp] theorem Frame.base_set? : (f.set? out x).base = f.base := by
  cases out <;> rfl

@[simp] theorem Frame.out_set? : (f.set? out x).out = f.out := by
  cases out <;> rfl

end

/-! ## Steps -/

/-- The world that the current call leaves when it returns: the memory that it took is given
back. -/
def State.left (s : State) : World :=
  { s.world with memory := s.world.memory.truncate s.frame.base }

/-- What a return hands over: the `Image.value` of its operand, if it has one. -/
def Image.result (image : Image) (f : Frame) : Option Value → Except Fault (Option Scalar)
  | none => .ok none
  | some v => do
    let x ← image.value f v
    pure (some x)

/-- A step of `Image.Moves` from one state to another, by what it does. -/
inductive Image.Advance (image : Image) (s : State) : State → Prop
  /-- An instruction that is no call. -/
  | executes {t : State} {i : Instr} {rest : List Instr} (hrest : s.frame.rest = i :: rest)
    (hcall : ∀ out target result arguments, i ≠ .call out target result arguments)
    (hexec : image.execute { s with frame := { s.frame with rest } } i = .ok t) :
    Advance image s t
  /-- A call of a function that the machine provides. -/
  | answers {out : Option Nat} {target : String} {result : Ty} {arguments : List Value}
    {rest : List Instr} {g : Function} {xs : List Scalar} {x : Scalar} {w : World}
    (hrest : s.frame.rest = .call out target result arguments :: rest)
    (hfound : image.program.function? target = some g) (hbody : g.body = .external)
    (hxs : image.values s.frame arguments = .ok xs)
    (hx : primitive s.world g.name xs = .ok (x, w)) :
    Advance image s { s with world := w, frame := ({ s.frame with rest } : Frame).set? out x }
  /-- A call of a function that gets a frame. -/
  | enters {out : Option Nat} {target : String} {result : Ty} {arguments : List Value}
    {rest : List Instr} {g : Function} {blocks : Array Block} {xs : List Scalar} {f : Frame}
    (hrest : s.frame.rest = .call out target result arguments :: rest)
    (hfound : image.program.function? target = some g) (hbody : g.body = .blocks blocks)
    (hxs : image.values s.frame arguments = .ok xs)
    (henter : Frame.enter g.name blocks xs s.world.memory.size out = .ok f) :
    Advance image s { s with frame := f, callers := { s.frame with rest } :: s.callers }
  /-- A jump to another block of the function, to which the current one leads. -/
  | jumps {label : Nat} {f : Frame} {term : Terminator} (hjump : s.frame.jump label = .ok f)
    (hrest : s.frame.rest = []) (hterm : s.frame.block.terminator = some term)
    (hlabel : label ∈ term.successors) : Advance image s { s with frame := f }
  /-- A return to the caller, which takes the result if it wants one. -/
  | returns {value : Option Value} {result : Option Scalar} {x : Scalar} {caller : Frame}
    {callers : List Frame} (hrest : s.frame.rest = [])
    (hterm : s.frame.block.terminator = some (.ret value))
    (hresult : image.result s.frame value = .ok result)
    (hcallers : s.callers = caller :: callers) (hx : s.frame.out.isSome → result = some x) :
    Advance image s { world := s.left, frame := caller.set? s.frame.out x, callers }

section

variable {image : Image} {s t : State}

theorem Image.leave_ok {value : Option Scalar} {progress : Progress}
    (h : Image.leave s value = .ok progress) :
    (s.callers = [] ∧ progress = .halted value s.left)
      ∨ ∃ caller callers x, s.callers = caller :: callers ∧ (s.frame.out.isSome → value = some x)
        ∧ progress = .running { world := s.left, frame := caller.set? s.frame.out x, callers } := by
  unfold Image.leave at h
  cases hcallers : s.callers with
  | nil =>
    rw [hcallers] at h
    exact .inl ⟨rfl, (Except.ok.inj h).symm⟩
  | cons caller callers =>
    rw [hcallers] at h
    right
    cases hout : s.frame.out with
    | none =>
      rw [hout] at h
      refine ⟨caller, callers, .int 0, rfl, ?_, (Except.ok.inj h).symm⟩
      intro hsome
      cases hsome
    | some out =>
      rw [hout] at h
      cases value with
      | none => cases h
      | some x => exact ⟨caller, callers, x, rfl, fun _ => rfl, (Except.ok.inj h).symm⟩

theorem Image.terminate_ok {progress : Progress} (h : image.terminate s = .ok progress) :
    (∃ label f, (s.frame.jump label = .ok f ∧ ∃ term, s.frame.block.terminator = some term
        ∧ label ∈ term.successors) ∧ progress = .running { s with frame := f })
      ∨ ∃ value result, s.frame.block.terminator = some (.ret value)
        ∧ image.result s.frame value = .ok result ∧ Image.leave s result = .ok progress := by
  unfold Image.terminate at h
  cases hterm : s.frame.block.terminator with
  | none =>
    rw [hterm] at h
    cases h
  | some t =>
    rw [hterm] at h
    cases t with
    | jump label =>
      obtain ⟨f, hjump, h⟩ := Except.bind_eq_ok.mp h
      exact .inl ⟨label, f, ⟨hjump, _, rfl, List.mem_singleton_self label⟩, (Except.ok.inj h).symm⟩
    | branch condition onTrue onFalse =>
      obtain ⟨n, -, h⟩ := Except.bind_eq_ok.mp h
      obtain ⟨f, hjump, h⟩ := Except.bind_eq_ok.mp h
      refine .inl ⟨_, f, ⟨hjump, _, rfl, ?_⟩, (Except.ok.inj h).symm⟩
      -- whichever way the branch goes, it is one of the two
      rw [Terminator.successors]
      split <;> simp
    | ret value =>
      cases value with
      | none => exact .inr ⟨none, none, rfl, rfl, h⟩
      | some v =>
        obtain ⟨x, hx, h⟩ := Except.bind_eq_ok.mp h
        refine .inr ⟨some v, some x, rfl, ?_, h⟩
        rw [Image.result, hx]
        rfl

theorem Image.advance_of_call {out : Option Nat} {target : String} {result : Ty}
    {arguments : List Value} {rest : List Instr}
    (hrest : s.frame.rest = .call out target result arguments :: rest)
    (h : image.call { s with frame := { s.frame with rest } } out target arguments = .ok t) :
    image.Advance s t := by
  unfold Image.call at h
  cases hfound : image.program.function? target with
  | none =>
    rw [hfound] at h
    cases h
  | some g =>
    rw [hfound] at h
    obtain ⟨xs, hxs, h⟩ := Except.bind_eq_ok.mp h
    -- the operands do not depend on the code that is left
    have hxs : image.values s.frame arguments = .ok xs := by
      rw [← hxs]
      exact (values_rest image s.frame rest arguments).symm
    cases hbody : g.body with
    | external =>
      rw [hbody] at h
      obtain ⟨⟨x, w⟩, hx, h⟩ := Except.bind_eq_ok.mp h
      obtain rfl := Except.ok.inj h
      exact .answers hrest hfound hbody hxs hx
    | blocks blocks =>
      rw [hbody] at h
      dsimp only at h
      split at h
      · cases h
      · obtain ⟨f, henter, h⟩ := Except.bind_eq_ok.mp h
        obtain rfl := Except.ok.inj h
        exact .enters hrest hfound hbody hxs henter

theorem Image.Moves.advance (h : image.Moves s t) : image.Advance s t := by
  unfold Image.Moves Image.step at h
  cases hrest : s.frame.rest with
  | nil =>
    rw [hrest] at h
    rcases Image.terminate_ok h with
      ⟨label, f, ⟨hjump, term, hterm, hlabel⟩, hprogress⟩ | ⟨value, result, hterm, hresult, h⟩
    · obtain rfl := Progress.running.inj hprogress
      exact .jumps hjump hrest hterm hlabel
    · rcases Image.leave_ok h with ⟨-, hprogress⟩ | ⟨caller, callers, x, hcallers, hx, hprogress⟩
      · cases hprogress
      · obtain rfl := Progress.running.inj hprogress
        exact .returns hrest hterm hresult hcallers hx
  | cons i rest =>
    rw [hrest] at h
    obtain ⟨u, hexec, h⟩ := Except.bind_eq_ok.mp h
    obtain rfl := Progress.running.inj (Except.ok.inj h)
    by_cases hcall : ∃ out target result arguments, i = .call out target result arguments
    · obtain ⟨out, target, result, arguments, rfl⟩ := hcall
      exact Image.advance_of_call hrest hexec
    · refine .executes hrest ?_ hexec
      intro out target result arguments hi
      exact hcall ⟨out, target, result, arguments, hi⟩

/-- `Image.step` halts by a return for which no call waits. -/
theorem Image.step_halted {result : Option Scalar} {w : World}
    (h : image.step s = .ok (.halted result w)) :
    s.frame.rest = [] ∧ s.callers = [] ∧ w = s.left ∧ ∃ value,
      s.frame.block.terminator = some (.ret value) ∧ image.result s.frame value = .ok result := by
  unfold Image.step at h
  cases hrest : s.frame.rest with
  | nil =>
    rw [hrest] at h
    rcases Image.terminate_ok h with ⟨label, f, -, hprogress⟩ | ⟨value, result', hterm, hresult, h⟩
    · cases hprogress
    · rcases Image.leave_ok h with ⟨hcallers, hprogress⟩ | ⟨caller, callers, x, -, -, hprogress⟩
      · obtain ⟨rfl, rfl⟩ := Progress.halted.inj hprogress
        exact ⟨rfl, hcallers, rfl, value, hterm, hresult⟩
      · cases hprogress
  | cons i rest =>
    rw [hrest] at h
    obtain ⟨u, -, h⟩ := Except.bind_eq_ok.mp h
    cases Except.ok.inj h

/-- An `Image.run` that succeeds comes to a state from which the machine halts. -/
theorem Image.exists_halted_of_run {budget fuel : Nat} {e : Execution}
    (h : image.run budget fuel s = .ok e) :
    ∃ t result w, ReflTransGen image.Moves s t ∧ image.step t = .ok (.halted result w)
      ∧ e = .ofResult result w := by
  induction fuel generalizing s with
  | zero => cases h
  | succ fuel ih =>
    rw [Image.run] at h
    cases hstep : image.step s with
    | error e =>
      rw [hstep] at h
      cases h
    | ok progress =>
      rw [hstep] at h
      cases progress with
      | halted result w => exact ⟨s, result, w, .refl, hstep, (Except.ok.inj h).symm⟩
      | running t =>
        obtain ⟨u, result, w, hmoves, hhalted, he⟩ := ih h
        exact ⟨u, result, w, .head hstep hmoves, hhalted, he⟩

end

/-! ## Starting and ending -/

theorem load_program {p : Program} {image : Image} {m : Memory} (h : load p = .ok (image, m)) :
    image.program = p := by
  obtain ⟨⟨memory, symbols⟩, -, h⟩ := Except.bind_eq_ok.mp h
  obtain ⟨rfl, -⟩ := Prod.mk.inj (Except.ok.inj h)
  rfl

/-- `start` takes the entry function, which the machine provides itself or enters. -/
theorem start_ok {p : Program} {w : World} {progress : Progress} (h : start p w = .ok progress) :
    ∃ g, p.function? entryName = some g
      ∧ ((g.body = .external ∧ ∃ x w', primitive w g.name [] = .ok (x, w')
          ∧ progress = .halted (some x) w')
        ∨ ∃ blocks f, g.body = .blocks blocks
          ∧ Frame.enter g.name blocks [] w.memory.size none = .ok f
          ∧ progress = .running { world := w, frame := f, callers := [] }) := by
  unfold start at h
  cases hfound : p.function? entryName with
  | none =>
    rw [hfound] at h
    cases h
  | some g =>
    rw [hfound] at h
    refine ⟨g, rfl, ?_⟩
    cases hbody : g.body with
    | external =>
      simp only [hbody] at h
      obtain ⟨⟨x, w'⟩, hx, h⟩ := Except.bind_eq_ok.mp h
      exact .inl ⟨rfl, x, w', hx, (Except.ok.inj h).symm⟩
    | blocks blocks =>
      simp only [hbody] at h
      obtain ⟨f, henter, h⟩ := Except.bind_eq_ok.mp h
      exact .inr ⟨blocks, f, rfl, henter, (Except.ok.inj h).symm⟩

/-- A `run` that succeeds has loaded its program. It halts at once if the machine provides the entry
function, and otherwise comes to a state from which the machine halts. -/
theorem run_ok {p : Program} {input : String} {fuel : Nat} {e : Execution}
    (h : run p input fuel = .ok e) :
    ∃ image m result w, load p = .ok (image, m) ∧ e = .ofResult result w
      ∧ (start p { memory := m, input := Text.words input } = .ok (.halted result w)
        ∨ ∃ s, Reaches p input image s ∧ image.step s = .ok (.halted result w)) := by
  cases hload : load p with
  | error fault =>
    rw [run_of_load_error hload] at h
    cases h
  | ok loaded =>
    obtain ⟨image, m⟩ := loaded
    cases hstart : start p { memory := m, input := Text.words input } with
    | error fault =>
      rw [run_of_start_error hload hstart] at h
      cases h
    | ok progress =>
      cases progress with
      | halted result w =>
        rw [run_of_halted hload hstart] at h
        exact ⟨image, m, result, w, rfl, (Except.ok.inj h).symm, .inl hstart⟩
      | running s =>
        rw [run_of_start hload hstart] at h
        obtain ⟨t, result, w, hmoves, hhalted, he⟩ := Image.exists_halted_of_run h
        exact ⟨image, m, result, w, rfl, he, .inr ⟨t, ⟨m, s, hload, hstart, hmoves⟩, hhalted⟩⟩

/-! ## Runs by computation -/

/-- The state that goes on, if the progress is `running`. -/
def running? : Except Fault Progress → Option State
  | .ok (.running s) => some s
  | _ => none

theorem running?_eq_some {r : Except Fault Progress} {s : State} :
    running? r = some s ↔ r = .ok (.running s) := by
  constructor
  · intro h
    unfold running? at h
    split at h
    · obtain rfl := Option.some.inj h
      rfl
    · cases h
  · rintro rfl
    rfl

theorem eq_ok_of_toOption {ε α : Type} {x : Except ε α} {a : α} (h : x.toOption = some a) :
    x = .ok a := by
  cases x with
  | error e => cases h
  | ok b =>
    obtain rfl := Option.some.inj h
    rfl

/-- The state that so many steps of `Image.step` lead to, if there are so many. -/
def Image.after? (image : Image) : Nat → State → Option State
  | 0, s => some s
  | steps + 1, s => (running? (image.step s)).bind (image.after? steps)

theorem Image.moves_of_after? {image : Image} {steps : Nat} {s t : State}
    (h : image.after? steps s = some t) : ReflTransGen image.Moves s t := by
  induction steps generalizing s with
  | zero =>
    obtain rfl := Option.some.inj h
    exact .refl
  | succ steps ih =>
    obtain ⟨u, hu, h⟩ := Option.bind_eq_some_iff.mp h
    exact .head (running?_eq_some.mp hu) (ih h)

/-- The state that a run of a program comes to in so many `steps`. -/
def reach? (p : Program) (input : String) (steps : Nat) : Option (Image × State) := do
  let loaded ← (load p).toOption
  let first ← running? (start p { memory := loaded.2, input := Text.words input })
  let s ← loaded.1.after? steps first
  pure (loaded.1, s)

theorem reaches_of_reach? {p : Program} {input : String} {steps : Nat} {image : Image} {s : State}
    (h : reach? p input steps = some (image, s)) : Reaches p input image s := by
  obtain ⟨loaded, hload, h⟩ := Option.bind_eq_some_iff.mp h
  obtain ⟨first, hfirst, h⟩ := Option.bind_eq_some_iff.mp h
  obtain ⟨t, ht, h⟩ := Option.bind_eq_some_iff.mp h
  obtain ⟨rfl, rfl⟩ := Prod.mk.inj (Option.some.inj h)
  exact ⟨loaded.2, first, eq_ok_of_toOption hload, running?_eq_some.mp hfirst,
    Image.moves_of_after? ht⟩

end Oberon.Machine
