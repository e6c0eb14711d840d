import Oberon.Code.Defect
import Oberon.Proofs.Temporaries
import Oberon.Proofs.TypedPrograms

/-!
# Well-formed programs

What the checker of programs decides, and that every compiled module passes it. The checker walks
over functions, blocks and instructions and carries the temporaries defined so far; each of its
passes is a fold of a step that records what it sees, so one lemma about such folds serves all
of them.
-/

namespace Oberon

open Code

/-! ## Well-formed programs -/

/-- The function that an instruction calls. -/
def Code.Instr.callee? : Instr → Option String
  | .call _ target .. => some target
  | _ => none

/-- A terminator that returns, if it returns, a value of the given type. -/
def Code.Terminator.Returns (result : Ty) : Terminator → Prop
  | .ret value => (value.map Value.ty).getD .void = result
  | .jump _ | .branch .. => True

/-- An instruction that calls, if it calls, a function of the program. -/
def Code.Instr.WellFormed (p : Program) (i : Instr) : Prop :=
  ∀ name ∈ i.callee?, ∃ g ∈ p.functions, g.name = name

/-- A terminator that leads to blocks of the function, or returns what the function returns. -/
structure Code.Terminator.WellFormed (f : Function) (t : Terminator) : Prop where
  targets : ∀ label ∈ t.successors, label < f.blocks.size
  returns : t.Returns f.result

/-- A block of code that is `WellFormed`, and that comes to an end. -/
structure Code.Block.WellFormed (p : Program) (f : Function) (b : Block) : Prop where
  code : ∀ i ∈ b.instrs, i.WellFormed p
  terminator : ∃ t, b.terminator = some t ∧ t.WellFormed f

/-- A function that is only declared or has blocks, all of them well formed. -/
structure Code.Function.WellFormed (p : Program) (f : Function) : Prop where
  nonempty : f.isExternal = false → f.blocks.size ≠ 0
  blocks : ∀ b ∈ f.blocks, b.WellFormed p f

/-- A program of functions that are `WellFormed`, and that define every temporary once. -/
structure Code.Program.WellFormed (p : Program) : Prop where
  functions : ∀ f ∈ p.functions, f.WellFormed p
  temporaries : (p.functions.flatMap Function.outputs).Nodup

/-! ## The checker -/

section

variable {α β ε : Type}

/-- A check that adds what it sees to the temporaries defined before, and accepts if none of them
is new twice and the condition holds. -/
def Records (step : List Nat → α → Except Defect (List Nat)) (outputs : α → List Nat)
    (condition : α → Prop) : Prop :=
  ∀ ⦃defined⦄, defined.Nodup → ∀ a result, step defined a = .ok result
    ↔ result = (outputs a).reverse ++ defined ∧ result.Nodup ∧ condition a

/-- Checks in a row are `Records` of what each of them records. -/
theorem Records.foldlM {step : List Nat → α → Except Defect (List Nat)} {outputs : α → List Nat}
    {condition : α → Prop} (h : Records step outputs condition) :
    Records (fun defined l => List.foldlM step defined l) (List.flatMap outputs)
      (∀ a ∈ ·, condition a) := by
  intro defined hnodup l result
  induction l generalizing defined with
  | nil =>
    constructor
    · rintro ⟨⟩
      exact ⟨rfl, hnodup, List.forall_mem_nil _⟩
    · rintro ⟨rfl, -⟩
      rfl
  | cons a rest ih =>
    -- each check puts its outputs in front, so that they come out reversed
    have hassoc (D : List Nat) : (rest.flatMap outputs).reverse ++ ((outputs a).reverse ++ D)
        = ((a :: rest).flatMap outputs).reverse ++ D := by simp
    dsimp only
    rw [List.foldlM_cons, Except.bind_eq_ok]
    constructor
    · rintro ⟨D, hD, hrest⟩
      obtain ⟨rfl, hnodup', ha⟩ := (h hnodup _ _).mp hD
      obtain ⟨rfl, hresult, hall⟩ := (ih hnodup').mp hrest
      exact ⟨hassoc _, hresult, List.forall_mem_cons.mpr ⟨ha, hall⟩⟩
    · rintro ⟨rfl, hresult, hall⟩
      obtain ⟨ha, hall⟩ := List.forall_mem_cons.mp hall
      rw [← hassoc] at hresult
      have hnodup' : ((outputs a).reverse ++ defined).Nodup :=
        hresult.sublist (List.sublist_append_right _ _)
      exact ⟨_, (h hnodup _ _).mpr ⟨rfl, hnodup', ha⟩,
        (ih hnodup').mpr ⟨(hassoc _).symm, hassoc defined ▸ hresult, hall⟩⟩

end

namespace Code.Program

variable {p : Program} {f : Function}

theorem function?_isNone_eq_false {name : String} :
    (p.function? name).isNone = false ↔ ∃ g ∈ p.functions, g.name = name := by
  rw [function?, Option.isNone_eq_false_iff, List.find?_isSome]
  simp only [beq_iff_eq]

theorem records_checkInstr :
    Records (p.checkInstr f) (·.output.toList) (·.WellFormed p) := by
  intro defined hnodup i result
  -- apart from its output an instruction is only checked for what it calls
  have hcallee (D : List Nat) : (match i with
      | .call _ target .. =>
        if (p.function? target).isNone then throw (.unknownCallee f.name target) else pure D
      | _ => pure D : Except Defect (List Nat)) = .ok result ↔ D = result ∧ i.WellFormed p := by
    have hnone (h : i.callee? = none) : i.WellFormed p := fun name hname => by simp [h] at hname
    cases i with
    | call out target ty arguments =>
      have hcalled : (Instr.call out target ty arguments).WellFormed p
          ↔ (p.function? target).isNone = false := by
        rw [function?_isNone_eq_false]
        simp [Instr.WellFormed, Instr.callee?]
      rw [hcalled]
      cases h : (p.function? target).isNone <;>
        simp [h, pure, Except.pure, throw, throwThe, MonadExceptOf.throw]
    | _ => simp [pure, Except.pure, hnone rfl]
  unfold checkInstr
  cases hout : i.output with
  | none =>
    refine (hcallee defined).trans ⟨?_, fun ⟨hresult, _, hi⟩ => ⟨?_, hi⟩⟩
    · rintro ⟨rfl, hi⟩
      exact ⟨by simp [hout], hnodup, hi⟩
    · simpa [hout] using hresult.symm
  | some temp =>
    dsimp only
    by_cases hmem : temp ∈ defined
    · rw [if_pos (List.contains_iff_mem.mpr hmem)]
      refine ⟨fun h => (nomatch h), ?_⟩
      rintro ⟨rfl, hresult, -⟩
      simp [hout, hmem] at hresult
    · rw [if_neg (mt List.contains_iff_mem.mp hmem)]
      refine (hcallee (temp :: defined)).trans ⟨?_, fun ⟨hresult, _, hi⟩ => ⟨?_, hi⟩⟩
      · rintro ⟨rfl, hi⟩
        exact ⟨by simp [hout], List.nodup_cons.mpr ⟨hmem, hnodup⟩, hi⟩
      · simpa [hout] using hresult.symm

theorem checkInstrs_eq_foldlM (defined : List Nat) (code : List Instr) :
    p.checkInstrs f defined code = code.foldlM (p.checkInstr f) defined := by
  induction code generalizing defined with
  | nil => rfl
  | cons i rest ih =>
    rw [checkInstrs, List.foldlM_cons]
    exact congrArg _ (funext ih)

theorem checkTerminator_eq_ok {b : Block} {u : Unit} :
    checkTerminator f b = .ok u ↔ ∃ t, b.terminator = some t ∧ t.WellFormed f := by
  unfold checkTerminator
  cases b.terminator with
  | none => exact ⟨fun h => (nomatch h), fun ⟨_, h, _⟩ => (nomatch h)⟩
  | some t =>
    simp only [Option.some.injEq, exists_eq_left']
    by_cases htargets : ∀ label ∈ t.successors, label < f.blocks.size
    · rw [if_neg (by simpa using htargets)]
      cases t with
      | jump target => exact ⟨fun _ => ⟨htargets, trivial⟩, fun _ => rfl⟩
      | branch condition onTrue onFalse => exact ⟨fun _ => ⟨htargets, trivial⟩, fun _ => rfl⟩
      | ret value =>
        by_cases hty : (value.map Value.ty).getD .void = f.result
        · exact ⟨fun _ => ⟨htargets, hty⟩, fun _ => by simp only [if_pos hty]; rfl⟩
        · refine ⟨fun h => ?_, fun h => absurd h.returns hty⟩
          simp only [if_neg hty] at h
          exact nomatch h
    · rw [if_pos (by simpa using htargets)]
      exact ⟨fun h => (nomatch h), fun h => absurd h.targets htargets⟩

/-- Checks one block, by `checkInstrs` and `checkTerminator`. -/
def checkBlock (p : Program) (f : Function) (defined : List Nat) (b : Block) :
    Except Defect (List Nat) := do
  let defined ← p.checkInstrs f defined b.instrs
  checkTerminator f b
  pure defined

theorem records_checkBlock : Records (p.checkBlock f) Block.outputs (·.WellFormed p f) := by
  intro defined hnodup b result
  have houtputs : b.instrs.flatMap (·.output.toList) = b.outputs :=
    (List.filterMap_eq_flatMap_toList ..).symm
  have hcode (D : List Nat) : p.checkInstrs f defined b.instrs = .ok D
      ↔ D = b.outputs.reverse ++ defined ∧ D.Nodup ∧ ∀ i ∈ b.instrs, i.WellFormed p := by
    rw [checkInstrs_eq_foldlM, ← houtputs]
    exact records_checkInstr.foldlM hnodup _ _
  simp only [checkBlock, Except.bind_eq_ok, checkTerminator_eq_ok, hcode]
  constructor
  · rintro ⟨D, ⟨hD, hnodup', hall⟩, _, hterm, hresult⟩
    obtain rfl := Except.ok.inj hresult
    exact ⟨hD, hnodup', hall, hterm⟩
  · rintro ⟨hresult, hnodup', hb⟩
    exact ⟨result, ⟨hresult, hnodup', hb.code⟩, (), hb.terminator, rfl⟩

theorem checkBlocks_eq_foldlM (defined : List Nat) (blocks : List Block) :
    p.checkBlocks f defined blocks = blocks.foldlM (p.checkBlock f) defined := by
  induction blocks generalizing defined with
  | nil => rfl
  | cons b rest ih =>
    rw [checkBlocks, List.foldlM_cons, checkBlock]
    simp only [bind_assoc, pure_bind, ih]

theorem records_checkFunction : Records p.checkFunction Function.outputs (·.WellFormed p) := by
  intro defined hnodup f result
  cases hbody : f.body with
  | external =>
    have hblocks : f.blocks = #[] := by rw [Function.blocks, hbody]
    have houtputs : f.outputs = [] := by rw [Function.outputs, hblocks]; rfl
    have hf : f.WellFormed p := ⟨by simp [Function.isExternal, hbody], by simp [hblocks]⟩
    rw [checkFunction, hbody, houtputs]
    exact ⟨fun h => Except.ok.inj h ▸ ⟨rfl, hnodup, hf⟩, fun h => congrArg Except.ok h.1.symm⟩
  | blocks blocks =>
    have hblocks : f.blocks = blocks := by rw [Function.blocks, hbody]
    have hf : f.WellFormed p ↔ blocks ≠ #[] ∧ ∀ b ∈ blocks.toList, b.WellFormed p f := by
      constructor
      · rintro ⟨hne, hall⟩
        rw [hblocks] at hne hall
        refine ⟨?_, fun b hb => hall b (Array.mem_toList_iff.mp hb)⟩
        rintro rfl
        exact hne (by rw [Function.isExternal, hbody]) rfl
      · rintro ⟨hne, hall⟩
        refine ⟨fun _ => ?_, fun b hb => hall b (Array.mem_toList_iff.mpr (hblocks ▸ hb))⟩
        rw [hblocks]
        exact mt Array.eq_empty_of_size_eq_zero hne
    have hcode : p.checkBlocks f defined blocks.toList = .ok result
        ↔ result = f.outputs.reverse ++ defined ∧ result.Nodup
          ∧ ∀ b ∈ blocks.toList, b.WellFormed p f := by
      rw [checkBlocks_eq_foldlM, Function.outputs, hblocks]
      exact records_checkBlock.foldlM hnodup _ _
    simp only [checkFunction, hbody, hf]
    by_cases hempty : blocks = #[]
    · rw [if_pos (Array.isEmpty_iff.mpr hempty)]
      exact ⟨fun h => (nomatch h), fun h => absurd hempty h.2.2.1⟩
    · rw [if_neg (mt Array.isEmpty_iff.mp hempty), hcode]
      simp only [ne_eq, hempty, not_false_eq_true, true_and]

theorem checkFunctions_eq_foldlM (defined : List Nat) (functions : List Function) :
    p.checkFunctions defined functions = functions.foldlM p.checkFunction defined := by
  induction functions generalizing defined with
  | nil => rfl
  | cons f rest ih =>
    rw [checkFunctions, List.foldlM_cons]
    exact congrArg _ (funext ih)

/-- `Program.check` accepts exactly the programs that are `WellFormed`. -/
theorem check_eq_ok : p.check = .ok () ↔ p.WellFormed := by
  have hfold (D : List Nat) := records_checkFunction (p := p).foldlM List.nodup_nil p.functions D
  simp only [← checkFunctions_eq_foldlM, List.append_nil] at hfold
  have hcheck : p.check = .ok () ↔ ∃ D, p.checkFunctions [] p.functions = .ok D := by
    rw [check]
    cases p.checkFunctions [] p.functions with
    | error e => exact ⟨fun h => (nomatch h), fun ⟨_, h⟩ => (nomatch h)⟩
    | ok D => exact ⟨fun _ => ⟨D, rfl⟩, fun _ => rfl⟩
  rw [hcheck]
  constructor
  · rintro ⟨D, hD⟩
    obtain ⟨rfl, hnodup, hall⟩ := (hfold D).mp hD
    exact ⟨hall, List.nodup_reverse.mp hnodup⟩
  · intro h
    exact ⟨_, (hfold _).mpr ⟨rfl, List.nodup_reverse.mpr h.temporaries, h.functions⟩⟩

end Code.Program

/-! ## Compiled programs -/

/-- The `callee?` of typed code is a procedure that is known, or what the machine provides. -/
theorem Code.Instr.Typed.callee {Γ : Context} {i : Instr} {name : String} (h : i.Typed Γ)
    (hname : name ∈ i.callee?) :
    name ∈ Module.primitives.map (·.name) ++ Γ.signatures.map (·.symbol) := by
  cases h with
  | call hs hr ha =>
    obtain rfl := Option.some.inj hname
    exact List.mem_append_right _ (List.mem_map_of_mem hs)
  | callValue hs hr ha =>
    obtain rfl := Option.some.inj hname
    exact List.mem_append_right _ (List.mem_map_of_mem hs)
  | print hc hb hf he hv =>
    obtain rfl := Option.some.inj hname
    exact List.mem_append_left _ (by decide)
  | newline hc =>
    obtain rfl := Option.some.inj hname
    exact List.mem_append_left _ (by decide)
  | read hc hb hf ha =>
    obtain rfl := Option.some.inj hname
    exact List.mem_append_left _ (by decide)
  | _ => exact nomatch hname

/-- The `successors` of typed terminators are blocks that are known. -/
theorem Code.Terminator.Typed.successors_lt {Γ : Context} {t : Terminator} (h : t.Typed Γ) :
    ∀ label ∈ t.successors, label < Γ.blocks.length := by
  intro label hlabel
  obtain ⟨H, hl, -⟩ := h.accepts label hlabel
  exact (List.getElem?_eq_some_iff.mp hl).1

theorem Code.Terminator.Typed.returns {Γ : Context} {t : Terminator} (h : t.Typed Γ) :
    t.Returns Γ.result := by
  cases h with
  | jump h => exact trivial
  | branch hc ht hf => exact trivial
  | ret h => exact h.symm
  | retValue h => exact h.ty_eq

/-- A function that `Implements` a signature is `WellFormed` where all that it may call exists. -/
theorem Code.Function.Implements.wellFormed {L : Linkage} {sig : Signature} {f : Function}
    {p : Program} (h : f.Implements L sig)
    (hnames : Module.primitives.map (·.name) ++ L.signatures.map (·.symbol)
      ⊆ p.functions.map (·.name)) : f.WellFormed p := by
  obtain ⟨blocks, expected, hbody, -, htyped, hclosed⟩ := h.body
  have hblocks : f.blocks = blocks := by rw [Function.blocks, hbody]
  have hsize : blocks.size = expected.length := htyped.size
  refine ⟨fun _ => ?_, fun b hb => ?_⟩
  · rw [hblocks, hsize]
    exact ((List.getElem?_eq_some_iff.mp htyped.entry).1).ne'
  · rw [hblocks] at hb
    obtain ⟨label, hlabel, rfl⟩ := Array.mem_iff_getElem.mp hb
    have hexpected : expected[label]? = some (expected[label]) :=
      List.getElem?_eq_getElem (hsize ▸ hlabel)
    have hblock := htyped.block hexpected (Array.getElem?_eq_getElem hlabel)
    refine ⟨fun i hi name hname => ?_, ?_⟩
    · obtain ⟨H, hi⟩ := hblock.code.exists_typed hi
      exact List.mem_map.mp (hnames (hi.callee hname))
    · obtain ⟨t, ht⟩ := Option.isSome_iff_exists.mp (hclosed _ hb)
      have htype := hblock.terminator t ht
      refine ⟨t, ht, fun target htarget => ?_, h.result ▸ htype.returns⟩
      rw [hblocks, hsize]
      exact htype.successors_lt target htarget

theorem Code.Program.Typed.wellFormed {signatures : List Signature} {p : Program}
    (h : p.Typed signatures) : ∀ f ∈ p.functions, f.WellFormed p := by
  obtain ⟨hprimitives, hsymbols⟩ := List.append_subset.mp h.names
  have hnames := List.append_subset.mpr ⟨hprimitives, (List.cons_subset.mp hsymbols).2⟩
  intro f hf
  rcases h.functions f hf with hprimitive | ⟨sig, -, himpl⟩
  · have hexternal : ∀ f ∈ Module.primitives, f.body = .external := by decide
    have hbody := hexternal f hprimitive
    exact ⟨by simp [Function.isExternal, hbody], by simp [Function.blocks, hbody]⟩
  · exact himpl.wellFormed hnames

/-- Every program that compiles passes the checker, which accepts well-formed programs only. -/
theorem Module.check_compile {m : Module} {platform : Platform} {p : Program}
    (h : m.compile platform = .ok p) : p.check = .ok () ∧ p.WellFormed := by
  have htyped := Module.typed_of_compile h
  have hwellFormed : p.WellFormed := ⟨htyped.wellFormed, Module.nodup_outputs_of_compile h⟩
  exact ⟨Program.check_eq_ok.mpr hwellFormed, hwellFormed⟩

/-- A module with a procedure declared twice, one inside of another, control structures without
branches, and code behind jumps. -/
def Module.detours : Module :=
  let one : Expr := .literal (.integer 1)
  let y : Expr := .designator "y" []
  let inner : Procedure := .mk "Q" [] none {} [.ifThen [] none, .call "P" [y]]
  let outer : Procedure := .mk "P" [⟨true, ["x"], .integer⟩] (some .integer)
    { procedures := [inner] }
    [.whileDo (.literal (.boolean true)) [.breakLoop, .call "Q" []], .returnWith (some one),
      .returnWith none]
  { name := "M"
    declarations := { vars := [(["y"], .integer)], procedures := [.mk "P" [] none {} [], outer] }
    body := some [.caseOf one [] none, .returnWith none,
      .call "WRITE" [.call "P" [y]]] }

theorem Module.check_compile_detours :
    ∃ p, Module.detours.compile .native = .ok p ∧ p.check = .ok () ∧ p.WellFormed := by
  have hok : (Module.detours.compile .native).isOk = true := by decide +kernel
  obtain ⟨p, hp⟩ := Except.exists_of_isOk hok
  exact ⟨p, hp, Module.check_compile hp⟩

end Oberon
