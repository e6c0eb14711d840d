import Oberon.Proofs.TypedPrograms

/-!
# Disciplined code

What can be said of the code of a program without any typing of it: every operand stands for
something that exists, with the type it is annotated with; a temporary is defined before it is
used, whatever way leads there; instructions get operands of the types that they work on; and all
types have a size. A module that compiles gives disciplined code.
-/

namespace Oberon

open Code

/-! ## Operands and definitions -/

/-- The operands of an instruction. -/
def Code.Instr.operands : Instr → List Value
  | .alloca .. => []
  | .load _ _ address => [address]
  | .store value address => [value, address]
  | .binary _ _ lhs rhs | .icmp _ _ lhs rhs | .fcmp _ _ lhs rhs => [lhs, rhs]
  | .fneg _ value | .cast _ _ value _ => [value]
  | .element _ _ address indices => address :: indices
  | .call _ _ _ arguments => arguments
  | .copy destination source _ => [destination, source]

/-- The operands of a terminator. -/
def Code.Terminator.operands : Terminator → List Value
  | .jump _ | .ret none => []
  | .branch condition _ _ => [condition]
  | .ret (some value) => [value]

/-- The operands of a block. -/
def Code.Block.operands (b : Block) : List Value :=
  b.instrs.flatMap Instr.operands ++ b.terminator.toList.flatMap Terminator.operands

/-- The type of the result of an instruction. -/
def Code.Instr.resultType : Instr → Ty
  | .alloca .. | .element .. => .ptr
  | .load _ ty _ => ty
  | .binary _ _ lhs _ => lhs.ty
  | .fneg .. => .real
  | .icmp .. | .fcmp .. => .boolean
  | .cast _ _ _ into => into
  | .call _ _ result _ => result
  | .store .. | .copy .. => .void

/-- An instruction whose `output` is a temporary, of the type `resultType`. -/
def Code.Instr.Defines (i : Instr) (index : Nat) (ty : Ty) : Prop :=
  i.output = some index ∧ i.resultType = ty

/-- The ways through a function: a block can be entered after the instructions `before`, which
are those of the blocks on the way. -/
inductive Code.Function.Enters (f : Function) : List Instr → Nat → Prop
  | entry : Enters f [] 0
  | next {before : List Instr} {label target : Nat} {b : Block} (h : Enters f before label)
    (hb : f.blocks[label]? = some b) (ht : target ∈ f.successors label) :
    Enters f (before ++ b.instrs) target

/-! ## Types -/

/-- A type of dimensions from 1 on whose `size?` has at most 64 bits. -/
def Code.Ty.IsSized (ty : Ty) : Prop :=
  (∀ length ∈ ty.dimensions, 1 ≤ length) ∧ ty.size?.isSome

instance (ty : Ty) : Decidable ty.IsSized :=
  inferInstanceAs (Decidable (_ ∧ _))

/-- The types that an instruction names. -/
def Code.Instr.types : Instr → List Ty
  | .alloca _ ty | .load _ ty _ | .cast _ _ _ ty | .element _ ty _ _ | .call _ _ ty _ => [ty]
  | .store .. | .binary .. | .fneg .. | .icmp .. | .fcmp .. | .copy .. => []

/-- All types in a function. -/
def Code.Function.types (f : Function) : List Ty :=
  f.parameters ++ f.result :: f.blocks.toList.flatMap fun b =>
    b.instrs.flatMap Instr.types ++ b.operands.map Value.ty

/-- An instruction whose operands are of the types it works on. -/
def Code.Instr.WellTyped : Instr → Prop
  | .load _ _ address | .store _ address => address.ty = .ptr
  | .binary _ op lhs rhs =>
    if op.isReal then lhs.ty = .real ∧ rhs.ty = .real
    else ∃ bits, lhs.ty = .int bits ∧ rhs.ty = .int bits
  | .fneg _ value => value.ty = .real
  | .icmp _ _ lhs rhs => ∃ bits, lhs.ty = .int bits ∧ rhs.ty = .int bits
  | .fcmp _ _ lhs rhs => lhs.ty = .real ∧ rhs.ty = .real
  | .cast _ .sext value into => ∃ a b, value.ty = .int a ∧ into = .int b ∧ a < b
  | .cast _ .trunc value into => ∃ a b, value.ty = .int a ∧ into = .int b ∧ b < a
  | .cast _ .sitofp value into => (∃ a, value.ty = .int a) ∧ into = .real
  | .cast _ .fptosi value into => value.ty = .real ∧ ∃ b, into = .int b
  | .element _ _ address indices => address.ty = .ptr ∧ ∀ index ∈ indices, index.ty = .integer
  | .copy destination source _ => destination.ty = .ptr ∧ source.ty = .ptr
  | .alloca .. | .call .. => True

/-- A function of a program whose operands exist and are defined before they are used, whose
instructions are `WellTyped`, and whose types all have a size. -/
structure Code.Function.Disciplined (p : Program) (f : Function) : Prop where
  /-- Every temporary is defined in the function, with the type that the operand has. -/
  defined : ∀ b ∈ f.blocks, ∀ index ty, .temp index ty ∈ b.operands →
    ∃ c ∈ f.blocks, ∃ i ∈ c.instrs, i.Defines index ty
  /-- On every way to an instruction its temporaries are defined before it. -/
  before : ∀ way label b, f.Enters way label → f.blocks[label]? = some b →
    ∀ done i rest, b.instrs = done ++ i :: rest → ∀ index ty, .temp index ty ∈ i.operands →
      ∃ j ∈ way ++ done, j.Defines index ty
  /-- On every way to the end of a block the temporaries of its terminator are defined before it. -/
  beforeEnd : ∀ way label b, f.Enters way label → f.blocks[label]? = some b →
    ∀ t ∈ b.terminator, ∀ index ty, .temp index ty ∈ t.operands →
      ∃ j ∈ way ++ b.instrs, j.Defines index ty
  parameters : ∀ b ∈ f.blocks, ∀ index ty, .param index ty ∈ b.operands →
    f.parameters[index]? = some ty
  globals : ∀ b ∈ f.blocks, ∀ name, .global name ∈ b.operands → name ∈ p.globals.map (·.name)
  strings : ∀ b ∈ f.blocks, ∀ name, .string name ∈ b.operands → name ∈ p.strings.map (·.name)
  instrs : ∀ b ∈ f.blocks, ∀ i ∈ b.instrs, i.WellTyped
  conditions : ∀ b ∈ f.blocks, ∀ condition onTrue onFalse,
    b.terminator = some (.branch condition onTrue onFalse) → condition.ty = .boolean
  types : ∀ ty ∈ f.types, ty.IsSized

/-! ## Typed code is disciplined -/

theorem Code.Ty.IsProper.isSized {ty : Ty} (h : ty.IsProper) : ty.IsSized := by
  refine ⟨?_, h.sized⟩
  have hshaped := h.shaped
  clear h
  induction ty with
  | array length element ih =>
    intro n hn
    rcases List.mem_cons.mp hn with rfl | hn
    · exact hshaped.1
    · exact ih hshaped.2.2 n hn
  | void => exact hshaped.elim
  | int bits => exact List.forall_mem_nil _
  | real => exact List.forall_mem_nil _
  | ptr => exact List.forall_mem_nil _

theorem Code.Ty.IsResult.isSized {ty : Ty} (h : ty.IsResult) : ty.IsSized := by
  rcases h with rfl | h
  · exact ⟨List.forall_mem_nil _, rfl⟩
  · exact h.isProper.isSized

theorem Kind.IsProper.isSized_ty {k : Kind} (h : k.IsProper) : k.ty.IsSized := by
  cases k with
  | value ty => exact (Ty.IsScalar.isProper h).isSized
  | place ty => exact ⟨List.forall_mem_nil _, rfl⟩

/-- What is listed in `defines` is what the instruction `Defines`. -/
theorem Code.Instr.defines_of_mem {i : Instr} {x : Nat × Kind} (h : x ∈ i.defines) :
    i.Defines x.1 x.2.ty := by
  cases i with
  | call out target result arguments =>
    cases out with
    | none => exact nomatch h
    | some out =>
      obtain rfl := List.mem_singleton.mp h
      exact ⟨rfl, rfl⟩
  | store value address => exact nomatch h
  | copy destination source bytes => exact nomatch h
  | _ =>
    obtain rfl := List.mem_singleton.mp h
    exact ⟨rfl, rfl⟩

/-- Each of the `definitions` of code is made by one of its instructions. -/
theorem exists_defines {code : List Instr} {x : Nat × Kind} (h : x ∈ definitions code) :
    ∃ i ∈ code, i.Defines x.1 x.2.ty := by
  obtain ⟨i, hi, hx⟩ := List.mem_flatMap.mp h
  exact ⟨i, hi, Instr.defines_of_mem hx⟩

section

variable {Γ : Context}

/-- All `operands` of a typed instruction are of some kind. -/
theorem Code.Instr.Typed.operand {i : Instr} (h : i.Typed Γ) :
    ∀ v ∈ i.operands, ∃ k, HasKind Γ v k := by
  have one {v : Value} {k : Kind} (hv : HasKind Γ v k) : ∀ w ∈ [v], ∃ k, HasKind Γ w k :=
    List.forall_mem_singleton.mpr ⟨k, hv⟩
  have two {v w : Value} {k l : Kind} (hv : HasKind Γ v k) (hw : HasKind Γ w l) :
      ∀ u ∈ [v, w], ∃ k, HasKind Γ u k :=
    List.forall_mem_cons.mpr ⟨⟨k, hv⟩, one hw⟩
  have arguments {values : List Value} {parameters : List Parameter}
      (h : List.Forall₂ (fun v p => HasKind Γ v p.kind) values parameters) :
      ∀ v ∈ values, ∃ k, HasKind Γ v k := by
    induction h with
    | nil => exact List.forall_mem_nil _
    | cons hv _ ih => exact List.forall_mem_cons.mpr ⟨⟨_, hv⟩, ih⟩
  cases h with
  | alloca h => exact List.forall_mem_nil _
  | load hty ha => exact one ha
  | store hv ha => exact two hv ha
  | integerBinary hop hl hr => exact two hl hr
  | realBinary hop hl hr => exact two hl hr
  | fneg hv => exact one hv
  | icmp hl hr => exact two hl hr
  | fcmp hl hr => exact two hl hr
  | sext hv hlt hb => exact one hv
  | trunc hv hlt hb => exact one hv
  | sitofp hv => exact one hv
  | fptosi hv hb => exact one hv
  -- the index before those of the program is the constant zero
  | element ha hs hi =>
    refine List.forall_mem_cons.mpr ⟨⟨_, ha⟩, List.forall_mem_cons.mpr ⟨?_, ?_⟩⟩
    · exact ⟨_, .int 0 ⟨by decide, by decide⟩⟩
    · exact fun v hv => ⟨_, hi v hv⟩
  | call hs hr ha => exact arguments ha
  | callValue hs hr ha => exact arguments ha
  | print hc hb hf he hv => exact two (.string hc) hv
  | newline hc => exact one (.string hc)
  | read hc hb hf ha => exact two (.string hc) ha
  | copy hd hs hb => exact two hd hs

/-- All `operands` of a typed terminator are of some kind. -/
theorem Code.Terminator.Typed.operand {t : Terminator} (h : t.Typed Γ) :
    ∀ v ∈ t.operands, ∃ k, HasKind Γ v k := by
  cases h with
  | jump h => exact List.forall_mem_nil _
  | branch hc ht hf => exact List.forall_mem_singleton.mpr ⟨_, hc⟩
  | ret h => exact List.forall_mem_nil _
  | retValue h => exact List.forall_mem_singleton.mpr ⟨_, h⟩

/-- A typed instruction is `WellTyped`. -/
theorem Code.Instr.Typed.wellTyped {i : Instr} (h : i.Typed Γ) : i.WellTyped := by
  cases h with
  | alloca h => exact trivial
  | load hty ha => exact ha.ty_eq
  | store hv ha => exact ha.ty_eq
  | integerBinary hop hl hr =>
    simp only [WellTyped, hop]
    exact ⟨_, hl.ty_eq, hr.ty_eq⟩
  | realBinary hop hl hr =>
    simp only [WellTyped, hop, if_true]
    exact ⟨hl.ty_eq, hr.ty_eq⟩
  | fneg hv => exact hv.ty_eq
  | icmp hl hr => exact ⟨_, hl.ty_eq, hr.ty_eq⟩
  | fcmp hl hr => exact ⟨hl.ty_eq, hr.ty_eq⟩
  | sext hv hlt hb => exact ⟨_, _, hv.ty_eq, rfl, hlt⟩
  | trunc hv hlt hb => exact ⟨_, _, hv.ty_eq, rfl, hlt⟩
  | sitofp hv => exact ⟨⟨_, hv.ty_eq⟩, rfl⟩
  | fptosi hv hb => exact ⟨hv.ty_eq, _, rfl⟩
  | element ha hs hi =>
    exact ⟨ha.ty_eq, List.forall_mem_cons.mpr ⟨rfl, fun v hv => (hi v hv).ty_eq⟩⟩
  | call hs hr ha => exact trivial
  | callValue hs hr ha => exact trivial
  | print hc hb hf he hv => exact trivial
  | newline hc => exact trivial
  | read hc hb hf ha => exact trivial
  | copy hd hs hb => exact ⟨hd.ty_eq, hs.ty_eq⟩

/-- All `types` in a typed instruction have sizes, if the context is proper. -/
theorem Code.Instr.Typed.types {i : Instr} (h : i.Typed Γ) (hΓ : Γ.IsProper) :
    ∀ ty ∈ i.types, ty.IsSized := by
  have one {ty : Ty} (h : ty.IsSized) : ∀ found ∈ [ty], found.IsSized :=
    List.forall_mem_singleton.mpr h
  have hstatus : Ty.status.IsSized := ⟨List.forall_mem_nil _, rfl⟩
  cases h with
  | alloca h => exact one h.isSized
  | load hty ha => exact one hty.isProper.isSized
  | sext hv hlt hb => exact one hb.isProper.isSized
  | trunc hv hlt hb => exact one hb.isProper.isSized
  | sitofp hv => exact one ⟨List.forall_mem_nil _, rfl⟩
  | fptosi hv hb => exact one hb.isProper.isSized
  | element ha hs hi => exact one (Ty.IsProper.isSized (ha.isProper hΓ))
  | call hs hr ha => exact one (hΓ.linkage.signatures _ hs).result.isSized
  | callValue hs hr ha => exact one (hΓ.linkage.signatures _ hs).result.isSized
  | print hc hb hf he hv => exact one hstatus
  | newline hc => exact one hstatus
  | read hc hb hf ha => exact one hstatus
  | store hv ha => exact List.forall_mem_nil _
  | integerBinary hop hl hr => exact List.forall_mem_nil _
  | realBinary hop hl hr => exact List.forall_mem_nil _
  | fneg hv => exact List.forall_mem_nil _
  | icmp hl hr => exact List.forall_mem_nil _
  | fcmp hl hr => exact List.forall_mem_nil _
  | copy hd hs hb => exact List.forall_mem_nil _

/-- An instruction of `CodeTyped` code is typed where it stands. -/
theorem CodeTyped.typed_at {H : Held} {done rest : List Instr} {i : Instr}
    (h : CodeTyped Γ H (done ++ i :: rest)) : i.Typed (Γ.withHeld (H ++ definitions done)) :=
  (append_iff.mp h).2.1

/-- What is defined behind `CodeTyped` code is of proper kinds if what was defined before it is. -/
theorem CodeTyped.isProper {H : Held} {code : List Instr} (h : CodeTyped Γ H code)
    (hH : (Γ.withHeld H).IsProper) : (Γ.withHeld (H ++ definitions code)).IsProper := by
  induction code generalizing H with
  | nil => rwa [definitions, List.flatMap_nil, List.append_nil]
  | cons i rest ih =>
    obtain ⟨hi, -, hrest⟩ := h
    have hnext : (Γ.withHeld (H ++ i.defines)).IsProper :=
      ⟨hH.linkage, hH.parameters, hH.result, hH.blocks,
        List.forall_mem_append.mpr ⟨hH.held, hi.isProper hH⟩⟩
    rw [definitions, List.flatMap_cons, ← List.append_assoc]
    exact ih hrest hnext

/-- All `operands` of a typed block are of some kind at its end. -/
theorem Code.Block.Typed.operand {b : Block} {H : Held} (h : b.Typed Γ H) :
    ∀ v ∈ b.operands, ∃ k, HasKind (Γ.withHeld (b.held H)) v k := by
  intro v hv
  rcases List.mem_append.mp hv with hv | hv
  · obtain ⟨i, hi, hv⟩ := List.mem_flatMap.mp hv
    obtain ⟨done, rest, hcode⟩ := List.append_of_mem hi
    have hi : i.Typed (Γ.withHeld (H ++ definitions done)) := (hcode ▸ h.code).typed_at
    obtain ⟨k, hk⟩ := hi.operand v hv
    refine ⟨k, hk.mono (Context.withHeld_le_withHeld le_rfl ?_)⟩
    -- what is defined so far is defined at the end
    rw [Block.held, hcode, definitions_append]
    intro x hx
    rcases List.mem_append.mp hx with hx | hx
    · exact List.mem_append_left _ hx
    · exact List.mem_append_right _ (List.mem_append_left _ hx)
  · obtain ⟨t, ht, hv⟩ := List.mem_flatMap.mp hv
    exact (h.terminator t (Option.mem_toList.mp ht)).operand v hv

/-- All types in a typed block have sizes, by `IsSized`. -/
theorem Code.Block.Typed.isSized {b : Block} {H : Held} (h : b.Typed Γ H)
    (hH : (Γ.withHeld H).IsProper) :
    ∀ ty ∈ b.instrs.flatMap Instr.types ++ b.operands.map Value.ty, ty.IsSized := by
  refine List.forall_mem_append.mpr ⟨?_, List.forall_mem_map.mpr ?_⟩
  · intro ty hty
    obtain ⟨i, hi, hty⟩ := List.mem_flatMap.mp hty
    obtain ⟨done, rest, hcode⟩ := List.append_of_mem hi
    have htyped := hcode ▸ h.code
    exact htyped.typed_at.types ((CodeTyped.append_iff.mp htyped).1.isProper hH) ty hty
  · intro v hv
    obtain ⟨k, hk⟩ := h.operand v hv
    rw [hk.ty_eq]
    exact (hk.isProper (h.code.isProper hH)).isSized_ty

end

theorem Code.Function.Implements.parameters_eq {L : Linkage} {sig : Signature} {f : Function}
    (h : f.Implements L sig) : f.parameters = (sig.parameters.map Parameter.kind).map Kind.ty := by
  rw [h.parameters, Signature.parameterTypes, List.map_map]
  refine List.map_congr_left fun p _ => ?_
  simp only [Function.comp, Parameter.kind]
  split <;> rfl

namespace BlocksTyped

variable {Γ : Context} {f : Function}

/-- Each block of `BlocksTyped` blocks is typed, with what is expected of it. -/
theorem exists_typed (h : BlocksTyped Γ f.blocks) {label : Nat} {b : Block}
    (hb : f.blocks[label]? = some b) : ∃ H, Γ.blocks[label]? = some H ∧ b.Typed Γ H := by
  have hlt : label < Γ.blocks.length := by
    rw [← h.size]
    exact (Array.getElem?_eq_some_iff.mp hb).1
  have hl : Γ.blocks[label]? = some Γ.blocks[label] := List.getElem?_eq_getElem hlt
  exact ⟨_, hl, h.block hl hb⟩

/-- Whatever way `Enters` a block, all that the block expects is defined on the way. -/
theorem defined_of_enters (h : BlocksTyped Γ f.blocks) {way : List Instr} {label : Nat}
    (hway : f.Enters way label) {H : Held} (hl : Γ.blocks[label]? = some H) :
    H ⊆ definitions way := by
  induction hway generalizing H with
  | entry =>
    obtain rfl := Option.some.inj (h.entry.symm.trans hl)
    exact List.nil_subset _
  | @next before label target b _ hb ht ih =>
    obtain ⟨H₀, hl₀, hblock⟩ := h.exists_typed hb
    -- the block was entered with what it expects, and its own code adds the rest
    have hheld : b.held H₀ ⊆ definitions (before ++ b.instrs) := by
      rw [definitions_append]
      exact List.append_subset.mpr
        ⟨List.subset_append_of_subset_left _ (ih hl₀), List.subset_append_right _ _⟩
    rw [Function.successors, hb] at ht
    cases hterm : b.terminator with
    | none => simp [hterm] at ht
    | some t =>
      simp only [Option.bind_some, hterm, Option.map_some, Option.getD_some] at ht
      obtain ⟨H', hl', hH'⟩ := (hblock.terminator t hterm).accepts target ht
      obtain rfl := Option.some.inj (hl.symm.trans hl')
      exact List.Subset.trans hH' hheld

/-- Each block among `BlocksTyped` blocks is typed, with some expectation. -/
theorem exists_typed_of_mem (h : BlocksTyped Γ f.blocks) {b : Block} (hb : b ∈ f.blocks) :
    ∃ H ∈ Γ.blocks, b.Typed Γ H := by
  obtain ⟨label, hlabel⟩ := Array.getElem?_of_mem hb
  obtain ⟨H, hl, hblock⟩ := h.exists_typed hlabel
  exact ⟨H, List.mem_of_getElem? hl, hblock⟩

/-- All `operands` of a function are of some kind where its block ends. -/
theorem operand (h : BlocksTyped Γ f.blocks) {b : Block} (hb : b ∈ f.blocks) {v : Value}
    (hv : v ∈ b.operands) :
    ∃ H k, H ∈ Γ.blocks ∧ HasKind (Γ.withHeld (b.held H)) v k := by
  obtain ⟨H, hH, hblock⟩ := h.exists_typed_of_mem hb
  obtain ⟨k, hk⟩ := hblock.operand v hv
  exact ⟨H, k, hH, hk⟩

/-- A temporary at a point of a block is defined on every way that `Enters` the block, or in the
code before that point. -/
theorem exists_defines_before (h : BlocksTyped Γ f.blocks) {way done : List Instr} {label : Nat}
    (hway : f.Enters way label) {H : Held} (hl : Γ.blocks[label]? = some H) {index : Nat}
    {ty : Ty} {k : Kind}
    (hk : HasKind (Γ.withHeld (H ++ definitions done)) (.temp index ty) k) :
    ∃ j ∈ way ++ done, j.Defines index ty := by
  cases hk with
  | temp hmem =>
    refine exists_defines (x := (index, k)) ?_
    rw [definitions_append]
    rcases List.mem_append.mp hmem with hmem | hmem
    · exact List.mem_append_left _ (h.defined_of_enters hway hl hmem)
    · exact List.mem_append_right _ hmem

end BlocksTyped

/-- A function that `Implements` a signature is `Disciplined`. -/
theorem Code.Function.Implements.disciplined {p : Program} {signatures : List Signature}
    {sig : Signature} {f : Function} (h : f.Implements ⟨p.globals, p.strings, signatures⟩ sig) :
    f.Disciplined p := by
  obtain ⟨blocks, expected, hbody, hproper, htyped, -⟩ := h.body
  have hblocks : f.blocks = blocks := by rw [Function.blocks, hbody]
  rw [← hblocks] at htyped
  constructor
  case defined =>
    intro b hb index ty hv
    obtain ⟨H, k, hH, hk⟩ := htyped.operand hb hv
    cases hk with
    | temp hmem =>
      have hdefined : IsDefined f.blocks (index, k) := by
        -- what a block expects was defined in another one, the rest in the block itself
        rcases List.mem_append.mp hmem with hmem | hmem
        · exact htyped.defined H hH _ hmem
        · exact ⟨b, hb, hmem⟩
      obtain ⟨c, hc, hmem⟩ := hdefined
      obtain ⟨i, hi, hdefines⟩ := exists_defines hmem
      exact ⟨c, hc, i, hi, hdefines⟩
  case before =>
    intro way label b hway hb done i rest hcode index ty hv
    obtain ⟨H, hl, hblock⟩ := htyped.exists_typed hb
    obtain ⟨k, hk⟩ := ((hcode ▸ hblock.code).typed_at).operand _ hv
    exact htyped.exists_defines_before hway hl hk
  case beforeEnd =>
    intro way label b hway hb t ht index ty hv
    obtain ⟨H, hl, hblock⟩ := htyped.exists_typed hb
    obtain ⟨k, hk⟩ := (hblock.terminator t ht).operand _ hv
    exact htyped.exists_defines_before hway hl hk
  case parameters =>
    intro b hb index ty hv
    obtain ⟨H, k, -, hk⟩ := htyped.operand hb hv
    cases hk with
    | param hparam =>
      rw [h.parameters_eq, List.getElem?_map]
      exact congrArg (Option.map Kind.ty) hparam
  case globals =>
    intro b hb name hv
    obtain ⟨H, k, -, hk⟩ := htyped.operand hb hv
    cases hk with
    | global hg => exact List.mem_map_of_mem hg
  case strings =>
    intro b hb name hv
    obtain ⟨H, k, -, hk⟩ := htyped.operand hb hv
    cases hk with
    | string hc => exact List.mem_map_of_mem hc
  case instrs =>
    intro b hb i hi
    obtain ⟨H, -, hblock⟩ := htyped.exists_typed_of_mem hb
    obtain ⟨H', hi⟩ := hblock.code.exists_typed hi
    exact hi.wellTyped
  case conditions =>
    intro b hb condition onTrue onFalse hterm
    obtain ⟨H, -, hblock⟩ := htyped.exists_typed_of_mem hb
    cases hblock.terminator _ hterm with
    | branch hc ht hf => exact hc.ty_eq
  case types =>
    refine List.forall_mem_append.mpr ⟨?_, List.forall_mem_cons.mpr ⟨?_, ?_⟩⟩
    · rw [h.parameters_eq]
      exact List.forall_mem_map.mpr fun k hk => (hproper.parameters k hk).isSized_ty
    · rw [h.result]
      exact hproper.result.isSized
    · intro ty hty
      obtain ⟨b, hb, hty⟩ := List.mem_flatMap.mp hty
      obtain ⟨H, hH, hblock⟩ := htyped.exists_typed_of_mem (Array.mem_toList_iff.mp hb)
      exact hblock.isSized ⟨hproper.linkage, hproper.parameters, hproper.result, hproper.blocks,
        hproper.blocks H hH⟩ ty hty

/-- `Module.primitives` have no code, so they are `Disciplined`. -/
theorem Module.disciplined_of_mem_primitives {p : Program} {f : Function}
    (hf : f ∈ Module.primitives) : f.Disciplined p := by
  have hfacts : ∀ f ∈ Module.primitives, f.blocks = #[] ∧
      ∀ ty ∈ f.parameters ++ [f.result], ty.IsSized := by
    decide
  obtain ⟨hnone, htypes⟩ := hfacts f hf
  have htypes : ∀ ty ∈ f.types, ty.IsSized := by
    rw [Function.types, hnone]
    exact htypes
  exact ⟨by simp [hnone], by simp [hnone], by simp [hnone], by simp [hnone], by simp [hnone],
    by simp [hnone], by simp [hnone], by simp [hnone], htypes⟩

/-- Every function of a program that `Module.compile` gives is `Disciplined`. -/
theorem Module.disciplined_of_mem {m : Module} {platform : Platform} {p : Program}
    (h : m.compile platform = .ok p) {f : Function} (hf : f ∈ p.functions) : f.Disciplined p := by
  rcases (Module.typed_of_compile h).functions f hf with hprimitive | ⟨sig, -, himpl⟩
  · exact Module.disciplined_of_mem_primitives hprimitive
  · exact himpl.disciplined

/-- All code of a module that compiles is disciplined: its temporaries are defined with their types
and before they are used, its parameters, globals and strings exist, its instructions are well
typed, and all types have a size. -/
theorem Module.disciplined_of_compile {m : Module} {platform : Platform} {p : Program}
    (h : m.compile platform = .ok p) :
    (∀ f ∈ p.functions, f.Disciplined p) ∧ ∀ g ∈ p.globals, g.ty.IsSized := by
  have htyped := Module.typed_of_compile h
  exact ⟨fun f hf => Module.disciplined_of_mem h hf,
    fun g hg => (htyped.isProper.globals g hg).isSized⟩

/-- A module with values that outlive their blocks: the limit of a FOR, the selector of a CASE and
the cells of a procedure, which are reserved before the code that uses them. -/
def Module.crossings : Module :=
  let i : Expr := .designator "i" []
  let number (n : Int64) : Expr := .literal (.integer n)
  let count : Procedure := .mk "Count" [⟨false, ["a"], .array [number 2, number 3] .real⟩]
    (some .integer) { vars := [(["i"], .integer)] }
    [.forDo "i" (number 0) (.binary i .add (number 1)) .up
      [.caseOf i
        [⟨[.integer 0], [.assign ⟨"a", [[i, number 1]]⟩ i]⟩, ⟨[.integer 1], [.breakLoop]⟩]
        (some [.returnWith (some i), .continueLoop])]]
  { name := "M"
    declarations := { vars := [(["b"], .array [number 2, number 3] .real)], procedures := [count] }
    body := some [.call "WRITELN" [.call "Count" [.designator "b" []]]] }

theorem Module.disciplined_of_compile_crossings :
    ∃ p, Module.crossings.compile .native = .ok p ∧ (∀ f ∈ p.functions, f.Disciplined p)
      ∧ ∀ g ∈ p.globals, g.ty.IsSized := by
  have hok : (Module.crossings.compile .native).isOk = true := by decide +kernel
  obtain ⟨p, hp⟩ := Except.exists_of_isOk hok
  exact ⟨p, hp, Module.disciplined_of_compile hp⟩

end Oberon
