import Mathlib.Data.List.Forall2
import Mathlib.Order.Basic
import Oberon.Generate.Module

/-!
# Typed code

A typing of generated code. An operand is a value of a scalar type or the address of a place
that holds a value of some type, and the code of a function is typed if every instruction and
every terminator finds operands of the kinds it works on. Which temporaries can be used where is
part of the typing: each block says what it expects to be defined when it is entered, and every
jump to it comes from a point where all of that is defined.
-/

namespace Oberon

open Code

/-! ## Types -/

namespace Code.Ty

/-- A type whose values are operands. -/
def IsScalar : Ty → Prop
  | .int bits => 1 ≤ bits ∧ bits ≤ 64
  | .real | .ptr => True
  | .void | .array .. => False

/-- Nested arrays of scalars, of dimensions from 1 to `2 ^ 32 - 1`. -/
def IsShaped : Ty → Prop
  | .array length element => 1 ≤ length ∧ length < 2 ^ 32 ∧ element.IsShaped
  | ty => ty.IsScalar

/-- A type of which there can be variables: it `IsShaped` and has a `size?`. -/
structure IsProper (ty : Ty) : Prop where
  shaped : ty.IsShaped
  sized : ty.size?.isSome

/-- What a function can return: `void` or a scalar. -/
def IsResult (ty : Ty) : Prop :=
  ty = .void ∨ ty.IsScalar

/-- A shaped type is a scalar unless it `isArray`. -/
theorem IsShaped.isScalar {ty : Ty} (h : ty.IsShaped) (hty : ty.isArray = false) :
    ty.IsScalar := by
  cases ty <;> first | exact h | exact nomatch hty

theorem IsScalar.isProper {ty : Ty} (h : ty.IsScalar) : ty.IsProper := by
  cases ty <;> first | exact ⟨h, rfl⟩ | exact h.elim

theorem isSome_size?_element {length : Nat} {element : Ty}
    (h : (Ty.array length element).size?.isSome) : element.size?.isSome := by
  obtain ⟨bytes, hbytes⟩ := Option.isSome_iff_exists.mp h
  obtain ⟨each, heach, -⟩ := Option.bind_eq_some_iff.mp hbytes
  exact heach ▸ rfl

/-- The element type of an array with `IsProper` is proper. -/
theorem IsProper.element {length : Nat} {element : Ty} (h : (Ty.array length element).IsProper) :
    element.IsProper :=
  ⟨h.shaped.2.2, isSome_size?_element h.sized⟩

theorem strip_zero (ty : Ty) : ty.strip 0 = some ty := by
  cases ty <;> rfl

theorem eq_of_strip_zero {ty element : Ty} (h : ty.strip 0 = some element) : ty = element :=
  Option.some.inj (ty.strip_zero.symm.trans h)

/-- `Ty.strip` by one dimension or more starts at an array. -/
theorem exists_array_of_strip {ty element : Ty} {count : Nat}
    (h : ty.strip (count + 1) = some element) :
    ∃ length inner, ty = .array length inner ∧ inner.strip count = some element := by
  cases ty with
  | array length inner => exact ⟨length, inner, rfl, h⟩
  | void => cases h
  | int bits => cases h
  | real => cases h
  | ptr => cases h

/-- What `Ty.strip` leaves of a proper type is proper, at any depth. -/
theorem IsProper.strip {ty element : Ty} {count : Nat} (h : ty.IsProper)
    (hs : ty.strip count = some element) : element.IsProper := by
  induction count generalizing ty with
  | zero => exact eq_of_strip_zero hs ▸ h
  | succ count ih =>
    obtain ⟨length, inner, rfl, hs⟩ := exists_array_of_strip hs
    exact ih h.element hs

end Code.Ty

/-! ## Kinds of operands -/

/-- What an operand stands for. -/
inductive Kind where
  /-- A value of a scalar type. -/
  | value (ty : Ty)
  /-- The address of a place that holds a value of a type. -/
  | place (ty : Ty)

/-- The type of the operand itself. -/
def Kind.ty : Kind → Ty
  | .value ty => ty
  | .place _ => .ptr

/-- A kind that operands can have. -/
def Kind.IsProper : Kind → Prop
  | .value ty => ty.IsScalar
  | .place ty => ty.IsProper

/-- The kind of the arguments for a parameter. -/
def Parameter.kind (p : Parameter) : Kind :=
  if p.byReference then .place p.ty else .value p.ty

/-- A signature that a procedure can have. -/
structure Signature.IsProper (s : Signature) : Prop where
  result : s.result.IsResult
  parameters : ∀ p ∈ s.parameters, p.kind.IsProper

/-- Temporaries, each with the kind of what it holds. -/
abbrev Held := List (Nat × Kind)

/-- What the functions of a program have in common. -/
structure Linkage where
  globals : List Global := []
  strings : List StringConstant := []
  signatures : List Signature := []

/-- All globals and procedures are of proper types. -/
structure Linkage.IsProper (L : Linkage) : Prop where
  globals : ∀ g ∈ L.globals, g.ty.IsProper
  signatures : ∀ s ∈ L.signatures, s.IsProper

/-- What is known at a point of a function. -/
structure Context extends Linkage where
  parameters : List Kind := []
  result : Ty := .void
  /-- For each block, what has to be defined when it is entered. -/
  blocks : List Held := []
  /-- What is defined at this point. -/
  held : Held := []

namespace Context

/-- The context at another point, where `held` is defined. -/
def withHeld (Γ : Context) (held : Held) : Context :=
  { Γ with held }

/-- A context `Δ` in which more is known than in `Γ`. -/
structure Sub (Γ Δ : Context) : Prop where
  globals : Γ.globals ⊆ Δ.globals
  strings : Γ.strings ⊆ Δ.strings
  signatures : Γ.signatures ⊆ Δ.signatures
  parameters : Γ.parameters = Δ.parameters
  result : Γ.result = Δ.result
  blocks : Γ.blocks <+: Δ.blocks
  held : Γ.held ⊆ Δ.held

/-- The order of contexts inside of one function, where globals and procedures stay the same. -/
protected structure Le (Γ Δ : Context) : Prop extends Γ.Sub Δ where
  globals_eq : Δ.globals = Γ.globals
  signatures_eq : Δ.signatures = Γ.signatures

theorem Sub.refl (Γ : Context) : Γ.Sub Γ :=
  ⟨List.Subset.refl _, List.Subset.refl _, List.Subset.refl _, rfl, rfl, List.prefix_rfl,
    List.Subset.refl _⟩

/-- `Context.Sub` composes. -/
theorem Sub.trans {Γ Δ Θ : Context} (h : Γ.Sub Δ) (h' : Δ.Sub Θ) : Γ.Sub Θ :=
  ⟨List.Subset.trans h.globals h'.globals, List.Subset.trans h.strings h'.strings,
    List.Subset.trans h.signatures h'.signatures, h.parameters.trans h'.parameters,
    h.result.trans h'.result, h.blocks.trans h'.blocks, List.Subset.trans h.held h'.held⟩

instance : Preorder Context where
  le := Context.Le
  le_refl Γ := ⟨.refl Γ, rfl, rfl⟩
  le_trans _ _ _ h h' :=
    ⟨h.toSub.trans h'.toSub, h'.globals_eq.trans h.globals_eq,
      h'.signatures_eq.trans h.signatures_eq⟩

/-- All that is known is of proper types. -/
structure IsProper (Γ : Context) : Prop where
  linkage : Γ.toLinkage.IsProper
  parameters : ∀ k ∈ Γ.parameters, k.IsProper
  result : Γ.result.IsResult
  blocks : ∀ H ∈ Γ.blocks, ∀ x ∈ H, x.2.IsProper
  held : ∀ x ∈ Γ.held, x.2.IsProper

variable {Γ Δ : Context} {H : Held}

/-- `Context.Sub` at another point: what is held there may grow as well. -/
theorem Sub.withHeld (h : Γ.Sub Δ) {H' : Held} (hH : H ⊆ H') :
    (Γ.withHeld H).Sub (Δ.withHeld H') :=
  ⟨h.globals, h.strings, h.signatures, h.parameters, h.result, h.blocks, hH⟩

theorem withHeld_le_withHeld (h : Γ ≤ Δ) {H' : Held} (hH : H ⊆ H') :
    Γ.withHeld H ≤ Δ.withHeld H' :=
  ⟨h.toSub.withHeld hH, h.globals_eq, h.signatures_eq⟩

theorem le_withHeld (h : Γ ≤ Δ) (hH : Γ.held ⊆ H) : Γ ≤ Δ.withHeld H :=
  ⟨h.toSub.withHeld (H := Γ.held) hH, h.globals_eq, h.signatures_eq⟩

/-- What a block expects stays so in a context that `Sub` allows. -/
theorem Sub.getElem?_blocks (h : Γ.Sub Δ) {label : Nat} (hl : Γ.blocks[label]? = some H) :
    Δ.blocks[label]? = some H := by
  obtain ⟨more, hmore⟩ := h.blocks
  rw [← hmore, List.getElem?_append_left (List.getElem?_eq_some_iff.mp hl).1, hl]

theorem getElem?_blocks (h : Γ ≤ Δ) {label : Nat} (hl : Γ.blocks[label]? = some H) :
    Δ.blocks[label]? = some H :=
  h.toSub.getElem?_blocks hl

end Context

/-- The kind of an operand, at the point that `Γ` describes. -/
inductive HasKind (Γ : Context) : Value → Kind → Prop
  | int (value : Int64) {bits : Nat} (h : (Ty.int bits).IsScalar) :
    HasKind Γ (.int value bits) (.value (.int bits))
  | real (value : Double) : HasKind Γ (.real value) (.value .real)
  | null : HasKind Γ .null (.value .ptr)
  | temp {index : Nat} {k : Kind} (h : (index, k) ∈ Γ.held) : HasKind Γ (.temp index k.ty) k
  | param {index : Nat} {k : Kind} (h : Γ.parameters[index]? = some k) :
    HasKind Γ (.param index k.ty) k
  | global {g : Global} (h : g ∈ Γ.globals) : HasKind Γ (.global g.name) (.place g.ty)
  | string {c : StringConstant} (h : c ∈ Γ.strings) : HasKind Γ (.string c.name) (.value .ptr)

namespace HasKind

variable {Γ Δ : Context} {v : Value} {k : Kind} {ty : Ty}

/-- `HasKind` stays true if more is known. -/
theorem grow (h : HasKind Γ v k) (hle : Γ.Sub Δ) : HasKind Δ v k := by
  cases h with
  | int value h => exact .int value h
  | real value => exact .real value
  | null => exact .null
  | temp h => exact .temp (hle.held h)
  | param h => exact .param (hle.parameters ▸ h)
  | global h => exact .global (hle.globals h)
  | string h => exact .string (hle.strings h)

theorem mono (h : HasKind Γ v k) (hle : Γ ≤ Δ) : HasKind Δ v k :=
  h.grow hle.toSub

/-- A value of some kind, as `HasKind` says, has the type of that kind. -/
theorem ty_eq (h : HasKind Γ v k) : v.ty = k.ty := by
  cases h <;> rfl

/-- In a proper context values are of proper kinds, by `HasKind`. -/
theorem isProper (h : HasKind Γ v k) (hΓ : Γ.IsProper) : k.IsProper := by
  cases h with
  | int value h => exact h
  | real value => exact trivial
  | null => exact trivial
  | temp h => exact hΓ.held _ h
  | param h => exact hΓ.parameters _ (List.mem_of_getElem? h)
  | global h => exact hΓ.linkage.globals _ h
  | string h => exact trivial

end HasKind

/-! ## Instructions and terminators -/

/-- Whether an operation works on doubles. -/
def Code.BinOp.isReal : BinOp → Bool
  | .fadd | .fsub | .fmul | .fdiv => true
  | .add | .sub | .mul | .sdiv | .srem | .and | .or | .xor => false

/-- The conversion by which values of a type are printed. -/
def printFormat? : Ty → Option String
  | .int 64 => some "%lld"
  | .real => some "%lf"
  | .ptr => some "%s"
  | _ => none

/-- A typed instruction, at the point that `Γ` describes. -/
inductive Code.Instr.Typed (Γ : Context) : Instr → Prop
  | alloca {out : Nat} {ty : Ty} (h : ty.IsProper) : Typed Γ (.alloca out ty)
  | load {out : Nat} {ty : Ty} {address : Value} (hty : ty.IsScalar)
    (ha : HasKind Γ address (.place ty)) : Typed Γ (.load out ty address)
  | store {value address : Value} {ty : Ty} (hv : HasKind Γ value (.value ty))
    (ha : HasKind Γ address (.place ty)) : Typed Γ (.store value address)
  | integerBinary {out bits : Nat} {op : BinOp} {lhs rhs : Value} (hop : op.isReal = false)
    (hl : HasKind Γ lhs (.value (.int bits))) (hr : HasKind Γ rhs (.value (.int bits))) :
    Typed Γ (.binary out op lhs rhs)
  | realBinary {out : Nat} {op : BinOp} {lhs rhs : Value} (hop : op.isReal = true)
    (hl : HasKind Γ lhs (.value .real)) (hr : HasKind Γ rhs (.value .real)) :
    Typed Γ (.binary out op lhs rhs)
  | fneg {out : Nat} {value : Value} (hv : HasKind Γ value (.value .real)) :
    Typed Γ (.fneg out value)
  | icmp {out bits : Nat} {predicate : IntPredicate} {lhs rhs : Value}
    (hl : HasKind Γ lhs (.value (.int bits))) (hr : HasKind Γ rhs (.value (.int bits))) :
    Typed Γ (.icmp out predicate lhs rhs)
  | fcmp {out : Nat} {predicate : RealPredicate} {lhs rhs : Value}
    (hl : HasKind Γ lhs (.value .real)) (hr : HasKind Γ rhs (.value .real)) :
    Typed Γ (.fcmp out predicate lhs rhs)
  | sext {out a b : Nat} {value : Value} (hv : HasKind Γ value (.value (.int a))) (hlt : a < b)
    (hb : (Ty.int b).IsScalar) : Typed Γ (.cast out .sext value (.int b))
  | trunc {out a b : Nat} {value : Value} (hv : HasKind Γ value (.value (.int a))) (hlt : b < a)
    (hb : (Ty.int b).IsScalar) : Typed Γ (.cast out .trunc value (.int b))
  | sitofp {out a : Nat} {value : Value} (hv : HasKind Γ value (.value (.int a))) :
    Typed Γ (.cast out .sitofp value .real)
  | fptosi {out b : Nat} {value : Value} (hv : HasKind Γ value (.value .real))
    (hb : (Ty.int b).IsScalar) : Typed Γ (.cast out .fptosi value (.int b))
  | element {out : Nat} {base element : Ty} {address : Value} {indices : List Value}
    (ha : HasKind Γ address (.place base)) (hs : base.strip indices.length = some element)
    (hi : ∀ v ∈ indices, HasKind Γ v (.value .integer)) :
    Typed Γ (.element out base address (.integer 0 :: indices))
  | call {signature : Signature} {arguments : List Value} (hs : signature ∈ Γ.signatures)
    (hr : signature.result = .void)
    (ha : List.Forall₂ (fun v p => HasKind Γ v p.kind) arguments signature.parameters) :
    Typed Γ (.call none signature.symbol signature.result arguments)
  | callValue {out : Nat} {signature : Signature} {arguments : List Value}
    (hs : signature ∈ Γ.signatures) (hr : signature.result ≠ .void)
    (ha : List.Forall₂ (fun v p => HasKind Γ v p.kind) arguments signature.parameters) :
    Typed Γ (.call (some out) signature.symbol signature.result arguments)
  | print {c : StringConstant} {conversion ending : String} {value : Value} {ty : Ty}
    (hc : c ∈ Γ.strings) (hb : c.bytes = Text.utf8Bytes (conversion ++ ending))
    (hf : printFormat? ty = some conversion) (he : ending = "" ∨ ending = "\n")
    (hv : HasKind Γ value (.value ty)) :
    Typed Γ (.call none printfName .status [.string c.name, value])
  | newline {c : StringConstant} (hc : c ∈ Γ.strings) :
    Typed Γ (.call none putsName .status [.string c.name])
  | read {c : StringConstant} {conversion : String} {address : Value} {ty : Ty}
    (hc : c ∈ Γ.strings) (hb : c.bytes = Text.utf8Bytes conversion)
    (hf : Emit.readFormat? ty = some conversion) (ha : HasKind Γ address (.place ty)) :
    Typed Γ (.call none scanfName .status [.string c.name, address])
  | copy {destination source : Value} {ty : Ty} {bytes : Nat}
    (hd : HasKind Γ destination (.place ty)) (hs : HasKind Γ source (.place ty))
    (hb : ty.size? = some bytes) : Typed Γ (.copy destination source bytes)

/-- What an instruction defines. -/
def Code.Instr.defines : Instr → Held
  | .alloca out ty => [(out, .place ty)]
  | .load out ty _ => [(out, .value ty)]
  | .binary out _ lhs _ => [(out, .value lhs.ty)]
  | .fneg out _ => [(out, .value .real)]
  | .icmp out .. | .fcmp out .. => [(out, .value .boolean)]
  | .cast out _ _ into => [(out, .value into)]
  | .element out base _ indices => [(out, .place ((base.strip (indices.length - 1)).getD .void))]
  | .call (some out) _ result _ => [(out, .value result)]
  | .call none .. | .store .. | .copy .. => []

/-- A block that can be entered from this point: all that it expects is `held`. -/
def Context.Accepts (Γ : Context) (label : Nat) : Prop :=
  ∃ H, Γ.blocks[label]? = some H ∧ H ⊆ Γ.held

/-- A typed terminator, at the point that `Γ` describes. -/
inductive Code.Terminator.Typed (Γ : Context) : Terminator → Prop
  | jump {target : Nat} (h : Γ.Accepts target) : Typed Γ (.jump target)
  | branch {condition : Value} {onTrue onFalse : Nat}
    (hc : HasKind Γ condition (.value .boolean)) (ht : Γ.Accepts onTrue)
    (hf : Γ.Accepts onFalse) : Typed Γ (.branch condition onTrue onFalse)
  | ret (h : Γ.result = .void) : Typed Γ (.ret none)
  | retValue {value : Value} (h : HasKind Γ value (.value Γ.result)) : Typed Γ (.ret (some value))

/-- A block that can be entered can be so if more is known. -/
theorem Context.Accepts.grow {Γ Δ : Context} {label : Nat} (h : Γ.Accepts label)
    (hle : Γ.Sub Δ) : Δ.Accepts label := by
  obtain ⟨H, hl, hH⟩ := h
  exact ⟨H, hle.getElem?_blocks hl, fun x hx => hle.held (hH hx)⟩

theorem Context.Accepts.mono {Γ Δ : Context} {label : Nat} (h : Γ.Accepts label) (hle : Γ ≤ Δ) :
    Δ.Accepts label :=
  h.grow hle.toSub

/-- A typed `Terminator` stays so if more is known. -/
theorem Code.Terminator.Typed.grow {Γ Δ : Context} {t : Terminator} (h : t.Typed Γ)
    (hle : Γ.Sub Δ) : t.Typed Δ := by
  cases h with
  | jump h => exact .jump (h.grow hle)
  | branch hc ht hf => exact .branch (hc.grow hle) (ht.grow hle) (hf.grow hle)
  | ret h => exact .ret (hle.result ▸ h)
  | retValue h => exact .retValue (hle.result ▸ h.grow hle)

theorem Code.Terminator.Typed.mono {Γ Δ : Context} {t : Terminator} (h : t.Typed Γ)
    (hle : Γ ≤ Δ) : t.Typed Δ :=
  h.grow hle.toSub

/-- A typed terminator leads to blocks that its point `Accepts`. -/
theorem Code.Terminator.Typed.accepts {Γ : Context} {t : Terminator} (h : t.Typed Γ) :
    ∀ label ∈ t.successors, Γ.Accepts label := by
  cases h with
  | jump h => exact List.forall_mem_singleton.mpr h
  | branch hc ht hf => exact List.forall_mem_cons.mpr ⟨ht, List.forall_mem_singleton.mpr hf⟩
  | ret h => exact List.forall_mem_nil _
  | retValue h => exact List.forall_mem_nil _

/-- A typed `Instr` stays so if more is known. -/
theorem Code.Instr.Typed.grow {Γ Δ : Context} {i : Instr} (h : i.Typed Γ) (hle : Γ.Sub Δ) :
    i.Typed Δ := by
  cases h with
  | alloca h => exact .alloca h
  | load hty ha => exact .load hty (ha.grow hle)
  | store hv ha => exact .store (hv.grow hle) (ha.grow hle)
  | integerBinary hop hl hr => exact .integerBinary hop (hl.grow hle) (hr.grow hle)
  | realBinary hop hl hr => exact .realBinary hop (hl.grow hle) (hr.grow hle)
  | fneg hv => exact .fneg (hv.grow hle)
  | icmp hl hr => exact .icmp (hl.grow hle) (hr.grow hle)
  | fcmp hl hr => exact .fcmp (hl.grow hle) (hr.grow hle)
  | sext hv hlt hb => exact .sext (hv.grow hle) hlt hb
  | trunc hv hlt hb => exact .trunc (hv.grow hle) hlt hb
  | sitofp hv => exact .sitofp (hv.grow hle)
  | fptosi hv hb => exact .fptosi (hv.grow hle) hb
  | element ha hs hi => exact .element (ha.grow hle) hs fun v hv => (hi v hv).grow hle
  | call hs hr ha => exact .call (hle.signatures hs) hr (ha.imp fun _ _ h => h.grow hle)
  | callValue hs hr ha => exact .callValue (hle.signatures hs) hr (ha.imp fun _ _ h => h.grow hle)
  | print hc hb hf he hv => exact .print (hle.strings hc) hb hf he (hv.grow hle)
  | newline hc => exact .newline (hle.strings hc)
  | read hc hb hf ha => exact .read (hle.strings hc) hb hf (ha.grow hle)
  | copy hd hs hb => exact .copy (hd.grow hle) (hs.grow hle) hb

theorem Code.Instr.Typed.mono {Γ Δ : Context} {i : Instr} (h : i.Typed Γ) (hle : Γ ≤ Δ) :
    i.Typed Δ :=
  h.grow hle.toSub

/-- What a typed instruction `defines` is of proper kinds, if the context is proper. -/
theorem Code.Instr.Typed.isProper {Γ : Context} {i : Instr} (h : i.Typed Γ) (hΓ : Γ.IsProper) :
    ∀ x ∈ i.defines, x.2.IsProper := by
  have one {out : Nat} {k : Kind} (hk : k.IsProper) : ∀ x ∈ [(out, k)], x.2.IsProper :=
    List.forall_mem_singleton.mpr hk
  have none : ∀ x ∈ ([] : Held), x.2.IsProper := List.forall_mem_nil _
  cases h with
  | alloca h => exact one h
  | load hty ha => exact one hty
  | integerBinary hop hl hr => exact one (hl.ty_eq ▸ hl.isProper hΓ)
  | realBinary hop hl hr => exact one (hl.ty_eq ▸ hl.isProper hΓ)
  | fneg hv => exact one trivial
  | icmp hl hr => exact one ⟨Nat.le_refl 1, by decide⟩
  | fcmp hl hr => exact one ⟨Nat.le_refl 1, by decide⟩
  | sext hv hlt hb => exact one hb
  | trunc hv hlt hb => exact one hb
  | sitofp hv => exact one trivial
  | fptosi hv hb => exact one hb
  | element ha hs hi =>
    have helement : Kind.IsProper (.place _) := (ha.isProper hΓ : Ty.IsProper _).strip hs
    rw [Instr.defines, List.length_cons, Nat.add_sub_cancel, hs]
    exact one helement
  | callValue hs hr ha => exact one ((hΓ.linkage.signatures _ hs).result.resolve_left hr)
  | store hv ha => exact none
  | call hs hr ha => exact none
  | print hc hb hf he hv => exact none
  | newline hc => exact none
  | read hc hb hf ha => exact none
  | copy hd hs hb => exact none

/-! ## Code and blocks -/

/-- What a row of instructions `defines`. -/
def definitions (code : List Instr) : Held :=
  code.flatMap Instr.defines

theorem definitions_append (code more : List Instr) :
    definitions (code ++ more) = definitions code ++ definitions more :=
  List.flatMap_append

/-- Typed instructions in a row, from a point where `H` is defined. None of them defines what
is defined already. -/
def CodeTyped (Γ : Context) : Held → List Instr → Prop
  | _, [] => True
  | H, i :: rest =>
    i.Typed (Γ.withHeld H) ∧ (∀ x ∈ i.defines, ∀ y ∈ H, y.1 ≠ x.1)
      ∧ CodeTyped Γ (H ++ i.defines) rest

namespace CodeTyped

variable {Γ Δ : Context} {H H' : Held} {code : List Instr}

/-- `CodeTyped` stays true if more is known. -/
theorem grow (h : CodeTyped Γ H code) (hle : ∀ H, (Γ.withHeld H).Sub (Δ.withHeld H)) :
    CodeTyped Δ H code := by
  induction code generalizing H with
  | nil => exact trivial
  | cons i rest ih =>
    obtain ⟨hi, hfresh, hrest⟩ := h
    exact ⟨hi.grow (hle H), hfresh, ih hrest⟩

/-- `CodeTyped` of code in two parts: the second part may use what the first one defines. -/
theorem append_iff {more : List Instr} : CodeTyped Γ H (code ++ more)
    ↔ CodeTyped Γ H code ∧ CodeTyped Γ (H ++ definitions code) more := by
  induction code generalizing H with
  | nil => simp [CodeTyped, definitions]
  | cons i rest ih =>
    have hassoc : H ++ i.defines ++ definitions rest = H ++ definitions (i :: rest) :=
      List.append_assoc _ _ _
    simp only [List.cons_append, CodeTyped, ih, hassoc, and_assoc]

/-- Each instruction of `CodeTyped` code is typed at its point. -/
theorem exists_typed {i : Instr} (h : CodeTyped Γ H code) (hi : i ∈ code) :
    ∃ H', i.Typed (Γ.withHeld H') := by
  induction code generalizing H with
  | nil => exact nomatch hi
  | cons first rest ih =>
    obtain ⟨htyped, -, hrest⟩ := h
    rcases List.mem_cons.mp hi with rfl | hi
    · exact ⟨H, htyped⟩
    · exact ih hrest hi

/-- `CodeTyped` stays true where more is defined, as long as the code does not define that
itself. -/
theorem weaken (h : CodeTyped Γ H code) (hsub : H ⊆ H')
    (hfresh : ∀ y ∈ H', y ∈ H ∨ ∀ x ∈ definitions code, y.1 ≠ x.1) : CodeTyped Γ H' code := by
  induction code generalizing H H' with
  | nil => exact trivial
  | cons i rest ih =>
    obtain ⟨hi, hnew, hrest⟩ := h
    refine ⟨hi.mono (Context.withHeld_le_withHeld le_rfl hsub), ?_, ih hrest ?_ ?_⟩
    · intro x hx y hy
      rcases hfresh y hy with hold | hother
      · exact hnew x hx y hold
      · exact hother x (List.mem_append_left _ hx)
    · exact List.append_subset.mpr
        ⟨fun x hx => List.mem_append_left _ (hsub hx), List.subset_append_right _ _⟩
    · intro y hy
      rcases List.mem_append.mp hy with hy | hy
      · rcases hfresh y hy with hold | hother
        · exact .inl (List.mem_append_left _ hold)
        · exact .inr fun x hx => hother x (List.mem_append_right _ hx)
      · exact .inl (List.mem_append_right _ hy)

end CodeTyped

/-- What is defined at the end of a block that was entered with `H`. -/
def Code.Block.held (b : Block) (H : Held) : Held :=
  H ++ definitions b.instrs

/-- A typed block that expects `H`. -/
structure Code.Block.Typed (Γ : Context) (H : Held) (b : Block) : Prop where
  code : CodeTyped Γ H b.instrs
  terminator : ∀ t ∈ b.terminator, t.Typed (Γ.withHeld (b.held H))

/-- A block of typed code stays so if more is known, by `Context.Sub`. -/
theorem Code.Block.Typed.grow {Γ Δ : Context} {H : Held} {b : Block} (h : b.Typed Γ H)
    (hle : ∀ H, (Γ.withHeld H).Sub (Δ.withHeld H)) : b.Typed Δ H :=
  ⟨h.code.grow hle, fun t ht => (h.terminator t ht).grow (hle _)⟩

/-- A temporary that an instruction of some block defines. -/
def IsDefined (blocks : Array Block) (x : Nat × Kind) : Prop :=
  ∃ b ∈ blocks, x ∈ definitions b.instrs

/-- A value that `IsDefined` stays so when a block changes and still defines what it did. -/
theorem IsDefined.modify {blocks : Array Block} {x : Nat × Kind} (h : IsDefined blocks x)
    {label : Nat} {f : Block → Block}
    (hf : ∀ b, definitions b.instrs ⊆ definitions (f b).instrs) :
    IsDefined (blocks.modify label f) x := by
  obtain ⟨b, hb, hx⟩ := h
  obtain ⟨i, hi⟩ := Array.getElem?_of_mem hb
  by_cases hlabel : label = i
  · refine ⟨f b, Array.mem_of_getElem? (i := i) ?_, hf b hx⟩
    rw [Array.getElem?_modify, if_pos hlabel, hi, Option.map_some]
  · refine ⟨b, Array.mem_of_getElem? (i := i) ?_, hx⟩
    rw [Array.getElem?_modify, if_neg hlabel, hi]

/-- Typed blocks of a function, each of which expects what the context says; all of that is
defined somewhere in the function. -/
structure BlocksTyped (Γ : Context) (blocks : Array Block) : Prop where
  size : blocks.size = Γ.blocks.length
  entry : Γ.blocks[0]? = some []
  defined : ∀ H ∈ Γ.blocks, ∀ x ∈ H, IsDefined blocks x
  block : ∀ {label : Nat} {H : Held} {b : Block}, Γ.blocks[label]? = some H →
    blocks[label]? = some b → b.Typed Γ H

namespace BlocksTyped

variable {Γ Δ : Context} {blocks : Array Block}

/-- `BlocksTyped` stays true if more is known and the blocks expect what they did. -/
theorem grow (h : BlocksTyped Γ blocks) (hle : ∀ H, (Γ.withHeld H).Sub (Δ.withHeld H))
    (hlen : Γ.blocks = Δ.blocks) : BlocksTyped Δ blocks :=
  ⟨hlen ▸ h.size, hlen ▸ h.entry, hlen ▸ h.defined, fun hl hb => (h.block (hlen ▸ hl) hb).grow hle⟩

/-- `BlocksTyped` stays true if one block changes and is typed as before. -/
theorem modify (h : BlocksTyped Γ blocks) {label : Nat} {f : Block → Block}
    (hkept : ∀ b, definitions b.instrs ⊆ definitions (f b).instrs)
    (hf : ∀ {H : Held} {b : Block}, Γ.blocks[label]? = some H → blocks[label]? = some b →
      (f b).Typed Γ H) :
    BlocksTyped Γ (blocks.modify label f) := by
  refine ⟨by rw [Array.size_modify, h.size], h.entry,
    fun H hH x hx => (h.defined H hH x hx).modify hkept, fun {l H b} hl hb => ?_⟩
  rw [Array.getElem?_modify] at hb
  split at hb
  · rename_i heq
    subst heq
    obtain ⟨b₀, hb₀, rfl⟩ := Option.map_eq_some_iff.mp hb
    exact hf hl hb₀
  · exact h.block hl hb

end BlocksTyped

end Oberon
