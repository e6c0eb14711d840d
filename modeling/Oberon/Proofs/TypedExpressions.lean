import Oberon.Proofs.TypedEmission

/-!
# Typed expressions

Every expression that can be compiled yields a value of some scalar type, whatever was emitted
before, and every designator the address of a place of the type it is said to have. Arguments
have the kinds of their parameters.
-/

namespace Oberon

open Code

section

variable {σ ε α β : Type} {P : Context → σ → Prop} {Γ : Context}

/-- An action that, from any state of which `P` holds in the context, leads to one of which it
holds in a context where at least as much is known, and there gives a result as `Q` says. -/
def Preserves (P : Context → σ → Prop) (Γ : Context) (x : StateT σ (Except ε) α)
    (Q : Context → α → Prop) : Prop :=
  ∀ ⦃s a t⦄, x s = .ok (a, t) → P Γ s → ∃ Δ, Γ ≤ Δ ∧ P Δ t ∧ Q Δ a

namespace Preserves

variable {x : StateT σ (Except ε) α} {Q R : Context → α → Prop}

/-- `Pure.pure` keeps a state as it is, so only `Q` of the value is to show. -/
theorem pure {a : α} (h : Q Γ a) : Preserves P Γ (Pure.pure a : StateT σ (Except ε) α) Q := by
  intro s b t hok hs
  obtain ⟨rfl, rfl⟩ := pure_eq_ok.mp hok
  exact ⟨Γ, le_rfl, hs, h⟩

/-- A sequence `Preserves` what its parts do; the second part starts in a context that may have
grown. -/
theorem bind {f : α → StateT σ (Except ε) β} {R : Context → β → Prop} (hx : Preserves P Γ x Q)
    (hf : ∀ {Δ a}, Γ ≤ Δ → Q Δ a → Preserves P Δ (f a) R) : Preserves P Γ (x >>= f) R := by
  intro s b t hok hs
  obtain ⟨a, r, ha, hb⟩ := bind_eq_ok.mp hok
  obtain ⟨Δ, hle, hr, hQ⟩ := hx ha hs
  obtain ⟨Θ, hle', ht, hR⟩ := hf hle hQ hb hr
  exact ⟨Θ, hle.trans hle', ht, hR⟩

/-- `Preserves` with a weaker statement `R` about the value, in the grown context. -/
theorem imp (hx : Preserves P Γ x Q) (h : ∀ {Δ a}, Γ ≤ Δ → Q Δ a → R Δ a) :
    Preserves P Γ x R := by
  intro s a t hok hs
  obtain ⟨Δ, hle, ht, hQ⟩ := hx hok hs
  exact ⟨Δ, hle, ht, h hle hQ⟩

end Preserves

end

/-- An action that emits typed code: it keeps `Emission.Typed`, and its result is as `Q` says. -/
abbrev Emit.Yields {α : Type} (Γ : Context) (x : Emit α) (Q : Context → α → Prop) : Prop :=
  Preserves Emission.Typed Γ x Q

namespace Preserves

open Emit

variable {α : Type} {Γ : Context} {x : Emit α} {Q : Context → α → Prop}

theorem fail (e : CompileError) : Yields Γ (Emit.fail e : Emit α) Q :=
  fun _ _ _ hok _ => (fail_eq_ok.mp hok).elim

/-- The context of a typed emission is proper, so `Yields` may assume it. -/
theorem of_isProper (h : Γ.IsProper → Yields Γ x Q) : Yields Γ x Q :=
  fun _ _ _ hok hs => h hs.isProper hok hs

/-- `Emit.result` of a typed instruction gives a value of the kind that the instruction defines. -/
theorem result {ty : Ty} {instr : Nat → Instr} {k : Kind} (hty : k.ty = ty)
    (hi : ∀ n, (instr n).Typed Γ) (hdef : ∀ n, (instr n).defines = [(n, k)]) :
    Yields Γ (Emit.result ty instr) fun Δ v => HasKind Δ v k := by
  intro s v t hok hs
  obtain ⟨rfl, rfl⟩ := result_eq_ok.mp hok
  refine ⟨_, Γ.le_withHeld_append _, hs.define (hi _) (hdef _), ?_⟩
  rw [← hty]
  exact Γ.hasKind_last _ k

/-- `Emit.push` of a typed instruction that defines nothing. -/
theorem push {i : Instr} (hi : i.Typed Γ) (hnone : i.defines = []) :
    Yields Γ (Emit.push i) fun _ _ => True := by
  intro s u t hok hs
  obtain rfl := push_eq_ok.mp hok
  exact ⟨Γ, le_rfl, hs.push hi hnone, trivial⟩

end Preserves

/-- After `Stock.intern` there is a constant of the given bytes, whose name it gives. -/
theorem Stock.exists_intern (s : Stock) (bytes : List UInt8) :
    ∃ c ∈ (s.intern bytes).2.strings, c.bytes = bytes ∧ (s.intern bytes).1 = c.name := by
  unfold Stock.intern
  split
  · rename_i c hc
    have hbytes : c.bytes = bytes := by simpa using List.find?_some hc
    exact ⟨c, List.mem_of_find?_eq_some hc, hbytes, rfl⟩
  · exact ⟨_, List.mem_append_right _ (List.mem_singleton.mpr rfl), rfl, rfl⟩

/-- An operand that is a value of its type. -/
def IsValue (Γ : Context) (v : Value) : Prop :=
  HasKind Γ v (.value v.ty)

theorem HasKind.isValue {Γ : Context} {v : Value} {ty : Ty} (h : HasKind Γ v (.value ty)) :
    IsValue Γ v := by
  have hty : v.ty = ty := h.ty_eq
  rwa [IsValue, hty]

namespace Emit

variable {Γ Δ : Context} {v lhs rhs : Value} {ty : Ty}

/-! ## Operations -/

/-- `string` gives the name of a constant with the bytes of the text. -/
theorem yields_string (text : String) :
    Yields Γ (string text) fun Δ v =>
      ∃ c ∈ Δ.strings, c.bytes = Text.utf8Bytes text ∧ v = .string c.name := by
  intro s v t hok hs
  obtain ⟨rfl, rfl⟩ := string_eq_ok.mp hok
  obtain ⟨c, hc, hbytes, hname⟩ := s.stock.exists_intern (Text.utf8Bytes text)
  exact ⟨_, hs.le_withString text, hs.string text, c, hc, hbytes, by rw [hname]⟩

/-- `truth` gives a BOOLEAN for every value that it accepts. -/
theorem yields_truth (hv : IsValue Γ v) :
    Yields Γ (truth v) fun Δ w => HasKind Δ w (.value .boolean) := by
  refine .of_isProper fun hΓ => ?_
  have hscalar : v.ty.IsScalar := hv.isProper hΓ
  unfold truth
  split
  · rename_i hty
    have hv : HasKind Γ v (.value (.int 1)) := hty ▸ hv
    exact .pure hv
  · rename_i bits _ hty
    have hv : HasKind Γ v (.value (.int bits)) := hty ▸ hv
    have hbits : (Ty.int bits).IsScalar := hty ▸ hscalar
    exact .result rfl (fun _ => .icmp hv (.int 0 hbits)) fun _ => rfl
  · rename_i hty
    have hv : HasKind Γ v (.value .real) := hty ▸ hv
    exact .result rfl (fun _ => .fcmp hv (.real .zero)) fun _ => rfl
  · exact .fail _

/-- `coerce` gives a value of the type asked for. -/
theorem yields_coerce {into : Ty} (hv : IsValue Γ v) (hinto : into.IsScalar) :
    Yields Γ (coerce v into) fun Δ w => HasKind Δ w (.value into) := by
  unfold coerce
  split
  · rename_i hty
    have hv : HasKind Γ v (.value into) := hty ▸ hv
    exact .pure hv
  · rename_i hne
    split
    · exact yields_truth hv
    · rename_i a b _ hty
      rw [hty] at hne
      have hv : HasKind Γ v (.value (.int a)) := hty ▸ hv
      rcases Nat.lt_trichotomy a b with hlt | heq | hgt
      · rw [if_pos hlt]
        exact .result rfl (fun _ => .sext hv hlt hinto) fun _ => rfl
      · exact absurd (congrArg Ty.int heq) hne
      · rw [if_neg (by omega)]
        exact .result rfl (fun _ => .trunc hv hgt hinto) fun _ => rfl
    · rename_i a hty
      have hv : HasKind Γ v (.value (.int a)) := hty ▸ hv
      exact .result rfl (fun _ => .sitofp hv) fun _ => rfl
    · rename_i b _ hty
      have hv : HasKind Γ v (.value .real) := hty ▸ hv
      exact .result rfl (fun _ => .fptosi hv hinto) fun _ => rfl
    · exact .fail _

/-- `Ty.common` of scalar types is scalar. -/
theorem isScalar_common {a b : Ty} (ha : a.IsScalar) (hb : b.IsScalar)
    (h : Ty.common a b = some ty) : ty.IsScalar := by
  unfold Ty.common at h
  split at h
  · obtain rfl := Option.some.inj h
    exact ha
  · split at h
    · obtain rfl := Option.some.inj h
      exact trivial
    · obtain rfl := Option.some.inj h
      exact trivial
    · obtain rfl := Option.some.inj h
      simp only [Ty.IsScalar] at ha hb ⊢
      omega
    · exact nomatch h

/-- `unify` gives two values of one type. -/
theorem yields_unify (hl : IsValue Γ lhs) (hr : IsValue Γ rhs) :
    Yields Γ (unify lhs rhs) fun Δ p =>
      ∃ ty, HasKind Δ p.1 (.value ty) ∧ HasKind Δ p.2 (.value ty) := by
  refine .of_isProper fun hΓ => ?_
  unfold unify
  split
  · exact .fail _
  · rename_i ty hty
    have hscalar := isScalar_common (hl.isProper hΓ) (hr.isProper hΓ) hty
    refine .bind (yields_coerce hl hscalar) fun hle ha => ?_
    refine .bind (yields_coerce (hr.mono hle) hscalar) fun hle' hb => ?_
    exact .pure ⟨ty, ha.mono hle', hb⟩

/-- `binary` on integers of one width gives an integer of that width. -/
theorem yields_integerBinary {op : BinOp} {bits : Nat} (hop : op.isReal = false)
    (hl : HasKind Γ lhs (.value (.int bits))) (hr : HasKind Γ rhs (.value (.int bits))) :
    Yields Γ (binary op lhs rhs) fun Δ v => HasKind Δ v (.value (.int bits)) := by
  have hty : lhs.ty = .int bits := hl.ty_eq
  exact .result hty.symm (fun _ => .integerBinary hop hl hr) fun _ => by rw [Instr.defines, hty]

/-- `arithmetic` gives a value: `opFor?` finds an operation that fits the common type. -/
theorem yields_arithmetic (op : BinaryOp) (hl : IsValue Γ lhs) (hr : IsValue Γ rhs) :
    Yields Γ (arithmetic op lhs rhs) IsValue := by
  refine .bind (yields_unify hl hr) fun {Δ operands} _ h => ?_
  obtain ⟨lhs, rhs⟩ := operands
  obtain ⟨ty, hl, hr⟩ := h
  have hty : lhs.ty = ty := hl.ty_eq
  dsimp only
  rw [hty]
  cases hop : opFor? ty op with
  | none => exact .fail _
  | some machineOp =>
    cases ty with
    | int bits =>
      have hint : machineOp.isReal = false := by cases op <;> cases hop <;> rfl
      exact (yields_integerBinary hint hl hr).imp fun _ h => h.isValue
    | real =>
      have hreal : machineOp.isReal = true := by cases op <;> cases hop <;> rfl
      refine Preserves.imp (Q := fun Δ v => HasKind Δ v (.value .real)) ?_ fun _ h => h.isValue
      exact .result hty.symm (fun _ => .realBinary hreal hl hr) fun _ => by
        rw [Instr.defines, hty]
    | void => cases op <;> cases hop
    | ptr => cases op <;> cases hop
    | array length element => cases op <;> cases hop

/-- `compare` gives a BOOLEAN, whatever the type of its operands. -/
theorem yields_compare (op : RelationOp) (hl : IsValue Γ lhs) (hr : IsValue Γ rhs) :
    Yields Γ (compare op lhs rhs) fun Δ v => HasKind Δ v (.value .boolean) := by
  refine .bind (yields_unify hl hr) fun {Δ operands} _ h => ?_
  obtain ⟨lhs, rhs⟩ := operands
  obtain ⟨ty, hl, hr⟩ := h
  have hty : lhs.ty = ty := hl.ty_eq
  dsimp only
  rw [hty]
  cases ty with
  | int bits => exact .result rfl (fun _ => .icmp hl hr) fun _ => rfl
  | real => exact .result rfl (fun _ => .fcmp hl hr) fun _ => rfl
  | void => exact .fail _
  | ptr => exact .fail _
  | array length element => exact .fail _

theorem hasKind_boolean (b : Bool) : HasKind Γ (.boolean b) (.value .boolean) :=
  .int _ ⟨Nat.le_refl 1, by decide⟩

theorem yields_not (hv : IsValue Γ v) : Yields Γ (not v) IsValue := by
  refine .bind (yields_truth hv) fun _ hw => ?_
  exact (yields_integerBinary rfl hw (hasKind_boolean true)).imp fun _ h => h.isValue

/-- `negate` gives a value of the type of its operand. -/
theorem yields_negate (hv : IsValue Γ v) : Yields Γ (negate v) IsValue := by
  refine .of_isProper fun hΓ => ?_
  have hscalar : v.ty.IsScalar := hv.isProper hΓ
  unfold negate
  split
  · rename_i bits hty
    have hv : HasKind Γ v (.value (.int bits)) := hty ▸ hv
    have hzero : HasKind Γ (.int 0 bits) (.value (.int bits)) := .int 0 (hty ▸ hscalar)
    refine Preserves.imp (Q := fun Δ v => HasKind Δ v (.value (.int bits))) ?_ fun _ h => h.isValue
    exact .result rfl (fun _ => .integerBinary rfl hzero hv) fun _ => rfl
  · rename_i hty
    have hv : HasKind Γ v (.value .real) := hty ▸ hv
    refine Preserves.imp (Q := fun Δ v => HasKind Δ v (.value .real)) ?_ fun _ h => h.isValue
    exact .result rfl (fun _ => .fneg hv) fun _ => rfl
  · exact .fail _

/-- `load` from a place of a scalar type gives a value of that type. -/
theorem yields_load (hty : ty.IsScalar) (hv : HasKind Γ v (.place ty)) :
    Yields Γ (load ty v) fun Δ w => HasKind Δ w (.value ty) :=
  .result rfl (fun _ => .load hty hv) fun _ => rfl

theorem hasKind_integer (n : Int64) : HasKind Γ (.integer n) (.value .integer) :=
  .int n ⟨by decide, Nat.le_refl 64⟩

/-- `string` gives a value, if only that is of interest. -/
theorem yields_stringValue (text : String) : Yields Γ (string text) IsValue := by
  refine (yields_string text).imp fun _ h => ?_
  obtain ⟨c, hc, _, rfl⟩ := h
  exact HasKind.isValue (.string hc)

theorem yields_literal (value : Literal) : Yields Γ (literal value) IsValue := by
  cases value with
  | integer value => exact .pure (hasKind_integer value).isValue
  | real value => exact .pure (HasKind.real value).isValue
  | boolean value => exact .pure (hasKind_boolean value).isValue
  | string text => exact yields_stringValue text
  | nil => exact .pure HasKind.null.isValue

theorem yields_constant (value : Constant) : Yields Γ (constant value) IsValue := by
  cases value with
  | integer value => exact .pure (hasKind_integer value).isValue
  | real value => exact .pure (HasKind.real value).isValue
  | boolean value => exact .pure (hasKind_boolean value).isValue
  | string text => exact yields_stringValue text

/-- `index` gives an INTEGER, as element instructions need it. -/
theorem yields_index (hv : IsValue Γ v) :
    Yields Γ (index v) fun Δ w => HasKind Δ w (.value .integer) := by
  unfold index
  split
  · exact yields_coerce hv ⟨by decide, Nat.le_refl 64⟩
  · exact .fail _

end Emit

/-! ## Expressions -/

/-- An environment whose variables are stored where they are said to be, as far as they can be
used, and whose procedures are known. -/
structure Environment.Typed (Γ : Context) (env : Environment) : Prop where
  cell : ∀ {name : String} {cell : Variable}, Emit.findVariable env name = .ok cell →
    HasKind Γ cell.storage (.place cell.ty)
  procedure : ∀ {name : String} {signature : Signature},
    env.lookup name = some (.procedure signature) → signature ∈ Γ.signatures

/-- A typed `Environment` stays so if more is known. -/
theorem Environment.Typed.grow {Γ Δ : Context} {env : Environment} (h : env.Typed Γ)
    (hle : Γ.Sub Δ) : env.Typed Δ :=
  ⟨fun hc => (h.cell hc).grow hle, fun hp => hle.signatures (h.procedure hp)⟩

theorem Environment.Typed.mono {Γ Δ : Context} {env : Environment} (h : env.Typed Γ)
    (hle : Γ ≤ Δ) : env.Typed Δ :=
  h.grow hle.toSub

/-- The operands are INTEGER values. -/
def AreIndices (Γ : Context) (vs : List Value) : Prop :=
  ∀ v ∈ vs, HasKind Γ v (.value .integer)

theorem AreIndices.mono {Γ Δ : Context} {vs : List Value} (h : AreIndices Γ vs) (hle : Γ ≤ Δ) :
    AreIndices Δ vs :=
  fun v hv => (h v hv).mono hle

/-- The operands are arguments for the parameters, each of `Parameter.kind`. -/
def AreArguments (Γ : Context) (parameters : List Parameter) (vs : List Value) : Prop :=
  List.Forall₂ (fun v p => HasKind Γ v p.kind) vs parameters

namespace Emit

variable {Γ : Context} {env : Environment} {name : String}

/-- `address` gives a place of the type that it names; the number of indices is that of the
dimensions stripped. -/
theorem yields_address {count : Nat} {indices : Emit (List Value)} (henv : env.Typed Γ)
    (hi : Yields Γ indices fun Δ vs => vs.length = count ∧ AreIndices Δ vs) :
    Yields Γ (address env name count indices) fun Δ p => HasKind Δ p.1 (.place p.2) := by
  unfold address
  split
  · exact .fail _
  · rename_i cell hcell
    have hplace := henv.cell hcell
    split
    · exact .pure hplace
    · split
      · exact .fail _
      · rename_i element hstrip
        refine .bind hi fun {Δ vs} hle h => ?_
        obtain ⟨rfl, hvs⟩ := h
        refine .bind (Q := fun Δ v => HasKind Δ v (.place element)) ?_ fun _ hv => .pure hv
        refine .result rfl (fun _ => .element (hplace.mono hle) hstrip hvs) fun _ => ?_
        simp only [Instr.defines, List.length_cons, Nat.add_sub_cancel, hstrip, Option.getD_some]

/-- `designator` gives a value: a constant, or what is loaded from a place that is no array. -/
theorem yields_designator {plain : Bool} {count : Nat} {indices : Emit (List Value)}
    (henv : env.Typed Γ)
    (hi : Yields Γ indices fun Δ vs => vs.length = count ∧ AreIndices Δ vs) :
    Yields Γ (designator env name plain count indices) IsValue := by
  unfold designator
  split
  · split
    · exact yields_constant _
    · exact .fail _
  · refine .bind (yields_address henv hi) fun {Δ p} _ hp => ?_
    obtain ⟨place, ty⟩ := p
    show Yields Δ (if ty.isArray then Emit.fail .arrayValue else load ty place) IsValue
    split
    · exact .fail _
    · rename_i hty
      refine .of_isProper fun hΔ => ?_
      have hproper : ty.IsProper := hp.isProper hΔ
      have hscalar := hproper.shaped.isScalar (by simpa using hty)
      exact (yields_load hscalar hp).imp fun _ h => h.isValue

/-- `call` gives a value if its procedure has a result; the arguments have to fit the parameters of
any signature of the right length. -/
theorem yields_call {count : Nat} {arguments : List Parameter → Emit (List Value)}
    (henv : env.Typed Γ)
    (ha : ∀ parameters : List Parameter, parameters.length = count →
      (∀ p ∈ parameters, p.kind.IsProper) →
      Yields Γ (arguments parameters) fun Δ => AreArguments Δ parameters) :
    Yields Γ (call env name count arguments) fun Δ v => ∀ w ∈ v, IsValue Δ w := by
  -- that signatures are proper is needed for the kinds of the parameters
  refine .of_isProper fun hΓ => ?_
  unfold call
  split
  · exact .fail _
  · split
    · rename_i signature hsig
      have hmem := henv.procedure hsig
      split
      · exact .fail _
      · rename_i hcount
        have hparams := (hΓ.linkage.signatures _ hmem).parameters
        refine .bind (ha _ (by simpa using hcount) hparams) fun {Δ vs} hle hvs => ?_
        split
        · rename_i hvoid
          refine .bind (.push (.call (hle.signatures hmem) hvoid hvs) rfl) fun _ _ => ?_
          exact .pure (by simp)
        · rename_i hvalue
          refine .bind (Q := fun Δ v => HasKind Δ v (.value signature.result)) ?_ fun _ hv => ?_
          · exact .result rfl (fun _ => .callValue (hle.signatures hmem) hvalue hvs) fun _ => rfl
          · exact .pure (by simpa using hv.isValue)
    · exact .fail _

/-- `argument` gives what the parameter asks for: a place if it is passed by reference, else a
value. -/
theorem yields_argument {procedure : String} {position : Nat} {parameter : Parameter}
    {place : Option (Emit (Value × Ty))} {value : Emit Value} (hp : parameter.kind.IsProper)
    (hplace : ∀ x ∈ place, Yields Γ x fun Δ p => HasKind Δ p.1 (.place p.2))
    (hvalue : Yields Γ value IsValue) :
    Yields Γ (argument procedure position parameter place value)
      fun Δ v => HasKind Δ v parameter.kind := by
  unfold argument
  unfold Parameter.kind at hp ⊢
  split
  · split
    · refine .bind (hplace _ rfl) fun {Δ p} _ h => ?_
      unfold reference
      split
      · rename_i hty
        exact .pure (hty ▸ h)
      · exact .fail _
    · exact .fail _
  · rename_i hbyValue
    rw [if_neg hbyValue] at hp
    exact .bind hvalue fun _ hv => yields_coerce hv hp

end Emit

open Emit

section

variable {Γ : Context} {env : Environment}

/-- `emitIndices` gives as many INTEGERs as there are expressions. -/
theorem yields_emitIndices {es : List Expr} (henv : env.Typed Γ)
    (h : ∀ e ∈ es, ∀ Δ, env.Typed Δ → Yields Δ (e.emit env) IsValue) :
    Yields Γ (emitIndices env es) fun Δ vs => vs.length = es.length ∧ AreIndices Δ vs := by
  induction es generalizing Γ with
  | nil =>
    rw [emitIndices]
    exact .pure ⟨rfl, by simp [AreIndices]⟩
  | cons e rest ih =>
    rw [emitIndices]
    refine .bind (h e List.mem_cons_self Γ henv) fun hle hv => ?_
    refine .bind (yields_index hv) fun hle' hw => ?_
    have henv := henv.mono (hle.trans hle')
    refine .bind (ih henv fun e he => h e (List.mem_cons_of_mem _ he)) fun hle'' hws => ?_
    exact .pure ⟨congrArg (· + 1) hws.1, List.forall_mem_cons.mpr ⟨hw.mono hle'', hws.2⟩⟩

/-- `emitSelectors` gives `indexCount` many INTEGERs. -/
theorem yields_emitSelectors {selectors : List (List Expr)} (henv : env.Typed Γ)
    (h : ∀ selector ∈ selectors, ∀ e ∈ selector, ∀ Δ, env.Typed Δ →
      Yields Δ (e.emit env) IsValue) :
    Yields Γ (emitSelectors env selectors)
      fun Δ vs => vs.length = indexCount selectors ∧ AreIndices Δ vs := by
  induction selectors generalizing Γ with
  | nil =>
    rw [emitSelectors]
    exact .pure ⟨rfl, by simp [AreIndices]⟩
  | cons selector rest ih =>
    rw [emitSelectors]
    refine .bind (yields_emitIndices henv (h selector List.mem_cons_self)) fun hle hv => ?_
    refine .bind (ih (henv.mono hle) fun sel hsel => h sel (List.mem_cons_of_mem _ hsel))
      fun hle' hw => ?_
    refine .pure ⟨?_, List.forall_mem_append.mpr ⟨hv.2.mono hle', hw.2⟩⟩
    rw [List.length_append, hv.1, hw.1, indexCount, indexCount, List.flatten_cons,
      List.length_append]

/-- What is known of an expression: `Expr.emit` yields its value, and `Expr.place?` its place if it
has one. -/
def Expr.IsTyped (env : Environment) (e : Expr) : Prop :=
  ∀ Γ, env.Typed Γ → Yields Γ (e.emit env) IsValue
    ∧ ∀ x ∈ e.place? env, Yields Γ x fun Δ p => HasKind Δ p.1 (.place p.2)

/-- `emitArguments` gives values that fit the parameters, position by position. -/
theorem yields_emitArguments {procedure : String} {position : Nat} {parameters : List Parameter}
    {es : List Expr} (henv : env.Typed Γ) (hlen : parameters.length = es.length)
    (hp : ∀ p ∈ parameters, p.kind.IsProper) (h : ∀ e ∈ es, e.IsTyped env) :
    Yields Γ (emitArguments env procedure position parameters es)
      fun Δ => AreArguments Δ parameters := by
  induction es generalizing Γ position parameters with
  | nil =>
    obtain rfl := List.length_eq_zero_iff.mp hlen
    rw [emitArguments]
    exact .pure .nil
  | cons e rest ih =>
    cases parameters with
    | nil => exact nomatch hlen
    | cons parameter parameters =>
      rw [emitArguments_cons]
      obtain ⟨hv, hplace⟩ := h e List.mem_cons_self Γ henv
      obtain ⟨hparam, hparams⟩ := List.forall_mem_cons.mp hp
      refine .bind (yields_argument hparam hplace hv) fun hle hfirst => ?_
      refine .bind (ih (henv.mono hle) (Nat.succ.inj hlen) hparams
        fun e he => h e (List.mem_cons_of_mem _ he)) fun hle' hothers => ?_
      exact .pure (.cons (hfirst.mono hle') hothers)

/-- Every expression `IsTyped`, in every environment. -/
theorem Expr.isTyped (env : Environment) (e : Expr) : e.IsTyped env := by
  induction e using Expr.induction with
  | literal value =>
    intro Γ _
    rw [Expr.emit]
    exact ⟨yields_literal value, by rintro _ ⟨⟩⟩
  | designator name selectors ih =>
    intro Γ henv
    have hindices := yields_emitSelectors henv fun sel hsel e he Δ hΔ => (ih sel hsel e he Δ hΔ).1
    rw [Expr.emit]
    refine ⟨yields_designator henv hindices, fun x hx => ?_⟩
    obtain rfl := Option.mem_some.mp hx
    exact yields_address henv hindices
  | call callee arguments ih =>
    intro Γ henv
    rw [Expr.emit]
    refine ⟨.bind (yields_call henv fun parameters hlen hp =>
      yields_emitArguments henv hlen hp ih) fun {Δ v} _ hv => ?_, by rintro _ ⟨⟩⟩
    cases v with
    | none => exact .fail _
    | some v => exact .pure (hv v rfl)
  | not operand ih =>
    intro Γ henv
    rw [Expr.emit]
    exact ⟨.bind (ih Γ henv).1 fun _ hv => yields_not hv, by rintro _ ⟨⟩⟩
  | negate operand ih =>
    intro Γ henv
    rw [Expr.emit]
    exact ⟨.bind (ih Γ henv).1 fun _ hv => yields_negate hv, by rintro _ ⟨⟩⟩
  | binary lhs op rhs ihl ihr =>
    intro Γ henv
    rw [Expr.emit]
    refine ⟨.bind (ihl Γ henv).1 fun {Δ a} hle ha => ?_, by rintro _ ⟨⟩⟩
    exact .bind (ihr Δ (henv.mono hle)).1 fun hle' hb => yields_arithmetic op (ha.mono hle') hb
  | relation lhs op rhs ihl ihr =>
    intro Γ henv
    rw [Expr.emit]
    refine ⟨.bind (ihl Γ henv).1 fun {Δ a} hle ha => ?_, by rintro _ ⟨⟩⟩
    refine .bind (ihr Δ (henv.mono hle)).1 fun hle' hb => ?_
    exact (yields_compare op (ha.mono hle') hb).imp fun _ h => h.isValue

theorem Expr.yields_emit (e : Expr) (henv : env.Typed Γ) : Yields Γ (e.emit env) IsValue :=
  (e.isTyped env Γ henv).1

/-- `Expr.emitCondition` gives a BOOLEAN. -/
theorem Expr.yields_emitCondition (e : Expr) (henv : env.Typed Γ) :
    Yields Γ (e.emitCondition env) fun Δ v => HasKind Δ v (.value .boolean) :=
  .bind (e.yields_emit henv) fun _ hv => yields_truth hv

/-- `Designator.emitAddress` gives a place of the type that it names. -/
theorem Designator.yields_emitAddress (d : Designator) (henv : env.Typed Γ) :
    Yields Γ (d.emitAddress env) fun Δ p => HasKind Δ p.1 (.place p.2) :=
  yields_address henv (yields_emitSelectors henv fun _ _ e _ _ hΔ => e.yields_emit hΔ)

end

end Oberon
