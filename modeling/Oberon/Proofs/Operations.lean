import Oberon.Proofs.Segments
import Oberon.Proofs.Stores

/-!
# Operations at work

An operand denotes a value if it has the type of the value and stands for a scalar that shows it.
The code of each operation on operands then computes the operation on the values, or has its
fault.
-/

namespace Oberon

open Code Machine

/-- An operand that denotes a value at a moment: its scalar `Shows` the value. -/
structure Denotes (image : Image) (c : Call) (Γ : Moment) (v : Value) (d : Datum) : Prop where
  ty : v.ty = d.ty
  shown : ∃ x, Γ.Has image c v x ∧ x.Shows image d

namespace Denotes

variable {image : Image} {c : Call} {Γ Δ : Moment} {v : Value}

/-- `Denotes` stays true at later moments of a call. -/
theorem mono {d : Datum} (h : Denotes image c Γ v d) (hle : Γ ≤ Δ) : Denotes image c Δ v d := by
  obtain ⟨hty, x, hx, hshows⟩ := h
  exact ⟨hty, x, hx.mono hle, hshows⟩

/-- An operand that `Denotes` an INTEGER has that number as its scalar. -/
theorem integer {n : Int64} (h : Denotes image c Γ v (.integer n)) : Γ.Has image c v (.int n) := by
  obtain ⟨-, x, hx, hshows⟩ := h
  rwa [hshows.integer] at hx

theorem real {r : Double} (h : Denotes image c Γ v (.real r)) : Γ.Has image c v (.real r) := by
  obtain ⟨-, x, hx, hshows⟩ := h
  rwa [hshows.real] at hx

/-- An operand that `Denotes` a BOOLEAN has 0 or 1 as its scalar, by `Datum.ofTruth`. -/
theorem boolean {b : Bool} (h : Denotes image c Γ v (.boolean b)) :
    Γ.Has image c v (.int (Datum.ofTruth b)) := by
  obtain ⟨-, x, hx, hshows⟩ := h
  rwa [hshows.boolean] at hx

theorem of_integer {n : Int64} (hty : v.ty = .integer) (h : Γ.Has image c v (.int n)) :
    Denotes image c Γ v (.integer n) :=
  ⟨hty, _, h, rfl⟩

theorem of_real {r : Double} (hty : v.ty = .real) (h : Γ.Has image c v (.real r)) :
    Denotes image c Γ v (.real r) :=
  ⟨hty, _, h, rfl⟩

theorem of_boolean {b : Bool} (hty : v.ty = .boolean)
    (h : Γ.Has image c v (.int (Datum.ofTruth b))) : Denotes image c Γ v (.boolean b) :=
  ⟨hty, _, h, rfl⟩

end Denotes

namespace Emit

instance (value : Value) : Straight (truth value) := ⟨traces_truth value⟩
instance (value : Value) (into : Ty) : Straight (coerce value into) := ⟨traces_coerce value into⟩
instance (lhs rhs : Value) : Straight (unify lhs rhs) := ⟨traces_unify lhs rhs⟩
instance (op : BinOp) (lhs rhs : Value) : Straight (binary op lhs rhs) :=
  ⟨traces_binary op lhs rhs⟩
instance (op : BinaryOp) (lhs rhs : Value) : Straight (arithmetic op lhs rhs) :=
  ⟨traces_arithmetic op lhs rhs⟩
instance (op : RelationOp) (lhs rhs : Value) : Straight (compare op lhs rhs) :=
  ⟨traces_compare op lhs rhs⟩
instance (value : Value) : Straight (not value) := ⟨traces_not value⟩
instance (value : Value) : Straight (negate value) := ⟨traces_negate value⟩
instance (value : Value) : Straight (index value) := ⟨traces_index value⟩
instance (ty : Ty) (place : Value) : Straight (load ty place) := ⟨traces_load ty place⟩

variable {image : Image} {c : Call} {Γ : Moment} {v w : Value} {d e : Datum} {ty : Ty}

/-! ## Single instructions -/

/-- An `icmp` instruction computes `intHolds` of its operands. -/
theorem computes_icmp {a b : Int64} (p : IntPredicate) (hv : Γ.Has image c v (.int a))
    (hw : Γ.Has image c w (.int b)) :
    Computes image c Γ (result .boolean (.icmp · p v w)) (.ok (intHolds p a b))
      fun Δ u holds => Denotes image c Δ u (.boolean holds) := by
  refine Performs.imp (Performs.result (f := Scalar.ofBool) (fun _ => rfl) fun block rest => ?_)
    fun _ h => ⟨h.1, .of_boolean h.2.2 h.2.1⟩
  simp only [Image.execute, Call.state, hv.int, hw.int]
  rfl

/-- An `fcmp` instruction computes `realHolds` of its operands. -/
theorem computes_fcmp {a b : Double} (p : RealPredicate) (hv : Γ.Has image c v (.real a))
    (hw : Γ.Has image c w (.real b)) :
    Computes image c Γ (result .boolean (.fcmp · p v w)) (.ok (realHolds p a b))
      fun Δ u holds => Denotes image c Δ u (.boolean holds) := by
  refine Performs.imp (Performs.result (f := Scalar.ofBool) (fun _ => rfl) fun block rest => ?_)
    fun _ h => ⟨h.1, .of_boolean h.2.2 h.2.1⟩
  simp only [Image.execute, Call.state, hv.real, hw.real]
  rfl

/-- A `binary` instruction on two scalars; `f` reads its result. -/
theorem computes_operation {δ : Type} {op : BinOp} {x y : Scalar} {r : Except Fault δ}
    {f : δ → Scalar} (hv : Γ.Has image c v x) (hw : Γ.Has image c w y)
    (h : Machine.binary op (widthOf v.ty) x y = r.map f) :
    Computes image c Γ (result ty (.binary · op v w)) r
      fun Δ u d => Δ.Has image c u (f d) ∧ u.ty = ty := by
  refine Performs.result (fun _ => rfl) fun block rest => ?_
  simp only [Image.execute, Call.state, hv.value, hw.value]
  show (Machine.binary op (widthOf v.ty) x y >>= _) = _
  rw [h]
  cases r <;> rfl

theorem computes_fneg {r : Double} (hv : Γ.Has image c v (.real r)) :
    Computes image c Γ (result .real (.fneg · v)) (.ok r.neg)
      fun Δ u r => Denotes image c Δ u (.real r) := by
  refine Performs.imp (Performs.result (f := Scalar.real) (fun _ => rfl) fun block rest => ?_)
    fun _ h => ⟨h.1, .of_real h.2.2 h.2.1⟩
  simp only [Image.execute, Call.state, hv.real]
  rfl

/-- A `cast` instruction on a scalar; `f` reads its result. -/
theorem computes_cast {δ : Type} {op : CastOp} {f : δ → Scalar} {a : δ}
    (h : ∀ block rest, image.cast (c.frame Γ block rest) op v ty = .ok (f a)) :
    Computes image c Γ (result ty (.cast · op v ty)) (.ok a)
      fun Δ u b => Δ.Has image c u (f b) ∧ u.ty = ty := by
  refine Performs.result (fun _ => rfl) fun block rest => ?_
  simp only [Image.execute, Call.state, h]
  rfl

/-- `load` of a scalar in memory; `f` reads it. -/
theorem computes_load {δ : Type} {f : δ → Scalar} {x : δ} {a : Int64}
    (hv : Γ.Has image c v (.int a)) (hx : Γ.world.memory.read ty (addressOf a) = .ok (f x)) :
    Computes image c Γ (load ty v) (.ok x) fun Δ u y => Δ.Has image c u (f y) ∧ u.ty = ty := by
  refine Performs.result (fun _ => rfl) fun block rest => ?_
  simp only [Image.execute, Call.state, hv.int]
  show (Γ.world.memory.read ty (addressOf a) >>= _) = _
  rw [hx]
  rfl

/-! ## Conversions -/

/-- `truth` computes `Datum.truth`. -/
theorem computes_truth (h : Denotes image c Γ v d) :
    Computes image c Γ (truth v) d.truth fun Δ u b => Denotes image c Δ u (.boolean b) := by
  have hty := h.ty
  cases d with
  | integer n =>
    rw [show truth v = result .boolean (.icmp · .ne v (.int 0 64)) by
      simp only [truth, hty, Datum.ty]]
    exact computes_icmp .ne h.integer (.constant 0 64)
  | real r =>
    rw [show truth v = result .boolean (.fcmp · .one v (.real .zero)) by
      simp only [truth, hty, Datum.ty]]
    have hholds : realHolds .one r .zero = ((r.compare? .zero).map (· != .eq)).getD false := by
      unfold realHolds
      cases r.compare? .zero <;> rfl
    rw [Datum.truth, ← hholds]
    exact computes_fcmp .one h.real (.double .zero)
  | boolean b =>
    rw [show truth v = pure v by simp only [truth, hty, Datum.ty]]
    exact .pure ⟨rfl, h⟩
  | string text =>
    rw [show truth v = fail (.typeMismatch .boolean .ptr) by simp only [truth, hty, Datum.ty]]
    exact .fail _

/-- `coerce` to an INTEGER computes `Datum.toInteger`. -/
theorem computes_toInteger (h : Denotes image c Γ v d) :
    Computes image c Γ (coerce v .integer) d.toInteger
      fun Δ u n => Denotes image c Δ u (.integer n) := by
  have hty := h.ty
  cases d with
  | integer n =>
    rw [show coerce v .integer = pure v by simp only [coerce, hty, Datum.ty, if_true]]
    exact .pure ⟨rfl, h⟩
  | real r =>
    rw [show coerce v .integer = result .integer (.cast · .fptosi v .integer) by
      simp [coerce, hty, Datum.ty]]
    refine Performs.imp (computes_cast (f := Scalar.int) fun block rest => ?_)
      fun _ h => ⟨h.1, .of_integer h.2.2 h.2.1⟩
    simp only [Image.cast, h.real.real]
    rfl
  | boolean b =>
    rw [show coerce v .integer = result .integer (.cast · .sext v .integer) by
      simp [coerce, hty, Datum.ty]]
    refine Performs.imp (computes_cast (f := Scalar.int) fun block rest => ?_)
      fun _ h => ⟨h.1, .of_integer h.2.2 h.2.1⟩
    simp only [Image.cast, h.boolean.int]
    rfl
  | string text =>
    rw [show coerce v .integer = fail (.typeMismatch .integer .ptr) by
      simp [coerce, hty, Datum.ty]]
    exact .fail _

/-- `coerce` to a REAL computes `Datum.toReal`. -/
theorem computes_toReal (h : Denotes image c Γ v d) :
    Computes image c Γ (coerce v .real) d.toReal
      fun Δ u r => Denotes image c Δ u (.real r) := by
  have hty := h.ty
  have hsitofp {n : Int64} (hn : Γ.Has image c v (.int n)) :
      Computes image c Γ (result .real (.cast · .sitofp v .real)) (.ok (.ofInt64 n))
        fun Δ u r => Denotes image c Δ u (.real r) := by
    refine Performs.imp (computes_cast (f := Scalar.real) fun block rest => ?_)
      fun _ h => ⟨h.1, .of_real h.2.2 h.2.1⟩
    simp only [Image.cast, hn.int]
    rfl
  cases d with
  | integer n =>
    rw [show coerce v .real = result .real (.cast · .sitofp v .real) by
      simp [coerce, hty, Datum.ty]]
    exact hsitofp h.integer
  | real r =>
    rw [show coerce v .real = pure v by simp only [coerce, hty, Datum.ty, if_true]]
    exact .pure ⟨rfl, h⟩
  | boolean b =>
    rw [show coerce v .real = result .real (.cast · .sitofp v .real) by
      simp [coerce, hty, Datum.ty]]
    exact hsitofp h.boolean
  | string text =>
    rw [show coerce v .real = fail (.typeMismatch .real .ptr) by
      simp [coerce, hty, Datum.ty]]
    exact .fail _

/-- `coerce` to a BOOLEAN is `truth`. -/
theorem coerce_boolean (v : Value) : coerce v .boolean = truth v := by
  unfold coerce
  split
  · rename_i hty
    simp only [truth, hty]
  · rfl

/-- `coerce` to any type of values computes `Datum.convert`. -/
theorem computes_coerce {into : Ty} (hbits : ∀ bits, into = .int bits → bits = 64 ∨ bits = 1)
    (h : Denotes image c Γ v d) :
    Computes image c Γ (coerce v into) (d.convert into)
      fun Δ u e => Denotes image c Δ u e ∧ u.ty = into := by
  cases into with
  | int bits =>
    rcases hbits bits rfl with rfl | rfl
    · exact Performs.map (computes_toInteger h) fun _ h => ⟨h.1, h.2, h.2.ty⟩
    · rw [coerce_boolean]
      exact Performs.map (computes_truth h) fun _ h => ⟨h.1, h.2, h.2.ty⟩
  | real => exact Performs.map (computes_toReal h) fun _ h => ⟨h.1, h.2, h.2.ty⟩
  | ptr =>
    have hty := h.ty
    cases d with
    | string text =>
      rw [show coerce v .ptr = pure v by simp only [coerce, hty, Datum.ty, if_true]]
      exact .pure ⟨rfl, h, hty⟩
    | _ =>
      rw [show coerce v .ptr = fail (.typeMismatch .ptr v.ty) by simp [coerce, hty, Datum.ty]]
      exact .fail _
  | void =>
    have hty := h.ty
    cases d with
    | _ =>
      rw [show coerce v .void = fail (.typeMismatch .void v.ty) by simp [coerce, hty, Datum.ty]]
      exact .fail _
  | array length element =>
    have hty := h.ty
    cases d with
    | _ =>
      rw [show coerce v (.array length element)
          = fail (.typeMismatch (.array length element) v.ty) by simp [coerce, hty, Datum.ty]]
      exact .fail _

/-- `coerce` to an exit status keeps the low half of a number. -/
theorem computes_status (h : Denotes image c Γ v d) :
    Computes image c Γ (coerce v .status) (d.toInteger.map Int64.toInt32)
      fun Δ u s => ∃ n, Δ.Has image c u (.int n) ∧ n.toInt32 = s := by
  have hty := h.ty
  cases d with
  | integer n =>
    rw [show coerce v .status = result .status (.cast · .trunc v .status) by
      simp [coerce, hty, Datum.ty]]
    refine Performs.map
      (computes_cast (f := fun n => Scalar.int (Word.wrap 32 n)) fun block rest => ?_)
      fun _ h => ⟨h.1, _, h.2.1, Word.toInt32_wrap _⟩
    simp only [Image.cast, h.integer.int]
    rfl
  | real r =>
    rw [show coerce v .status = result .status (.cast · .fptosi v .status) by
      simp [coerce, hty, Datum.ty]]
    refine Performs.map
      (computes_cast (f := fun n => Scalar.int (Word.wrap 32 n)) fun block rest => ?_)
      fun _ h => ⟨h.1, _, h.2.1, Word.toInt32_wrap _⟩
    simp only [Image.cast, h.real.real]
    rfl
  | boolean b =>
    rw [show coerce v .status = result .status (.cast · .sext v .status) by
      simp [coerce, hty, Datum.ty]]
    refine Performs.map (computes_cast (f := Scalar.int) fun block rest => ?_)
      fun _ h => ⟨h.1, _, h.2.1, rfl⟩
    simp only [Image.cast, h.boolean.int]
    rfl
  | string text =>
    rw [show coerce v .status = fail (.typeMismatch .status .ptr) by
      simp [coerce, hty, Datum.ty]]
    exact .fail _

/-! ## Operators -/

/-- `index` computes `Datum.index`: an INTEGER, or what counts as one. -/
theorem computes_index (h : Denotes image c Γ v d) :
    Computes image c Γ (index v) d.index fun Δ u n => Denotes image c Δ u (.integer n) := by
  have hty := h.ty
  cases d with
  | integer n =>
    rw [show index v = coerce v .integer by simp only [index, hty, Datum.ty]]
    exact computes_toInteger h
  | real r =>
    rw [show index v = fail (.typeMismatch .integer .real) by simp only [index, hty, Datum.ty]]
    exact .fail _
  | boolean b =>
    rw [show index v = coerce v .integer by simp only [index, hty, Datum.ty]]
    exact computes_toInteger h
  | string text =>
    rw [show index v = fail (.typeMismatch .integer .ptr) by simp only [index, hty, Datum.ty]]
    exact .fail _

/-- The type that `Ty.common` finds for values is one of values. -/
theorem common_bits {bits : Nat} (h : Ty.common d.ty e.ty = some (.int bits)) :
    bits = 64 ∨ bits = 1 := by
  cases d <;> cases e <;> simp [Ty.common, Datum.ty, Ty.isArray] at h <;> omega

/-- Two values in a common type, by `Datum.convert`. -/
def meet (ty : Ty) (d e : Datum) : Except Fault (Datum × Datum) := do
  let d ← d.convert ty
  let e ← e.convert ty
  .ok (d, e)

/-- `unify` computes `meet`, which converts both values to their common type. -/
theorem computes_unify (h : Denotes image c Γ v d) (h' : Denotes image c Γ w e)
    (hty : Ty.common d.ty e.ty = some ty) :
    Computes image c Γ (unify v w) (meet ty d e) fun Δ operands values =>
      Denotes image c Δ operands.1 values.1 ∧ Denotes image c Δ operands.2 values.2
        ∧ operands.1.ty = operands.2.ty := by
  have hbits : ∀ bits, ty = .int bits → bits = 64 ∨ bits = 1 := by
    rintro bits rfl
    exact common_bits hty
  have hcommon : Ty.common v.ty w.ty = some ty := by rw [h.ty, h'.ty, hty]
  rw [show unify v w = (do
    let lhs ← coerce v ty
    let rhs ← coerce w ty
    pure (lhs, rhs)) by simp only [unify, hcommon]]
  refine Computes.bind (computes_coerce hbits h) fun hle _ ha => ?_
  refine Computes.bind (computes_coerce hbits (h'.mono hle)) fun hle' _ hb => ?_
  exact .pure ⟨rfl, ha.1.mono hle', hb.1, ha.2.trans hb.2.symm⟩

/-- `unify` refuses operands without a common type. -/
theorem unify_eq_fail (h : v.ty = d.ty) (h' : w.ty = e.ty) (hty : Ty.common d.ty e.ty = none) :
    unify v w = fail (.typeMismatch d.ty e.ty) := by
  simp only [unify, h, h', hty]

theorem wrap_64 (n : Int64) : Word.wrap 64 n = n := by
  rw [Word.wrap, if_pos (.inr (Nat.le_refl 64))]

/-- `Machine.binary` on numbers of 64 bits is `Datum.integerOp`. -/
theorem binary_integer_eq {op : BinaryOp} {o : BinOp} (h : opFor? .integer op = some o)
    (a b : Int64) :
    Machine.binary o 64 (.int a) (.int b) = (Datum.integerOp op a b).map .int := by
  have hbinary (r : Except Fault Int64) :
      (do let value ← r; pure (Scalar.int (Word.wrap 64 value))) = r.map Scalar.int := by
    cases r with
    | error e => rfl
    | ok n => exact congrArg (Except.ok ∘ Scalar.int) (wrap_64 n)
  show (do let value ← integerOp o a b; pure (Scalar.int (Word.wrap 64 value))) = _
  rw [hbinary]
  cases op <;> cases h <;> rfl

/-- `Machine.binary` on truth values is `Datum.booleanOp`. -/
theorem binary_boolean_eq {op : BinaryOp} {o : BinOp} (h : opFor? .boolean op = some o)
    (a b : Bool) :
    Machine.binary o 1 (.int (Datum.ofTruth a)) (.int (Datum.ofTruth b))
      = (Datum.booleanOp op a b).map fun b => .int (Datum.ofTruth b) := by
  cases op <;> cases h <;> cases a <;> cases b <;> rfl

/-- `Machine.binary` on doubles is `Datum.realOp`. -/
theorem binary_real_eq {op : BinaryOp} {o : BinOp} (h : opFor? .real op = some o)
    (bits : Nat) (a b : Double) :
    Machine.binary o bits (.real a) (.real b) = (Datum.realOp op a b).map .real := by
  cases op <;> cases h <;> rfl

/-- The part of `arithmetic` behind `unify`: the operation of an operator, on operands of one
type. -/
def operation (op : BinaryOp) (v w : Value) : Emit Value :=
  match opFor? v.ty op with
  | some o => binary o v w
  | none => fail (.unsupportedOperator op.symbol v.ty)

theorem arithmetic_eq (op : BinaryOp) (v w : Value) :
    arithmetic op v w = (do let p ← unify v w; operation op p.1 p.2) := rfl

instance (op : BinaryOp) (v w : Value) : Straight (operation op v w) := by
  unfold operation
  split <;> infer_instance

/-- `Datum.binary` on two values of one type. -/
def operate (op : BinaryOp) : Datum → Datum → Except Fault Datum
  | .integer a, .integer b => (Datum.integerOp op a b).map .integer
  | .boolean a, .boolean b => (Datum.booleanOp op a b).map .boolean
  | .real a, .real b => (Datum.realOp op a b).map .real
  | _, _ => meaningless

/-- In `Datum.binary` operands first `meet` in their common type. -/
theorem binary_eq_operate (op : BinaryOp) (h : Ty.common d.ty e.ty = some ty) :
    d.binary op e = (do let p ← meet ty d e; operate op p.1 p.2) := by
  cases d <;> cases e <;> cases h <;> rfl

/-- `operation` computes `operate`, on operands of one type. -/
theorem computes_operate (op : BinaryOp) (h : Denotes image c Γ v d) (h' : Denotes image c Γ w e)
    (hty : v.ty = w.ty) :
    Computes image c Γ (operation op v w) (operate op d e)
      fun Δ u d => Denotes image c Δ u d := by
  rw [h.ty, h'.ty] at hty
  unfold operation
  rw [h.ty]
  -- operands of one type: the instruction is found by the type, the operation by the values
  match d, e, hty with
  | .integer a, .integer b, _ =>
    have hv : v.ty = .integer := h.ty
    show Computes image c Γ (match opFor? .integer op with | some o => _ | none => _) _ _
    cases hop : opFor? .integer op with
    | none => exact .fail _
    | some o =>
      have hbinary := binary_integer_eq hop a b
      refine Performs.map (computes_operation h.integer h'.integer (by rw [hv]; exact hbinary))
        fun _ h => ⟨h.1, .of_integer (h.2.2.trans hv) h.2.1⟩
  | .boolean a, .boolean b, _ =>
    have hv : v.ty = .boolean := h.ty
    show Computes image c Γ (match opFor? .boolean op with | some o => _ | none => _) _ _
    cases hop : opFor? .boolean op with
    | none => exact .fail _
    | some o =>
      have hbinary := binary_boolean_eq hop a b
      refine Performs.map (computes_operation h.boolean h'.boolean (by rw [hv]; exact hbinary))
        fun _ h => ⟨h.1, .of_boolean (h.2.2.trans hv) h.2.1⟩
  | .real a, .real b, _ =>
    have hv : v.ty = .real := h.ty
    show Computes image c Γ (match opFor? .real op with | some o => _ | none => _) _ _
    cases hop : opFor? .real op with
    | none => exact .fail _
    | some o =>
      have hbinary := binary_real_eq hop (widthOf v.ty) a b
      refine Performs.map (computes_operation h.real h'.real hbinary)
        fun _ h => ⟨h.1, .of_real (h.2.2.trans hv) h.2.1⟩
  | .string a, .string b, _ =>
    have hnone : opFor? .string op = none := by cases op <;> rfl
    simp only [Datum.ty, hnone]
    exact .fail _

/-- `arithmetic` computes `Datum.binary`. -/
theorem computes_arithmetic (op : BinaryOp) (h : Denotes image c Γ v d)
    (h' : Denotes image c Γ w e) :
    Computes image c Γ (arithmetic op v w) (d.binary op e)
      fun Δ u d => Denotes image c Δ u d := by
  rw [arithmetic_eq]
  cases hty : Ty.common d.ty e.ty with
  | none =>
    rw [unify_eq_fail h.ty h'.ty hty]
    exact .fail_bind _
  | some ty =>
    rw [binary_eq_operate op hty]
    exact Computes.bind (computes_unify h h' hty) fun _ _ hp =>
      computes_operate op hp.1 hp.2.1 hp.2.2

/-! ## Comparisons -/

theorem intHolds_eq (op : RelationOp) (a b : Int64) :
    intHolds (intPredicate op) a b = Datum.compareIntegers op a b := by
  cases op <;> rfl

theorem realHolds_eq (op : RelationOp) (a b : Double) :
    realHolds (realPredicate op) a b = Datum.compareReals op a b := by
  unfold realHolds Datum.compareReals
  cases a.compare? b with
  | none => rfl
  | some order => cases op <;> cases order <;> rfl

/-- The part of `compare` behind `unify`: the comparison of an operator, on operands of one type. -/
def comparison (op : RelationOp) (v w : Value) : Emit Value :=
  match v.ty with
  | .int _ => result .boolean (.icmp · (intPredicate op) v w)
  | .real => result .boolean (.fcmp · (realPredicate op) v w)
  | ty => fail (.unsupportedOperator op.symbol ty)

theorem compare_eq (op : RelationOp) (v w : Value) :
    compare op v w = (do let p ← unify v w; comparison op p.1 p.2) := rfl

instance (op : RelationOp) (v w : Value) : Straight (comparison op v w) := by
  unfold comparison
  split
  · exact ⟨traces_result fun _ => ⟨rfl, rfl⟩⟩
  · exact ⟨traces_result fun _ => ⟨rfl, rfl⟩⟩
  · infer_instance

/-- `Datum.relation` of two values of one type. -/
def relate (op : RelationOp) : Datum → Datum → Except Fault Bool
  | .integer a, .integer b => .ok (Datum.compareIntegers op a b)
  | .boolean a, .boolean b => .ok (Datum.compareIntegers op (Datum.ofTruth a) (Datum.ofTruth b))
  | .real a, .real b => .ok (Datum.compareReals op a b)
  | _, _ => meaningless

/-- In `Datum.relation` operands first `meet` in their common type. -/
theorem relation_eq_relate (op : RelationOp) (h : Ty.common d.ty e.ty = some ty) :
    d.relation op e = (do let p ← meet ty d e; relate op p.1 p.2) := by
  cases d <;> cases e <;> cases h <;> rfl

theorem computes_relate (op : RelationOp) (h : Denotes image c Γ v d)
    (h' : Denotes image c Γ w e) (hty : v.ty = w.ty) :
    Computes image c Γ (comparison op v w) (relate op d e)
      fun Δ u b => Denotes image c Δ u (.boolean b) := by
  rw [h.ty, h'.ty] at hty
  unfold comparison
  rw [h.ty]
  match d, e, hty with
  | .integer a, .integer b, _ =>
    rw [relate, ← intHolds_eq]
    exact computes_icmp _ h.integer h'.integer
  | .boolean a, .boolean b, _ =>
    rw [relate, ← intHolds_eq]
    exact computes_icmp _ h.boolean h'.boolean
  | .real a, .real b, _ =>
    rw [relate, ← realHolds_eq]
    exact computes_fcmp _ h.real h'.real
  | .string a, .string b, _ => exact .fail _

/-- `compare` computes `Datum.relation`. -/
theorem computes_compare (op : RelationOp) (h : Denotes image c Γ v d)
    (h' : Denotes image c Γ w e) :
    Computes image c Γ (compare op v w) (d.relation op e)
      fun Δ u b => Denotes image c Δ u (.boolean b) := by
  rw [compare_eq]
  cases hty : Ty.common d.ty e.ty with
  | none =>
    rw [unify_eq_fail h.ty h'.ty hty]
    exact .fail_bind _
  | some ty =>
    rw [relation_eq_relate op hty]
    exact Computes.bind (computes_unify h h' hty) fun _ _ hp =>
      computes_relate op hp.1 hp.2.1 hp.2.2

/-! ## Negations -/

theorem computes_not (h : Denotes image c Γ v d) :
    Computes image c Γ (not v) (do let b ← d.truth; .ok (.boolean !b))
      fun Δ u d => Denotes image c Δ u d := by
  refine Computes.bind (computes_truth h) fun {Δ u b} _ _ hb => ?_
  have hu : u.ty = .boolean := hb.ty
  have hxor : Machine.binary .xor (widthOf u.ty) (.int (Datum.ofTruth b)) (.int (Word.wrap 1 1))
      = (Except.ok !b).map fun b => .int (Datum.ofTruth b) := by
    rw [hu]
    cases b <;> rfl
  exact Performs.map (computes_operation hb.boolean (.constant 1 1) hxor)
    fun _ h => ⟨h.1, .of_boolean (h.2.2.trans hu) h.2.1⟩

/-- `negate` computes `Datum.negate`; a BOOLEAN is its own opposite. -/
theorem computes_negate (h : Denotes image c Γ v d) :
    Computes image c Γ (negate v) d.negate fun Δ u d => Denotes image c Δ u d := by
  have hty := h.ty
  cases d with
  | integer n =>
    rw [show negate v = result .integer (.binary · .sub (.int 0 64) v) by
      simp only [negate, hty, Datum.ty]]
    have hsub : Machine.binary .sub 64 (.int (Word.wrap 64 0)) (.int n)
        = (Except.ok (-n)).map .int := by
      show Except.ok (Scalar.int (Word.wrap 64 (Word.wrap 64 0 - n))) = _
      rw [wrap_64, wrap_64, Int64.zero_sub]
      rfl
    exact Performs.map (computes_operation (.constant 0 64) h.integer hsub)
      fun _ h => ⟨h.1, .of_integer h.2.2 h.2.1⟩
  | real r =>
    rw [show negate v = result .real (.fneg · v) by simp only [negate, hty, Datum.ty]]
    exact Performs.map (computes_fneg h.real) fun _ h => h
  | boolean b =>
    rw [show negate v = result .boolean (.binary · .sub (.int 0 1) v) by
      simp only [negate, hty, Datum.ty]]
    -- modulo two a number is its own negation
    have hsub : Machine.binary .sub 1 (.int (Word.wrap 1 0)) (.int (Datum.ofTruth b))
        = (Except.ok b).map fun b => .int (Datum.ofTruth b) := by
      cases b <;> rfl
    exact Performs.map (computes_operation (.constant 0 1) h.boolean hsub)
      fun _ h => ⟨h.1, .of_boolean h.2.2 h.2.1⟩
  | string text =>
    rw [show negate v = fail (.unsupportedOperator "-" .ptr) by simp only [negate, hty, Datum.ty]]
    exact .fail _

end Emit

end Oberon
