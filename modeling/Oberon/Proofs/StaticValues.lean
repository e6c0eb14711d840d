import Oberon.Proofs.Aliases
import Oberon.Proofs.Computations

/-!
# Values that are known before a program runs

The compiler folds constants with operators of its own, which have no value where the operators of
a running program would wrap around or fault. The meaning of a module says which values are known
by what the operators of a running program do (`Expr.known?`). Both know the same values.
-/

namespace Oberon

open Code

/-! ## Integers -/

/-- `Word.ofInt?` has the integers of 64 bits. -/
theorem Word.ofInt?_eq (i : Int) :
    ofInt? i = if Datum.fits i then some (Int64.ofInt i) else none := by
  have hmin : Int64.minValue.toInt = -2 ^ 63 := rfl
  have hmax : Int64.maxValue.toInt = 2 ^ 63 - 1 := rfl
  rw [ofInt?, hmin, hmax, Datum.fits]
  exact if_congr (by simp; omega) rfl rfl

namespace Constant

/-- The operators of `Constant.integerOp` are those of a running program, without results that
would have wrapped around. -/
theorem integerOp_eq (op : BinaryOp) (a b : Int64) : integerOp op a b
    = if Datum.isExact op a b then (Datum.integerOp op a b).toOption else none := by
  have hdiv : Int64.ofInt (a.toInt.tdiv b.toInt) = a / b := by
    apply Int64.toInt_inj.mp
    rw [Int64.toInt_ofInt, Int64.toInt_div]
  have hmod : Int64.ofInt (a.toInt.tmod b.toInt) = a % b := by
    rw [← Int64.toInt_mod, Int64.ofInt_toInt]
  have hquotient : Word.div? a b
      = if Datum.isExact .div a b then (Datum.integerOp .div a b).toOption else none := by
    rw [Word.div?, Word.ofInt?_eq, hdiv, Datum.isExact, Datum.integerOp]
    by_cases hb : b = 0
    · rw [if_pos hb, if_pos hb]
      exact (ite_self none).symm
    · rw [if_neg hb, if_neg hb]
      rfl
  cases op with
  | add =>
    rw [integerOp, Word.add?, Word.ofInt?_eq, Int64.ofInt_add, Int64.ofInt_toInt, Int64.ofInt_toInt]
    rfl
  | sub =>
    rw [integerOp, Word.sub?, Word.ofInt?_eq, Int64.ofInt_sub, Int64.ofInt_toInt, Int64.ofInt_toInt]
    rfl
  | mul =>
    rw [integerOp, Word.mul?, Word.ofInt?_eq, Int64.ofInt_mul, Int64.ofInt_toInt, Int64.ofInt_toInt]
    rfl
  | divide => exact hquotient
  | div => exact hquotient
  | mod =>
    rw [integerOp, Word.mod?, hquotient, hmod]
    show Option.map _ (if Datum.fits _ then _ else none) = if Datum.fits _ then _ else none
    split
    · rw [Datum.integerOp, Datum.integerOp]
      split <;> rfl
    · rfl
  | and => rfl
  | or => rfl

/-- `Constant.holds` of the order of two integers is `Datum.compareIntegers`. -/
theorem holds_compareIntegers (op : RelationOp) (a b : Int64) :
    holds op (compareIntegers a b) = Datum.compareIntegers op a b := by
  have hlt : a < b ↔ a.toInt < b.toInt := Int64.lt_iff_toInt_lt
  have hgt : b < a ↔ b.toInt < a.toInt := Int64.lt_iff_toInt_lt
  have hle : a ≤ b ↔ a.toInt ≤ b.toInt := Int64.le_iff_toInt_le
  have hge : b ≤ a ↔ b.toInt ≤ a.toInt := Int64.le_iff_toInt_le
  have heq : a = b ↔ a.toInt = b.toInt := Int64.toInt_inj.symm
  unfold compareIntegers
  rcases Int.lt_trichotomy a.toInt b.toInt with h | h | h
  · have hall : a < b ∧ ¬ b < a ∧ a ≤ b ∧ ¬ b ≤ a ∧ ¬ a = b := by
      rw [hlt, hgt, hle, hge, heq]
      omega
    cases op <;> simp only [Datum.compareIntegers, ne_eq, hall] <;> rfl
  · have hall : ¬ a < b ∧ ¬ b < a ∧ a ≤ b ∧ b ≤ a ∧ a = b := by
      rw [hlt, hgt, hle, hge, heq]
      omega
    obtain ⟨hlt, hgt, hle, hge, rfl⟩ := hall
    cases op <;> simp only [Datum.compareIntegers, ne_eq, hlt, hle] <;> rfl
  · have hall : ¬ a < b ∧ b < a ∧ ¬ a ≤ b ∧ b ≤ a ∧ ¬ a = b := by
      rw [hlt, hgt, hle, hge, heq]
      omega
    cases op <;> simp only [Datum.compareIntegers, ne_eq, hall] <;> rfl

/-! ## Other values -/

/-- `Constant.realOp` has the values of `Datum.realOp`. -/
theorem realOp_eq (op : BinaryOp) (a b : Double) :
    realOp op a b = (Datum.realOp op a b).toOption := by
  cases op <;> rfl

/-- `Constant.holds` of the order of two doubles is `Datum.compareReals`. -/
theorem holds_compare? (op : RelationOp) (a b : Double) :
    ((a.compare? b).map (holds op)).getD false = Datum.compareReals op a b := by
  unfold Datum.compareReals
  cases a.compare? b with
  | none => rfl
  | some order => cases op <;> cases order <;> rfl

/-! ## Operators -/

variable (a b : Constant)

/-- `Constant.binary` has the values that are known. -/
theorem binary_eq (op : BinaryOp) : (a.binary op b).map datum
    = if a.datum.isStatic op b.datum then (a.datum.binary op b.datum).toOption else none := by
  have hreal (x y : Double) : ((realOp op x y).map real).map datum
      = ((Datum.realOp op x y).map Datum.real).toOption := by
    rw [realOp_eq]
    cases Datum.realOp op x y <;> rfl
  cases a with
  | integer x =>
    cases b with
    | integer y =>
      show ((integerOp op x y).map integer).map datum = if Datum.isExact op x y
        then ((Datum.integerOp op x y).map Datum.integer).toOption else none
      rw [integerOp_eq]
      split
      · cases Datum.integerOp op x y <;> rfl
      · rfl
    | real y => exact hreal _ _
    | boolean y => rfl
    | string y => rfl
  | real x =>
    cases b with
    | integer y => exact hreal _ _
    | real y => exact hreal _ _
    | boolean y => rfl
    | string y => rfl
  | boolean x =>
    cases b with
    | integer y => rfl
    | real y => rfl
    | boolean y => cases op <;> rfl
    | string y => rfl
  | string x => cases b <;> rfl

/-- `Constant.relation` has the comparisons whose results are known. -/
theorem relation_eq (op : RelationOp) : (a.relation op b).map datum
    = if a.datum.isStaticRelation op b.datum
      then ((a.datum.relation op b.datum).map Datum.boolean).toOption else none := by
  have hreal (x y : Double) :
      some (Datum.boolean (((x.compare? y).map (holds op)).getD false))
        = some (.boolean (Datum.compareReals op x y)) := by
    rw [holds_compare?]
  cases a with
  | integer x =>
    cases b with
    | integer y => exact congrArg (some ∘ Datum.boolean) (holds_compareIntegers op x y)
    | real y => exact hreal _ _
    | boolean y => rfl
    | string y => rfl
  | real x =>
    cases b with
    | integer y => exact hreal _ _
    | real y => exact hreal _ _
    | boolean y => rfl
    | string y => rfl
  | boolean x =>
    cases b with
    | integer y => rfl
    | real y => rfl
    | boolean y => cases op <;> cases x <;> cases y <;> rfl
    | string y => rfl
  | string x => cases b <;> rfl

/-- `Constant.negate` has the opposites that are known. -/
theorem negate_eq : a.negate.map datum
    = if a.datum.isStaticOpposite then a.datum.negate.toOption else none := by
  cases a with
  | integer v =>
    show ((Word.neg? v).map integer).map datum
      = if Datum.fits (-v.toInt) then some (.integer (-v)) else none
    rw [Word.neg?, Word.ofInt?_eq, Int64.ofInt_neg, Int64.ofInt_toInt]
    split <;> rfl
  | real x => rfl
  | boolean x => rfl
  | string x => rfl

/-- `Constant.not` has the negations that are known. -/
theorem not_eq : a.not.map datum = if a.datum.isStaticNegation
    then (a.datum.truth.map fun b => Datum.boolean !b).toOption else none := by
  cases a with
  | integer v =>
    show some (Datum.boolean (decide (v = 0))) = some (Datum.boolean !(decide (v ≠ 0)))
    simp
  | real x => rfl
  | boolean x => rfl
  | string x => rfl

end Constant

/-! ## Expressions -/

/-- Values of constants that are those `Environment.constant?` has for them. -/
def Environment.Knows (env : Environment) (constants : List (String × Datum)) : Prop :=
  ∀ name, constants.lookup name = (env.constant? name).map Constant.datum

variable {env : Environment} {constants : List (String × Datum)}

/-- The values that `Expr.fold` finds are those that are known. -/
theorem Expr.known?_eq (h : env.Knows constants) (e : Expr) :
    e.known? constants = (e.fold env).map Constant.datum := by
  induction e using Expr.induction with
  | literal value => cases value <;> rfl
  | designator name selectors =>
    cases selectors with
    | nil => exact h name
    | cons => rfl
  | call callee arguments => rfl
  | not operand ih =>
    rw [known?, ih, fold]
    cases operand.fold env with
    | none => rfl
    | some a => exact a.not_eq.symm
  | negate operand ih =>
    rw [known?, ih, fold]
    cases operand.fold env with
    | none => rfl
    | some a => exact a.negate_eq.symm
  | binary lhs op rhs ihl ihr =>
    rw [known?, ihl, ihr, fold]
    cases lhs.fold env with
    | none => rfl
    | some a =>
      cases rhs.fold env with
      | none => rfl
      | some b => exact (a.binary_eq b op).symm
  | relation lhs op rhs ihl ihr =>
    rw [known?, ihl, ihr, fold]
    cases lhs.fold env with
    | none => rfl
    | some a =>
      cases rhs.fold env with
      | none => rfl
      | some b => exact (a.relation_eq b op).symm

/-- The length that `Expr.dimension` finds is the one that is written. -/
theorem Expr.length_eq (h : env.Knows constants) (e : Expr) :
    e.length constants = e.dimension env := by
  rw [length, dimension, e.known?_eq h]
  cases e.fold env with
  | none => rfl
  | some value =>
    cases value with
    | integer v =>
      have hlow : 0 < v ↔ 1 ≤ v.toInt := Int64.lt_iff_toInt_lt
      have hhigh : v ≤ 4294967295 ↔ v.toInt ≤ 4294967295 := Int64.le_iff_toInt_le
      refine if_congr ?_ rfl rfl
      rw [Bool.and_eq_true, decide_eq_true_iff, decide_eq_true_iff, hlow, hhigh]
      omega
    | _ => rfl

end Oberon
