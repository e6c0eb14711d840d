import Mathlib.Data.Int.ModEq
import Oberon.Machine.Arithmetic
import Oberon.Proofs.Words

/-!
# Two's complement arithmetic

Integers of all widths are computed with in 64 bits, and the result is wrapped to its width. The low
bits of a sum, a product or a logical operation depend on the low bits of the operands only, so
nothing is lost by computing in more bits than needed. A quotient depends on all bits of its
operands; here it counts that these are in the range of their width. The result is in each case that
of the operation on bit vectors of the width.
-/

namespace Oberon

open Code

/-! ## Bit vectors -/

/-- An operation that divides: `sdiv` or `srem`. -/
def Code.BinOp.IsDivision (op : BinOp) : Prop :=
  op = .sdiv ∨ op = .srem

/-- What an operation on integers is on bit vectors. The operations on doubles are none. -/
def Code.BinOp.onBits? (op : BinOp) {bits : Nat} (x y : BitVec bits) : Option (BitVec bits) :=
  match op with
  | .add => some (x + y)
  | .sub => some (x - y)
  | .mul => some (x * y)
  | .sdiv => some (x.sdiv y)
  | .srem => some (x.srem y)
  | .and => some (x &&& y)
  | .or => some (x ||| y)
  | .xor => some (x ^^^ y)
  | .fadd | .fsub | .fmul | .fdiv => none

namespace Word

variable {bits : Nat} {v x y : Int64}

/-- The low `bits` of an integer. -/
def lowBits (bits : Nat) (v : Int64) : BitVec bits :=
  BitVec.ofInt bits v.toInt

/-- An integer that `IsNormal` for its width is known by its low bits. -/
theorem IsNormal.toInt_lowBits (hv : IsNormal bits v) (h : 1 ≤ bits) :
    (lowBits bits v).toInt = v.toInt := by
  obtain ⟨hle, hlt⟩ := hv
  have hpow := two_pow_eq h
  rw [lowBits, BitVec.toInt_ofInt]
  apply Int.bmod_eq_of_le
  · push_cast
    omega
  · push_cast
    omega

/-- `wrap` reads the low bits as a signed number. -/
theorem toInt_wrap (h : 1 ≤ bits) (h' : bits ≤ 64) (v : Int64) :
    (wrap bits v).toInt = (lowBits bits v).toInt := by
  rw [← (isNormal_wrap h h' v).toInt_lowBits h]
  simp only [lowBits, BitVec.toInt_ofInt]
  rw [← Int.emod_bmod, ← Int.emod_bmod v.toInt]
  push_cast
  rw [toInt_wrap_emod h h' v]

/-! ## Operations -/

/-- `lowBits` cuts off the upper bits. -/
theorem lowBits_eq_setWidth (h : bits ≤ 64) (v : Int64) :
    lowBits bits v = v.toBitVec.setWidth bits := by
  apply BitVec.eq_of_toInt_eq
  have hv : v.toInt = (v.toBitVec.toNat : Int).bmod (2 ^ 64) := BitVec.toInt_eq_toNat_bmod _
  rw [lowBits, BitVec.toInt_ofInt, BitVec.toInt_setWidth, hv,
    Int.bmod_bmod_of_dvd (Nat.pow_dvd_pow 2 h)]

theorem lowBits_add (h : bits ≤ 64) (x y : Int64) :
    lowBits bits (x + y) = lowBits bits x + lowBits bits y := by
  simp only [lowBits_eq_setWidth h, Int64.toBitVec_add, BitVec.setWidth_add _ _ h]

theorem lowBits_sub (h : bits ≤ 64) (x y : Int64) :
    lowBits bits (x - y) = lowBits bits x - lowBits bits y := by
  rw [BitVec.eq_sub_iff_add_eq, ← lowBits_add h, Int64.sub_add_cancel]

theorem lowBits_mul (h : bits ≤ 64) (x y : Int64) :
    lowBits bits (x * y) = lowBits bits x * lowBits bits y := by
  simp only [lowBits_eq_setWidth h, Int64.toBitVec_mul, BitVec.setWidth_mul _ _ h]

theorem lowBits_and (h : bits ≤ 64) (x y : Int64) :
    lowBits bits (x &&& y) = lowBits bits x &&& lowBits bits y := by
  simp only [lowBits_eq_setWidth h, Int64.toBitVec_and, BitVec.setWidth_and]

theorem lowBits_or (h : bits ≤ 64) (x y : Int64) :
    lowBits bits (x ||| y) = lowBits bits x ||| lowBits bits y := by
  simp only [lowBits_eq_setWidth h, Int64.toBitVec_or, BitVec.setWidth_or]

theorem lowBits_xor (h : bits ≤ 64) (x y : Int64) :
    lowBits bits (x ^^^ y) = lowBits bits x ^^^ lowBits bits y := by
  simp only [lowBits_eq_setWidth h, Int64.toBitVec_xor, BitVec.setWidth_xor]

section

variable (h : 1 ≤ bits) (hx : IsNormal bits x) (hy : IsNormal bits y)
include h hx

/-- `lowBits` are those of the minimum only for the minimum of the width. -/
theorem lowBits_eq_intMin_iff :
    lowBits bits x = BitVec.intMin bits ↔ x.toInt = -2 ^ (bits - 1) := by
  rw [← BitVec.toInt_inj, hx.toInt_lowBits h, BitVec.toInt_intMin_of_pos h]

/-- `lowBits` are those of -1 only for -1. -/
theorem lowBits_eq_neg_one_iff : lowBits bits x = -BitVec.ofNat bits 1 ↔ x = -1 := by
  have hone : (-BitVec.ofNat bits 1).toInt = -1 := by
    rw [BitVec.neg_one_eq_allOnes, BitVec.toInt_allOnes, if_pos (Nat.zero_lt_of_lt h)]
  rw [← BitVec.toInt_inj, hx.toInt_lowBits h, hone, ← Int64.toInt_inj]
  rfl

include hy

/-- `lowBits` of a quotient are the signed quotient of the low bits. -/
theorem lowBits_div (h' : bits ≤ 64) :
    lowBits bits (x / y) = (lowBits bits x).sdiv (lowBits bits y) := by
  apply BitVec.eq_of_toInt_eq
  rw [BitVec.toInt_sdiv, hx.toInt_lowBits h, hy.toInt_lowBits h, lowBits, BitVec.toInt_ofInt,
    Int64.toInt_div, Int.bmod_bmod_of_dvd (Nat.pow_dvd_pow 2 h')]

/-- Unlike a quotient, a remainder never leaves the width, so `lowBits` of it need no upper bound on
`bits`. -/
theorem lowBits_mod : lowBits bits (x % y) = (lowBits bits x).srem (lowBits bits y) := by
  have hrem : ((lowBits bits x).srem (lowBits bits y)).toInt = x.toInt.tmod y.toInt := by
    rw [BitVec.toInt_srem, hx.toInt_lowBits h, hy.toInt_lowBits h]
  apply BitVec.eq_of_toInt_eq
  rw [lowBits, BitVec.toInt_ofInt, Int64.toInt_mod, ← hrem, BitVec.toInt_bmod_cancel]

end

/-- `wrap` gives the one integer in the range of the width that is congruent to what is wrapped. -/
theorem eq_toInt_wrap_iff (h : 1 ≤ bits) (h' : bits ≤ 64) (v : Int64) (w : Int) :
    w = (wrap bits v).toInt
      ↔ -2 ^ (bits - 1) ≤ w ∧ w < 2 ^ (bits - 1) ∧ w ≡ v.toInt [ZMOD 2 ^ bits] := by
  constructor
  · rintro rfl
    obtain ⟨hle, hlt⟩ := isNormal_wrap h h' v
    exact ⟨hle, hlt, toInt_wrap_emod h h' v⟩
  · rintro ⟨hle, hlt, hmod⟩
    have hpow : (2 : Int) ^ (bits - 1) ≤ 2 ^ 63 := pow_le_pow_right₀ (by decide) (by omega)
    have hw : (Int64.ofInt w).toInt = w := Int64.toInt_ofInt_of_le (by omega) (by omega)
    have hnormal : IsNormal bits (Int64.ofInt w) := by
      rw [IsNormal, hw]
      exact ⟨hle, hlt⟩
    rw [hnormal.wrap_eq h h' (by rw [hw]; exact hmod.symm), hw]

end Word

/-! ## The machine -/

namespace Machine

open Word

variable {bits : Nat} {x y : Int64} {op : BinOp} {z : BitVec bits}

section

variable (h : 1 ≤ bits) (h' : bits ≤ 64) (hx : IsNormal bits x) (hy : IsNormal bits y)
include h h' hx hy

/-- `integerOp` has a result unless it divides by zero, with the low bits of the operation on bit
vectors. -/
theorem integerOp_eq_ok (hop : op.onBits? (lowBits bits x) (lowBits bits y) = some z)
    (hzero : ¬ (op.IsDivision ∧ y = 0)) :
    ∃ value, integerOp op x y = .ok value ∧ lowBits bits value = z := by
  cases op with
  | add => exact ⟨_, rfl, (lowBits_add h' x y).trans (Option.some.inj hop)⟩
  | sub => exact ⟨_, rfl, (lowBits_sub h' x y).trans (Option.some.inj hop)⟩
  | mul => exact ⟨_, rfl, (lowBits_mul h' x y).trans (Option.some.inj hop)⟩
  | and => exact ⟨_, rfl, (lowBits_and h' x y).trans (Option.some.inj hop)⟩
  | or => exact ⟨_, rfl, (lowBits_or h' x y).trans (Option.some.inj hop)⟩
  | xor => exact ⟨_, rfl, (lowBits_xor h' x y).trans (Option.some.inj hop)⟩
  | sdiv =>
    have hne : y ≠ 0 := fun heq => hzero ⟨.inl rfl, heq⟩
    exact ⟨x / y, if_neg hne, (lowBits_div h hx hy h').trans (Option.some.inj hop)⟩
  | srem =>
    have hne : y ≠ 0 := fun heq => hzero ⟨.inr rfl, heq⟩
    exact ⟨x % y, if_neg hne, (lowBits_mod h hx hy).trans (Option.some.inj hop)⟩
  | fadd => cases hop
  | fsub => cases hop
  | fmul => cases hop
  | fdiv => cases hop

/-- `binary` has a result unless it divides by zero: the operation on bit vectors, read as a signed
number. -/
theorem binary_eq_ok (hop : op.onBits? (lowBits bits x) (lowBits bits y) = some z)
    (hzero : ¬ (op.IsDivision ∧ y = 0)) :
    ∃ w, binary op bits (.int x) (.int y) = .ok (.int w) ∧ IsNormal bits w
      ∧ w.toInt = z.toInt := by
  obtain ⟨value, hvalue, rfl⟩ := integerOp_eq_ok h h' hx hy hop hzero
  refine ⟨wrap bits value, ?_, isNormal_wrap h h' value, toInt_wrap h h' value⟩
  rw [binary, hvalue]
  rfl

/-- Only a division by zero is a fault of `binary`. -/
theorem binary_eq_error_iff (hop : op.onBits? (lowBits bits x) (lowBits bits y) = some z) :
    binary op bits (.int x) (.int y) = .error .divisionByZero ↔ op.IsDivision ∧ y = 0 := by
  constructor
  · intro herror
    by_contra hzero
    obtain ⟨w, hw, -⟩ := binary_eq_ok h h' hx hy hop hzero
    rw [hw] at herror
    cases herror
  · rintro ⟨rfl | rfl, rfl⟩
    · rfl
    · rfl

/-- A quotient of `binary` that stays in the width is rounded toward zero, and the remainder goes
with it. -/
theorem binary_truncates (hzero : y ≠ 0) (hmin : ¬ (x.toInt = -2 ^ (bits - 1) ∧ y = -1)) :
    ∃ q r, binary .sdiv bits (.int x) (.int y) = .ok (.int q)
      ∧ binary .srem bits (.int x) (.int y) = .ok (.int r)
      ∧ q.toInt = x.toInt.tdiv y.toInt ∧ r.toInt = x.toInt.tmod y.toInt := by
  have hdiv : BinOp.sdiv.onBits? (lowBits bits x) (lowBits bits y) = some _ := rfl
  have hmod : BinOp.srem.onBits? (lowBits bits x) (lowBits bits y) = some _ := rfl
  obtain ⟨q, hq, -, hquot⟩ := binary_eq_ok h h' hx hy hdiv fun hop => hzero hop.2
  obtain ⟨r, hr, -, hrem⟩ := binary_eq_ok h h' hx hy hmod fun hop => hzero hop.2
  refine ⟨q, r, hq, hr, ?_, ?_⟩
  · have hstays : lowBits bits x ≠ BitVec.intMin bits ∨ lowBits bits y ≠ -BitVec.ofNat bits 1 := by
      rw [← not_and_or, lowBits_eq_intMin_iff h hx, lowBits_eq_neg_one_iff h hy]
      exact hmin
    rw [hquot, BitVec.toInt_sdiv_of_ne_or_ne _ _ hstays, hx.toInt_lowBits h, hy.toInt_lowBits h]
  · rw [hrem, BitVec.toInt_srem, hx.toInt_lowBits h, hy.toInt_lowBits h]

end

/-- The quotient of the minimum by -1 leaves the width, and wraps to the minimum. -/
theorem binary_minimum (h : 1 ≤ bits) (h' : bits ≤ 64) (hmin : x.toInt = -2 ^ (bits - 1)) :
    binary .sdiv bits (.int x) (.int (-1)) = .ok (.int x)
      ∧ binary .srem bits (.int x) (.int (-1)) = .ok (.int 0) := by
  have hpos : (0 : Int) < 2 ^ (bits - 1) := pow_pos (by decide) _
  have hx : IsNormal bits x := ⟨hmin.ge, by omega⟩
  have hone : IsNormal bits (-1) := (isNormal_ofBool true).mono h
  have hdiv : BinOp.sdiv.onBits? (lowBits bits x) (lowBits bits (-1)) = some _ := rfl
  have hmod : BinOp.srem.onBits? (lowBits bits x) (lowBits bits (-1)) = some _ := rfl
  obtain ⟨q, hq, -, hquot⟩ := binary_eq_ok h h' hx hone hdiv fun hop => absurd hop.2 (by decide)
  obtain ⟨r, hr, -, hrem⟩ := binary_eq_ok h h' hx hone hmod fun hop => absurd hop.2 (by decide)
  constructor
  · rw [(lowBits_eq_intMin_iff h hx).mpr hmin, (lowBits_eq_neg_one_iff h hone).mpr rfl,
      BitVec.intMin_sdiv_neg_one, BitVec.toInt_intMin_of_pos h, ← hmin] at hquot
    rw [hq, Int64.toInt_inj.mp hquot]
  · rw [BitVec.toInt_srem, hone.toInt_lowBits h] at hrem
    have hzero : r.toInt = 0 := hrem.trans ((Int.tmod_neg _ 1).trans (Int.tmod_one _))
    rw [hr, Int64.toInt_inj.mp (hzero.trans Int64.toInt_zero.symm)]

/-- Arithmetic on integers of a width is that on bit vectors of this width, read as signed numbers.
Division by zero is its only fault, and the minimum divided by -1 is the minimum again. Wrapping
gives the one number in the range of the width that is congruent to what is wrapped. -/
theorem binary_twosComplement {bits : Nat} (h : 1 ≤ bits) (h' : bits ≤ 64) :
    (∀ op x y z, IsNormal bits x → IsNormal bits y →
        BinOp.onBits? op (lowBits bits x) (lowBits bits y) = some z →
        (binary op bits (.int x) (.int y) = .error .divisionByZero ↔ op.IsDivision ∧ y = 0)
          ∧ (¬ (op.IsDivision ∧ y = 0) → ∃ w, binary op bits (.int x) (.int y) = .ok (.int w)
            ∧ IsNormal bits w ∧ w.toInt = z.toInt))
      ∧ (∀ x y, IsNormal bits x → IsNormal bits y → y ≠ 0 →
        ¬ (x.toInt = -2 ^ (bits - 1) ∧ y = -1) →
        ∃ q r, binary .sdiv bits (.int x) (.int y) = .ok (.int q)
          ∧ binary .srem bits (.int x) (.int y) = .ok (.int r)
          ∧ q.toInt = x.toInt.tdiv y.toInt ∧ r.toInt = x.toInt.tmod y.toInt)
      ∧ (∀ x : Int64, x.toInt = -2 ^ (bits - 1) →
        binary .sdiv bits (.int x) (.int (-1)) = .ok (.int x)
          ∧ binary .srem bits (.int x) (.int (-1)) = .ok (.int 0))
      ∧ ∀ (v : Int64) (w : Int), w = (wrap bits v).toInt
        ↔ -2 ^ (bits - 1) ≤ w ∧ w < 2 ^ (bits - 1) ∧ w ≡ v.toInt [ZMOD 2 ^ bits] :=
  ⟨fun _ _ _ _ hx hy hop =>
      ⟨binary_eq_error_iff h h' hx hy hop, binary_eq_ok h h' hx hy hop⟩,
    fun _ _ hx hy hzero hmin => binary_truncates h h' hx hy hzero hmin,
    fun _ hmin => binary_minimum h h' hmin,
    eq_toInt_wrap_iff h h'⟩

/-- In one bit there are the truth value -1, which is the minimum, and 0. -/
theorem binary_twosComplement_truth :
    binary .sdiv 1 (.int (-1)) (.int (-1)) = .ok (.int (-1))
      ∧ binary .srem 1 (.int 0) (.int 0) = .error .divisionByZero
      ∧ (∃ w, binary .add 1 (.int (-1)) (.int (-1)) = .ok (.int w) ∧ w.toInt = 0)
      ∧ (∃ w, binary .mul 5 (.int 15) (.int (-3)) = .ok (.int w) ∧ w.toInt = -13)
      ∧ (wrap 5 16).toInt = -16 := by
  obtain ⟨hbits, -, hmin, -⟩ := binary_twosComplement (show 1 ≤ 1 by decide) (by decide)
  obtain ⟨hfive, -, -, hwrap⟩ := binary_twosComplement (show 1 ≤ 5 by decide) (by decide)
  have htrue : IsNormal 1 (-1) := ⟨by decide, by decide⟩
  have hfalse : IsNormal 1 0 := ⟨by decide, by decide⟩
  refine ⟨(hmin (-1) rfl).1, ?_, ?_, ?_, ?_⟩
  · exact (hbits .srem 0 0 _ hfalse hfalse rfl).1.mpr ⟨.inr rfl, rfl⟩
  · obtain ⟨w, hw, -, hvalue⟩ := (hbits .add (-1) (-1) _ htrue htrue rfl).2 (by rintro ⟨-, ⟨⟩⟩)
    exact ⟨w, hw, hvalue⟩
  · obtain ⟨w, hw, -, hvalue⟩ := (hfive .mul 15 (-3) _ ⟨by decide, by decide⟩
      ⟨by decide, by decide⟩ rfl).2 (by rintro ⟨-, ⟨⟩⟩)
    exact ⟨w, hw, hvalue⟩
  · exact ((hwrap 16 (-16)).mpr ⟨by decide, by decide, by decide⟩).symm

end Machine

end Oberon
