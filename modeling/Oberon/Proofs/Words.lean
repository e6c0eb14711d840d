import Mathlib.Algebra.Order.Ring.Int
import Oberon.Machine.Scalar
import Oberon.Number.Word

/-!
# Integers of a given width

An integer of `bits` bits is normal if it lies in the range of two's complement numbers of that
width. Wrapping gives the one normal integer that has the same low bits, and a normal integer
stays so in a greater width.
-/

namespace Oberon.Word

/-- An integer in the range of its width, `bits`. -/
def IsNormal (bits : Nat) (v : Int64) : Prop :=
  -2 ^ (bits - 1) ≤ v.toInt ∧ v.toInt < 2 ^ (bits - 1)

theorem two_pow_eq {bits : Nat} (h : 1 ≤ bits) : (2 : Int) ^ bits = 2 * 2 ^ (bits - 1) := by
  rw [← pow_succ']
  congr 1
  omega

theorem IsNormal.mono {a b : Nat} {v : Int64} (h : IsNormal a v) (hle : a ≤ b) :
    IsNormal b v := by
  have hpow : (2 : Int) ^ (a - 1) ≤ 2 ^ (b - 1) := pow_le_pow_right₀ (by decide) (by omega)
  unfold IsNormal at h ⊢
  omega

theorem isNormal_64 (v : Int64) : IsNormal 64 v :=
  ⟨v.le_toInt, v.toInt_lt⟩

theorem isNormal_ofBool (b : Bool) : IsNormal 1 (if b then -1 else 0) := by
  cases b
  · exact ⟨by decide, by decide⟩
  · exact ⟨by decide, by decide⟩

theorem smod_ofNat {count : Nat} (h : count < 64) :
    (Int64.ofNat count).toBitVec.smod 64 = BitVec.ofNat 64 count := by
  have hall : ∀ n : Fin 64, (Int64.ofNat n).toBitVec.smod 64 = BitVec.ofNat 64 n := by
    decide +kernel
  exact hall ⟨count, h⟩

/-- An arithmetic shift divides. -/
theorem toInt_shiftRight (v : Int64) {count : Nat} (h : count < 64) :
    (v >>> Int64.ofNat count).toInt = v.toInt / 2 ^ count := by
  show (v >>> Int64.ofNat count).toBitVec.toInt = _
  rw [Int64.toBitVec_shiftRight, smod_ofNat h, BitVec.toInt_sshiftRight',
    BitVec.toNat_ofNat, Nat.mod_eq_of_lt (by omega), Int.shiftRight_eq_div_pow]
  rfl

theorem isNormal_wrap {bits : Nat} (h : 1 ≤ bits) (h' : bits ≤ 64) (v : Int64) :
    IsNormal bits (wrap bits v) := by
  unfold wrap
  by_cases hfull : bits = 0 ∨ 64 ≤ bits
  · rw [if_pos hfull]
    obtain rfl : bits = 64 := by omega
    exact isNormal_64 v
  · rw [if_neg hfull]
    set w := v <<< Int64.ofNat (64 - bits)
    show -2 ^ (bits - 1) ≤ (w >>> Int64.ofNat (64 - bits)).toInt
      ∧ (w >>> Int64.ofNat (64 - bits)).toInt < 2 ^ (bits - 1)
    rw [toInt_shiftRight w (by omega)]
    have hsplit : (2 : Int) ^ 63 = 2 ^ (bits - 1) * 2 ^ (64 - bits) := by
      rw [← pow_add]
      congr 1
      omega
    have hpos : (0 : Int) < 2 ^ (64 - bits) := pow_pos (by decide) _
    have hlow : -2 ^ 63 ≤ w.toInt := w.le_toInt
    have hhigh : w.toInt < 2 ^ 63 := w.toInt_lt
    constructor
    · rw [Int.le_ediv_iff_mul_le hpos, neg_mul, ← hsplit]
      exact hlow
    · rw [Int.ediv_lt_iff_lt_mul hpos, ← hsplit]
      exact hhigh

/-- A word has the same low bits as an integer and as a natural number. -/
theorem toInt_toInt64_emod (w : UInt64) {bits : Nat} (h : bits ≤ 64) :
    w.toInt64.toInt % 2 ^ bits = (w.toNat : Int) % 2 ^ bits := by
  have hdvd : (2 : Int) ^ bits ∣ 2 ^ 64 := pow_dvd_pow 2 h
  have hall : w.toInt64.toInt % 2 ^ 64 = (w.toNat : Int) % 2 ^ 64 := by
    show w.toBitVec.toInt % 2 ^ 64 = _
    rw [BitVec.toInt_eq_toNat_bmod]
    exact Int.bmod_emod
  rw [← Int.emod_emod_of_dvd _ hdvd, hall, Int.emod_emod_of_dvd _ hdvd]

/-- A shift to the left multiplies, but for the bits that it drops. -/
theorem toInt_shiftLeft_emod (v : Int64) {count : Nat} (h : count < 64) :
    (v <<< Int64.ofNat count).toInt % 2 ^ 64 = v.toInt * 2 ^ count % 2 ^ 64 := by
  have hshift : (v <<< Int64.ofNat count).toInt
      = (v.toBitVec.toNat * 2 ^ count : Int).bmod (2 ^ 64) := by
    show (v <<< Int64.ofNat count).toBitVec.toInt = _
    rw [Int64.toBitVec_shiftLeft, smod_ofNat h, BitVec.shiftLeft_eq', BitVec.toInt_shiftLeft,
      BitVec.toNat_ofNat, Nat.mod_eq_of_lt (by omega), Nat.shiftLeft_eq]
    push_cast
    rfl
  have hnat : v.toInt % 2 ^ 64 = (v.toBitVec.toNat : Int) % 2 ^ 64 :=
    toInt_toInt64_emod v.toUInt64 le_rfl
  have hmod : (v <<< Int64.ofNat count).toInt % 2 ^ 64
      = v.toBitVec.toNat * 2 ^ count % 2 ^ 64 := by
    rw [hshift]
    exact Int.bmod_emod
  rw [hmod, Int.mul_emod, ← hnat, ← Int.mul_emod]

/-- `wrap` keeps the low bits. -/
theorem toInt_wrap_emod {bits : Nat} (h : 1 ≤ bits) (h' : bits ≤ 64) (v : Int64) :
    (wrap bits v).toInt % 2 ^ bits = v.toInt % 2 ^ bits := by
  unfold wrap
  by_cases hfull : bits = 0 ∨ 64 ≤ bits
  · rw [if_pos hfull]
  · rw [if_neg hfull]
    set w := v <<< Int64.ofNat (64 - bits) with hw
    show (w >>> Int64.ofNat (64 - bits)).toInt % _ = _
    have hmod := toInt_shiftLeft_emod v (show 64 - bits < 64 by omega)
    rw [← hw] at hmod
    have hsplit : (2 : Int) ^ 64 = 2 ^ bits * 2 ^ (64 - bits) := by
      rw [← pow_add]
      congr 1
      omega
    have hpos : (0 : Int) < 2 ^ (64 - bits) := pow_pos (by decide) _
    -- the shifted number is that of the low bits, up to multiples of `2 ^ 64`
    obtain ⟨q, hq⟩ := Int.dvd_of_emod_eq_zero (Int.emod_eq_emod_iff_emod_sub_eq_zero.mp hmod)
    have hvalue : w.toInt = (v.toInt + 2 ^ bits * q) * 2 ^ (64 - bits) := by
      rw [add_mul, mul_right_comm, ← hsplit]
      omega
    rw [toInt_shiftRight w (by omega), hvalue, Int.mul_ediv_cancel _ hpos.ne',
      Int.add_mul_emod_self_left]

/-- A number that `IsNormal` is the only one with its low bits. -/
theorem IsNormal.eq_of_emod {bits : Nat} {a b : Int64} (h : 1 ≤ bits) (ha : IsNormal bits a)
    (hb : IsNormal bits b) (hmod : a.toInt % 2 ^ bits = b.toInt % 2 ^ bits) : a = b := by
  apply Int64.toInt_inj.mp
  have hpow := two_pow_eq h
  unfold IsNormal at ha hb
  rw [hpow] at hmod
  set p : Int := 2 ^ (bits - 1)
  obtain ⟨q, hq⟩ := Int.dvd_of_emod_eq_zero (Int.emod_eq_emod_iff_emod_sub_eq_zero.mp hmod)
  have hp : 0 < p := pow_pos (by decide) _
  -- the difference is a multiple of `2 * p` and less than that in absolute value
  have hlow : -1 < q := by
    by_contra hq'
    have : 2 * p * q ≤ 2 * p * (-1) := Int.mul_le_mul_of_nonneg_left (by omega) (by omega)
    omega
  have hhigh : q < 1 := by
    by_contra hq'
    have : 2 * p * 1 ≤ 2 * p * q := Int.mul_le_mul_of_nonneg_left (by omega) (by omega)
    omega
  obtain rfl : q = 0 := by omega
  omega

/-- `wrap` of a number with the low bits of a normal one is that. -/
theorem IsNormal.wrap_eq {bits : Nat} {a b : Int64} (h : 1 ≤ bits) (h' : bits ≤ 64)
    (hb : IsNormal bits b) (hmod : a.toInt % 2 ^ bits = b.toInt % 2 ^ bits) : wrap bits a = b :=
  (isNormal_wrap h h' a).eq_of_emod h hb ((toInt_wrap_emod h h' a).trans hmod)

/-- `wrap` to 32 bits keeps the low half of a number. -/
theorem toInt32_wrap (v : Int64) : (wrap 32 v).toInt32 = v.toInt32 := by
  apply Int32.toInt_inj.mp
  have hmod : (wrap 32 v).toInt % (2 ^ 32 : Nat) = v.toInt % (2 ^ 32 : Nat) :=
    toInt_wrap_emod (by decide) (by decide) v
  rw [Int64.toInt_toInt32, Int64.toInt_toInt32, ← Int.emod_bmod, hmod, Int.emod_bmod]

theorem IsNormal.eq_zero_or_neg_one {n : Int64} (h : IsNormal 1 n) : n = 0 ∨ n = -1 := by
  obtain ⟨hle, hlt⟩ := h
  have hle : -1 ≤ n.toInt := hle
  have hlt : n.toInt < 1 := hlt
  obtain hzero | hone : n.toInt = 0 ∨ n.toInt = -1 := by omega
  · exact .inl (Int64.toInt_inj.mp hzero)
  · exact .inr (Int64.toInt_inj.mp hone)

theorem IsNormal.toInt_toInt32 {n : Int64} (h : IsNormal 32 n) :
    n.toInt32.toInt = n.toInt := by
  obtain ⟨hle, hlt⟩ := h
  rw [Int64.toInt_toInt32]
  exact Int.bmod_eq_of_le (by omega) (by omega)

end Oberon.Word
