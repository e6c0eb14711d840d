import Mathlib.Algebra.Order.Ring.Nat
import Oberon.Machine.Memory

/-!
# Bytes and words in memory

What each operation of memory does to a single byte, and what reading a word gives after a word
was written, at the same place or at another one.
-/

namespace Oberon.Machine.Memory

variable (m : Memory)

/-! ## Sizes -/

@[simp]
theorem size_set (i : Nat) (b : UInt8) : (m.set i b).size = m.size := by
  unfold set
  split <;> rfl

@[simp]
theorem size_setAll (address : Nat) (bytes : List UInt8) :
    (m.setAll address bytes).size = m.size := by
  induction bytes generalizing m address with
  | nil => rfl
  | cons b rest ih => rw [setAll, ih, size_set]

@[simp]
theorem size_writeWord (address count : Nat) (v : UInt64) :
    (m.writeWord address count v).size = m.size := by
  induction count generalizing m address v with
  | zero => rfl
  | succ count ih => rw [writeWord, ih, size_set]

@[simp]
theorem size_copyFrom (source : Memory) (destination origin count : Nat) :
    (m.copyFrom source destination origin count).size = m.size := by
  induction count generalizing m destination origin with
  | zero => rfl
  | succ count ih => rw [copyFrom, ih, size_set]

/-! ## Bytes -/

theorem get_of_size_le {i : Nat} (h : m.size ≤ i) : m.get i = 0 :=
  m.zero_beyond i h

/-- `Memory.set` changes one byte, if that is in memory. -/
theorem get_set (i : Nat) (b : UInt8) (j : Nat) :
    (m.set i b).get j = if j = i ∧ i < m.size then b else m.get j := by
  unfold set
  by_cases hi : i < m.size
  · rw [dif_pos hi]
    show peek (poke m.bytes i b) j = _
    rw [peek_poke]
    simp only [hi, and_true]
    rfl
  · rw [dif_neg hi, if_neg (fun h => hi h.2)]

@[simp]
theorem get_extend (size i : Nat) : (m.extend size).get i = m.get i :=
  rfl

theorem get_truncate {size i : Nat} (h : i < size) : (m.truncate size).get i = m.get i := by
  show peek (wipe size _ m.bytes) i = _
  rw [peek_wipe, if_neg (by omega)]
  rfl

/-- `setAll` changes no byte outside of those it writes. -/
theorem get_setAll_of_outside {address i : Nat} {bytes : List UInt8}
    (h : i < address ∨ address + bytes.length ≤ i) :
    (m.setAll address bytes).get i = m.get i := by
  induction bytes generalizing m address with
  | nil => rfl
  | cons b rest ih =>
    rw [List.length_cons] at h
    rw [setAll, ih _ (by omega), get_set, if_neg (by omega)]

/-- Bytes that `setAll` wrote in a row are there. -/
theorem get_setAll {address : Nat} {bytes : List UInt8}
    (hsize : address + bytes.length ≤ m.size) {i : Nat} {b : UInt8} (hb : bytes[i]? = some b) :
    (m.setAll address bytes).get (address + i) = b := by
  induction bytes generalizing m address i with
  | nil => exact nomatch hb
  | cons first rest ih =>
    rw [List.length_cons] at hsize
    rw [setAll]
    cases i with
    | zero =>
      obtain rfl := Option.some.inj hb
      rw [get_setAll_of_outside _ (by omega), get_set, if_pos (by omega)]
    | succ i =>
      rw [← Nat.add_assoc, Nat.add_right_comm]
      exact ih (m.set address first) (by rw [size_set]; omega) hb

/-- `writeWord` changes no byte outside of those it writes. -/
theorem get_writeWord_of_outside {address count i : Nat} {v : UInt64}
    (h : i < address ∨ address + count ≤ i) : (m.writeWord address count v).get i = m.get i := by
  induction count generalizing m address v with
  | zero => rfl
  | succ count ih => rw [writeWord, ih _ (by omega), get_set, if_neg (by omega)]

/-- `copyFrom` reads all its bytes from the source as it was before. -/
theorem get_copyFrom (source : Memory) {destination origin count : Nat}
    (hsize : destination + count ≤ m.size) (i : Nat) :
    (m.copyFrom source destination origin count).get i
      = if destination ≤ i ∧ i < destination + count then source.get (origin + (i - destination))
        else m.get i := by
  induction count generalizing m destination origin with
  | zero => rw [copyFrom, if_neg (by omega)]
  | succ count ih =>
    rw [copyFrom, ih _ (by rw [size_set]; omega), get_set]
    by_cases hfirst : i = destination
    · subst hfirst
      rw [if_neg (by omega), if_pos (by omega), if_pos (by omega), Nat.sub_self, Nat.add_zero]
    · by_cases hin : destination + 1 ≤ i ∧ i < destination + 1 + count
      · rw [if_pos hin, if_pos (by omega)]
        congr 1
        omega
      · rw [if_neg hin, if_neg (by omega), if_neg (by omega)]

/-! ## Words -/

variable {m} {n : Memory}

/-- `readWord` depends only on its bytes. -/
theorem readWord_congr {address origin count : Nat}
    (h : ∀ i < count, m.get (address + i) = n.get (origin + i)) :
    m.readWord address count = n.readWord origin count := by
  induction count generalizing address origin with
  | zero => rfl
  | succ count ih =>
    have hrest : m.readWord (address + 1) count = n.readWord (origin + 1) count := by
      refine ih fun i hi => ?_
      have := h (i + 1) (by omega)
      rwa [← Nat.add_assoc, ← Nat.add_assoc, Nat.add_right_comm address,
        Nat.add_right_comm origin] at this
    rw [readWord, readWord, hrest]
    exact congrArg (·.toUInt64 + 256 * n.readWord (origin + 1) count) (h 0 (by omega))

theorem toNat_readWord_lt (m : Memory) (address count : Nat) :
    (m.readWord address count).toNat < 256 ^ count := by
  induction count generalizing address with
  | zero => exact Nat.one_pos
  | succ count ih =>
    have hrest := ih (address + 1)
    have hbyte := (m.get address).toNat_lt
    have hpow : (256 : Nat) ^ (count + 1) = 256 * 256 ^ count := Nat.pow_succ'
    rw [readWord, UInt64.toNat_add, UInt64.toNat_mul, UInt8.toNat_toUInt64]
    refine Nat.lt_of_le_of_lt (Nat.mod_le _ _) ?_
    have hmod : (256 : UInt64).toNat * (m.readWord (address + 1) count).toNat % 2 ^ 64
        ≤ 256 * (m.readWord (address + 1) count).toNat := Nat.mod_le _ _
    omega

/-- Up to eight bytes make a word by `readWord` without overflow. -/
theorem toNat_readWord_succ {address count : Nat} (hcount : count < 8) :
    (m.readWord address (count + 1)).toNat
      = (m.get address).toNat + 256 * (m.readWord (address + 1) count).toNat := by
  -- seven bytes are below 256 ^ 7, so that 256 times them and one byte more still fit in a word
  have hrest := m.toNat_readWord_lt (address + 1) count
  have hbyte := (m.get address).toNat_lt
  have hpow : (256 : Nat) ^ count ≤ 256 ^ 7 := Nat.pow_le_pow_right (by decide) (by omega)
  have hconst : (256 : UInt64).toNat = 256 := rfl
  rw [readWord, UInt64.toNat_add, UInt64.toNat_mul, UInt8.toNat_toUInt64, hconst,
    Nat.mod_eq_of_lt (a := 256 * _) (by omega), Nat.mod_eq_of_lt (by omega)]

/-- After `writeWord`, a word reads as the part of it that was written. -/
theorem toNat_readWord_writeWord {address count : Nat} (v : UInt64) (hcount : count ≤ 8)
    (hsize : address + count ≤ m.size) :
    ((m.writeWord address count v).readWord address count).toNat = v.toNat % 256 ^ count := by
  induction count generalizing m address v with
  | zero =>
    rw [Nat.pow_zero, Nat.mod_one]
    rfl
  | succ count ih =>
    have hfirst : (m.writeWord address (count + 1) v).get address = v.toUInt8 := by
      rw [writeWord, get_writeWord_of_outside _ (by omega), get_set, if_pos (by omega)]
    have hrest : ((m.writeWord address (count + 1) v).readWord (address + 1) count).toNat
        = (v / 256).toNat % 256 ^ count :=
      ih (m := m.set address v.toUInt8) (v / 256) (by omega) (by rw [size_set]; omega)
    rw [toNat_readWord_succ (by omega), hfirst]
    have hsplit : v.toNat % 256 ^ (count + 1)
        = v.toNat % 256 + 256 * (v.toNat / 256 % 256 ^ count) := by
      rw [Nat.pow_succ', Nat.mod_mul]
    rw [hrest, hsplit, UInt64.toNat_toUInt8, UInt64.toNat_div]
    rfl

/-- After `writeWord`, a whole word reads as it was written. -/
theorem readWord_writeWord {address : Nat} (v : UInt64) (hsize : address + 8 ≤ m.size) :
    (m.writeWord address 8 v).readWord address 8 = v := by
  apply UInt64.toNat_inj.mp
  rw [toNat_readWord_writeWord v (Nat.le_refl 8) hsize]
  exact Nat.mod_eq_of_lt v.toNat_lt

/-! ## Checks -/

/-- Memory has `count` bytes from an address on, all of them valid. -/
def HasBytes (m : Memory) (address count : Nat) : Prop :=
  nullPage ≤ address ∧ address + count ≤ m.size

instance (m : Memory) (address count : Nat) : Decidable (m.HasBytes address count) :=
  inferInstanceAs (Decidable (_ ∧ _))

/-- `check` decides `HasBytes`. -/
theorem check_eq (address count : Nat) : m.check address count
    = if m.HasBytes address count then .ok () else .error (.badAddress address) := by
  have hvalid : m.isValid address count = true ↔ m.HasBytes address count := by
    simp [isValid, HasBytes]
  exact if_congr hvalid rfl rfl

theorem check_eq_ok {address count : Nat} (hnull : nullPage ≤ address)
    (hsize : address + count ≤ m.size) : m.check address count = .ok () := by
  rw [check_eq, if_pos ⟨hnull, hsize⟩]

theorem hasBytes_of_check {address count : Nat} (h : m.check address count = .ok ()) :
    m.HasBytes address count := by
  by_contra hbytes
  rw [check_eq, if_neg hbytes] at h
  cases h

end Oberon.Machine.Memory
