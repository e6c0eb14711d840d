/-!
# Bytes without an end

A byte array read as an endless row of bytes, all zero beyond its end. Writing beyond the end
makes the array as long as it has to be.
-/

namespace Oberon.Machine

/-- Byte `i`, zero beyond the end. -/
def peek (bytes : ByteArray) (i : Nat) : UInt8 :=
  if h : i < bytes.size then bytes[i] else 0

/-- The array with `count` zeros at its end. -/
def pad : Nat → ByteArray → ByteArray
  | 0, bytes => bytes
  | count + 1, bytes => pad count (bytes.push 0)

/-- The array with byte `i` set. A zero beyond the end is there already. -/
def poke (bytes : ByteArray) (i : Nat) (b : UInt8) : ByteArray :=
  if h : i < bytes.size then bytes.set i b h
  else if b = 0 then bytes
  else (pad (i - bytes.size) bytes).push b

/-- The array with `count` bytes from `start` on set to zero. -/
def wipe (start : Nat) : Nat → ByteArray → ByteArray
  | 0, bytes => bytes
  | count + 1, bytes => wipe (start + 1) count (poke bytes start 0)

theorem peek_eq_getD (bytes : ByteArray) (i : Nat) : peek bytes i = bytes.data[i]?.getD 0 := by
  unfold peek
  split
  · rename_i h
    have h' : i < bytes.data.size := by simpa using h
    rw [Array.getElem?_eq_getElem h', ByteArray.getElem_eq_getElem_data]
    rfl
  · rename_i h
    have h' : bytes.data.size ≤ i := by simpa using h
    rw [Array.getElem?_eq_none h']
    rfl

theorem peek_push (bytes : ByteArray) (b : UInt8) (i : Nat) :
    peek (bytes.push b) i = if i = bytes.size then b else peek bytes i := by
  simp only [peek_eq_getD, ByteArray.data_push, Array.getElem?_push, ByteArray.size_data]
  split <;> simp_all

theorem size_pad (count : Nat) (bytes : ByteArray) :
    (pad count bytes).size = bytes.size + count := by
  induction count generalizing bytes with
  | zero => rfl
  | succ n ih => rw [pad, ih, ByteArray.size_push]; omega

/-- Zeros at the end change nothing. -/
theorem peek_pad (count : Nat) (bytes : ByteArray) (i : Nat) :
    peek (pad count bytes) i = peek bytes i := by
  induction count generalizing bytes with
  | zero => rfl
  | succ n ih =>
    rw [pad, ih, peek_push]
    split
    · rename_i h
      simp [peek, h]
    · rfl

theorem peek_poke (bytes : ByteArray) (i : Nat) (b : UInt8) (j : Nat) :
    peek (poke bytes i b) j = if j = i then b else peek bytes j := by
  unfold poke
  split
  · rename_i h
    have h' : i < bytes.data.size := by simpa using h
    simp only [peek_eq_getD, ByteArray.data_set, Array.getElem?_set, eq_comm (a := j)]
    split <;> simp_all
  · rename_i h
    split
    · rename_i hb
      split
      · rename_i hj
        simp [peek, hj, h, hb]
      · rfl
    · rw [peek_push, size_pad, peek_pad]
      have : bytes.size + (i - bytes.size) = i := by omega
      rw [this]

theorem peek_wipe (start count : Nat) (bytes : ByteArray) (i : Nat) :
    peek (wipe start count bytes) i
      = if start ≤ i ∧ i < start + count then 0 else peek bytes i := by
  induction count generalizing start bytes with
  | zero => rw [wipe, if_neg (by omega)]
  | succ n ih =>
    rw [wipe, ih, peek_poke]
    by_cases h : i = start
    · subst h
      rw [if_neg (by omega), if_pos rfl, if_pos (by omega)]
    · rw [if_neg h]
      by_cases hi : start + 1 ≤ i ∧ i < start + 1 + n
      · rw [if_pos hi, if_pos (by omega)]
      · rw [if_neg hi, if_neg (by omega)]

end Oberon.Machine
