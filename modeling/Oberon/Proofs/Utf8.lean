import Mathlib.Data.List.TakeWhile
import Oberon.Text.Utf8

/-!
# Writing and reading UTF-8

A text is the characters that its bytes are read as, and a zero byte occurs in it only as the
zero character.
-/

namespace Oberon.Text

/-! ## Bytes of a text -/

theorem utf8Bytes_ofList (chars : List Char) :
    utf8Bytes (String.ofList chars) = chars.flatMap String.utf8EncodeChar := by
  show (String.ofList chars).toByteArray.data.toList = _
  rw [String.toByteArray_ofList, List.utf8Encode, List.data_toByteArray]

theorem utf8Bytes_eq_flatMap (text : String) :
    utf8Bytes text = text.toList.flatMap String.utf8EncodeChar := by
  rw [← utf8Bytes_ofList, String.ofList_toList]

/-! ## Reading one character -/

variable {b : UInt8} {rest : List UInt8}

/-- `decodeFrom` at a byte that finishes a character. -/
theorem decodeFrom_last {low high : UInt8} {code : Nat} (hlow : low.toNat ≤ b.toNat)
    (hhigh : b.toNat ≤ high.toNat) :
    decodeFrom (some ⟨0, low, high, code⟩) (b :: rest)
      = Char.ofNat (code * 64 + b.toNat % 64) :: decodeFrom none rest := by
  rw [decodeFrom]
  dsimp only
  rw [if_pos (by simp [UInt8.le_iff_toNat_le, hlow, hhigh])]

/-- `decodeFrom` at a byte that goes on with a character. -/
theorem decodeFrom_more {missing code : Nat} {low high : UInt8} (hlow : low.toNat ≤ b.toNat)
    (hhigh : b.toNat ≤ high.toNat) :
    decodeFrom (some ⟨missing + 1, low, high, code⟩) (b :: rest)
      = decodeFrom (some ⟨missing, 0x80, 0xBF, code * 64 + b.toNat % 64⟩) rest := by
  rw [decodeFrom]
  dsimp only
  rw [if_pos (by simp [UInt8.le_iff_toNat_le, hlow, hhigh])]

/-- `decodeFrom` at a byte that starts a longer character. -/
theorem decodeFrom_start {p : Partial} (h : start b = some (.inr p)) :
    decodeFrom none (b :: rest) = decodeFrom (some p) rest := by
  rw [decodeFrom]
  simp only [h]

/-- The low six bits of a code, in a byte that goes on with a character. -/
theorem toNat_trail (n : Nat) : (UInt8.ofNat (n % 64 + 128)).toNat = n % 64 + 128 :=
  UInt8.toNat_ofNat_of_lt' (by unfold UInt8.size; omega)

theorem le_toNat_trail (n : Nat) : (0x80 : UInt8).toNat ≤ (UInt8.ofNat (n % 64 + 128)).toNat := by
  rw [toNat_trail]
  exact Nat.le_add_left ..

theorem toNat_trail_le (n : Nat) : (UInt8.ofNat (n % 64 + 128)).toNat ≤ (0xBF : UInt8).toNat := by
  rw [toNat_trail]
  show _ ≤ 0xBF
  omega

theorem decodeFrom_two {v : Nat} (hlow : 0x7f < v) (hhigh : v ≤ 0x7ff) (rest : List UInt8) :
    decodeFrom none (.ofNat (v / 64 % 32 + 192) :: .ofNat (v % 64 + 128) :: rest)
      = Char.ofNat v :: decodeFrom none rest := by
  have hb : (UInt8.ofNat (v / 64 % 32 + 192)).toNat = v / 64 + 192 := by
    rw [UInt8.toNat_ofNat_of_lt' (by unfold UInt8.size; omega)]
    omega
  have hstart : start (.ofNat (v / 64 % 32 + 192))
      = some (.inr ⟨0, 0x80, 0xBF, (v / 64 + 192) % 32⟩) := by
    simp only [start, hb]
    rw [if_neg (by omega), if_neg (by omega), if_pos (by omega)]
  rw [decodeFrom_start hstart, decodeFrom_last (le_toNat_trail v) (toNat_trail_le v), toNat_trail]
  congr 2
  omega

theorem decodeFrom_three {v : Nat} (hlow : 0x7ff < v) (hhigh : v ≤ 0xffff)
    (hvalid : v < 0xD800 ∨ 0xDFFF < v) (rest : List UInt8) :
    decodeFrom none (.ofNat (v / 4096 % 16 + 224) :: .ofNat (v / 64 % 64 + 128)
        :: .ofNat (v % 64 + 128) :: rest)
      = Char.ofNat v :: decodeFrom none rest := by
  have hb : (UInt8.ofNat (v / 4096 % 16 + 224)).toNat = v / 4096 + 224 := by
    rw [UInt8.toNat_ofNat_of_lt' (by unfold UInt8.size; omega)]
    omega
  have hstart : start (.ofNat (v / 4096 % 16 + 224))
      = some (.inr ⟨1, if v / 4096 + 224 = 0xE0 then 0xA0 else 0x80,
        if v / 4096 + 224 = 0xED then 0x9F else 0xBF, (v / 4096 + 224) % 16⟩) := by
    simp only [start, hb]
    rw [if_neg (by omega), if_neg (by omega), if_neg (by omega), if_pos (by omega)]
  -- the bounds of the second byte keep out longer forms of a code, and the surrogates
  have hleast : (if v / 4096 + 224 = 0xE0 then 0xA0 else 0x80 : UInt8).toNat
      ≤ (UInt8.ofNat (v / 64 % 64 + 128)).toNat := by
    rw [toNat_trail]
    split
    · show 0xA0 ≤ _
      omega
    · show 0x80 ≤ _
      omega
  have hmost : (UInt8.ofNat (v / 64 % 64 + 128)).toNat
      ≤ (if v / 4096 + 224 = 0xED then 0x9F else 0xBF : UInt8).toNat := by
    rw [toNat_trail]
    split
    · show _ ≤ 0x9F
      omega
    · show _ ≤ 0xBF
      omega
  rw [decodeFrom_start hstart, decodeFrom_more hleast hmost,
    decodeFrom_last (le_toNat_trail v) (toNat_trail_le v), toNat_trail, toNat_trail]
  congr 2
  omega

theorem decodeFrom_four {v : Nat} (hlow : 0xffff < v) (hhigh : v < 0x110000)
    (rest : List UInt8) :
    decodeFrom none (.ofNat (v / 262144 % 8 + 240) :: .ofNat (v / 4096 % 64 + 128)
        :: .ofNat (v / 64 % 64 + 128) :: .ofNat (v % 64 + 128) :: rest)
      = Char.ofNat v :: decodeFrom none rest := by
  have hb : (UInt8.ofNat (v / 262144 % 8 + 240)).toNat = v / 262144 + 240 := by
    rw [UInt8.toNat_ofNat_of_lt' (by unfold UInt8.size; omega)]
    omega
  have hstart : start (.ofNat (v / 262144 % 8 + 240))
      = some (.inr ⟨2, if v / 262144 + 240 = 0xF0 then 0x90 else 0x80,
        if v / 262144 + 240 = 0xF4 then 0x8F else 0xBF, (v / 262144 + 240) % 8⟩) := by
    simp only [start, hb]
    rw [if_neg (by omega), if_neg (by omega), if_neg (by omega), if_neg (by omega),
      if_pos (by omega)]
  -- the second byte is limited at both ends: neither overlong nor beyond the last code point
  have hleast : (if v / 262144 + 240 = 0xF0 then 0x90 else 0x80 : UInt8).toNat
      ≤ (UInt8.ofNat (v / 4096 % 64 + 128)).toNat := by
    rw [toNat_trail]
    split
    · show 0x90 ≤ _
      omega
    · show 0x80 ≤ _
      omega
  have hmost : (UInt8.ofNat (v / 4096 % 64 + 128)).toNat
      ≤ (if v / 262144 + 240 = 0xF4 then 0x8F else 0xBF : UInt8).toNat := by
    rw [toNat_trail]
    split
    · show _ ≤ 0x8F
      omega
    · show _ ≤ 0xBF
      omega
  rw [decodeFrom_start hstart, decodeFrom_more hleast hmost,
    decodeFrom_more (le_toNat_trail _) (toNat_trail_le _),
    decodeFrom_last (le_toNat_trail v) (toNat_trail_le v), toNat_trail, toNat_trail, toNat_trail]
  congr 2
  omega

/-- `decodeFrom` reads the bytes of a character as this character. -/
theorem decodeFrom_utf8EncodeChar (c : Char) (rest : List UInt8) :
    decodeFrom none (String.utf8EncodeChar c ++ rest) = c :: decodeFrom none rest := by
  have hvalid : c.val.toNat < 0xD800 ∨ 0xDFFF < c.val.toNat ∧ c.val.toNat < 0x110000 := c.valid
  have hc : Char.ofNat c.val.toNat = c := c.ofNat_toNat
  simp only [String.utf8EncodeChar]
  split
  case isTrue h =>
    have hb : (UInt8.ofNat c.val.toNat).toNat = c.val.toNat :=
      UInt8.toNat_ofNat_of_lt' (by unfold UInt8.size; omega)
    have hstart : start (.ofNat c.val.toNat) = some (.inl c) := by
      simp only [start, hb, if_pos (show c.val.toNat < 0x80 by omega), hc]
    rw [List.singleton_append, decodeFrom]
    simp only [hstart]
  split
  case isTrue h h' => exact (decodeFrom_two (by omega) h' rest).trans (by rw [hc])
  split
  case isTrue h h' h'' =>
    exact (decodeFrom_three (by omega) h'' (by omega) rest).trans (by rw [hc])
  case isFalse h h' h'' => exact (decodeFrom_four (by omega) (by omega) rest).trans (by rw [hc])

/-! ## Reading texts -/

/-- `decode` reads the bytes of a text as this text. -/
@[simp]
theorem decode_utf8Bytes (text : String) : decode (utf8Bytes text) = text := by
  have hchars (chars : List Char) :
      decodeFrom none (chars.flatMap String.utf8EncodeChar) = chars := by
    induction chars with
    | nil => rfl
    | cons c rest ih => rw [List.flatMap_cons, decodeFrom_utf8EncodeChar, ih]
  rw [decode, utf8Bytes_eq_flatMap, hchars, String.ofList_toList]

/-- Only the zero character has a zero byte. -/
theorem ne_zero_of_mem_utf8EncodeChar {c : Char} (hc : c ≠ '\x00')
    (h : b ∈ String.utf8EncodeChar c) : b ≠ 0 := by
  have hpos : 0 < c.val.toNat := by
    refine Nat.pos_of_ne_zero fun hzero => hc (Char.ext (UInt32.toNat_inj.mp hzero))
  have hbyte {n : Nat} (hn : 0 < n) (hlt : n < 256) : UInt8.ofNat n ≠ 0 := by
    intro hzero
    have := congrArg UInt8.toNat hzero
    rw [UInt8.toNat_ofNat_of_lt' hlt] at this
    exact absurd this (Nat.ne_of_gt hn)
  simp only [String.utf8EncodeChar] at h
  split at h
  · obtain rfl := List.mem_singleton.mp h
    exact hbyte hpos (by omega)
  -- all bytes of a longer character are above 127
  all_goals
    have htail {n m : Nat} (hm : 128 ≤ m ∧ m + n ≤ 256) (k : Nat) (hn : 0 < n) :
        UInt8.ofNat (k % n + m) ≠ 0 :=
      hbyte (by omega) (by have := Nat.mod_lt k hn; omega)
    try split at h
    all_goals try split at h
    all_goals
      simp only [List.mem_cons, List.not_mem_nil, or_false] at h
      rcases h with rfl | rfl | rfl | rfl <;> exact htail (by decide) _ (by decide)

/-- A text up to its first zero byte is the text up to its first zero character. -/
theorem takeWhile_utf8Bytes (text : String) :
    (utf8Bytes text).takeWhile (· != 0)
      = utf8Bytes (String.ofList (text.toList.takeWhile (· ≠ '\x00'))) := by
  rw [utf8Bytes_ofList, utf8Bytes_eq_flatMap]
  induction text.toList with
  | nil => rfl
  | cons c rest ih =>
    by_cases hc : c = '\x00'
    · subst hc
      rfl
    · have hbytes : ∀ b ∈ String.utf8EncodeChar c, (b != 0) = true := fun b hb => by
        simpa using ne_zero_of_mem_utf8EncodeChar hc hb
      rw [List.flatMap_cons, List.takeWhile_append_of_pos hbytes, ih,
        List.takeWhile_cons_of_pos (by simpa using hc), List.flatMap_cons]

/-- `decode` up to the first zero byte gives the part of a text before its first zero character. -/
theorem decode_takeWhile_utf8Bytes (text : String) :
    decode ((utf8Bytes text).takeWhile (· != 0))
      = String.ofList (text.toList.takeWhile (· ≠ '\x00')) := by
  rw [takeWhile_utf8Bytes, decode_utf8Bytes]

end Oberon.Text
