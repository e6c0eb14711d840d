import Mathlib.Data.List.Basic
import Mathlib.Logic.Function.Basic
import Oberon.Code.Assembly

/-!
# String literals

A string constant is written as a literal between quotes, with a zero byte at its end. In a
literal, a backslash before two hexadecimal digits stands for a byte, and any other character for
itself. The quote and the backslash are never written as themselves, so a literal ends at its first
quote, and a backslash in it always begins an escape, whatever characters come next.
-/

namespace Oberon.Code

/-! ## Reading literals -/

/-- The value of a hexadecimal digit, in upper or lower case. -/
def hexValue? (c : Char) : Option Nat :=
  if '0' ≤ c ∧ c ≤ '9' then some (c.toNat - '0'.toNat)
  else if 'A' ≤ c ∧ c ≤ 'F' then some (c.toNat - 'A'.toNat + 10)
  else if 'a' ≤ c ∧ c ≤ 'f' then some (c.toNat - 'a'.toNat + 10)
  else none

/-- The bytes that a literal denotes. A character that is not part of an escape stands for its own
bytes; so does a backslash that two digits, by `hexValue?`, do not follow. -/
def unescape : List Char → List UInt8
  | '\\' :: a :: b :: rest =>
    match hexValue? a, hexValue? b with
    | some high, some low => UInt8.ofNat (16 * high + low) :: unescape rest
    | _, _ => String.utf8EncodeChar '\\' ++ unescape (a :: b :: rest)
  | c :: rest => String.utf8EncodeChar c ++ unescape rest
  | [] => []

theorem unescape_cons_of_ne {c : Char} (h : c ≠ '\\') (rest : List Char) :
    unescape (c :: rest) = String.utf8EncodeChar c ++ unescape rest := by
  rw [unescape]
  simpa using fun _ _ _ heq _ => h heq

/-- `unescape` reads an escape wherever it stands: the characters behind it have no part in it. -/
theorem unescape_escaped {a b : Char} {high low : Nat} (ha : hexValue? a = some high)
    (hb : hexValue? b = some low) (rest : List Char) :
    unescape ('\\' :: a :: b :: rest) = UInt8.ofNat (16 * high + low) :: unescape rest := by
  rw [unescape, ha, hb]

/-! ## Writing literals -/

/-- A character that can stand in a literal: printable ASCII, and not the quote. -/
def IsPlain (c : Char) : Prop :=
  0x20 ≤ c.toNat ∧ c.toNat ≤ 0x7E ∧ c ≠ '"'

theorem hexDigit_spec {n : Nat} (h : n < 16) :
    hexValue? (Text.hexDigit n) = some n ∧ IsPlain (Text.hexDigit n) := by
  have hall : ∀ n : Fin 16, hexValue? (Text.hexDigit n) = some n.val
      ∧ 0x20 ≤ (Text.hexDigit n).toNat ∧ (Text.hexDigit n).toNat ≤ 0x7E
      ∧ Text.hexDigit n ≠ '"' := by decide
  exact hall ⟨n, h⟩

/-- `escapeByte` writes a byte as itself, which is then neither quote nor backslash, or as an
escape. -/
theorem escapeByte_cases (b : UInt8) :
    (∃ c, escapeByte b = [c] ∧ c.toNat = b.toNat ∧ IsPlain c ∧ c ≠ '\\')
      ∨ escapeByte b
        = ['\\', Text.hexDigit (b.toNat / 16 % 16), Text.hexDigit (b.toNat % 16)] := by
  unfold escapeByte
  by_cases h : (b = 0x22 || b = 0x5C || b < 0x20 || 0x7E < b) = true
  · rw [if_pos h]
    exact .inr rfl
  · rw [if_neg h]
    simp only [Bool.or_eq_true, decide_eq_true_eq, not_or, UInt8.lt_iff_toNat_lt,
      ← UInt8.toNat_inj, UInt8.reduceToNat] at h
    obtain ⟨⟨⟨hquote, hbackslash⟩, hlow⟩, hhigh⟩ := h
    have hvalid : b.toNat.isValidChar := .inl (by omega)
    have hvalue : (Char.ofNat b.toNat).toNat = b.toNat := by
      rw [Char.ofNat, dif_pos hvalid]
      rfl
    refine .inl ⟨_, rfl, hvalue, ⟨by omega, by omega, ?_⟩, ?_⟩
    · intro hc
      rw [hc] at hvalue
      exact hquote hvalue.symm
    · intro hc
      rw [hc] at hvalue
      exact hbackslash hvalue.symm

theorem escape_cons (b : UInt8) (bytes : List UInt8) :
    escape (b :: bytes) = escapeByte b ++ escape bytes :=
  List.flatMap_cons

/-- `unescape` reads what `escapeByte` wrote back as the byte, and goes on behind it. -/
theorem unescape_escapeByte (b : UInt8) (rest : List Char) :
    unescape (escapeByte b ++ rest) = b :: unescape rest := by
  have hlt := b.toNat_lt
  rcases escapeByte_cases b with ⟨c, hc, hvalue, ⟨-, hle, -⟩, hne⟩ | hescaped
  · have hbytes : String.utf8EncodeChar c = [b] := by
      have hascii : c.val.toNat ≤ 127 := Nat.le_trans hle (by decide)
      rw [String.utf8EncodeChar, if_pos hascii, show c.val.toNat = b.toNat from hvalue,
        UInt8.ofNat_toNat]
    rw [hc, List.singleton_append, unescape_cons_of_ne hne, hbytes, List.singleton_append]
  · have hhigh := (hexDigit_spec (show b.toNat / 16 % 16 < 16 by omega)).1
    have hlow := (hexDigit_spec (show b.toNat % 16 < 16 by omega)).1
    have hsum : 16 * (b.toNat / 16 % 16) + b.toNat % 16 = b.toNat := by omega
    rw [hescaped, List.cons_append, List.cons_append, List.cons_append, List.nil_append,
      unescape_escaped hhigh hlow, hsum, UInt8.ofNat_toNat]

theorem unescape_escape_append (bytes : List UInt8) (rest : List Char) :
    unescape (escape bytes ++ rest) = bytes ++ unescape rest := by
  induction bytes with
  | nil => rfl
  | cons b bytes ih =>
    rw [escape_cons, List.append_assoc, unescape_escapeByte, ih, List.cons_append]

/-- `unescape` reads back what `escape` wrote. -/
theorem unescape_escape (bytes : List UInt8) : unescape (escape bytes) = bytes := by
  have h := unescape_escape_append bytes []
  rwa [List.append_nil, unescape, List.append_nil] at h

theorem isPlain_of_mem_escape {bytes : List UInt8} {c : Char} (h : c ∈ escape bytes) :
    IsPlain c := by
  obtain ⟨b, -, hc⟩ := List.mem_flatMap.mp h
  rcases escapeByte_cases b with ⟨d, hd, -, hplain, -⟩ | hescaped
  · rw [hd, List.mem_singleton] at hc
    exact hc ▸ hplain
  · have hhigh := (hexDigit_spec (show b.toNat / 16 % 16 < 16 by omega)).2
    have hlow := (hexDigit_spec (show b.toNat % 16 < 16 by omega)).2
    rw [hescaped] at hc
    simp only [List.mem_cons, List.not_mem_nil, or_false] at hc
    rcases hc with rfl | rfl | rfl
    · exact ⟨by decide, by decide, by decide⟩
    · exact hhigh
    · exact hlow

/-! ## Lines -/

/-- The literal of a constant, which `escape` writes, without its quotes. -/
def StringConstant.literal (s : StringConstant) : List Char :=
  escape s.bytes ++ ['\\', '0', '0']

/-- What stands before the literal of a constant: its name, and how many bytes it takes. -/
def StringConstant.heading (s : StringConstant) (count : Nat) : String :=
  "@" ++ s.name ++ " = private unnamed_addr constant [" ++ toString count ++ " x i8] c"

theorem StringConstant.unescape_literal (s : StringConstant) :
    unescape s.literal = s.bytes ++ [0] := by
  rw [literal, unescape_escape_append]
  congr 1

theorem StringConstant.quote_not_mem_literal (s : StringConstant) : '"' ∉ s.literal := by
  intro h
  rcases List.mem_append.mp h with hescape | hzero
  · exact (isPlain_of_mem_escape hescape).2.2 rfl
  · revert hzero
    decide

/-- The number in the heading of `stringLine` is that of the bytes that the literal denotes. -/
theorem stringLine_eq (s : StringConstant) : Program.stringLine s
    = s.heading (unescape s.literal).length ++ "\"" ++ String.ofList s.literal ++ "\"" := by
  rw [s.unescape_literal, List.length_append, List.length_singleton, ← String.toList_inj]
  simp [Program.stringLine, StringConstant.heading, StringConstant.literal]

/-- Two texts with a quote and none behind it have the same text behind it. -/
theorem eq_of_append_quote {a b l m : List Char} (hl : '"' ∉ l) (hm : '"' ∉ m)
    (h : a ++ '"' :: l = b ++ '"' :: m) : a = b ∧ l = m := by
  rcases List.append_eq_append_iff.mp h with ⟨d, rfl, hd⟩ | ⟨d, rfl, hd⟩
  · cases d with
    | nil => exact ⟨(List.append_nil a).symm, (List.cons.inj hd).2⟩
    | cons c d =>
      obtain ⟨rfl, rfl⟩ := List.cons.inj hd
      exact absurd (List.mem_append_right d List.mem_cons_self) hl
  · cases d with
    | nil => exact ⟨List.append_nil b, (List.cons.inj hd).2.symm⟩
    | cons c d =>
      obtain ⟨rfl, rfl⟩ := List.cons.inj hd
      exact absurd (List.mem_append_right d List.mem_cons_self) hm

theorem stringLine_injective : Function.Injective Program.stringLine := by
  intro s t h
  rw [stringLine_eq, stringLine_eq, ← String.toList_inj] at h
  simp only [String.toList_append, String.toList_ofList] at h
  have hcut := List.append_cancel_right h
  rw [List.append_assoc, List.append_assoc] at hcut
  obtain ⟨hheading, hliteral⟩ :=
    eq_of_append_quote s.quote_not_mem_literal t.quote_not_mem_literal hcut
  have hbytes : s.bytes = t.bytes := by
    have hzero := congrArg unescape hliteral
    rw [s.unescape_literal, t.unescape_literal] at hzero
    exact List.append_cancel_right hzero
  have hname : s.name = t.name := by
    rw [hliteral] at hheading
    exact String.toList_inj.mp (by simpa [StringConstant.heading] using hheading)
  cases s
  cases t
  obtain rfl : _ = _ := hname
  obtain rfl : _ = _ := hbytes
  rfl

/-- A written string is plain, and denotes the bytes that it was made from; so no other bytes are
written like it. A line has a literal for the bytes and a zero, and gives their number; no other
constant has this line. -/
theorem literal_denotes :
    (∀ bytes, (∀ c ∈ escape bytes, IsPlain c) ∧ unescape (escape bytes) = bytes)
      ∧ Function.Injective escape
      ∧ (∀ s : StringConstant, unescape s.literal = s.bytes ++ [0]
        ∧ Program.stringLine s
          = s.heading (unescape s.literal).length ++ "\"" ++ String.ofList s.literal ++ "\"")
      ∧ Function.Injective Program.stringLine :=
  ⟨fun bytes => ⟨fun _ hc => isPlain_of_mem_escape hc, unescape_escape bytes⟩,
    Function.LeftInverse.injective unescape_escape,
    fun s => ⟨s.unescape_literal, stringLine_eq s⟩,
    stringLine_injective⟩

/-- A digit behind an escape stands for itself. -/
example : String.ofList (escape [0x0A, 0x41, 0x5C]) = "\\0AA\\5C"
    ∧ unescape "\\0AA\\5C".toList = [0x0A, 0x41, 0x5C] := by decide

end Oberon.Code
