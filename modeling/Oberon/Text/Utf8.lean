/-!
# Reading UTF-8

Bytes are read as UTF-8, and what is not UTF-8 is replaced: each maximal piece that starts a
character and does not finish it, and each byte that cannot start one, becomes one U+FFFD.
-/

namespace Oberon.Text

/-- The bytes of a text. -/
def utf8Bytes (text : String) : List UInt8 :=
  text.toUTF8.data.toList

/-- The character that stands for what could not be read. -/
def replacement : Char := Char.ofNat 0xFFFD

/-- A character of which the first bytes have been read. -/
structure Partial where
  /-- How many bytes are still missing, less one. -/
  missing : Nat
  /-- The least next byte. -/
  low : UInt8
  /-- The greatest next byte. -/
  high : UInt8
  /-- The bits read so far. -/
  code : Nat

/-- What a first byte starts: a whole character, a longer one, or nothing. -/
def start (b : UInt8) : Option (Char ⊕ Partial) :=
  let n := b.toNat
  if n < 0x80 then some (.inl (Char.ofNat n))
  else if n < 0xC2 then none
  else if n < 0xE0 then some (.inr ⟨0, 0x80, 0xBF, n % 32⟩)
  else if n < 0xF0 then
    some (.inr ⟨1, if n = 0xE0 then 0xA0 else 0x80, if n = 0xED then 0x9F else 0xBF, n % 16⟩)
  else if n < 0xF5 then
    some (.inr ⟨2, if n = 0xF0 then 0x90 else 0x80, if n = 0xF4 then 0x8F else 0xBF, n % 8⟩)
  else none

/-- Reads the bytes that follow a character begun, if one was. -/
def decodeFrom (begun : Option Partial) : List UInt8 → List Char
  | [] => if begun.isSome then [replacement] else []
  | b :: rest =>
    match begun with
    | some p =>
      if p.low ≤ b && b ≤ p.high then
        let code := p.code * 64 + b.toNat % 64
        match p.missing with
        | 0 => Char.ofNat code :: decodeFrom none rest
        | missing + 1 => decodeFrom (some ⟨missing, 0x80, 0xBF, code⟩) rest
      else
        match start b with
        | some (.inl c) => replacement :: c :: decodeFrom none rest
        | some (.inr p) => replacement :: decodeFrom (some p) rest
        | none => replacement :: replacement :: decodeFrom none rest
    | none =>
      match start b with
      | some (.inl c) => c :: decodeFrom none rest
      | some (.inr p) => decodeFrom (some p) rest
      | none => replacement :: decodeFrom none rest

/-- The text that the bytes hold, with U+FFFD for what is not UTF-8. -/
def decode (bytes : List UInt8) : String :=
  String.ofList (decodeFrom none bytes)

end Oberon.Text
