import Oberon.Proofs.TypedMemory

/-!
# Typed printing and reading

The formats that programs use are those of the types of values. Printing by the format of a type
prints one value of that type, and can go wrong only for a STRING that is null; reading by the
format of a type stores a value of that type at most.
-/

namespace Oberon.Machine

open Code

/-! ## Printing -/

/-- The letter of the conversion for values of a type. -/
def letterOf : Ty → UInt8
  | .int _ => letterD
  | .real => letterF
  | _ => letterS

theorem push_newline (bytes : ByteArray) : bytes.push 0x0A = bytes ++ "\n".toUTF8 :=
  ByteArray.ext (by rw [ByteArray.data_push, ByteArray.data_append]; rfl)

/-- `format` prints one value by the conversion of its type, and then the ending. -/
theorem format_print {m : Memory} {ty : Ty} {conversion ending : String} {v : Scalar}
    (hf : printFormat? ty = some conversion) (he : ending = "" ∨ ending = "\n") :
    format m .empty false ((Text.utf8Bytes (conversion ++ ending)).takeWhile (· != 0)) [v]
      = (convert m (letterOf ty) (some v)).map fun text => text.toUTF8 ++ ending.toUTF8 := by
  -- two endings for each of the three conversions
  have hplain : ∀ c : Except Fault String,
      (do let text ← c; pure (ByteArray.empty ++ text.toUTF8))
        = c.map fun text => text.toUTF8 ++ "".toUTF8 := by
    rintro (e | text)
    · rfl
    · exact congrArg Except.ok (ByteArray.empty_append.trans ByteArray.append_empty.symm)
  have hline : ∀ c : Except Fault String,
      (do let text ← c; pure ((ByteArray.empty ++ text.toUTF8).push 0x0A))
        = c.map fun text => text.toUTF8 ++ "\n".toUTF8 := by
    rintro (e | text)
    · rfl
    · exact congrArg Except.ok ((push_newline _).trans (by rw [ByteArray.empty_append]))
  unfold printFormat? at hf
  split at hf
  · obtain rfl := Option.some.inj hf
    rcases he with rfl | rfl
    · exact hplain _
    · exact hline _
  · obtain rfl := Option.some.inj hf
    rcases he with rfl | rfl
    · exact hplain _
    · exact hline _
  · obtain rfl := Option.some.inj hf
    rcases he with rfl | rfl
    · exact hplain _
    · exact hline _
  · exact nomatch hf

/-- A call of `printfName` with the format of a type prints a value, and then the ending. -/
theorem primitive_print {w : World} {n : Int64} {x : Scalar} {ty : Ty} {conversion ending : String}
    (htext : w.memory.string (addressOf n)
      = .ok ((Text.utf8Bytes (conversion ++ ending)).takeWhile (· != 0)))
    (hf : printFormat? ty = some conversion) (he : ending = "" ∨ ending = "\n") :
    primitive w printfName [.int n, x]
      = (convert w.memory (letterOf ty) (some x)).map fun text =>
        (.int (Int64.ofNat (text.toUTF8 ++ ending.toUTF8).size),
          { w with output := w.output ++ (text.toUTF8 ++ ending.toUTF8) }) := by
  simp only [primitive, htext]
  show (do let printed ← format _ _ _ _ _; _) = _
  rw [format_print hf he]
  cases convert w.memory (letterOf ty) (some x) <;> rfl

variable {image : Image} {floor : Nat} {objects : List Object} {m : Memory} {ty : Ty}

/-- `convert` prints a value by the conversion of its type, unless it is a STRING that is null. -/
theorem convert_typed (hm : image.HasTexts floor m) {v : Scalar} {conversion : String}
    (hf : printFormat? ty = some conversion) (hv : v.Fits image objects (.value ty)) :
    (∃ text, convert m (letterOf ty) (some v) = .ok text)
      ∨ (ty = .ptr ∧ v = .int 0 ∧ convert m (letterOf ty) (some v) = .error (.badAddress 0)) := by
  unfold printFormat? at hf
  split at hf
  · obtain ⟨n, rfl, -⟩ := hv.exists_int
    exact .inl ⟨_, rfl⟩
  · obtain ⟨r, rfl⟩ := hv.exists_real
    exact .inl ⟨_, rfl⟩
  · obtain ⟨n, rfl, hn⟩ := hv.exists_text
    have hconvert : convert m letterS (some (.int n))
        = (m.string (addressOf n)).map Text.decode := by
      rw [convert, if_neg (by decide), if_pos rfl]
      cases m.string (addressOf n) <;> rfl
    show (∃ text, convert m letterS _ = _) ∨ _ ∧ _ ∧ convert m letterS _ = _
    rw [hconvert]
    rcases hm.string_of_isText hn with ⟨hzero, hstring⟩ | ⟨bytes, hstring⟩
    · have hnull : n = 0 := by rw [← ofNat_addressOf n, hzero]; rfl
      exact .inr ⟨rfl, by rw [hnull], by rw [hstring]; rfl⟩
    · exact .inl ⟨_, by rw [hstring]; rfl⟩
  · exact nomatch hf

/-! ## Reading -/

/-- `parse?` gives a value of the type whose format is read. -/
theorem parse?_typed {word : String} {into : Ty} {v : Scalar}
    (h : parse? (some (letterOf ty)) word = some (into, v)) (hty : ty = .integer ∨ ty = .real) :
    into = ty ∧ ∀ image objects, v.Fits image objects (.value ty) := by
  rcases hty with rfl | rfl
  · have h : (Word.ofText? word).map (fun v => (Ty.integer, Scalar.int v)) = some (into, v) := h
    obtain ⟨n, -, hn⟩ := Option.map_eq_some_iff.mp h
    obtain ⟨rfl, rfl⟩ := Prod.mk.inj hn
    exact ⟨rfl, fun _ _ => Word.isNormal_64 n⟩
  · have h : (Decimal.ofText? word).map (fun v => (Ty.real, Scalar.real v)) = some (into, v) := h
    obtain ⟨r, -, hr⟩ := Option.map_eq_some_iff.mp h
    obtain ⟨rfl, rfl⟩ := Prod.mk.inj hr
    exact ⟨rfl, fun _ _ => trivial⟩

/-- `readFormat` with the format of a type carries out one conversion, `readOne`. -/
theorem readFormat_read {w : World} {conversion : String} {v : Scalar}
    (hf : Emit.readFormat? ty = some conversion) :
    (ty = .integer ∨ ty = .real)
      ∧ readFormat w 0 false ((Text.utf8Bytes conversion).takeWhile (· != 0)) [v]
        = (readOne w 0 (some (letterOf ty)) (some v)).map fun
          | .stop result w => (result, w)
          | .stored w => (1, w) := by
  have hone : ∀ r : Except Fault Reading,
      (do match ← r with
          | .stop result w => pure (result, w)
          | .stored w => .ok (Int64.ofNat (0 + 1), w))
        = r.map fun | .stop result w => (result, w) | .stored w => (1, w) := by
    rintro (e | ⟨result, w⟩ | w) <;> rfl
  unfold Emit.readFormat? at hf
  split at hf
  · obtain rfl := Option.some.inj hf
    exact ⟨.inl rfl, hone _⟩
  · obtain rfl := Option.some.inj hf
    exact ⟨.inr rfl, hone _⟩
  · exact nomatch hf

theorem primitive_read {w : World} {n : Int64} {x : Scalar} {bytes : List UInt8}
    (htext : w.memory.string (addressOf n) = .ok bytes) :
    primitive w scanfName [.int n, x]
      = (readFormat w 0 false bytes [x]).map fun r => (.int r.1, r.2) := by
  simp only [primitive, htext]
  show (do let r ← readFormat _ _ _ _ _; _) = _
  cases readFormat w 0 false bytes [x] <;> rfl

/-- `readFormat` into a place of a type succeeds, and stores a value of that type at most. -/
theorem readFormat_typed {w : World} {conversion : String} {address : Int64}
    (hm : w.memory.Typed image floor objects) (hf : Emit.readFormat? ty = some conversion)
    (ha : Objects.Has objects ⟨addressOf address, ty⟩) :
    ∃ result w', readFormat w 0 false ((Text.utf8Bytes conversion).takeWhile (· != 0))
        [.int address] = .ok (result, w')
      ∧ w'.memory.Typed image floor objects ∧ w'.memory.size = w.memory.size := by
  obtain ⟨hty, heq⟩ := readFormat_read (w := w) (v := .int address) hf
  rw [heq, readOne]
  cases w.input with
  | nil => exact ⟨_, w, rfl, hm, rfl⟩
  | cons word input =>
    dsimp only
    cases hparse : parse? (some (letterOf ty)) word with
    | none => exact ⟨_, _, rfl, hm, rfl⟩
    | some parsed =>
      obtain ⟨into, v⟩ := parsed
      obtain ⟨rfl, hv⟩ := parse?_typed hparse hty
      have hscalar : into.IsScalar := by
        rcases hty with rfl | rfl
        · exact ⟨by decide, by decide⟩
        · exact trivial
      obtain ⟨n, hwrite, hn, hsize⟩ := hm.write hscalar ha (hv image objects)
      refine ⟨1, { w with memory := n, input }, ?_, hn, hsize⟩
      simp only [hwrite]
      rfl

end Oberon.Machine
