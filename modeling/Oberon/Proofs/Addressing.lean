import Mathlib.Algebra.BigOperators.Fin
import Oberon.Proofs.Objects

/-!
# Addresses of elements

Arrays are laid out by rows: an index steps over as many values of the element type. Indices that
are in the ranges of their dimensions lead to a place inside of the array, at the sum of their
steps; the first index that is not is the fault, and so is an index too many. Other places of the
same depth are apart, and an element of an element is reached in two stages as well as in one. As
long as the array ends below `2 ^ 63` no step of the computation leaves the range of 64-bit
integers.
-/

namespace Oberon

open Code

/-! ## Sums and products that do not overflow -/

namespace Word

/-- `ofInt?` succeeds for numbers below `2 ^ 63`. -/
theorem ofInt?_natCast {n : Nat} (h : n < 2 ^ 63) : ofInt? n = some (Int64.ofNat n) := by
  have hmin : Int64.minValue.toInt = -2 ^ 63 := rfl
  have hmax : Int64.maxValue.toInt = 2 ^ 63 - 1 := rfl
  rw [ofInt?, if_pos (by omega), Int64.ofInt_eq_ofNat]

theorem add?_ofNat {a b : Nat} (h : a + b < 2 ^ 63) :
    add? (Int64.ofNat a) (Int64.ofNat b) = some (Int64.ofNat (a + b)) := by
  rw [add?, Int64.toInt_ofNat_of_lt (by omega), Int64.toInt_ofNat_of_lt (by omega),
    ← Int.natCast_add, ofInt?_natCast h]

theorem mul?_ofNat {a b : Nat} (ha : a < 2 ^ 63) (hb : b < 2 ^ 63) (h : a * b < 2 ^ 63) :
    mul? (Int64.ofNat a) (Int64.ofNat b) = some (Int64.ofNat (a * b)) := by
  rw [mul?, Int64.toInt_ofNat_of_lt ha, Int64.toInt_ofNat_of_lt hb, ← Int.natCast_mul,
    ofInt?_natCast h]

end Word

/-! ## Indices in range -/

namespace Code.Ty

variable {ty inner : Ty}

theorem isSome_size?_strip {count : Nat} (h : ty.size?.isSome) (hs : ty.strip count = some inner) :
    inner.size?.isSome := by
  induction count generalizing ty with
  | zero =>
    obtain rfl := eq_of_strip_zero hs
    exact h
  | succ count ih =>
    obtain ⟨length, element, rfl, hs⟩ := exists_array_of_strip hs
    exact ih (isSome_size?_element h) hs

/-- All indices are in the ranges of their dimensions, `Ty.dimensions`. An index beyond the last
dimension has no range. -/
def Admits (ty : Ty) (indices : List Int64) : Prop :=
  ∀ x ∈ ty.dimensions.zip indices, 0 ≤ x.2.toInt ∧ x.2.toInt < x.1

instance (ty : Ty) (indices : List Int64) : Decidable (ty.Admits indices) :=
  inferInstanceAs (Decidable (∀ x ∈ ty.dimensions.zip indices, _))

/-- The first index that is not in the range of its dimension. -/
def firstOutside (ty : Ty) (indices : List Int64) : Option Int64 :=
  (ty.dimensions.zip indices).findSome? fun x =>
    if 0 ≤ x.2.toInt ∧ x.2.toInt < x.1 then none else some x.2

/-- The sum of the indices, each times the `size?` of what it steps over. -/
def rowMajor (ty : Ty) (indices : List Int64) : Int :=
  ∑ j : Fin indices.length,
    (indices.get j).toInt * (((ty.strip (j + 1)).bind size?).getD 0 : Nat)

/-- What is left when an array is indexed by `Ty.strip` as often as it can be. -/
def core : Ty → Ty
  | .array _ element => element.core
  | ty => ty

/-- The path that indices stand for, if they are in range. -/
def pathOf (indices : List Int64) : List Nat :=
  indices.map (·.toInt.toNat)

variable {length : Nat} {index : Int64} {indices others : List Int64}

theorem pathOf_cons (index : Int64) (indices : List Int64) :
    pathOf (index :: indices) = index.toInt.toNat :: pathOf indices :=
  rfl

theorem admits_nil (ty : Ty) : ty.Admits [] := by
  unfold Admits
  rw [List.zip_nil_right]
  exact List.forall_mem_nil _

/-- A type `Admits` indices if the first is in the range of its dimension and the element type
admits the others. -/
theorem admits_cons : (Ty.array length inner).Admits (index :: indices)
    ↔ (0 ≤ index.toInt ∧ index.toInt < length) ∧ inner.Admits indices :=
  List.forall_mem_cons

/-- `firstOutside` finds nothing exactly if the type `Admits` the indices. -/
theorem firstOutside_eq_none : ty.firstOutside indices = none ↔ ty.Admits indices := by
  unfold firstOutside Admits
  simp only [List.findSome?_eq_none_iff, ite_eq_left_iff, reduceCtorEq, imp_false, not_not]

/-- `firstOutside` is the first index, or the one for the element type. -/
theorem firstOutside_cons : (Ty.array length inner).firstOutside (index :: indices)
    = if 0 ≤ index.toInt ∧ index.toInt < length then inner.firstOutside indices
      else some index := by
  show List.findSome? _ ((length, index) :: inner.dimensions.zip indices) = _
  rw [List.findSome?_cons]
  split
  · rename_i hsome
    split at hsome
    · cases hsome
    · rename_i houtside
      rw [if_neg houtside, hsome]
  · rename_i hnone
    split at hnone
    · rename_i hinside
      rw [if_pos hinside]
      rfl
    · cases hnone

/-- `Ty.strip` succeeds by as many dimensions as there are, or fewer. -/
theorem exists_strip (ty : Ty) {count : Nat} (h : count ≤ ty.dimensions.length) :
    ∃ inner, ty.strip count = some inner := by
  induction count generalizing ty with
  | zero => exact ⟨ty, ty.strip_zero⟩
  | succ count ih =>
    cases ty with
    | array length element => exact ih element (Nat.le_of_succ_le_succ h)
    | void => cases h
    | int bits => cases h
    | real => cases h
    | ptr => cases h

/-- Indices that a type `Admits` lead along their path. -/
theorem Admits.hasPath (h : ty.Admits indices) (hs : ty.strip indices.length = some inner) :
    ty.HasPath (pathOf indices) inner := by
  induction indices generalizing ty with
  | nil =>
    obtain rfl := eq_of_strip_zero hs
    exact hasPath_nil.mpr rfl
  | cons index rest ih =>
    obtain ⟨length, element, rfl, hs⟩ := exists_array_of_strip hs
    obtain ⟨hindex, hrest⟩ := admits_cons.mp h
    have hlt : index.toInt.toNat < length := by omega
    exact ⟨hlt, ih hrest hs⟩

/-- The steps of the indices, `rowMajor`, add up to the distance to the end of their path. -/
theorem Admits.rowMajor_eq (h : ty.Admits indices) (hsized : ty.size?.isSome)
    (hs : ty.strip indices.length = some inner) :
    ty.rowMajor indices = ty.offset (pathOf indices) := by
  induction indices generalizing ty with
  | nil =>
    rw [pathOf, List.map_nil, offset_nil]
    rfl
  | cons index rest ih =>
    obtain ⟨length, element, rfl, hs⟩ := exists_array_of_strip hs
    obtain ⟨hindex, hrest⟩ := admits_cons.mp h
    have hsize := isSome_size?_element hsized
    have hsum : (Ty.array length element).rowMajor (index :: rest)
        = index.toInt * (((element.strip 0).bind size?).getD 0 : Nat) + element.rowMajor rest :=
      Fin.sum_univ_succ _
    rw [hsum, strip_zero, Option.bind_some, size?_of_isSome hsize, ih hrest hsize hs, pathOf_cons,
      offset, Int.natCast_add, Int.natCast_mul, Int.toNat_of_nonneg hindex.1]
    rfl

/-- Indices that a type `Admits` and that have one path are the same. -/
theorem Admits.eq_of_pathOf (h : ty.Admits indices) (h' : ty.Admits others)
    (hs : ty.strip indices.length = some inner) (hpath : pathOf others = pathOf indices) :
    others = indices := by
  induction indices generalizing ty others with
  | nil => exact List.map_eq_nil_iff.mp hpath
  | cons index rest ih =>
    cases others with
    | nil => cases hpath
    | cons other more =>
      obtain ⟨length, element, rfl, hs⟩ := exists_array_of_strip hs
      obtain ⟨hindex, hrest⟩ := admits_cons.mp h
      obtain ⟨hother, hmore⟩ := admits_cons.mp h'
      obtain ⟨hfirst, hpaths⟩ := List.cons.inj hpath
      have hfirst : other.toInt.toNat = index.toInt.toNat := hfirst
      obtain rfl : other = index := Int64.toInt_inj.mp (by omega)
      rw [ih hrest hmore hs hpaths]

end Code.Ty

namespace Machine

variable {ty inner : Ty} {base : Int64} {indices : List Int64}

/-! ## What indexing gives -/

/-- `elementOffset` in closed form: the first index out of range is the fault; if there is none, an
index too many is. -/
theorem elementOffset_eq (hdims : ∀ n ∈ ty.dimensions, n < 2 ^ 32) (hsized : ty.size?.isSome)
    (indices : List Int64) :
    elementOffset ty indices = match ty.firstOutside indices with
      | some index => .error (.indexOutOfRange index)
      | none =>
        if indices.length ≤ ty.dimensions.length then
          .ok (Int64.ofNat (ty.offset (Ty.pathOf indices)))
        else .error (.malformed ("cannot index into " ++ ty.core.text)) := by
  induction indices generalizing ty with
  | nil =>
    have hnone : ty.firstOutside [] = none := Ty.firstOutside_eq_none.mpr ty.admits_nil
    rw [hnone, elementOffset_nil, Ty.pathOf, List.map_nil, Ty.offset_nil]
    exact (if_pos (Nat.zero_le _)).symm
  | cons index rest ih =>
    cases ty with
    | array length element =>
      have hsize := Ty.isSome_size?_element hsized
      have hcheck := index_check index (hdims length List.mem_cons_self)
      rw [elementOffset, Ty.firstOutside_cons]
      by_cases hrange : 0 ≤ index.toInt ∧ index.toInt < length
      · rw [if_neg (fun h => hcheck.mp h hrange), if_pos hrange, stride_of_isSome hsize,
          ih (fun n hn => hdims n (List.mem_cons_of_mem _ hn)) hsize]
        cases element.firstOutside rest with
        | some outside => rfl
        | none =>
          have hindex := Word.eq_ofNat_of_nonneg hrange.1
          -- `Int64.ofNat` goes through sums and products, so wrapping needs no case of its own
          have hpath : Int64.ofNat ((Ty.array length element).offset (Ty.pathOf (index :: rest)))
              = index * Int64.ofNat element.width
                + Int64.ofNat (element.offset (Ty.pathOf rest)) := by
            rw [Ty.pathOf_cons, Ty.offset, Int64.ofNat_add, Int64.ofNat_mul, ← hindex]
          have hlength : (index :: rest).length ≤ (Ty.array length element).dimensions.length
              ↔ rest.length ≤ element.dimensions.length := Nat.succ_le_succ_iff
          simp only [hlength, hpath]
          by_cases hmany : rest.length ≤ element.dimensions.length
          · simp only [if_pos hmany]
            rfl
          · simp only [if_neg hmany]
            rfl
      · rw [if_pos (hcheck.mpr hrange), if_neg hrange]
    | void => rfl
    | int bits => rfl
    | real => rfl
    | ptr => rfl

section

variable (hdims : ∀ n ∈ ty.dimensions, n < 2 ^ 32) (hsized : ty.size?.isSome)
include hdims hsized

/-- `elementOffset` succeeds exactly for indices that the type `Admits`, of which there are not too
many. -/
theorem elementOffset_eq_ok_iff {offset : Int64} :
    elementOffset ty indices = .ok offset ↔ indices.length ≤ ty.dimensions.length
      ∧ ty.Admits indices ∧ offset = Int64.ofNat (ty.offset (Ty.pathOf indices)) := by
  rw [elementOffset_eq hdims hsized, ← Ty.firstOutside_eq_none]
  cases ty.firstOutside indices with
  | some index => simp
  | none => by_cases hmany : indices.length ≤ ty.dimensions.length <;> simp [hmany, eq_comm]

/-- The index that `elementOffset` reports as out of range is `firstOutside`. -/
theorem elementOffset_eq_outOfRange_iff {index : Int64} :
    elementOffset ty indices = .error (.indexOutOfRange index)
      ↔ ty.firstOutside indices = some index := by
  rw [elementOffset_eq hdims hsized]
  cases ty.firstOutside indices with
  | some other => simp
  | none => by_cases hmany : indices.length ≤ ty.dimensions.length <;> simp [hmany]

/-- `elementOffset` reports malformed code exactly if there are too many indices and none is out of
range. -/
theorem elementOffset_eq_malformed_iff {reason : String} :
    elementOffset ty indices = .error (.malformed reason)
      ↔ ty.dimensions.length < indices.length ∧ ty.Admits indices
        ∧ reason = "cannot index into " ++ ty.core.text := by
  rw [elementOffset_eq hdims hsized, ← Ty.firstOutside_eq_none, ← Nat.not_le]
  cases ty.firstOutside indices with
  | some other => simp
  | none => by_cases hmany : indices.length ≤ ty.dimensions.length <;> simp [hmany, eq_comm]

end

/-- What indices that a type `Admits` lead to lies in the array. -/
theorem offset_add_width_le (h : ty.Admits indices) (hs : ty.strip indices.length = some inner) :
    ty.offset (Ty.pathOf indices) + inner.width ≤ ty.width := by
  have hbounds := ((h.hasPath hs).has 0).bounds.2
  simpa [Object.finish] using hbounds

/-- `elementOffset` of an element of an element, in one stage or in two. -/
theorem elementOffset_append {first more : List Int64} (hs : ty.strip first.length = some inner) :
    elementOffset ty (first ++ more) = (elementOffset ty first).bind fun outer =>
      (elementOffset inner more).map (outer + ·) := by
  induction first generalizing ty with
  | nil =>
    obtain rfl := Ty.eq_of_strip_zero hs
    rw [List.nil_append, elementOffset_nil]
    cases elementOffset ty more with
    | error e => rfl
    | ok offset => exact congrArg Except.ok (Int64.zero_add offset).symm
  | cons index rest ih =>
    obtain ⟨length, element, rfl, hs⟩ := Ty.exists_array_of_strip hs
    rw [List.cons_append, elementOffset, elementOffset]
    split
    · rfl
    · rw [ih hs]
      -- a fault on the way is one of both sides, and otherwise the sums differ in brackets only
      cases stride element with
      | error e => rfl
      | ok each =>
        cases elementOffset element rest with
        | error e => rfl
        | ok outer =>
          cases elementOffset inner more with
          | error e => rfl
          | ok offset => exact congrArg Except.ok (Int64.add_assoc _ _ _).symm

/-! ## Exact arithmetic -/

/-- The size of a type as a 64-bit integer, if it is one. -/
def exactStride (ty : Ty) : ExceptT Fault Option Int64 :=
  match ty.size? with
  | some size => ExceptT.lift (Word.ofInt? size)
  | none => throw (.malformed ("type " ++ ty.text ++ " has no size"))

/-- The distance to an element as `elementOffset` has it, added up from the first index to the last,
in 64-bit integers; no result at all if an operation leaves their range. -/
def exactOffset : Ty → Int64 → List Int64 → ExceptT Fault Option Int64
  | _, offset, [] => pure offset
  | .array length element, offset, index :: rest =>
    if index < 0 || Int64.ofNat length ≤ index then throw (.indexOutOfRange index)
    else do
      let each ← exactStride element
      let step ← ExceptT.lift (Word.mul? index each)
      let sum ← ExceptT.lift (Word.add? offset step)
      exactOffset element sum rest
  | ty, _, _ :: _ => throw (.malformed ("cannot index into " ++ ty.text))

/-- The address of an element as `elementAddress` has it; no result at all if an operation on the
way leaves the range of 64-bit integers. -/
def exactAddress (ty : Ty) (base : Int64) : List Int64 → ExceptT Fault Option Int64
  | [] => pure base
  | first :: rest => do
    let each ← exactStride ty
    let start ← ExceptT.lift (Word.mul? first each)
    let offset ← exactOffset ty start rest
    ExceptT.lift (Word.add? base offset)

/-- `exactStride` has a result for types below `2 ^ 63` bytes. -/
theorem exactStride_eq (hsized : ty.size?.isSome) (h : ty.width < 2 ^ 63) :
    exactStride ty = pure (Int64.ofNat ty.width) := by
  rw [exactStride, Ty.size?_of_isSome hsized]
  show ExceptT.lift (Word.ofInt? ty.width) = _
  rw [Word.ofInt?_natCast h]
  rfl

/-- Below the end of the array no sum of `exactOffset` leaves the range, so it is
`elementOffset`. -/
theorem exactOffset_eq (hdims : ∀ n ∈ ty.dimensions, n < 2 ^ 32) (hsized : ty.size?.isSome)
    {start : Nat} (h : start + ty.width < 2 ^ 63) (indices : List Int64) :
    exactOffset ty (Int64.ofNat start) indices
      = ExceptT.mk (some ((elementOffset ty indices).map (Int64.ofNat start + ·))) := by
  induction indices generalizing ty start with
  | nil =>
    have hstart : exactOffset ty (Int64.ofNat start) [] = pure (Int64.ofNat start) := by
      cases ty <;> rfl
    rw [hstart, elementOffset_nil, Except.map, Int64.add_zero]
    rfl
  | cons index rest ih =>
    cases ty with
    | array length element =>
      have hsize := Ty.isSome_size?_element hsized
      have hlength := hdims length List.mem_cons_self
      have hcheck := index_check index hlength
      rw [exactOffset, elementOffset]
      by_cases hrange : 0 ≤ index.toInt ∧ index.toInt < length
      · have hindex := Word.eq_ofNat_of_nonneg hrange.1
        have hi : index.toInt.toNat < length := by omega
        generalize index.toInt.toNat = i at hindex hi
        -- the values that the index steps over lie in the array, and so does one more
        have hin := Object.element_bounds hi element.width
        have hend : start + length * element.width < 2 ^ 63 := h
        have hmul : Word.mul? index (Int64.ofNat element.width)
            = some (Int64.ofNat (i * element.width)) :=
          hindex ▸ Word.mul?_ofNat (by omega) (by omega) (by omega)
        have hadd := Word.add?_ofNat (a := start) (b := i * element.width) (by omega)
        rw [if_neg (fun h => hcheck.mp h hrange), if_neg (fun h => hcheck.mp h hrange),
          exactStride_eq hsize (by omega), stride_of_isSome hsize, pure_bind, hmul]
        show (ExceptT.lift (Word.add? _ _) >>= fun sum => exactOffset element sum rest) = _
        rw [hadd]
        show exactOffset element (Int64.ofNat (start + i * element.width)) rest = _
        rw [ih (fun n hn => hdims n (List.mem_cons_of_mem _ hn)) hsize (by omega)]
        cases elementOffset element rest with
        | error e => rfl
        | ok offset =>
          show ExceptT.mk (some (Except.ok (Int64.ofNat (start + i * element.width) + offset)))
            = ExceptT.mk (some (.ok (Int64.ofNat start
              + (index * Int64.ofNat element.width + offset))))
          rw [Int64.ofNat_add, Int64.ofNat_mul, ← hindex, Int64.add_assoc]
      · rw [if_pos (hcheck.mpr hrange), if_pos (hcheck.mpr hrange)]
        rfl
    | void => rfl
    | int bits => rfl
    | real => rfl
    | ptr => rfl

/-- No sum of `exactAddress` leaves the range if the array ends in it, so it is `elementAddress`. -/
theorem exactAddress_eq (hdims : ∀ n ∈ ty.dimensions, n < 2 ^ 32) (hsized : ty.size?.isSome)
    (hbase : addressOf base + ty.width < 2 ^ 63) (indices : List Int64) :
    exactAddress ty base (0 :: indices)
      = ExceptT.mk (some (elementAddress ty base (0 :: indices))) := by
  have hmul : Word.mul? 0 (Int64.ofNat ty.width) = some (Int64.ofNat 0) := by
    have hzero := Word.mul?_ofNat (a := 0) (b := ty.width) (by omega) (by omega) (by omega)
    rwa [Nat.zero_mul] at hzero
  rw [exactAddress, exactStride_eq hsized (by omega), pure_bind, hmul]
  show (exactOffset ty (Int64.ofNat 0) indices >>= fun offset =>
    ExceptT.lift (Word.add? base offset)) = _
  rw [exactOffset_eq hdims hsized (by omega), elementAddress_eq hsized]
  cases hoffset : elementOffset ty indices with
  | error e => rfl
  | ok offset =>
    obtain ⟨hmany, hadmits, rfl⟩ := (elementOffset_eq_ok_iff hdims hsized).mp hoffset
    obtain ⟨inner, hs⟩ := ty.exists_strip hmany
    have hin := offset_add_width_le hadmits hs
    have hadd := Word.add?_ofNat (a := addressOf base) (b := ty.offset (Ty.pathOf indices))
      (by omega)
    rw [Int64.ofNat_add, ofNat_addressOf] at hadd
    show ExceptT.lift (Word.add? base (Int64.ofNat 0 + _)) = _
    rw [← Int64.ofNat_add, Nat.zero_add, hadd]
    rfl

/-! ## Places -/

theorem addressOf_inj {v w : Int64} : addressOf v = addressOf w ↔ v = w :=
  ⟨fun h => by rw [← ofNat_addressOf v, h, ofNat_addressOf], congrArg addressOf⟩

section

variable (hdims : ∀ n ∈ ty.dimensions, n < 2 ^ 32) (hsized : ty.size?.isSome)
include hdims hsized

/-- Indices in range, as many as there are dimensions or fewer, and no others have an
`elementAddress`. -/
theorem elementAddress_eq_ok_iff (hbase : addressOf base + ty.width < 2 ^ 64) {place : Int64} :
    elementAddress ty base (0 :: indices) = .ok place ↔ indices.length ≤ ty.dimensions.length
      ∧ ty.Admits indices
      ∧ addressOf place = addressOf base + ty.offset (Ty.pathOf indices) := by
  -- what is indexed lies in the array, so the sum does not wrap around
  have hplace (hmany : indices.length ≤ ty.dimensions.length) (hadmits : ty.Admits indices) :
      addressOf (base + Int64.ofNat (ty.offset (Ty.pathOf indices)))
        = addressOf base + ty.offset (Ty.pathOf indices) := by
    obtain ⟨inner, hs⟩ := ty.exists_strip hmany
    have hin := offset_add_width_le hadmits hs
    exact addressOf_add_ofNat (by omega)
  rw [elementAddress_eq hsized]
  constructor
  · intro h
    cases hoffset : elementOffset ty indices with
    | error e =>
      rw [hoffset] at h
      cases h
    | ok offset =>
      rw [hoffset] at h
      obtain ⟨hmany, hadmits, rfl⟩ := (elementOffset_eq_ok_iff hdims hsized).mp hoffset
      obtain rfl := Except.ok.inj h
      exact ⟨hmany, hadmits, hplace hmany hadmits⟩
  · rintro ⟨hmany, hadmits, haddress⟩
    rw [(elementOffset_eq_ok_iff hdims hsized).mpr ⟨hmany, hadmits, rfl⟩]
    exact congrArg Except.ok (addressOf_inj.mp ((hplace hmany hadmits).trans haddress.symm))

/-- An `elementAddress` lies in the array, and apart from those that other indices lead to. -/
theorem elementAddress_place (hbase : addressOf base + ty.width < 2 ^ 64) {place : Int64}
    (h : elementAddress ty base (0 :: indices) = .ok place) :
    ∃ inner, ty.strip indices.length = some inner
      ∧ Object.Has ⟨addressOf base, ty⟩ ⟨addressOf place, inner⟩
      ∧ ∀ others other, others.length = indices.length → others ≠ indices →
        elementAddress ty base (0 :: others) = .ok other →
        Object.Apart ⟨addressOf place, inner⟩ ⟨addressOf other, inner⟩ := by
  obtain ⟨hmany, hadmits, hplace⟩ := (elementAddress_eq_ok_iff hdims hsized hbase).mp h
  obtain ⟨inner, hs⟩ := ty.exists_strip hmany
  have hpath := hadmits.hasPath hs
  refine ⟨inner, hs, hplace ▸ hpath.has (addressOf base), ?_⟩
  intro others other hlength hne hother
  obtain ⟨-, hadmits', hplace'⟩ := (elementAddress_eq_ok_iff hdims hsized hbase).mp hother
  have hpath' := hadmits'.hasPath (hlength ▸ hs)
  -- one path would have to go on from the other, but they are of one length
  have hsame : (Ty.pathOf others).length = (Ty.pathOf indices).length := by
    rw [Ty.pathOf, Ty.pathOf, List.length_map, List.length_map, hlength]
  rcases hpath.prefix_or_apart hpath' (addressOf base) with hstart | hstart | hapart
  · exact absurd (hadmits.eq_of_pathOf hadmits' hs (hstart.eq_of_length hsame.symm).symm) hne
  · exact absurd (hadmits.eq_of_pathOf hadmits' hs (hstart.eq_of_length hsame)) hne
  · rwa [hplace, hplace']

end

/-- The faults of `elementAddress` are those of `elementOffset`. -/
theorem elementAddress_eq_error_iff (hsized : ty.size?.isSome) {fault : Fault} :
    elementAddress ty base (0 :: indices) = .error fault
      ↔ elementOffset ty indices = .error fault := by
  rw [elementAddress_eq hsized]
  cases elementOffset ty indices <;> simp [Except.map]

/-- `elementAddress` of an element of an element, in two stages as well as in one. -/
theorem elementAddress_append (hsized : ty.size?.isSome) {more : List Int64}
    (hs : ty.strip indices.length = some inner) :
    elementAddress ty base (0 :: (indices ++ more))
      = (elementAddress ty base (0 :: indices)).bind fun place =>
        elementAddress inner place (0 :: more) := by
  rw [elementAddress_eq hsized, elementAddress_eq hsized, elementOffset_append hs]
  cases elementOffset ty indices with
  | error e => rfl
  | ok outer =>
    show ((elementOffset inner more).map (outer + ·)).map (base + ·)
      = elementAddress inner (base + outer) (0 :: more)
    rw [elementAddress_eq (Ty.isSome_size?_strip hsized hs)]
    cases elementOffset inner more with
    | error e => rfl
    | ok offset => exact congrArg Except.ok (Int64.add_assoc _ _ _).symm

/-- The address of an element of an array that ends below `2 ^ 63`. Indices in the ranges of their
dimensions lead to the address of the array plus the sum of their steps; otherwise the first index
out of range is the fault, and where there is none, that there are too many. No operation on the way
leaves the range of 64-bit integers. What the indices lead to lies in the array, and apart from what
as many other indices lead to; and with more indices it is the array from which these lead on. -/
theorem elementAddress_rowMajor {size : Nat} (hdims : ∀ n ∈ ty.dimensions, n < 2 ^ 32)
    (hsize : ty.size? = some size) (hbase : addressOf base + size < 2 ^ 63)
    (indices : List Int64) :
    (∀ place, elementAddress ty base (0 :: indices) = .ok place
        ↔ indices.length ≤ ty.dimensions.length ∧ ty.Admits indices
          ∧ (addressOf place : Int) = addressOf base + ty.rowMajor indices)
      ∧ (∀ index, elementAddress ty base (0 :: indices) = .error (.indexOutOfRange index)
        ↔ ty.firstOutside indices = some index)
      ∧ (∀ reason, elementAddress ty base (0 :: indices) = .error (.malformed reason)
        ↔ ty.dimensions.length < indices.length ∧ ty.Admits indices
          ∧ reason = "cannot index into " ++ ty.core.text)
      ∧ (exactAddress ty base (0 :: indices)).run = some (elementAddress ty base (0 :: indices))
      ∧ (∀ place, elementAddress ty base (0 :: indices) = .ok place →
        ∃ inner n, ty.strip indices.length = some inner ∧ inner.size? = some n
          ∧ addressOf base ≤ addressOf place ∧ addressOf place + n ≤ addressOf base + size
          ∧ ∀ others other, others.length = indices.length → others ≠ indices →
            elementAddress ty base (0 :: others) = .ok other →
            addressOf place + n ≤ addressOf other ∨ addressOf other + n ≤ addressOf place)
      ∧ ∀ inner more, ty.strip indices.length = some inner →
        elementAddress ty base (0 :: (indices ++ more))
          = (elementAddress ty base (0 :: indices)).bind fun place =>
            elementAddress inner place (0 :: more) := by
  have hsized : ty.size?.isSome := hsize ▸ rfl
  obtain rfl : size = ty.width := Ty.eq_width_of_size? hsize
  have hend : addressOf base + ty.width < 2 ^ 64 := by omega
  refine ⟨fun place => ?_, fun index => ?_, fun reason => ?_, ?_, fun place hplace => ?_, ?_⟩
  · rw [elementAddress_eq_ok_iff hdims hsized hend]
    refine and_congr_right fun hmany => and_congr_right fun hadmits => ?_
    obtain ⟨inner, hs⟩ := ty.exists_strip hmany
    rw [hadmits.rowMajor_eq hsized hs]
    omega
  · rw [elementAddress_eq_error_iff hsized, elementOffset_eq_outOfRange_iff hdims hsized]
  · rw [elementAddress_eq_error_iff hsized, elementOffset_eq_malformed_iff hdims hsized]
  · rw [exactAddress_eq hdims hsized hbase]
    rfl
  · obtain ⟨inner, hs, hhas, hapart⟩ := elementAddress_place hdims hsized hend hplace
    have hinner := Ty.size?_of_isSome (Ty.isSome_size?_strip hsized hs)
    exact ⟨inner, inner.width, hs, hinner, hhas.bounds.1, hhas.bounds.2, hapart⟩
  · exact fun inner more hs => elementAddress_append hsized hs

/-- A matrix of three rows of four numbers, the element in the third column of its second row, and
an index beyond the last row. -/
theorem elementAddress_rowMajor_matrix :
    (Ty.arrayOf [3, 4] .integer).size? = some 96
      ∧ elementAddress (Ty.arrayOf [3, 4] .integer) 64 [0, 1, 2] = .ok (64 + (4 + 2) * 8)
      ∧ elementAddress (Ty.arrayOf [3, 4] .integer) 64 [0, 3, 0]
        = .error (.indexOutOfRange 3) := by
  have hdims : ∀ n ∈ (Ty.arrayOf [3, 4] .integer).dimensions, n < 2 ^ 32 := by decide
  have hsize : (Ty.arrayOf [3, 4] .integer).size? = some 96 := rfl
  have hbase : addressOf 64 + 96 < 2 ^ 63 := by decide
  have hinside := elementAddress_rowMajor hdims hsize hbase [1, 2]
  have houtside := elementAddress_rowMajor hdims hsize hbase [3, 0]
  exact ⟨hsize, (hinside.1 _).mpr ⟨by decide, by decide, by decide⟩,
    (houtside.2.1 3).mpr (by decide)⟩

end Machine

end Oberon
