import Mathlib.Algebra.BigOperators.Group.List.Basic
import Oberon.Proofs.Addressing

/-!
# Types of arrays

An array of several dimensions is an array of arrays. It is given by the list of its dimensions and
the type of its elements, and taking dimensions away, putting arrays into arrays and measuring them
are operations on that list. Sizes are multiplied from the inside out, and each product is checked;
where no dimension is zero, some product on the way is too great only if the last one is.
-/

namespace Oberon.Code.Ty

variable {ty element part : Ty} {dims : List Nat} {k bytes : Nat}

/-! ## Lists of dimensions -/

theorem arrayOf_cons (length : Nat) (dims : List Nat) (element : Ty) :
    arrayOf (length :: dims) element = .array length (arrayOf dims element) :=
  rfl

theorem arrayOf_append (outer inner : List Nat) (element : Ty) :
    arrayOf (outer ++ inner) element = arrayOf outer (arrayOf inner element) :=
  List.foldr_append

theorem dimensions_of_not_array (h : element.isArray = false) : element.dimensions = [] := by
  cases element with
  | array length inner => cases h
  | _ => rfl

theorem core_of_not_array (h : element.isArray = false) : element.core = element := by
  cases element with
  | array length inner => cases h
  | _ => rfl

theorem strip_of_not_array (h : element.isArray = false) (hk : 0 < k) : element.strip k = none := by
  cases hs : element.strip k with
  | none => rfl
  | some part =>
    obtain ⟨n, rfl⟩ := Nat.exists_eq_add_of_lt hk
    obtain ⟨length, inner, rfl, -⟩ := exists_array_of_strip hs
    cases h

theorem dimensions_arrayOf (dims : List Nat) (element : Ty) :
    (arrayOf dims element).dimensions = dims ++ element.dimensions := by
  induction dims with
  | nil => rfl
  | cons length dims ih => rw [arrayOf_cons, dimensions, ih, List.cons_append]

theorem core_arrayOf (dims : List Nat) (element : Ty) :
    (arrayOf dims element).core = element.core := by
  induction dims with
  | nil => rfl
  | cons length dims ih => rw [arrayOf_cons, core, ih]

/-- `Ty.strip` uses up dimensions of `arrayOf` from the outside in, and then those of the
elements. -/
theorem strip_arrayOf (dims : List Nat) (element : Ty) (k : Nat) :
    (arrayOf dims element).strip k
      = if k ≤ dims.length then some (arrayOf (dims.drop k) element)
        else element.strip (k - dims.length) := by
  induction dims generalizing k with
  | nil =>
    cases k with
    | zero => exact strip_zero element
    | succ k => rfl
  | cons length dims ih =>
    cases k with
    | zero => exact strip_zero _
    | succ k => simp [arrayOf_cons, strip, ih]

/-! ## Sizes -/

theorem width_arrayOf (dims : List Nat) (element : Ty) :
    (arrayOf dims element).width = dims.prod * element.width := by
  induction dims with
  | nil => exact (Nat.one_mul _).symm
  | cons length dims ih => rw [arrayOf_cons, width, ih, List.prod_cons, Nat.mul_assoc]

/-- `Ty.size?`, the checked product of all dimensions, is the plain one, `Ty.width`. -/
theorem size?_eq_of_pos (hpos : ∀ n ∈ ty.dimensions, 0 < n) (hcore : ty.core.width < 2 ^ 64) :
    ty.size? = if ty.width < 2 ^ 64 then some ty.width else none := by
  induction ty with
  | array length element ih =>
    obtain ⟨hlength, hrest⟩ := List.forall_mem_cons.mp hpos
    rw [size?, ih hrest hcore, width]
    by_cases hfits : element.width < 2 ^ 64
    · rw [if_pos hfits]
      rfl
    · -- one more dimension makes it no smaller
      have hle : element.width ≤ length * element.width := Nat.le_mul_of_pos_left _ hlength
      rw [if_neg hfits, if_neg (by omega)]
      rfl
  | void => exact (if_pos hcore).symm
  | int bits => exact (if_pos hcore).symm
  | real => exact (if_pos hcore).symm
  | ptr => exact (if_pos hcore).symm

theorem width_strip_le (hpos : ∀ n ∈ ty.dimensions, 0 < n) (hs : ty.strip k = some part) :
    part.width ≤ ty.width := by
  induction k generalizing ty with
  | zero => rw [eq_of_strip_zero hs]
  | succ k ih =>
    obtain ⟨length, inner, rfl, hs⟩ := exists_array_of_strip hs
    obtain ⟨hlength, hrest⟩ := List.forall_mem_cons.mp hpos
    calc part.width
      _ ≤ inner.width := ih hrest hs
      _ ≤ length * inner.width := Nat.le_mul_of_pos_left _ hlength

/-- What `Ty.strip` leaves of a sized array is sized, and no larger. -/
theorem exists_size?_strip (hpos : ∀ n ∈ ty.dimensions, 0 < n) (hsize : ty.size? = some bytes)
    (hs : ty.strip k = some part) : ∃ fewer ≤ bytes, part.size? = some fewer := by
  have hsized : ty.size?.isSome := by rw [hsize]; rfl
  refine ⟨part.width, ?_, size?_of_isSome (isSome_size?_strip hsized hs)⟩
  rw [eq_width_of_size? hsize]
  exact width_strip_le hpos hs

/-- Every type but an array has a `size?`, which has at most 64 bits. -/
theorem size?_of_not_array (h : element.isArray = false) :
    element.size? = some element.width ∧ element.width < 2 ^ 64 := by
  cases element with
  | void => exact ⟨rfl, by decide⟩
  | int bits =>
    refine ⟨rfl, ?_⟩
    rw [width, bytesOf, UInt32.size]
    omega
  | real => exact ⟨rfl, by decide⟩
  | ptr => exact ⟨rfl, by decide⟩
  | array length inner => cases h

/-- What array types are: their dimensions are those they were made of; indexing `k` times leaves
the array of the dimensions but the first `k`, and there are no more than these; an array of arrays
is one array; and the size is the product of all dimensions and the size of an element, if it has at
most 64 bits. So what is inside of an array that has a size has one that is no greater. -/
theorem arrayOf_laws (hscalar : element.isArray = false) (hpos : ∀ n ∈ dims, 0 < n) :
    (arrayOf dims element).dimensions = dims
      ∧ (∀ k, (arrayOf dims element).strip k
        = if k ≤ dims.length then some (arrayOf (dims.drop k) element) else none)
      ∧ (∀ outer inner ty, arrayOf (outer ++ inner) ty = arrayOf outer (arrayOf inner ty))
      ∧ (∃ each, element.size? = some each ∧ (arrayOf dims element).size?
        = if dims.prod * each < 2 ^ 64 then some (dims.prod * each) else none)
      ∧ ∀ (ty part : Ty) (k bytes : Nat), (∀ n ∈ ty.dimensions, 0 < n) → ty.size? = some bytes →
        ty.strip k = some part → ∃ fewer ≤ bytes, part.size? = some fewer := by
  obtain ⟨hsize, hlt⟩ := size?_of_not_array hscalar
  have hdims : (arrayOf dims element).dimensions = dims := by
    rw [dimensions_arrayOf, dimensions_of_not_array hscalar, List.append_nil]
  refine ⟨hdims, ?_, arrayOf_append, ⟨element.width, hsize, ?_⟩,
    fun _ _ _ _ => exists_size?_strip⟩
  · intro k
    rw [strip_arrayOf]
    by_cases hk : k ≤ dims.length
    · rw [if_pos hk, if_pos hk]
    · rw [if_neg hk, if_neg hk, strip_of_not_array hscalar (by omega)]
  · -- the plain product is the width of the whole
    rw [← width_arrayOf]
    apply size?_eq_of_pos
    · rwa [hdims]
    · rwa [core_arrayOf, core_of_not_array hscalar]

/-- The product of three dimensions, and one that has more than 64 bits. -/
theorem arrayOf_laws_cube :
    (arrayOf [3, 4, 5] .real).dimensions = [3, 4, 5]
      ∧ (arrayOf [3, 4, 5] .real).strip 2 = some (arrayOf [5] .real)
      ∧ (arrayOf [3, 4, 5] .real).size? = some 480
      ∧ (arrayOf [4294967295, 4294967295, 4294967295] .integer).size? = none := by
  have hcube : ∀ n ∈ [3, 4, 5], 0 < n := by decide
  have hhuge : ∀ n ∈ [4294967295, 4294967295, 4294967295], 0 < n := by decide
  obtain ⟨hdims, hstrip, -, ⟨each, heach, hsize⟩, -⟩ :=
    arrayOf_laws (show Ty.real.isArray = false from rfl) hcube
  obtain ⟨-, -, -, ⟨word, hword, hnone⟩, -⟩ :=
    arrayOf_laws (show Ty.integer.isArray = false from rfl) hhuge
  obtain rfl := Option.some.inj heach
  obtain rfl := Option.some.inj hword
  exact ⟨hdims, hstrip 2, hsize, hnone⟩

end Oberon.Code.Ty
