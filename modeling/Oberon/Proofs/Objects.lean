import Mathlib.Algebra.Order.Ring.Nat
import Mathlib.Data.List.Pairwise
import Oberon.Machine.Arithmetic
import Oberon.Machine.Memory
import Oberon.Proofs.Semantics
import Oberon.Proofs.Typing

/-!
# Objects in memory

An object is a value of some type at some address. The parts of an array are its elements and
their parts; two parts of one object lie apart unless one of them is a part of the other. A part
is reached along a path of indices, and the address of an element, as the machine computes it, is
that of the part at the end of its path.
-/

namespace Oberon

open Code

/-! ## The size of types -/

/-- The bytes that a value of a type takes, without the check of `size?`. -/
def Code.Ty.width : Ty → Nat
  | .void => 0
  | .int bits => bytesOf bits
  | .real | .ptr => 8
  | .array length element => length * element.width

namespace Code.Ty

/-- `bytesOf` is the number of bits over eight, rounded up, where the sum has no more than 32
bits. -/
theorem bytesOf_eq {bits : Nat} (h : bits + 7 < UInt32.size) : bytesOf bits = (bits + 7) / 8 := by
  rw [bytesOf, Nat.mod_eq_of_lt h]

/-- A type that has a size has `width` bytes. -/
theorem eq_width_of_size? {ty : Ty} {bytes : Nat} (h : ty.size? = some bytes) :
    bytes = ty.width := by
  induction ty generalizing bytes with
  | array length element ih =>
    obtain ⟨each, heach, hbytes⟩ := Option.bind_eq_some_iff.mp h
    split at hbytes
    · rw [← Option.some.inj hbytes, ih heach, width]
    · exact nomatch hbytes
  | _ => exact (Option.some.inj h).symm

theorem size?_of_isSome {ty : Ty} (h : ty.size?.isSome) : ty.size? = some ty.width := by
  obtain ⟨bytes, hbytes⟩ := Option.isSome_iff_exists.mp h
  rw [hbytes, eq_width_of_size? hbytes]

/-- Proper types have a size, which is their `width`. -/
theorem IsProper.size?_eq {ty : Ty} (h : ty.IsProper) : ty.size? = some ty.width :=
  size?_of_isSome h.sized

theorem IsShaped.width_pos {ty : Ty} (h : ty.IsShaped) : 0 < ty.width := by
  induction ty with
  | void => exact h.elim
  | int bits =>
    have hbits : 1 ≤ bits ∧ bits ≤ 64 := h
    rw [width, bytesOf_eq (by unfold UInt32.size; omega)]
    omega
  | real => exact Nat.succ_pos 7
  | ptr => exact Nat.succ_pos 7
  | array length element ih => exact Nat.mul_pos h.1 (ih h.2.2)

/-- Types with `IsScalar` take at most eight bytes. -/
theorem IsScalar.width_le {ty : Ty} (h : ty.IsScalar) : ty.width ≤ 8 := by
  cases ty with
  | int bits =>
    have hbits : bits ≤ 64 := h.2
    rw [width, bytesOf_eq (by unfold UInt32.size; omega)]
    omega
  | real => exact Nat.le_refl 8
  | ptr => exact Nat.le_refl 8
  | void => exact h.elim
  | array length element => exact h.elim

end Code.Ty

/-! ## Parts of objects -/

/-- A value in memory: where it starts, and its type. -/
structure Object where
  address : Nat
  ty : Ty

namespace Object

/-- The first address behind an object. -/
def finish (o : Object) : Nat :=
  o.address + o.ty.width

/-- Two objects that share no byte: one ends, by `finish`, before the other starts. -/
def Apart (o q : Object) : Prop :=
  o.finish ≤ q.address ∨ q.finish ≤ o.address

instance : Std.Symm Apart :=
  ⟨fun _ _ => Or.symm⟩

/-- An object is a part of itself, and so are the parts of its elements. -/
inductive Has : Object → Object → Prop
  | refl (o : Object) : Has o o
  | element {address length index : Nat} {ty : Ty} {q : Object} (hi : index < length)
    (h : Has ⟨address + index * ty.width, ty⟩ q) : Has ⟨address, .array length ty⟩ q

variable {o q r : Object}

/-- A part of a part is a part, as `Has` says. -/
theorem Has.trans (h : o.Has q) (h' : q.Has r) : o.Has r := by
  induction h with
  | refl => exact h'
  | element hi _ ih => exact .element hi (ih h')

/-- An element at an `index` in range lies inside of its array. -/
theorem element_bounds {length index : Nat} (h : index < length) (width : Nat) :
    index * width + width ≤ length * width := by
  rw [← Nat.succ_mul]
  exact Nat.mul_le_mul_right width h

/-- A part that an object `Has` lies between its address and its `finish`. -/
theorem Has.bounds (h : o.Has q) : o.address ≤ q.address ∧ q.finish ≤ o.finish := by
  induction h with
  | refl => exact ⟨Nat.le_refl _, Nat.le_refl _⟩
  | @element address length index ty q hi h ih =>
    have hin := element_bounds hi ty.width
    simp only [finish, Ty.width] at ih ⊢
    omega

theorem Has.isProper (h : o.Has q) (ho : o.ty.IsProper) : q.ty.IsProper := by
  induction h with
  | refl => exact ho
  | element hi h ih => exact ih ho.element

/-- The parts that an object `Has` are at the same distances wherever it is. -/
theorem Has.shift (h : o.Has q) (address : Nat) :
    Has ⟨address, o.ty⟩ ⟨address + (q.address - o.address), q.ty⟩ := by
  induction h generalizing address with
  | refl o =>
    rw [Nat.sub_self]
    exact .refl _
  | @element start length index ty q hi h ih =>
    have hbounds : start + index * ty.width ≤ q.address := h.bounds.1
    have hsame : address + (q.address - start)
        = address + index * ty.width + (q.address - (start + index * ty.width)) := by omega
    show Has ⟨address, .array length ty⟩ ⟨address + (q.address - start), q.ty⟩
    rw [hsame]
    exact .element hi (ih _)

/-- A scalar `Has` no part but itself. -/
theorem Has.eq_of_isScalar (h : o.Has q) (ho : o.ty.IsScalar) : q = o := by
  cases h with
  | refl => rfl
  | element hi h => exact ho.elim

/-- Parts of objects that are `Apart` are so too. -/
theorem Apart.of_has {o' q' : Object} (h : o.Apart o') (hq : o.Has q) (hq' : o'.Has q') :
    q.Apart q' := by
  have hb := hq.bounds
  have hb' := hq'.bounds
  unfold Apart at h ⊢
  omega

/-- Different elements of an array are `Apart`. -/
theorem elements_apart (address : Nat) (ty : Ty) {i j : Nat} (h : i ≠ j) :
    Apart ⟨address + i * ty.width, ty⟩ ⟨address + j * ty.width, ty⟩ := by
  simp only [Apart, finish]
  rcases Nat.lt_or_gt_of_ne h with hlt | hlt
  · have hin := element_bounds hlt ty.width
    omega
  · have hin := element_bounds hlt ty.width
    omega

/-- Two parts that one object `Has` are apart, or one of them is a part of the other. -/
theorem Has.nested_or_apart (hq : o.Has q) (hr : o.Has r) : q.Has r ∨ r.Has q ∨ q.Apart r := by
  induction hq with
  | refl => exact .inl hr
  | @element address length index ty q hi hq ih =>
    cases hr with
    | refl => exact .inr (.inl (.element hi hq))
    | @element _ _ index' _ _ hi' hr =>
      by_cases heq : index = index'
      · subst heq
        exact ih hr
      · exact .inr (.inr ((elements_apart address ty heq).of_has hq hr))

end Object

/-! ## Objects side by side -/

/-- The parts of all objects of a list, by `Object.Has`. -/
def Objects.Has (objects : List Object) (q : Object) : Prop :=
  ∃ o ∈ objects, o.Has q

namespace Objects

variable {objects more : List Object} {q r : Object}

theorem Has.mono (h : Objects.Has objects q) (hsub : objects ⊆ more) : Objects.Has more q := by
  obtain ⟨o, ho, hq⟩ := h
  exact ⟨o, hsub ho, hq⟩

theorem Has.trans (h : Objects.Has objects q) (h' : q.Has r) : Objects.Has objects r := by
  obtain ⟨o, ho, hq⟩ := h
  exact ⟨o, ho, hq.trans h'⟩

/-- Parts of `objects` that lie apart are apart too, or one of them is a part of the other. -/
theorem Has.nested_or_apart (hapart : objects.Pairwise Object.Apart) (hq : Objects.Has objects q)
    (hr : Objects.Has objects r) : q.Has r ∨ r.Has q ∨ q.Apart r := by
  obtain ⟨o, ho, hq⟩ := hq
  obtain ⟨o', ho', hr⟩ := hr
  by_cases heq : o = o'
  · subst heq
    exact hq.nested_or_apart hr
  · exact .inr (.inr ((hapart.forall ho ho' heq).of_has hq hr))

end Objects

/-! ## Paths -/

namespace Code.Ty

/-- The type at the end of a path of indices, each in the range of its dimension. -/
def HasPath : Ty → List Nat → Ty → Prop
  | ty, [], found => found = ty
  | .array length element, i :: rest, found => i < length ∧ element.HasPath rest found
  | _, _ :: _, _ => False

/-- The distance to the end of a path, where `HasPath` says that there is one. -/
def offset : Ty → List Nat → Nat
  | .array _ element, i :: rest => i * element.width + element.offset rest
  | _, _ => 0

variable {ty mid found other : Ty} {path more : List Nat}

theorem offset_nil (ty : Ty) : ty.offset [] = 0 := by
  cases ty <;> rfl

theorem hasPath_nil : ty.HasPath [] found ↔ found = ty := by
  cases ty <;> rfl

theorem follow_nil (ty : Ty) : ty.follow [] = .ok ([], ty) := by
  cases ty <;> rfl

/-- Only arrays have elements, so a path that goes on with `HasPath` starts at an array. -/
theorem HasPath.exists_array {i : Nat} (h : ty.HasPath (i :: path) found) :
    ∃ length element, ty = .array length element ∧ i < length ∧ element.HasPath path found := by
  cases ty with
  | array length element => exact ⟨length, element, rfl, h⟩
  | void => exact h.elim
  | int bits => exact h.elim
  | real => exact h.elim
  | ptr => exact h.elim

theorem HasPath.eq_nil (h : ty.HasPath path found) (hty : ty.IsScalar) : path = [] := by
  cases path with
  | nil => rfl
  | cons i rest =>
    obtain ⟨length, element, rfl, -⟩ := h.exists_array
    exact hty.elim

/-- What is at the end of a path is a part, `offset` bytes from the start. -/
theorem HasPath.has (h : ty.HasPath path found) (address : Nat) :
    Object.Has ⟨address, ty⟩ ⟨address + ty.offset path, found⟩ := by
  induction path generalizing ty address with
  | nil =>
    obtain rfl := hasPath_nil.mp h
    rw [offset_nil]
    exact .refl _
  | cons i rest ih =>
    obtain ⟨length, element, rfl, hi, hrest⟩ := h.exists_array
    rw [offset, ← Nat.add_assoc]
    exact .element hi (ih hrest _)

/-- `HasPath` goes on from where a path ends. -/
theorem HasPath.append_iff (h : ty.HasPath path mid) :
    ty.HasPath (path ++ more) found ↔ mid.HasPath more found := by
  induction path generalizing ty with
  | nil =>
    obtain rfl := hasPath_nil.mp h
    exact Iff.rfl
  | cons i rest ih =>
    obtain ⟨length, element, rfl, hi, hrest⟩ := h.exists_array
    exact ⟨fun h => (ih hrest).mp h.2, fun h => ⟨hi, (ih hrest).mpr h⟩⟩

/-- The `offset` along two paths in a row is the sum of theirs. -/
theorem HasPath.offset_append (h : ty.HasPath path mid) :
    ty.offset (path ++ more) = ty.offset path + mid.offset more := by
  induction path generalizing ty with
  | nil =>
    obtain rfl := hasPath_nil.mp h
    rw [offset_nil, Nat.zero_add]
    rfl
  | cons i rest ih =>
    obtain ⟨length, element, rfl, hi, hrest⟩ := h.exists_array
    rw [List.cons_append, offset, offset, ih hrest, Nat.add_assoc]

/-- What is at the ends of two paths is `Apart`, unless one path goes on from the other. -/
theorem HasPath.prefix_or_apart {path' : List Nat} (h : ty.HasPath path found)
    (h' : ty.HasPath path' other) (address : Nat) :
    path <+: path' ∨ path' <+: path
      ∨ Object.Apart ⟨address + ty.offset path, found⟩ ⟨address + ty.offset path', other⟩ := by
  induction path generalizing ty path' address with
  | nil => exact .inl (List.nil_prefix)
  | cons i rest ih =>
    cases path' with
    | nil => exact .inr (.inl List.nil_prefix)
    | cons j rest' =>
      obtain ⟨length, element, rfl, -, hrest⟩ := h.exists_array
      have hrest' : element.HasPath rest' other := h'.2
      simp only [List.cons_prefix_cons, offset, ← Nat.add_assoc]
      by_cases hij : i = j
      · subst hij
        rcases ih hrest hrest' (address + i * element.width) with hpre | hpre | hapart
        · exact .inl ⟨rfl, hpre⟩
        · exact .inr (.inl ⟨rfl, hpre⟩)
        · exact .inr (.inr hapart)
      · exact .inr (.inr ((Object.elements_apart address element hij).of_has
          (hrest.has _) (hrest'.has _)))

/-- Indices in range lead along a path, by `Ty.follow`. -/
theorem hasPath_of_follow {indices : List Int64} (h : ty.follow indices = .ok (path, found)) :
    ty.HasPath path found := by
  induction indices generalizing ty path with
  | nil =>
    rw [follow_nil] at h
    obtain ⟨rfl, rfl⟩ := Prod.mk.inj (Except.ok.inj h)
    exact hasPath_nil.mpr rfl
  | cons index rest ih =>
    cases ty with
    | array length element =>
      rw [follow] at h
      split at h
      · rename_i hrange
        cases hrest : element.follow rest with
        | error e =>
          rw [hrest] at h
          exact nomatch h
        | ok r =>
          rw [hrest] at h
          obtain ⟨rfl, rfl⟩ := Prod.mk.inj (Except.ok.inj h)
          exact ⟨by omega, ih hrest⟩
      · exact nomatch h
    | void => exact nomatch h
    | int bits => exact nomatch h
    | real => exact nomatch h
    | ptr => exact nomatch h

end Code.Ty

/-! ## Addresses of elements -/

theorem Word.eq_ofNat_of_nonneg {v : Int64} (h : 0 ≤ v.toInt) :
    v = Int64.ofNat v.toInt.toNat := by
  rw [← Int64.ofInt_eq_ofNat, Int.toNat_of_nonneg h, Int64.ofInt_toInt]

namespace Machine

/-- `addressOf` reads an address back that fits in 64 bits. -/
theorem addressOf_ofNat {n : Nat} (h : n < 2 ^ 64) : addressOf (Int64.ofNat n) = n := by
  unfold addressOf
  rw [Int64.toUInt64_ofNat', UInt64.toNat_ofNat']
  exact Nat.mod_eq_of_lt h

theorem ofNat_addressOf (v : Int64) : Int64.ofNat (addressOf v) = v := by
  unfold addressOf
  rw [← UInt64.toInt64_ofNat', UInt64.ofNat_toNat]
  rfl

/-- `addressOf` of an address that is moved by `n` bytes, without a carry beyond 64 bits. -/
theorem addressOf_add_ofNat {v : Int64} {n : Nat} (h : addressOf v + n < 2 ^ 64) :
    addressOf (v + Int64.ofNat n) = addressOf v + n := by
  conv_lhs => rw [← ofNat_addressOf v, ← Int64.ofNat_add]
  exact addressOf_ofNat h

/-- The check of an `index` against its dimension, in 64 bits, is the one on integers. -/
theorem index_check {length : Nat} (index : Int64) (hlength : length < 2 ^ 32) :
    (index < 0 || Int64.ofNat length ≤ index) = true
      ↔ ¬ (0 ≤ index.toInt ∧ index.toInt < length) := by
  have hlen : (Int64.ofNat length).toInt = length := Int64.toInt_ofNat_of_lt (by omega)
  simp only [Bool.or_eq_true, decide_eq_true_eq, Int64.lt_iff_toInt_lt, Int64.le_iff_toInt_le,
    hlen]
  show index.toInt < 0 ∨ _ ↔ _
  omega

theorem stride_of_isSome {ty : Ty} (h : ty.size?.isSome) :
    stride ty = .ok (Int64.ofNat ty.width) := by
  rw [stride, Ty.size?_of_isSome h]

theorem elementOffset_nil (ty : Ty) : elementOffset ty [] = .ok 0 := by
  cases ty <;> rfl

/-- Without a step over whole values, `elementAddress` is `elementOffset` added to the address of
the array. -/
theorem elementAddress_eq {ty : Ty} (hsized : ty.size?.isSome) (base : Int64)
    (indices : List Int64) :
    elementAddress ty base (0 :: indices) = (elementOffset ty indices).map (base + ·) := by
  rw [elementAddress, stride_of_isSome hsized]
  cases elementOffset ty indices with
  | error e => rfl
  | ok offset =>
    show Except.ok (base + (0 * Int64.ofNat ty.width + offset)) = .ok (base + offset)
    rw [Int64.zero_mul, Int64.zero_add]

/-- `elementOffset` is the distance to the end of the path along its indices. -/
theorem elementOffset_eq_follow {ty element : Ty} {indices : List Int64} (hty : ty.IsProper)
    (hs : ty.strip indices.length = some element) :
    elementOffset ty indices = (ty.follow indices).map fun p => Int64.ofNat (ty.offset p.1) := by
  induction indices generalizing ty with
  | nil => cases ty <;> rfl
  | cons index rest ih =>
    obtain ⟨length, inner, rfl, hs⟩ := Ty.exists_array_of_strip hs
    have hcheck := index_check index hty.shaped.2.1
    rw [elementOffset, Ty.follow]
    by_cases hrange : 0 ≤ index.toInt ∧ index.toInt < length
    · have hindex := Word.eq_ofNat_of_nonneg hrange.1
      rw [if_neg (fun h => hcheck.mp h hrange), if_pos hrange,
        stride_of_isSome hty.element.sized, ih hty.element hs]
      cases inner.follow rest with
      | error e => rfl
      | ok p =>
        show Except.ok (index * Int64.ofNat inner.width + Int64.ofNat (inner.offset p.1))
          = Except.ok (Int64.ofNat (index.toInt.toNat * inner.width + inner.offset p.1))
        rw [Int64.ofNat_add, Int64.ofNat_mul, ← hindex]
    · rw [if_pos (hcheck.mpr hrange), if_neg hrange]
      rfl

/-- The type that `Ty.follow` finds along indices is what they strip off, or some index is out of
range. -/
theorem follow_strip {ty element : Ty} {indices : List Int64}
    (hs : ty.strip indices.length = some element) :
    (∃ index, ty.follow indices = .error (.indexOutOfRange index))
      ∨ ∃ path, ty.follow indices = .ok (path, element) := by
  induction indices generalizing ty with
  | nil =>
    obtain rfl := Ty.eq_of_strip_zero hs
    exact .inr ⟨[], ty.follow_nil⟩
  | cons index rest ih =>
    obtain ⟨length, inner, rfl, hs⟩ := Ty.exists_array_of_strip hs
    rw [Ty.follow]
    by_cases hrange : 0 ≤ index.toInt ∧ index.toInt < length
    · rw [if_pos hrange]
      rcases ih hs with ⟨bad, hbad⟩ | ⟨path, hpath⟩
      · exact .inl ⟨bad, by rw [hbad]; rfl⟩
      · exact .inr ⟨_, by rw [hpath]; rfl⟩
    · rw [if_neg hrange]
      exact .inl ⟨index, rfl⟩

/-- `elementAddress` without a step over whole values, in terms of `Ty.follow`. -/
theorem elementAddress_eq_follow {ty element : Ty} {indices : List Int64} (hty : ty.IsProper)
    (hs : ty.strip indices.length = some element) (base : Int64) :
    elementAddress ty base (0 :: indices)
      = (ty.follow indices).map fun p => base + Int64.ofNat (ty.offset p.1) := by
  rw [elementAddress_eq hty.sized, elementOffset_eq_follow hty hs]
  cases ty.follow indices with
  | error e => rfl
  | ok p => rfl

/-- `elementAddress` is that of a part of the array, or some index is out of range. -/
theorem elementAddress_part {ty element : Ty} {base : Int64} {indices : List Int64}
    (hty : ty.IsProper) (hs : ty.strip indices.length = some element)
    (hbase : addressOf base + ty.width < 2 ^ 64) :
    (∃ index, elementAddress ty base (0 :: indices) = .error (.indexOutOfRange index))
      ∨ ∃ place, elementAddress ty base (0 :: indices) = .ok place
        ∧ Object.Has ⟨addressOf base, ty⟩ ⟨addressOf place, element⟩ := by
  rw [elementAddress_eq_follow hty hs]
  rcases follow_strip hs with ⟨bad, hbad⟩ | ⟨path, hpath⟩
  · exact .inl ⟨bad, by rw [hbad]; rfl⟩
  · refine .inr ⟨base + Int64.ofNat (ty.offset path), by rw [hpath]; rfl, ?_⟩
    have hpart := (Ty.hasPath_of_follow hpath).has (addressOf base)
    have hbounds := hpart.bounds
    simp only [Object.finish] at hbounds
    rwa [addressOf_add_ofNat (by omega)]

end Machine

end Oberon
