import Oberon.Proofs.ScalarAccess

/-!
# Stores in memory

A scalar of the machine shows a value: truth values are -1 and 0, and a STRING is the address of
a constant with its text. A part of memory shows the values of a variable if the scalar at the end
of every path shows the value there. Writing a scalar and copying an array then do to memory what
they do to the store.
-/

namespace Oberon

open Code Machine

/-! ## Scalars -/

/-- A scalar that shows a `Datum`. -/
def Machine.Scalar.Shows (image : Image) : Scalar → Datum → Prop
  | .int n, .integer v => n = v
  | .real r, .real x => r = x
  | .int n, .boolean b => n = Datum.ofTruth b
  | .int n, .string none => n = 0
  | .int n, .string (some text) => ∃ c ∈ image.program.strings,
    c.bytes = Text.utf8Bytes text ∧ image.symbols.lookup c.name = some (addressOf n)
  | _, _ => False

theorem Datum.isScalar_ty (d : Datum) : d.ty.IsScalar := by
  cases d with
  | integer v => exact ⟨by decide, by decide⟩
  | real x => exact trivial
  | boolean b => exact ⟨by decide, by decide⟩
  | string text => exact trivial

namespace Machine.Scalar

variable {image : Image} {x : Scalar} {d : Datum}

theorem Shows.fits (h : x.Shows image d) (objects : List Object) :
    x.Fits image objects (.value d.ty) := by
  match x, d, h with
  | .int n, .integer v, _ => exact Word.isNormal_64 n
  | .real r, .real v, _ => exact trivial
  | .int n, .boolean b, h =>
    obtain rfl : n = Datum.ofTruth b := h
    exact Word.isNormal_ofBool b
  | .int n, .string none, h =>
    obtain rfl : n = 0 := h
    exact .inl rfl
  | .int n, .string (some text), ⟨c, hc, _, hlookup⟩ => exact .inr ⟨c, hc, hlookup⟩

theorem Shows.integer {v : Int64} (h : x.Shows image (.integer v)) : x = .int v := by
  match x, h with
  | .int n, h => exact congrArg Scalar.int h

theorem Shows.real {r : Double} (h : x.Shows image (.real r)) : x = .real r := by
  match x, h with
  | .real _, h => exact congrArg Scalar.real h

theorem Shows.boolean {b : Bool} (h : x.Shows image (.boolean b)) :
    x = .int (Datum.ofTruth b) := by
  match x, h with
  | .int n, h => exact congrArg Scalar.int h

theorem Shows.string {text : Option String} (h : x.Shows image (.string text)) :
    ∃ n, x = .int n := by
  match x, text, h with
  | .int n, none, _ => exact ⟨n, rfl⟩
  | .int n, some text, _ => exact ⟨n, rfl⟩

end Machine.Scalar

namespace Machine.Memory

variable {image : Image} {objects : List Object} {m n : Memory} {address : Nat} {ty found : Ty}

/-! ## Variables -/

/-- An object shows the values of a variable: the scalar at the end of each path, by `HasPath`,
shows the value there. -/
def Shows (image : Image) (m : Memory) (address : Nat) (ty : Ty) (values : List Nat → Datum) :
    Prop :=
  ∀ ⦃path : List Nat⦄ ⦃found : Ty⦄, ty.HasPath path found → found.IsScalar →
    (values path).ty = found
      ∧ (Scalar.ofWord found (m.readWord (address + ty.offset path) found.width)).Shows image
        (values path)

namespace Shows

variable {values : List Nat → Datum} {path : List Nat}

/-- What memory `Shows` of an object depends only on its bytes. -/
theorem congr (h : m.Shows image address ty values)
    (heq : ∀ i, address ≤ i → i < address + ty.width → n.get i = m.get i) :
    n.Shows image address ty values := by
  intro path found hpath hscalar
  obtain ⟨hty, hshows⟩ := h hpath hscalar
  have hbounds := (hpath.has address).bounds
  simp only [Object.finish] at hbounds
  have hsame : n.readWord (address + ty.offset path) found.width
      = m.readWord (address + ty.offset path) found.width :=
    readWord_congr fun i hi => heq _ (by omega) (by omega)
  rw [hsame]
  exact ⟨hty, hshows⟩

/-- After `writeWord` of a scalar, memory `Shows` the variable with another value at its path. -/
theorem write (h : m.Shows image address ty values) {d : Datum} {x : Scalar}
    (hpath : ty.HasPath path d.ty) (hx : x.Shows image d)
    (hsize : address + ty.offset path + d.ty.width ≤ m.size) :
    (m.writeWord (address + ty.offset path) d.ty.width x.bits).Shows image address ty
      fun p => if p = path then d else values p := by
  intro path' found hpath' hscalar
  by_cases hsame : path' = path
  · subst hsame
    obtain rfl := Ty.hasPath_nil.mp (hpath'.append_iff.mp ((List.append_nil path').symm ▸ hpath))
    simp only [if_true]
    rw [ofWord_readWord_writeWord d.isScalar_ty (hx.fits []).isOf hsize]
    exact ⟨trivial, hx⟩
  · simp only [if_neg hsame]
    obtain ⟨hty, hshows⟩ := h hpath' hscalar
    have hapart : Object.Apart ⟨address + ty.offset path, d.ty⟩
        ⟨address + ty.offset path', found⟩ := by
      -- two paths to scalars of which one starts the other are the same
      rcases hpath.prefix_or_apart hpath' address with ⟨more, rfl⟩ | ⟨more, rfl⟩ | hapart
      · have hnil := (hpath.append_iff.mp hpath').eq_nil d.isScalar_ty
        exact absurd (by rw [hnil, List.append_nil]) hsame
      · have hnil := (hpath'.append_iff.mp hpath).eq_nil hscalar
        exact absurd (by rw [hnil, List.append_nil]) hsame
      · exact hapart
    simp only [Object.Apart, Object.finish] at hapart
    have hword : (m.writeWord (address + ty.offset path) d.ty.width x.bits).readWord
        (address + ty.offset path') found.width
          = m.readWord (address + ty.offset path') found.width :=
      readWord_congr fun i hi => get_writeWord_of_outside _ (by omega)
    rw [hword]
    exact ⟨hty, hshows⟩

/-- After `copyFrom`, memory `Shows` a part of a variable as a part of another one was, or of the
same one. -/
theorem copy (h : m.Shows image address ty values) {origin : Nat} {ty' : Ty}
    {values' : List Nat → Datum} {path' : List Nat} (h' : m.Shows image origin ty' values')
    (hpath : ty.HasPath path found) (hpath' : ty'.HasPath path' found)
    (hsize : address + ty.offset path + found.width ≤ m.size) :
    (m.copyFrom m (address + ty.offset path) (origin + ty'.offset path') found.width).Shows image
      address ty
      fun p => if path.isPrefixOf p then values' (path' ++ p.drop path.length) else values p := by
  have hget (i : Nat) : (m.copyFrom m _ (origin + ty'.offset path') _).get i = _ :=
    m.get_copyFrom m hsize i
  intro p scalar hp hscalar
  -- a scalar inside of the part that is copied, or apart from it
  by_cases hpre : path <+: p
  · obtain ⟨more, rfl⟩ := hpre
    simp only [List.isPrefixOf_iff_prefix, List.prefix_append, if_true, List.drop_left]
    have hmore := hpath.append_iff.mp hp
    obtain ⟨hty, hshows⟩ := h' (hpath'.append_iff.mpr hmore) hscalar
    have hbounds := (hmore.has 0).bounds
    simp only [Object.finish] at hbounds
    have hword : (m.copyFrom m (address + ty.offset path) (origin + ty'.offset path')
        found.width).readWord (address + ty.offset (path ++ more)) scalar.width
          = m.readWord (origin + ty'.offset (path' ++ more)) scalar.width := by
      rw [hpath.offset_append, hpath'.offset_append]
      refine readWord_congr fun i hi => ?_
      rw [hget, if_pos (by omega)]
      congr 1
      omega
    rw [hword]
    exact ⟨hty, hshows⟩
  · simp only [List.isPrefixOf_iff_prefix, hpre, if_false]
    obtain ⟨hty, hshows⟩ := h hp hscalar
    have hapart : Object.Apart ⟨address + ty.offset path, found⟩
        ⟨address + ty.offset p, scalar⟩ := by
      rcases hpath.prefix_or_apart hp address with hpre' | ⟨more, rfl⟩ | hapart
      · exact absurd hpre' hpre
      · have hnil := (hp.append_iff.mp hpath).eq_nil hscalar
        rw [hnil, List.append_nil] at hpre
        exact absurd List.prefix_rfl hpre
      · exact hapart
    simp only [Object.Apart, Object.finish] at hapart
    have hword : (m.copyFrom m (address + ty.offset path) (origin + ty'.offset path')
        found.width).readWord (address + ty.offset p) scalar.width
          = m.readWord (address + ty.offset p) scalar.width :=
      readWord_congr fun i hi => by rw [hget, if_neg (by omega)]
    rw [hword]
    exact ⟨hty, hshows⟩

end Shows

end Machine.Memory

/-! ## Layouts -/

/-- Where variables are: each in an object of its own, `Apart` from the others. -/
structure Layout where
  object : String → Option Object
  apart : ∀ {x y : String} {o q : Object}, object x = some o → object y = some q → x ≠ y →
    o.Apart q

namespace Layout

variable {L : Layout} {image : Image} {m n : Memory} {store : Store} {x y : String}
  {o q : Object} {path path' : List Nat} {found : Ty}

/-- Memory holds a store: each object of the layout `Shows` its variable. -/
def Holds (L : Layout) (image : Image) (m : Memory) (store : Store) : Prop :=
  ∀ ⦃x : String⦄ ⦃o : Object⦄, L.object x = some o → m.Shows image o.address o.ty (store x)

/-- The layout `Holds` the store in which only the part of one variable has changed. -/
theorem Holds.change (h : L.Holds image m store) (hx : L.object x = some o)
    (hpath : o.ty.HasPath path found) {values : List Nat → Datum}
    (hvalues : n.Shows image o.address o.ty values)
    (houtside : ∀ i, i < o.address + o.ty.offset path
      ∨ o.address + o.ty.offset path + found.width ≤ i → n.get i = m.get i) :
    L.Holds image n fun y => if y = x then values else store y := by
  intro y q hy
  by_cases hyx : y = x
  · subst hyx
    obtain rfl := Option.some.inj (hx.symm.trans hy)
    simp only [if_true]
    exact hvalues
  · simp only [if_neg hyx]
    have hapart : o.Apart q := L.apart hx hy (Ne.symm hyx)
    have hbounds := (hpath.has o.address).bounds
    simp only [Object.Apart, Object.finish] at hapart hbounds
    exact (h hy).congr fun i hlow hhigh => houtside i (by omega)

/-- The layout `Holds` `Store.write` after a scalar was written. -/
theorem Holds.write (h : L.Holds image m store) {d : Datum} {s : Scalar}
    (hx : L.object x = some o) (hpath : o.ty.HasPath path d.ty) (hs : s.Shows image d)
    (hsize : o.finish ≤ m.size) :
    L.Holds image (m.writeWord (o.address + o.ty.offset path) d.ty.width s.bits)
      (store.write x path d) := by
  have hbounds := (hpath.has o.address).bounds
  simp only [Object.finish] at hbounds hsize
  have hvalues := (h hx).write hpath hs (by omega)
  have hstore : store.write x path d
      = fun y => if y = x then fun p => if p = path then d else store x p else store y := by
    funext y p
    by_cases hyx : y = x
    · simp [Store.write, hyx]
    · simp [Store.write, hyx]
  rw [hstore]
  exact h.change hx hpath hvalues fun i hi => Memory.get_writeWord_of_outside _ hi

/-- The layout `Holds` `Store.copy` after a part was copied. -/
theorem Holds.copy (h : L.Holds image m store) (hx : L.object x = some o)
    (hy : L.object y = some q) (hpath : o.ty.HasPath path found)
    (hpath' : q.ty.HasPath path' found) (hsize : o.finish ≤ m.size) :
    L.Holds image
      (m.copyFrom m (o.address + o.ty.offset path) (q.address + q.ty.offset path') found.width)
      (store.copy x path y path') := by
  have hbounds := (hpath.has o.address).bounds
  simp only [Object.finish] at hbounds hsize
  have hvalues := (h hx).copy (h hy) hpath hpath' (by omega)
  have hstore : store.copy x path y path'
      = fun z => if z = x then fun p => if path.isPrefixOf p
          then store y (path' ++ p.drop path.length) else store x p else store z := by
    funext z p
    by_cases hzx : z = x
    · simp [Store.copy, hzx]
    · simp [Store.copy, hzx]
  rw [hstore]
  refine h.change hx hpath hvalues fun i hi => ?_
  rw [m.get_copyFrom m (by omega), if_neg (by omega)]

end Layout

end Oberon
