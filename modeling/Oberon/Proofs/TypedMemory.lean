import Oberon.Machine.State
import Oberon.Proofs.Memory
import Oberon.Proofs.Objects
import Oberon.Proofs.Words

/-!
# Typed memory

The memory of a running program holds the strings at its start and then objects that lie apart.
All that has to be known of what objects contain is that a STRING is null or the address of a
string constant. Reading, writing and copying parts of objects, and making and dropping objects,
keep memory so, and never go wrong.
-/

namespace Oberon.Machine

open Code

/-! ## Scalars in memory -/

/-- The scalar of a type in the bytes of a word. -/
def Scalar.ofWord : Ty → UInt64 → Scalar
  | .int bits, w => .int (Word.wrap bits w.toInt64)
  | .real, w => .real ⟨w⟩
  | _, w => .int w.toInt64

namespace Memory

variable {m : Memory} {address : Nat} {ty : Ty}

/-- `checkWord` of a value of at most eight bytes is `check`. -/
theorem checkWord_eq {count : Nat} (h : count ≤ 8) :
    m.checkWord address count = m.check address count := by
  rw [checkWord]
  cases m.check address count with
  | error e => rfl
  | ok => exact if_pos h

/-- `read` of a scalar in valid memory is `readWord`. -/
theorem read_eq (hty : ty.IsScalar) (h : m.check address ty.width = .ok ()) :
    m.read ty address = .ok (.ofWord ty (m.readWord address ty.width)) := by
  cases ty with
  | int bits =>
    have hle : Ty.bytesOf bits ≤ 8 := hty.width_le
    simp only [Memory.read]
    rw [checkWord_eq hle, show m.check address (Ty.bytesOf bits) = .ok () from h]
    rfl
  | real =>
    simp only [Memory.read]
    rw [show m.check address 8 = .ok () from h]
    rfl
  | ptr =>
    simp only [Memory.read]
    rw [show m.check address 8 = .ok () from h]
    rfl
  | void => exact hty.elim
  | array length element => exact hty.elim

/-- `write` of a scalar in valid memory is `writeWord`. -/
theorem write_eq {x : Scalar} (hty : ty.IsScalar) (h : m.check address ty.width = .ok ()) :
    m.write ty address x = .ok (m.writeWord address ty.width x.bits) := by
  simp only [Memory.write, hty.isProper.size?_eq, checkWord_eq hty.width_le, h]
  rfl

end Memory

/-! ## Texts -/

/-- Bytes in a row, and a zero behind them. -/
structure Memory.HasText (m : Memory) (address : Nat) (bytes : List UInt8) : Prop where
  get : ∀ {i : Nat} {b : UInt8}, bytes[i]? = some b → m.get (address + i) = b
  zero : m.get (address + bytes.length) = 0

/-- `HasText` depends on the bytes up to the end of the text only. -/
theorem Memory.HasText.congr {m n : Memory} {address : Nat} {bytes : List UInt8}
    (h : m.HasText address bytes)
    (heq : ∀ i, i ≤ address + bytes.length → n.get i = m.get i) : n.HasText address bytes := by
  refine ⟨fun {i b} hb => ?_, ?_⟩
  · have hlt := (List.getElem?_eq_some_iff.mp hb).1
    rw [heq _ (by omega)]
    exact h.get hb
  · rw [heq _ le_rfl]
    exact h.zero

/-- `Memory.scan` reads a text up to its first zero. -/
theorem Memory.HasText.scan {m : Memory} {address limit : Nat} {bytes : List UInt8}
    (h : m.HasText address bytes) (hlimit : bytes.length < limit) :
    m.scan limit address = some (bytes.takeWhile (· != 0)) := by
  induction bytes generalizing address limit with
  | nil =>
    obtain ⟨limit, rfl⟩ := Nat.exists_eq_add_one_of_ne_zero (Nat.ne_of_gt hlimit)
    have hzero : m.get address = 0 := h.zero
    simp [Memory.scan, hzero]
  | cons b rest ih =>
    obtain ⟨limit, rfl⟩ :=
      Nat.exists_eq_add_one_of_ne_zero (Nat.ne_of_gt (Nat.zero_lt_of_lt hlimit))
    have hfirst : m.get address = b := h.get (i := 0) rfl
    have hrest : m.HasText (address + 1) rest := by
      refine ⟨fun {i c} hc => ?_, ?_⟩
      · rw [Nat.add_right_comm, Nat.add_assoc]
        exact h.get (i := i + 1) hc
      · rw [Nat.add_right_comm, Nat.add_assoc]
        exact h.zero
    rw [Memory.scan, hfirst]
    by_cases hb : b = 0
    · simp [hb]
    · simp [hb, ih hrest (by simpa using hlimit)]

/-- The strings of a program in memory, below `floor`. -/
structure Image.HasTexts (image : Image) (floor : Nat) (m : Memory) : Prop where
  floor_le : floor ≤ m.size
  null : nullPage ≤ floor
  addressable : floor ≤ 2 ^ 64
  text : ∀ c ∈ image.program.strings, ∃ address, image.symbols.lookup c.name = some address
    ∧ nullPage ≤ address ∧ address + c.bytes.length < floor ∧ m.HasText address c.bytes

namespace Image

variable {image : Image} {floor : Nat} {m n : Memory}

/-- `HasTexts` allows for changes of memory, as long as the strings stay. -/
theorem HasTexts.congr (h : image.HasTexts floor m) (hsize : floor ≤ n.size)
    (heq : ∀ i < floor, n.get i = m.get i) : image.HasTexts floor n := by
  refine ⟨hsize, h.null, h.addressable, fun c hc => ?_⟩
  obtain ⟨address, hlookup, hnull, hlt, htext⟩ := h.text c hc
  exact ⟨address, hlookup, hnull, hlt, htext.congr fun i hi => heq i (by omega)⟩

/-- `Memory.string` reads a constant up to its first zero. -/
theorem HasTexts.string (h : image.HasTexts floor m) {c : StringConstant}
    (hc : c ∈ image.program.strings) :
    ∃ address, image.symbols.lookup c.name = some address ∧ address < 2 ^ 64
      ∧ m.string address = .ok (c.bytes.takeWhile (· != 0)) := by
  obtain ⟨address, hlookup, hnull, hlt, htext⟩ := h.text c hc
  have hfloor := h.floor_le
  have haddressable := h.addressable
  refine ⟨address, hlookup, by omega, ?_⟩
  simp only [Memory.string, Memory.check_eq_ok hnull (show address + 0 ≤ m.size by omega),
    htext.scan (show c.bytes.length < m.size - address by omega)]
  rfl

/-- All string constants are found by their names in `Image.symbols`. -/
def FindsTexts (image : Image) : Prop :=
  ∀ c ∈ image.program.strings, ∃ address, image.symbols.lookup c.name = some address
    ∧ address < 2 ^ 64

/-- Where memory `HasTexts`, the strings have addresses. -/
theorem HasTexts.finds (h : image.HasTexts floor m) : image.FindsTexts := by
  intro c hc
  obtain ⟨address, hlookup, hlt, -⟩ := h.string hc
  exact ⟨address, hlookup, hlt⟩

/-- An address that a STRING may hold: none, or that of a constant. -/
def IsText (image : Image) (address : Nat) : Prop :=
  address = 0 ∨ ∃ c ∈ image.program.strings, image.symbols.lookup c.name = some address

/-- `Memory.string` reads every STRING that is not null. -/
theorem HasTexts.string_of_isText (h : image.HasTexts floor m) {address : Nat}
    (ha : image.IsText address) :
    (address = 0 ∧ m.string address = .error (.badAddress 0))
      ∨ ∃ bytes, m.string address = .ok bytes := by
  rcases ha with rfl | ⟨c, hc, hlookup⟩
  · exact .inl ⟨rfl, rfl⟩
  · obtain ⟨address', hlookup', -, hstring⟩ := h.string hc
    obtain rfl := Option.some.inj (hlookup.symm.trans hlookup')
    exact .inr ⟨_, hstring⟩

end Image

/-! ## Values -/

/-- A scalar of some `Kind`: a normal number, a double, a text, or a place that one of the objects
has. -/
def Scalar.Fits (image : Image) (objects : List Object) : Kind → Scalar → Prop
  | .value (.int bits), .int v => Word.IsNormal bits v
  | .value .real, .real _ => True
  | .value .ptr, .int v => image.IsText (addressOf v)
  | .place ty, .int v => Objects.Has objects ⟨addressOf v, ty⟩
  | _, _ => False

namespace Scalar.Fits

variable {image : Image} {objects more : List Object} {k : Kind} {v : Scalar}

/-- A scalar that `Fits` a kind does so among more objects. -/
theorem mono (h : v.Fits image objects k) (hsub : objects ⊆ more) : v.Fits image more k := by
  match k, v, h with
  | .value (.int bits), .int v, h => exact h
  | .value .real, .real _, h => exact h
  | .value .ptr, .int v, h => exact h
  | .place ty, .int v, h => exact Objects.Has.mono h hsub

/-- Whether a scalar `Fits` the kind of a value does not depend on objects. -/
theorem value {ty : Ty} (h : v.Fits image objects (.value ty)) : v.Fits image more (.value ty) := by
  match ty, v, h with
  | .int bits, .int v, h => exact h
  | .real, .real _, h => exact h
  | .ptr, .int v, h => exact h

/-- What `Fits` an integer type is a number, normal for its width. -/
theorem exists_int {bits : Nat} (h : v.Fits image objects (.value (.int bits))) :
    ∃ n, v = .int n ∧ Word.IsNormal bits n := by
  match v, h with
  | .int n, h => exact ⟨n, rfl, h⟩

theorem exists_real (h : v.Fits image objects (.value .real)) : ∃ r, v = .real r := by
  match v, h with
  | .real r, _ => exact ⟨r, rfl⟩

theorem exists_text (h : v.Fits image objects (.value .ptr)) :
    ∃ n, v = .int n ∧ image.IsText (addressOf n) := by
  match v, h with
  | .int n, h => exact ⟨n, rfl, h⟩

/-- What `Fits` the kind of a place is the address of a part of an object. -/
theorem exists_place {ty : Ty} (h : v.Fits image objects (.place ty)) :
    ∃ n, v = .int n ∧ Objects.Has objects ⟨addressOf n, ty⟩ := by
  match v, h with
  | .int n, h => exact ⟨n, rfl, h⟩

end Scalar.Fits

/-! ## Objects -/

/-- Memory with strings below `floor`, objects above it, and no STRING but of the strings. -/
structure Memory.Typed (image : Image) (floor : Nat) (objects : List Object) (m : Memory) :
    Prop where
  texts : image.HasTexts floor m
  isProper : ∀ o ∈ objects, o.ty.IsProper
  bounds : ∀ o ∈ objects, floor ≤ o.address ∧ o.finish ≤ m.size ∧ o.finish ≤ maxMemory
  apart : objects.Pairwise Object.Apart
  pointers : ∀ {address : Nat}, Objects.Has objects ⟨address, .ptr⟩ →
    image.IsText (m.readWord address 8).toNat

namespace Memory.Typed

variable {image : Image} {floor : Nat} {objects : List Object} {m n : Memory}
  {address : Nat} {ty : Ty}

/-- Parts of the objects of typed memory have types with `IsProper`. -/
theorem part_isProper (h : m.Typed image floor objects) (hq : Objects.Has objects ⟨address, ty⟩) :
    ty.IsProper := by
  obtain ⟨o, ho, hq⟩ := hq
  exact hq.isProper (h.isProper o ho)

/-- Parts of the objects of typed memory lie between `floor` and its end. -/
theorem part_bounds (h : m.Typed image floor objects) (hq : Objects.Has objects ⟨address, ty⟩) :
    floor ≤ address ∧ address + ty.width ≤ m.size ∧ address + ty.width ≤ maxMemory := by
  obtain ⟨o, ho, hq⟩ := hq
  have hbounds := h.bounds o ho
  have hparts : o.address ≤ address ∧ address + ty.width ≤ o.finish := hq.bounds
  omega

/-- A part of an object is in valid memory: `Memory.check` succeeds. -/
theorem check (h : m.Typed image floor objects) (hq : Objects.Has objects ⟨address, ty⟩) :
    m.check address ty.width = .ok () := by
  have hbounds := h.part_bounds hq
  have hnull := h.texts.null
  exact check_eq_ok (by omega) hbounds.2.1

/-- Memory stays typed if it changes inside of one part only, and puts no STRING there but of
the strings. -/
theorem change (h : m.Typed image floor objects) (hq : Objects.Has objects ⟨address, ty⟩)
    (hsize : n.size = m.size)
    (houtside : ∀ i, i < address ∨ address + ty.width ≤ i → n.get i = m.get i)
    (hinside : ∀ {a : Nat}, Object.Has ⟨address, ty⟩ ⟨a, .ptr⟩ →
      image.IsText (n.readWord a 8).toNat) : n.Typed image floor objects := by
  have hbounds := h.part_bounds hq
  refine ⟨h.texts.congr ?_ fun i hi => houtside i (.inl (by omega)), h.isProper,
    fun o ho => hsize ▸ h.bounds o ho, h.apart, fun {a} hp => ?_⟩
  · rw [hsize]
    exact h.texts.floor_le
  · rcases hq.nested_or_apart h.apart hp with hin | hout | hapart
    · exact hinside hin
    · obtain ⟨rfl, rfl⟩ := Object.mk.inj (hout.eq_of_isScalar trivial)
      exact hinside (.refl _)
    · have hapart : address + ty.width ≤ a ∨ a + 8 ≤ address := hapart
      have hsame : n.readWord a 8 = m.readWord a 8 :=
        readWord_congr fun i hi => houtside _ (by omega)
      rw [hsame]
      exact h.pointers hp

/-- `Memory.read` succeeds at a place of a scalar type, with a value that `Fits` it. -/
theorem read (h : m.Typed image floor objects) (hty : ty.IsScalar)
    (hq : Objects.Has objects ⟨address, ty⟩) :
    ∃ v, m.read ty address = .ok v ∧ v.Fits image objects (.value ty) := by
  refine ⟨_, read_eq hty (h.check hq), ?_⟩
  cases ty with
  | int bits => exact Word.isNormal_wrap hty.1 hty.2 _
  | real => exact trivial
  | ptr => exact h.pointers hq
  | void => exact hty.elim
  | array length element => exact hty.elim

/-- `Memory.write` of a value that `Fits` succeeds at a place of its type, and memory stays
typed. -/
theorem write (h : m.Typed image floor objects) {v : Scalar} (hty : ty.IsScalar)
    (hq : Objects.Has objects ⟨address, ty⟩) (hv : v.Fits image objects (.value ty)) :
    ∃ n, m.write ty address v = .ok n ∧ n.Typed image floor objects ∧ n.size = m.size := by
  have hbounds := h.part_bounds hq
  refine ⟨m.writeWord address ty.width v.bits, write_eq hty (h.check hq), ?_, size_writeWord ..⟩
  refine h.change hq (size_writeWord ..) (fun i hi => get_writeWord_of_outside _ hi)
    fun {a} hp => ?_
  obtain ⟨rfl, rfl⟩ := Object.mk.inj (hp.eq_of_isScalar hty)
  obtain ⟨n, rfl, hn⟩ := hv.exists_text
  rw [show Ty.ptr.width = 8 from rfl, readWord_writeWord _ hbounds.2.1]
  exact hn

/-- `Memory.copy` of an array to a place of its type succeeds, and memory stays typed. -/
theorem copy (h : m.Typed image floor objects) {destination source : Nat}
    (hd : Objects.Has objects ⟨destination, ty⟩) (hs : Objects.Has objects ⟨source, ty⟩) :
    ∃ n, m.copy destination source ty.width = .ok n ∧ n.Typed image floor objects
      ∧ n.size = m.size := by
  have hbounds := h.part_bounds hd
  have hget (i : Nat) : (m.copyFrom m destination source ty.width).get i
      = if destination ≤ i ∧ i < destination + ty.width then m.get (source + (i - destination))
        else m.get i := m.get_copyFrom m hbounds.2.1 i
  refine ⟨m.copyFrom m destination source ty.width, ?_, ?_, size_copyFrom ..⟩
  · simp only [Memory.copy, h.check hs, h.check hd]
    rfl
  · refine h.change hd (size_copyFrom ..) (fun i hi => ?_) fun {a} hp => ?_
    · rw [hget, if_neg (by omega)]
    · -- a STRING in the destination is the one at the same distance in the source
      have hpart : destination ≤ a ∧ a + 8 ≤ destination + ty.width := hp.bounds
      have hsame : (m.copyFrom m destination source ty.width).readWord a 8
          = m.readWord (source + (a - destination)) 8 := by
        refine readWord_congr fun i hi => ?_
        rw [hget, if_pos (by omega)]
        congr 1
        omega
      rw [hsame]
      exact h.pointers (hs.trans (hp.shift source))

/-- `Memory.allocate` makes one more object, or memory is too small. A new object is all zero, so
its STRINGs are null. -/
theorem allocate (h : m.Typed image floor objects) (hty : ty.IsProper) :
    m.allocate ty = .error (.outOfMemory maxMemory)
      ∨ ∃ address n, m.allocate ty = .ok (address, n) ∧ address < 2 ^ 64 ∧ m.size ≤ n.size
        ∧ n.Typed image floor (⟨address, ty⟩ :: objects) := by
  set address := (m.size + 7) / 8 * 8
  have hwidth := hty.shaped.width_pos
  have hmax : max ty.width 1 = ty.width := max_eq_left hwidth
  have hunfold : m.allocate ty = if address + ty.width ≤ maxMemory
      then .ok (address, m.extend (address + ty.width)) else .error (.outOfMemory maxMemory) := by
    simp only [Memory.allocate, hty.size?_eq, hmax]
    rfl
  by_cases hfits : address + ty.width ≤ maxMemory
  · right
    have hle : m.size ≤ address := by omega
    have hsize : (m.extend (address + ty.width)).size = address + ty.width := by
      show max m.size (address + ty.width) = _
      omega
    have hfloor := h.texts.floor_le
    refine ⟨address, m.extend (address + ty.width), by rw [hunfold, if_pos hfits], ?_, ?_, ?_, ?_,
      ?_, ?_, ?_⟩
    · have : maxMemory < 2 ^ 64 := by decide
      omega
    · omega
    · exact h.texts.congr (by omega) fun i _ => rfl
    · exact List.forall_mem_cons.mpr ⟨hty, h.isProper⟩
    · refine List.forall_mem_cons.mpr ⟨⟨?_, ?_, hfits⟩, fun o ho => ?_⟩
      · show floor ≤ address
        omega
      · rw [hsize]
        exact Nat.le_refl _
      · have hbounds := h.bounds o ho
        omega
    · refine List.pairwise_cons.mpr ⟨fun o ho => .inr ?_, h.apart⟩
      exact (h.bounds o ho).2.1.trans hle
    · intro a hp
      obtain ⟨o, ho, hp⟩ := hp
      rcases List.mem_cons.mp ho with rfl | ho
      · have hpart : address ≤ a := hp.bounds.1
        -- both words are all zero
        have hzero : (m.extend (address + ty.width)).readWord a 8
            = Memory.initial.readWord 16 8 := by
          refine readWord_congr fun i _ => ?_
          rw [get_extend, get_of_size_le _ (by omega),
            get_of_size_le _ (by simp [initial, nullPage])]
        rw [hzero]
        exact .inl rfl
      · exact h.pointers ⟨o, ho, hp⟩
  · left
    rw [hunfold, if_neg hfits]

/-- `Memory.truncate` may drop objects at the end. -/
theorem truncate (h : m.Typed image floor objects) {kept : List Object} {base : Nat}
    (hkept : kept <:+ objects) (hfloor : floor ≤ base) (hbase : base ≤ m.size)
    (hbelow : ∀ o ∈ kept, o.finish ≤ base) : (m.truncate base).Typed image floor kept := by
  have hsize : (m.truncate base).size = base := min_eq_right hbase
  refine ⟨h.texts.congr (hsize.symm ▸ hfloor) fun i hi => get_truncate _ (by omega),
    fun o ho => h.isProper o (hkept.subset ho), fun o ho => ?_, h.apart.sublist hkept.sublist,
    fun {a} hp => ?_⟩
  · have hbounds := h.bounds o (hkept.subset ho)
    rw [hsize]
    exact ⟨hbounds.1, hbelow o ho, hbounds.2.2⟩
  · obtain ⟨o, ho, hp⟩ := hp
    have hpart : o.address ≤ a ∧ a + 8 ≤ o.finish := hp.bounds
    have hend := hbelow o ho
    have hsame : (m.truncate base).readWord a 8 = m.readWord a 8 :=
      readWord_congr fun i hi => get_truncate _ (by omega)
    rw [hsame]
    exact h.pointers ⟨o, hkept.subset ho, hp⟩

end Memory.Typed

end Oberon.Machine
