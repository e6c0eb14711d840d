import Oberon.Proofs.TypedMemory

/-!
# Access to scalars

A scalar is written as the low bytes of its 64 bits, as many as its type takes, the lowest first.
To read it back, the missing bytes are taken as zero and the sign is extended from the topmost bit
of the type. A width need not be a multiple of eight, and a negative number has ones above it, so
what is read is what was written only because the number is in the range of its type. All other
bytes stay as they were, and so does everything if the place is not in valid memory.
-/

namespace Oberon.Machine

open Code

/-! ## Scalars of a type -/

/-- A scalar of a type: an integer that `Word.IsNormal` for its width, any double, any address. -/
def Scalar.IsOf : Scalar → Ty → Prop
  | .int v, .int bits => Word.IsNormal bits v
  | .int _, .ptr => True
  | .real _, .real => True
  | _, _ => False

theorem Scalar.Fits.isOf {image : Image} {objects : List Object} {ty : Ty} {x : Scalar}
    (h : x.Fits image objects (.value ty)) : x.IsOf ty := by
  match ty, x, h with
  | .int bits, .int v, h => exact h
  | .real, .real _, _ => exact trivial
  | .ptr, .int _, _ => exact trivial

namespace Memory

variable {m n : Memory} {address : Nat} {ty : Ty} {x : Scalar}

/-! ## Round trips -/

/-- A number that `Word.IsNormal` is known by the bytes in which `writeWord` puts it. -/
theorem wrap_readWord_writeWord {bits : Nat} {v : Int64} (h : 1 ≤ bits) (h' : bits ≤ 64)
    (hv : Word.IsNormal bits v) (hsize : address + Ty.bytesOf bits ≤ m.size) :
    Word.wrap bits ((m.writeWord address (Ty.bytesOf bits) v.toUInt64).readWord address
      (Ty.bytesOf bits)).toInt64 = v := by
  rw [Ty.bytesOf_eq (by unfold UInt32.size; omega)] at hsize ⊢
  refine hv.wrap_eq h h' ?_
  have hread := toNat_readWord_writeWord v.toUInt64 (show (bits + 7) / 8 ≤ 8 by omega) hsize
  have hpow : (256 : Nat) ^ ((bits + 7) / 8) = 2 ^ (8 * ((bits + 7) / 8)) := (pow_mul 2 8 _).symm
  rw [hpow] at hread
  -- the bytes hold at least the low `bits` bits
  have hdvd : (2 : Int) ^ bits ∣ 2 ^ (8 * ((bits + 7) / 8)) := pow_dvd_pow 2 (by omega)
  set w := (m.writeWord address ((bits + 7) / 8) v.toUInt64).readWord address ((bits + 7) / 8)
  calc w.toInt64.toInt % 2 ^ bits
      = (w.toNat : Int) % 2 ^ bits := Word.toInt_toInt64_emod w h'
    _ = (v.toUInt64.toNat : Int) % 2 ^ (8 * ((bits + 7) / 8)) % 2 ^ bits := by
        rw [hread]
        push_cast
        rfl
    _ = (v.toUInt64.toNat : Int) % 2 ^ bits := Int.emod_emod_of_dvd _ hdvd
    _ = v.toInt % 2 ^ bits := (Word.toInt_toInt64_emod v.toUInt64 h').symm

/-- A scalar that `IsOf` a type reads as `writeWord` wrote it. -/
theorem ofWord_readWord_writeWord (hty : ty.IsScalar) (hx : x.IsOf ty)
    (hsize : address + ty.width ≤ m.size) :
    Scalar.ofWord ty ((m.writeWord address ty.width x.bits).readWord address ty.width) = x := by
  match ty, x, hx with
  | .int bits, .int v, hv =>
    exact congrArg Scalar.int (wrap_readWord_writeWord hty.1 hty.2 hv hsize)
  | .real, .real r, _ =>
    rw [show Ty.real.width = 8 from rfl, readWord_writeWord _ hsize]
    rfl
  | .ptr, .int v, _ =>
    rw [show Ty.ptr.width = 8 from rfl, readWord_writeWord _ hsize]
    rfl

/-- `Memory.read` depends only on the bytes in its range, and on whether they are there. -/
theorem read_eq_of_get_eq (hsize : n.size = m.size)
    (h : ∀ i < ty.width, n.get (address + i) = m.get (address + i)) :
    n.read ty address = m.read ty address := by
  have hcheck (count : Nat) : n.check address count = m.check address count := by
    have hbytes : n.HasBytes address count ↔ m.HasBytes address count := by
      rw [HasBytes, HasBytes, hsize]
    rw [check_eq, check_eq]
    exact if_congr hbytes rfl rfl
  have hword : n.readWord address ty.width = m.readWord address ty.width := readWord_congr h
  cases ty with
  | int bits =>
    rw [read, read, checkWord, checkWord, hcheck,
      show n.readWord address (Ty.bytesOf bits) = _ from hword]
    rfl
  | real =>
    rw [read, read, hcheck, show n.readWord address 8 = _ from hword]
    rfl
  | ptr =>
    rw [read, read, hcheck, show n.readWord address 8 = _ from hword]
    rfl
  | void => rfl
  | array length element => rfl

/-! ## Writing -/

theorem write_eq_ite (hty : ty.IsScalar) : m.write ty address x
    = if m.HasBytes address ty.width then .ok (m.writeWord address ty.width x.bits)
      else .error (.badAddress address) := by
  simp only [write, hty.isProper.size?_eq, checkWord_eq hty.width_le, check_eq]
  split <;> rfl

theorem write_eq_ok_iff (hty : ty.IsScalar) : m.write ty address x = .ok n
    ↔ m.HasBytes address ty.width ∧ m.writeWord address ty.width x.bits = n := by
  rw [write_eq_ite hty]
  by_cases hbytes : m.HasBytes address ty.width
  · simp [hbytes]
  · simp [hbytes]

theorem write_eq_error_iff (hty : ty.IsScalar) {fault : Fault} :
    m.write ty address x = .error fault
      ↔ ¬ m.HasBytes address ty.width ∧ .badAddress address = fault := by
  rw [write_eq_ite hty]
  by_cases hbytes : m.HasBytes address ty.width
  · simp [hbytes]
  · simp [hbytes]

/-- The memory behind an attempt to write: the new one, or that from before if there is none. -/
def afterWrite (m : Memory) (ty : Ty) (address : Nat) (x : Scalar) : Memory :=
  match m.write ty address x with
  | .ok n => n
  | .error _ => m

/-- Memory `n` is memory `m` after a scalar was written to `count` bytes of it. -/
structure Written (m n : Memory) (ty : Ty) (address count : Nat) (x : Scalar) : Prop where
  read : n.read ty address = .ok x
  size : n.size = m.size
  outside : ∀ i, i < address ∨ address + count ≤ i → n.get i = m.get i
  /-- What is read apart from it, be it a scalar or a fault, is what was read before. -/
  apart : ∀ other place bytes, other.size? = some bytes →
    place + bytes ≤ address ∨ address + count ≤ place → n.read other place = m.read other place

theorem written_writeWord (hty : ty.IsScalar) (hx : x.IsOf ty)
    (hbytes : m.HasBytes address ty.width) :
    Written m (m.writeWord address ty.width x.bits) ty address ty.width x := by
  have hsize := m.size_writeWord address ty.width x.bits
  have houtside (i : Nat) (hi : i < address ∨ address + ty.width ≤ i) :
      (m.writeWord address ty.width x.bits).get i = m.get i := m.get_writeWord_of_outside hi
  refine ⟨?_, hsize, houtside, fun other place bytes hother hapart => ?_⟩
  · rw [read_eq hty (check_eq_ok hbytes.1 (hsize.symm ▸ hbytes.2)),
      ofWord_readWord_writeWord hty hx hbytes.2]
  · obtain rfl := Ty.eq_width_of_size? hother
    exact read_eq_of_get_eq hsize fun i hi => houtside _ (by omega)

/-- In a memory whose size is a word, `HasBytes` holds just if the sum of address and count does not
overflow, and is at most the size. -/
theorem hasBytes_iff_of_size_lt (hm : m.size < UInt64.size) (address : UInt64) {count : Nat}
    (hcount : count ≤ 8) : m.HasBytes address.toNat count
      ↔ nullPage ≤ address.toNat ∧ address ≤ address + .ofNat count
        ∧ (address + .ofNat count).toNat ≤ m.size := by
  have hlt := address.toNat_lt
  have hsum : (address + .ofNat count).toNat = (address.toNat + count) % 2 ^ 64 := by
    rw [UInt64.toNat_add, UInt64.toNat_ofNat', Nat.add_mod_mod]
  rw [HasBytes, UInt64.le_iff_toNat_le, hsum]
  have hword : UInt64.size = 2 ^ 64 := rfl
  omega

/-- A scalar can be written exactly where its bytes are in valid memory, which a check in 64 bits
finds out as well. It then reads as it was written, and nothing else has changed; otherwise nothing
at all has. -/
theorem write_roundTrip (m : Memory) (address : UInt64) {ty : Ty} {x : Scalar} {count : Nat}
    (hty : ty.IsScalar) (hx : x.IsOf ty) (hcount : ty.size? = some count) :
    ((∃ n, m.write ty address.toNat x = .ok n) ↔ m.HasBytes address.toNat count)
      ∧ (m.size < UInt64.size →
        (m.HasBytes address.toNat count ↔ nullPage ≤ address.toNat
          ∧ address ≤ address + .ofNat count ∧ (address + .ofNat count).toNat ≤ m.size))
      ∧ (∀ n, m.write ty address.toNat x = .ok n → m.afterWrite ty address.toNat x = n
        ∧ Written m n ty address.toNat count x)
      ∧ ∀ fault, m.write ty address.toNat x = .error fault →
        fault = .badAddress address.toNat ∧ m.afterWrite ty address.toNat x = m := by
  obtain rfl := Ty.eq_width_of_size? hcount
  refine ⟨?_, fun hm => hasBytes_iff_of_size_lt hm address hty.width_le, fun n hn => ?_,
    fun fault hfault => ?_⟩
  · simp only [write_eq_ok_iff hty, exists_and_left, exists_eq', and_true]
  · obtain ⟨hbytes, rfl⟩ := (write_eq_ok_iff hty).mp hn
    exact ⟨by rw [afterWrite, hn], written_writeWord hty hx hbytes⟩
  · obtain ⟨-, rfl⟩ := (write_eq_error_iff hty).mp hfault
    exact ⟨rfl, by rw [afterWrite, hfault]⟩

/-- Memory with eight valid bytes, all of them ones. -/
def ones : Memory :=
  (Memory.initial.extend 24).setAll 16 (List.replicate 8 0xFF)

/-- Twelve bits take two bytes, of which the upper one has four bits to spare. -/
theorem write_roundTrip_ones :
    (∃ n, ones.write (.int 12) 18 (.int (-1000)) = .ok n
      ∧ n.read (.int 12) 18 = .ok (.int (-1000)) ∧ n.get 20 = 0xFF
      ∧ n.read (.int 16) 16 = .ok (.int (-1)))
      ∧ ones.write (.int 12) 23 (.int (-1000)) = .error (.badAddress 23)
      ∧ ones.afterWrite (.int 12) 23 (.int (-1000)) = ones := by
  have hty : (Ty.int 12).IsScalar := ⟨by decide, by decide⟩
  have hx : (Scalar.int (-1000)).IsOf (.int 12) := ⟨by decide, by decide⟩
  obtain ⟨hok, -, hwritten, -⟩ := write_roundTrip ones 18 hty hx rfl
  obtain ⟨n, hn⟩ := hok.mpr (by decide)
  obtain ⟨-, hread, -, houtside, hapart⟩ := hwritten n hn
  have hbeyond : ones.write (.int 12) 23 (.int (-1000)) = .error (.badAddress 23) := rfl
  refine ⟨⟨n, hn, hread, ?_, ?_⟩, hbeyond, ?_⟩
  · exact houtside 20 (by decide)
  · exact hapart (.int 16) 16 2 rfl (by decide)
  · exact ((write_roundTrip ones 23 hty hx rfl).2.2.2 _ hbeyond).2

end Memory

end Oberon.Machine
