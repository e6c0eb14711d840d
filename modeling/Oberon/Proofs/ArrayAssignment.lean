import Oberon.Machine.Step
import Oberon.Proofs.Addressing
import Oberon.Proofs.TypedMemory

/-!
# Assignment of arrays

An array is assigned by one copy of all its bytes. The elements of the two arrays lie at the same
distances from their starts, and what an element reads as depends on its bytes only, so the copy
assigns each element of one array to that of the other, however many dimensions there are. It
writes nothing else, and nothing at all if one of the arrays is not in valid memory.
-/

namespace Oberon

open Code

/-- `Ty.strip` by all dimensions leaves `Ty.core`. -/
theorem Code.Ty.strip_dimensions (ty : Ty) : ty.strip ty.dimensions.length = some ty.core := by
  induction ty with
  | array length element ih => exact ih
  | void => rfl
  | int bits => rfl
  | real => rfl
  | ptr => rfl

namespace Machine

namespace Memory

variable {m n : Memory} {ty : Ty} {address origin : Nat}

/-! ## What is read -/

/-- `Memory.read` of a scalar succeeds where `HasBytes` holds, and depends on no other bytes. -/
theorem read_congr (hty : ty.IsScalar) (hm : m.HasBytes origin ty.width)
    (hn : n.HasBytes address ty.width)
    (h : ∀ i < ty.width, n.get (address + i) = m.get (origin + i)) :
    ∃ v, m.read ty origin = .ok v ∧ n.read ty address = .ok v := by
  refine ⟨_, read_eq hty (check_eq_ok hm.1 hm.2), ?_⟩
  rw [read_eq hty (check_eq_ok hn.1 hn.2), readWord_congr h]

/-! ## Elements of a copy -/

/-- Memory `n` is memory `m` after the array at `b` was assigned to the one at `a`, element by
element. -/
structure Assigned (ty : Ty) (a b : Int64) (m n : Memory) : Prop where
  size : n.size = m.size
  elements : ∀ indices, indices.length = ty.dimensions.length → ty.Admits indices →
    ∃ p q v, elementAddress ty a (0 :: indices) = .ok p
      ∧ elementAddress ty b (0 :: indices) = .ok q
      ∧ m.read ty.core (addressOf q) = .ok v ∧ n.read ty.core (addressOf p) = .ok v
  /-- An array that is the other, or apart from it, keeps its elements. -/
  source : a = b ∨ addressOf a + ty.width ≤ addressOf b ∨ addressOf b + ty.width ≤ addressOf a →
    ∀ indices q, indices.length = ty.dimensions.length →
      elementAddress ty b (0 :: indices) = .ok q →
      n.read ty.core (addressOf q) = m.read ty.core (addressOf q)
  outside : ∀ i, i < addressOf a ∨ addressOf a + ty.width ≤ i → n.get i = m.get i

section

variable {a b : Int64} (hdims : ∀ n ∈ ty.dimensions, n < 2 ^ 32) (hsized : ty.size?.isSome)
  (hm : m.size < 2 ^ 64)
include hdims hsized hm

/-- The elements of an array in memory that `HasBytes` are in valid memory, at distances that do not
depend on where the array is. -/
theorem HasBytes.element (h : m.HasBytes (addressOf a) ty.width) {indices : List Int64}
    (hfull : indices.length = ty.dimensions.length) (hadmits : ty.Admits indices) :
    ∃ p, elementAddress ty a (0 :: indices) = .ok p
      ∧ addressOf p = addressOf a + ty.offset (Ty.pathOf indices)
      ∧ ty.offset (Ty.pathOf indices) + ty.core.width ≤ ty.width
      ∧ m.HasBytes (addressOf p) ty.core.width := by
  have hin := offset_add_width_le hadmits (hfull ▸ ty.strip_dimensions)
  have hend : addressOf a + ty.width < 2 ^ 64 := Nat.lt_of_le_of_lt h.2 hm
  have hplace : addressOf (a + Int64.ofNat (ty.offset (Ty.pathOf indices)))
      = addressOf a + ty.offset (Ty.pathOf indices) := addressOf_add_ofNat (by omega)
  refine ⟨_, (elementAddress_eq_ok_iff hdims hsized hend).mpr ⟨hfull.le, hadmits, hplace⟩, hplace,
    hin, ?_⟩
  obtain ⟨hnull, hsize⟩ := h
  rw [hplace]
  exact ⟨by omega, by omega⟩

/-- `copyFrom` assigns an array element by element, as `Assigned` says. -/
theorem assigned_copyFrom (hcore : ty.core.IsScalar) (ha : m.HasBytes (addressOf a) ty.width)
    (hb : m.HasBytes (addressOf b) ty.width) :
    Assigned ty a b m (m.copyFrom m (addressOf a) (addressOf b) ty.width) := by
  have hget (i : Nat) : (m.copyFrom m (addressOf a) (addressOf b) ty.width).get i = _ :=
    m.get_copyFrom m ha.2 i
  have hsize := m.size_copyFrom m (addressOf a) (addressOf b) ty.width
  generalize m.copyFrom m (addressOf a) (addressOf b) ty.width = n at hget hsize
  have hinside (i : Nat) (hi : i < ty.width) :
      n.get (addressOf a + i) = m.get (addressOf b + i) := by
    rw [hget, if_pos (by omega), Nat.add_sub_cancel_left]
  have houtside (i : Nat) (hi : i < addressOf a ∨ addressOf a + ty.width ≤ i) :
      n.get i = m.get i := by
    rw [hget, if_neg (by omega)]
  have hbytes {address count : Nat} (h : m.HasBytes address count) : n.HasBytes address count :=
    ⟨h.1, hsize ▸ h.2⟩
  refine ⟨hsize, fun indices hfull hadmits => ?_, fun happly indices q hfull hq => ?_, houtside⟩
  · obtain ⟨p, hp, hplace, hin, hpbytes⟩ := ha.element hdims hsized hm hfull hadmits
    obtain ⟨q, hq, horigin, -, hqbytes⟩ := hb.element hdims hsized hm hfull hadmits
    -- both elements are at the same distance from the starts of their arrays
    have hsame (i : Nat) (hi : i < ty.core.width) :
        n.get (addressOf p + i) = m.get (addressOf q + i) := by
      rw [hplace, horigin, Nat.add_assoc, Nat.add_assoc]
      exact hinside _ (by omega)
    obtain ⟨v, hbefore, hafter⟩ := read_congr hcore hqbytes (hbytes hpbytes) hsame
    exact ⟨p, q, v, hp, hq, hbefore, hafter⟩
  · have hend : addressOf b + ty.width < 2 ^ 64 := Nat.lt_of_le_of_lt hb.2 hm
    obtain ⟨-, hadmits, -⟩ := (elementAddress_eq_ok_iff hdims hsized hend).mp hq
    obtain ⟨q', hq', horigin, hin, hqbytes⟩ := hb.element hdims hsized hm hfull hadmits
    obtain rfl := Except.ok.inj (hq.symm.trans hq')
    have hkept (i : Nat) (hi : i < ty.core.width) :
        n.get (addressOf q + i) = m.get (addressOf q + i) := by
      rw [horigin, Nat.add_assoc]
      -- an array that is copied onto itself gets the bytes it had
      rcases happly with rfl | hapart
      · exact hinside _ (by omega)
      · exact houtside _ (by omega)
    obtain ⟨v, hbefore, hafter⟩ := read_congr hcore hqbytes (hbytes hqbytes) hkept
    rw [hbefore, hafter]

end

end Memory

/-! ## Execution -/

namespace Image

variable {image : Image} {s : State} {destination source : Value} {a b : Int64}

theorem execute_copy (ha : image.int s.frame destination = .ok a)
    (hb : image.int s.frame source = .ok b) (bytes : Nat) :
    image.execute s (.copy destination source bytes)
      = (s.world.memory.copy (addressOf a) (addressOf b) bytes).map fun memory =>
        { s with world := { s.world with memory } } := by
  rw [execute, ha, hb]
  show (s.world.memory.copy (addressOf a) (addressOf b) bytes >>= _) = _
  cases s.world.memory.copy (addressOf a) (addressOf b) bytes <;> rfl

/-- To copy all the bytes of an array is to assign it element by element, if both arrays are in
valid memory. Otherwise the one that is not is the fault, the source before the destination, and
there is no other memory than that before. -/
theorem execute_copy_assigns {ty : Ty} {bytes : Nat} (hdims : ∀ n ∈ ty.dimensions, n < 2 ^ 32)
    (hcore : ty.core.IsScalar) (hbytes : ty.size? = some bytes)
    (ha : image.int s.frame destination = .ok a) (hb : image.int s.frame source = .ok b)
    (hmemory : s.world.memory.size < 2 ^ 64) :
    (s.world.memory.HasBytes (addressOf b) bytes → s.world.memory.HasBytes (addressOf a) bytes →
        ∃ memory, image.execute s (.copy destination source bytes)
            = .ok { s with world := { s.world with memory } }
          ∧ Memory.Assigned ty a b s.world.memory memory)
      ∧ (¬ s.world.memory.HasBytes (addressOf b) bytes →
        image.execute s (.copy destination source bytes) = .error (.badAddress (addressOf b)))
      ∧ (s.world.memory.HasBytes (addressOf b) bytes →
        ¬ s.world.memory.HasBytes (addressOf a) bytes →
        image.execute s (.copy destination source bytes) = .error (.badAddress (addressOf a))) := by
  have hsized : ty.size?.isSome := hbytes ▸ rfl
  obtain rfl : bytes = ty.width := Ty.eq_width_of_size? hbytes
  rw [execute_copy ha hb, Memory.copy]
  refine ⟨fun hfrom hto => ?_, fun hfrom => ?_, fun hfrom hto => ?_⟩
  · rw [Memory.check_eq, if_pos hfrom, Memory.check_eq, if_pos hto]
    exact ⟨_, rfl, Memory.assigned_copyFrom hdims hsized hmemory hcore hto hfrom⟩
  · rw [Memory.check_eq, if_neg hfrom]
    rfl
  · rw [Memory.check_eq, if_pos hfrom, Memory.check_eq, if_neg hto]
    rfl

end Image

/-- A program in memory that has nothing in it. -/
def Image.blank : Image where
  program := { name := "M", target := "" }
  symbols := []

/-- A machine with a matrix of two rows of two numbers of 32 bits at 32, up to the end of memory,
and room for another one at 16. -/
def State.holdingMatrix : State :=
  let numbers := [1, 0, 0, 0, 2, 0, 0, 0, 3, 0, 0, 0, 4, 0, 0, 0]
  let memory := (Memory.initial.extend 48).setAll 32 numbers
  let block : Block := { name := "entry" }
  { world := { memory, input := [] }
    frame :=
      { function := "main", blocks := #[block], arguments := [], base := 48, out := none, block,
        rest := [] }
    callers := [] }

theorem Image.execute_copy_assigns_matrix :
    (∃ memory, Image.blank.execute .holdingMatrix (.copy (.int 16 64) (.int 32 64) 16)
        = .ok { State.holdingMatrix with world := { State.holdingMatrix.world with memory } }
      ∧ memory.read (.int 32) 24 = .ok (.int 3))
      ∧ Image.blank.execute .holdingMatrix (.copy (.int 40 64) (.int 32 64) 16)
        = .error (.badAddress 40) := by
  have hdims : ∀ n ∈ (Ty.arrayOf [2, 2] (.int 32)).dimensions, n < 2 ^ 32 := by decide
  have hcore : (Ty.arrayOf [2, 2] (.int 32)).core.IsScalar := ⟨by decide, by decide⟩
  have hsize : (Ty.arrayOf [2, 2] (.int 32)).size? = some 16 := rfl
  have hmemory : State.holdingMatrix.world.memory.size < 2 ^ 64 := by decide
  have hplace : Image.blank.int State.holdingMatrix.frame (.int 16 64) = .ok 16 := rfl
  have hmatrix : Image.blank.int State.holdingMatrix.frame (.int 32 64) = .ok 32 := rfl
  have hend : Image.blank.int State.holdingMatrix.frame (.int 40 64) = .ok 40 := rfl
  have hinside := Image.execute_copy_assigns hdims hcore hsize hplace hmatrix hmemory
  have hbeyond := Image.execute_copy_assigns hdims hcore hsize hend hmatrix hmemory
  refine ⟨?_, hbeyond.2.2 (by decide) (by decide)⟩
  obtain ⟨memory, hexecute, hassigned⟩ := hinside.1 (by decide) (by decide)
  obtain ⟨p, q, v, hp, hq, hbefore, hafter⟩ := hassigned.elements [1, 0] (by decide) (by decide)
  obtain rfl : 24 = p := Except.ok.inj hp
  obtain rfl : 40 = q := Except.ok.inj hq
  obtain rfl : .int 3 = v := Except.ok.inj hbefore
  exact ⟨memory, hexecute, hafter⟩

end Machine

end Oberon
