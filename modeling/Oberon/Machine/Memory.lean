import Oberon.Code.Ty
import Oberon.Machine.Bytes
import Oberon.Machine.Fault
import Oberon.Machine.Scalar
import Oberon.Number.Word

/-!
# Memory

Memory is one row of bytes, addressed from zero. The first few bytes are never valid, so the
null address and its neighbours are caught. Memory grows at its end, by zeros, and shrinks
again when a call returns.

The bytes beyond the end are zero at all times. Growing is then only a change of size.
-/

namespace Oberon.Machine

/-- The number of invalid bytes at the start. -/
def nullPage : Nat := 16

/-- The greatest size of memory. -/
def maxMemory : Nat := 1 <<< 30

/-- A row of bytes. -/
structure Memory where
  size : Nat
  bytes : ByteArray
  zero_beyond : ∀ i, size ≤ i → peek bytes i = 0

namespace Memory

/-- Memory with only its invalid bytes. -/
def initial : Memory where
  size := nullPage
  bytes := .empty
  zero_beyond := fun i _ => by simp [peek]

/-- A byte; zero beyond the end. -/
def get (m : Memory) (i : Nat) : UInt8 :=
  peek m.bytes i

/-- Memory with a byte set, if it has that byte. -/
def set (m : Memory) (i : Nat) (b : UInt8) : Memory :=
  if h : i < m.size then
    { size := m.size
      bytes := poke m.bytes i b
      zero_beyond := fun j hj => by
        rw [peek_poke, if_neg (by omega), m.zero_beyond j hj] }
  else m

/-- Memory with at least the given size; new bytes are zero. -/
def extend (m : Memory) (size : Nat) : Memory where
  size := max m.size size
  bytes := m.bytes
  zero_beyond := fun i hi => m.zero_beyond i (by omega)

/-- Memory with at most the given size. -/
def truncate (m : Memory) (size : Nat) : Memory where
  size := min m.size size
  bytes := wipe size (min m.size m.bytes.size - size) m.bytes
  zero_beyond := fun i hi => by
    rw [peek_wipe]
    split
    · rfl
    · by_cases hm : m.size ≤ i
      · exact m.zero_beyond i hm
      · have : ¬ i < m.bytes.size := by omega
        simp [peek, this]

/-- Writes bytes in a row. -/
def setAll (m : Memory) (address : Nat) : List UInt8 → Memory
  | [] => m
  | b :: rest => (m.set address b).setAll (address + 1) rest

/-- Writes `count` bytes of another memory, which may be an earlier state of this one. -/
def copyFrom (m source : Memory) (destination origin : Nat) : Nat → Memory
  | 0 => m
  | count + 1 =>
    (m.set destination (source.get origin)).copyFrom source (destination + 1) (origin + 1) count

/-- The number in `count` bytes, the lowest byte first. -/
def readWord (m : Memory) (address : Nat) : Nat → UInt64
  | 0 => 0
  | count + 1 => (m.get address).toUInt64 + 256 * m.readWord (address + 1) count

/-- Writes the lowest `count` bytes of a number, the lowest byte first. -/
def writeWord (m : Memory) (address : Nat) : Nat → UInt64 → Memory
  | 0, _ => m
  | count + 1, v => (m.set address v.toUInt8).writeWord (address + 1) count (v / 256)

/-- Whether `count` bytes from an address on are all valid. -/
def isValid (m : Memory) (address count : Nat) : Bool :=
  nullPage ≤ address && address + count ≤ m.size

/-- Goes on if `count` bytes from an address on are all valid. -/
def check (m : Memory) (address count : Nat) : Except Fault Unit :=
  if m.isValid address count then .ok () else .error (.badAddress address)

/-- Goes on if `count` bytes from an address on are all valid and make up one word, which has at
most eight. -/
def checkWord (m : Memory) (address count : Nat) : Except Fault Unit := do
  m.check address count
  if count ≤ 8 then pure () else throw (.crash count)

/-- Reserves zeroed memory for a value, at a multiple of eight. -/
def allocate (m : Memory) (ty : Code.Ty) : Except Fault (Nat × Memory) :=
  let address := (m.size + 7) / 8 * 8
  match ty.size? with
  | none => .error (.outOfMemory maxMemory)
  | some size =>
    let finish := address + max size 1
    if finish ≤ maxMemory then .ok (address, m.extend finish)
    else .error (.outOfMemory maxMemory)

/-- The scalar of a type at an address. -/
def read (m : Memory) (ty : Code.Ty) (address : Nat) : Except Fault Scalar :=
  match ty with
  | .int bits => do
    let count := Code.Ty.bytesOf bits
    m.checkWord address count
    pure (.int (Word.wrap bits (m.readWord address count).toInt64))
  | .real => do
    m.check address 8
    pure (.real ⟨m.readWord address 8⟩)
  | .ptr => do
    m.check address 8
    pure (.int (m.readWord address 8).toInt64)
  | .void | .array .. => .error (.malformed ("load of non-scalar type " ++ ty.text))

/-- Writes a scalar in the size of a type. -/
def write (m : Memory) (ty : Code.Ty) (address : Nat) (value : Scalar) :
    Except Fault Memory :=
  match ty.size? with
  | none => .error (.badAddress address)
  | some count => do
    m.checkWord address count
    pure (m.writeWord address count value.bits)

/-- Copies bytes; the two places may overlap. -/
def copy (m : Memory) (destination source count : Nat) : Except Fault Memory := do
  m.check source count
  m.check destination count
  pure (m.copyFrom m destination source count)

/-- The bytes before the next zero, which has to be among the next `limit` bytes. -/
def scan (m : Memory) : Nat → Nat → Option (List UInt8)
  | 0, _ => none
  | limit + 1, address =>
    let b := m.get address
    if b = 0 then some [] else (m.scan limit (address + 1)).map (b :: ·)

/-- The string at an address, without the zero that ends it. -/
def string (m : Memory) (address : Nat) : Except Fault (List UInt8) := do
  m.check address 0
  match m.scan (m.size - address) address with
  | some bytes => pure bytes
  | none => .error (.badAddress address)

end Memory
end Oberon.Machine
