import Legv8.Config
import Legv8.Fault
import Legv8.Memory.BigEndian
import Std.Data.TreeMap

set_option autoImplicit false

namespace Legv8

-- Only the bytes that were written are kept; every other byte reads as zero.
structure Memory where
  bytes : Std.TreeMap Word Byte := ∅
  textOffset : Word
  -- The first address behind the last instruction.
  staticOffset : Word
  dynamicOffset : Word
  stackBase : Word

namespace Memory

def ofConfig (c : MemoryConfig) (instructionCount : Nat) : Memory where
  textOffset := c.textOffset
  staticOffset := instructionAddress c.textOffset (BitVec.ofNat 64 instructionCount)
  dynamicOffset := c.dynamicOffset
  stackBase := c.stackBase

/-- Whether an access of some bytes lies in the data window. A window shorter than the access
admits only the address zero. -/
def allows (m : Memory) (address : Word) (size : Nat) : Bool :=
  m.dynamicOffset ≤ address && address.toNat ≤ m.stackBase.toNat - size

def peek (m : Memory) (address : Word) : Byte :=
  m.bytes[address]?.getD 0

def read (m : Memory) (address : Word) : Nat → List Byte
  | 0 => []
  | n + 1 => m.peek address :: m.read (address + 1) n

def write (m : Memory) (address : Word) : List Byte → Memory
  | [] => m
  | b :: bs => { m with bytes := m.bytes.insert address b }.write (address + 1) bs

def footprint (m : Memory) : Nat :=
  m.bytes.size

def check (m : Memory) (address : Word) (size : Nat) : Except Fault Unit :=
  if m.allows address size then .ok () else .error (.outOfSegment address .stackOrHeap)

def load (m : Memory) (address : Word) (size : Nat) : Except Fault Word := do
  m.check address size
  return BigEndian.value (m.read address size)

def loadSigned (m : Memory) (address : Word) : Except Fault Word := do
  let v ← m.load address 4
  return (v.setWidth 32).signExtend 64

-- The test comes first, and then the bytes are written.
def storeBytes (address value : Word) (size : Nat) : ExceptT Fault (StateM Memory) Unit := do
  (← get).check address size
  modify fun m => m.write address (BigEndian.tail value size)

def store (m : Memory) (address value : Word) (size : Nat) : Except Fault Memory :=
  match (storeBytes address value size).run.run m with
  | (.ok (), m') => .ok m'
  | (.error f, _) => .error f

end Memory

end Legv8
