import Legv8.Log
import Legv8.Memory
import Legv8.Monitor
import Legv8.Register.File
import Legv8.Flags

set_option autoImplicit false

namespace Legv8

structure Snapshot where
  x : Vector Word 32 := Vector.replicate 32 0
  d : Vector Word 32 := Vector.replicate 32 0
  flags : Flags := {}
  deriving DecidableEq

def Snapshot.register (s : Snapshot) : RegisterClass → Reg → Word
  | .x, r => s.x.get r
  | .s, r => s.d.get r &&& 0xFFFFFFFF
  | .d, r => s.d.get r

structure Machine where
  registers : RegisterFile := {}
  flags : Flags := {}
  next : Nat := 0
  monitor : Monitor := {}
  -- Whether the last instruction announced a taken branch.
  taken : Bool := false
  exclusiveStored : Bool := false
  log : Log := {}
  memory : Memory

namespace Machine

def ofConfig (c : Config) (instructionCount : Nat) : Machine where
  registers := RegisterFile.writeX {} Reg.sp c.memory.initialStackPointer
  memory := .ofConfig c.memory instructionCount

def snapshot (m : Machine) : Snapshot where
  x := m.registers.x
  d := m.registers.d
  flags := m.flags

def pc (m : Machine) : Word :=
  instructionAddress m.memory.textOffset (BitVec.ofNat 64 m.next)

end Machine

end Legv8
