import Legv8.Instruction
import Legv8.Machine

set_option autoImplicit false

namespace Legv8

def Instruction.register (i : Instruction) (k : Nat) : Except Fault Reg :=
  match Reg.ofNat? (i.number k) with
  | some r => .ok r
  | none => .error (.noSuchRegister (i.number k))

namespace Machine

def readX (m : Machine) (i : Instruction) (k : Nat) : Except Fault Word := do
  return m.registers.readX (← i.register k)

def readS (m : Machine) (i : Instruction) (k : Nat) : Except Fault (BitVec 32) := do
  return m.registers.readS (← i.register k)

def readD (m : Machine) (i : Instruction) (k : Nat) : Except Fault Word := do
  return m.registers.readD (← i.register k)

def stackIsAligned (v : Word) : Bool :=
  v.toNat % 16 == 0

def secondOperand (m : Machine) (i : Instruction) : Source → Except Fault Word
  | .register => m.readX i 2
  | .immediate => return i.word 2

-- The result of moving 16 bits into a lane. The other lanes are those of the old value, or zero.
def moveWide (old : Word) (field : Word) (shift : Nat) : Word :=
  let mask : Word := 0xFFFF <<< (shift % 64)
  old &&& ~~~mask ||| field <<< (shift % 64) &&& mask

-- The program index of an address, which has to be that of an instruction.
def branchTarget (m : Machine) (target : Word) : Except Fault Nat := do
  if target.toNat % 4 ≠ 0 then throw (.misalignedTarget target)
  if target < m.memory.textOffset || m.memory.staticOffset.toNat - 4 < target.toNat then
    throw (.outOfSegment target .text)
  return (target - m.memory.textOffset).toNat / 4

end Machine

end Legv8
