import Legv8.Machine.Operand

/-!
The single changes that an instruction makes in a machine. They follow one another as they are
written, and a fault leaves behind what the changes before it have made of the machine.
-/

set_option autoImplicit false

namespace Legv8

inductive RegisterWrite where
  | x (n : Nat) (v : Word)
  | s (n : Nat) (v : BitVec 32)
  | d (n : Nat) (v : Word)
  deriving DecidableEq, Repr

def RegisterFile.apply (f : RegisterFile) : Option RegisterWrite → Except Fault RegisterFile
  | none => .ok f
  | some (.x n v) =>
      match Reg.ofNat? n with
      | some r => .ok (f.writeX r v)
      | none => .error (.noSuchRegister n)
  | some (.s n v) =>
      match Reg.ofNat? n with
      | some r => .ok (f.writeS r v)
      | none => .error (.noSuchRegister n)
  | some (.d n v) =>
      match Reg.ofNat? n with
      | some r => .ok (f.writeD r v)
      | none => .error (.noSuchRegister n)

-- Lines that the execution log holds beside the instructions.
namespace Note

def ignoredWrite : String := "Ignored attempted assignment to XZR."

def flagsSet : String := "Set flags"

def stackAligned : String := "SP aligned correctly"

def stackMisaligned : String := "SP misaligned"

def tagCleared : String := "Exclusive access address tag cleared"

end Note

abbrev Action (α : Type) :=
  ExceptT Fault (StateM Machine) α

namespace Action

def on {α : Type} (a : Action α) (m : Machine) : Except Fault α × Machine :=
  a.run.run m

def note (line : String) : Action Unit :=
  modify fun m => { m with log := m.log.append [line] }

def write (w : RegisterWrite) : Action Unit := do
  let registers ← (← get).registers.apply (some w)
  modify fun m => { m with registers }

-- The zero register gets a note instead of a value.
def assign (n : Nat) (v : Word) : Action Unit :=
  if n = Reg.xzr.val then note Note.ignoredWrite else write (.x n v)

def setFlags (f : Flags) : Action Unit := do
  modify fun m => { m with flags := f }
  note Note.flagsSet

def jump (index : Nat) : Action Unit :=
  modify fun m => { m with next := index }

def announceBranch (taken : Bool) : Action Unit :=
  modify fun m => { m with taken }

def setMonitor (monitor : Monitor) : Action Unit :=
  modify fun m => { m with monitor }

def setExclusiveStored (stored : Bool) : Action Unit :=
  modify fun m => { m with exclusiveStored := stored }

def onMemory {α : Type} (a : ExceptT Fault (StateM Memory) α) : Action α :=
  ExceptT.mk fun m =>
    let (result, memory) := a.run.run m.memory
    (result, { m with memory })

/-- The address of a data transfer: a base register and an offset operand behind it. The stack
pointer may be a base only if it is aligned. -/
def address (i : Instruction) (base : Nat) : Action Word := do
  let r ← i.register base
  let v := (← get).registers.readX r
  if r = Reg.sp then
    if !Machine.stackIsAligned v then
      note Note.stackMisaligned
      throw (.misalignedStack v)
    note Note.stackAligned
  return v + i.word (base + 1)

-- An ordinary store. It takes the exclusive tag away if it touches the tagged bytes.
def store (address value : Word) (size : Nat) : Action Unit := do
  onMemory (Memory.storeBytes address value size)
  let monitor := (← get).monitor
  if monitor.touches address size then
    setMonitor {}
    note Note.tagCleared

end Action

end Legv8
