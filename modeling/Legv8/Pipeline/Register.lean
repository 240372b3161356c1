import Legv8.Pipeline.Stage

set_option autoImplicit false

namespace Legv8

/-- The registers that the datapath takes from the operands of an instruction: two sources and a
destination. A register that is only stored or tested counts as the second source. -/
structure RegisterFields where
  rn : Option Nat := none
  rm : Option Nat := none
  rd : Option Nat := none
  deriving DecidableEq, Repr

-- Only integer instructions take part in forwarding, so the others have no fields.
def Instruction.fields (i : Instruction) : RegisterFields :=
  match i.mnemonic.form with
  | .rrr .x => { rd := some (i.number 0), rn := some (i.number 1), rm := some (i.number 2) }
  | .rri => { rd := some (i.number 0), rn := some (i.number 1) }
  | .rm .x =>
      if i.control.regWrite.isHigh then { rd := some (i.number 0), rn := some (i.number 1) }
      else { rn := some (i.number 1), rm := some (i.number 0) }
  | .rrm => { rd := some (i.number 1), rn := some (i.number 2), rm := some (i.number 0) }
  | .risi => { rd := some (i.number 0) }
  | .rl => { rm := some (i.number 0) }
  | _ => {}

namespace Pipeline

inductive DataPath where
  | result
  | transfer
  | idle
  deriving DecidableEq, Repr

def DataPath.ofForm : Form → DataPath
  | .rrr .x | .rri | .risi => .result
  | .rm .x | .rrm => .transfer
  | _ => .idle

namespace Flight

def fields (f : Flight) : RegisterFields :=
  f.instruction.fields

def path (f : Flight) : DataPath :=
  .ofForm f.instruction.mnemonic.form

def before (f : Flight) (n : Option Nat) : Option Word := do
  return (← f.execution).before.x[← n]?.getD 0

def after (f : Flight) (n : Option Nat) : Option Word := do
  return (← f.execution).after.x[← n]?.getD 0

-- The address of a data transfer. The offset stands last among the operands.
def address (f : Flight) : Option Word := do
  let offset := if f.instruction.mnemonic.form = .rrm then 3 else 2
  return (← f.before f.fields.rn) + f.instruction.word offset

def aluResult (f : Flight) : Option Word :=
  match f.path with
  | .result => f.after f.fields.rd
  | .transfer => f.address
  | .idle => none

def missing? (f : Flight) (ns : List (Option Nat)) : Option Nat :=
  if f.isPlaceholder then none else (ns.filterMap id).find? (32 ≤ ·)

end Flight

structure IfId extends RegisterFields where
  pc : Option Word := none
  deriving DecidableEq, Repr

def IfId.capture (f : Flight) : IfId :=
  { f.fields with pc := some f.pc }

structure IdEx extends RegisterFields where
  regWrite : Bool := false
  memToReg : Bool := false
  memRead : Bool := false
  memWrite : Bool := false
  aluSrc : Bool := false
  aluOp : Option (Fin 4) := none
  readData1 : Option Word := none
  readData2 : Option Word := none
  deriving DecidableEq, Repr

namespace IdEx

-- The first value handed to the integer unit. A load shows its address there already.
def firstRead (f : Flight) : Option Word :=
  match f.path with
  | .result => f.before f.fields.rn
  | .transfer =>
      if f.instruction.mnemonic.operation.isLoad then f.address else f.before f.fields.rn
  | .idle => none

def secondRead (f : Flight) : Option Word :=
  match f.path with
  | .result | .transfer => f.before f.fields.rm
  | .idle => none

def capture (f : Flight) : IdEx :=
  let c := f.instruction.control
  { f.fields with
    regWrite := c.regWrite.isHigh
    memToReg := c.memToReg.isHigh
    memRead := c.memRead.isHigh
    memWrite := c.memWrite.isHigh
    aluSrc := c.aluSrc.isHigh
    aluOp := c.aluOp
    readData1 := firstRead f
    readData2 := secondRead f }

def lookups (f : Flight) : List (Option Nat) :=
  match f.path with
  | .result | .transfer => [f.fields.rn, f.fields.rm]
  | .idle => []

end IdEx

structure ExMem where
  regWrite : Bool := false
  memToReg : Bool := false
  memRead : Bool := false
  memWrite : Bool := false
  aluResult : Option Word := none
  writeData : Option Word := none
  rd : Option Nat := none
  deriving DecidableEq, Repr

namespace ExMem

def capture (f : Flight) : ExMem where
  regWrite := f.instruction.control.regWrite.isHigh
  memToReg := f.instruction.control.memToReg.isHigh
  memRead := f.instruction.control.memRead.isHigh
  memWrite := f.instruction.control.memWrite.isHigh
  aluResult := f.aluResult
  writeData := if f.path = .transfer then f.before f.fields.rm else none
  rd := f.fields.rd

def lookups (f : Flight) : List (Option Nat) :=
  match f.path with
  | .result => [f.fields.rd]
  | .transfer => [f.fields.rn, f.fields.rm]
  | .idle => []

end ExMem

structure MemWb where
  regWrite : Bool := false
  memToReg : Bool := false
  readData : Option Word := none
  aluResult : Option Word := none
  rd : Option Nat := none
  deriving DecidableEq, Repr

namespace MemWb

def capture (f : Flight) : MemWb where
  regWrite := f.instruction.control.regWrite.isHigh
  memToReg := f.instruction.control.memToReg.isHigh
  readData := if f.path = .transfer then f.after f.fields.rd else none
  aluResult := f.aluResult
  rd := f.fields.rd

def lookups (f : Flight) : List (Option Nat) :=
  match f.path with
  | .result => [f.fields.rd]
  | .transfer => [f.fields.rn, f.fields.rd]
  | .idle => []

end MemWb

structure Registers where
  ifId : IfId := {}
  idEx : IdEx := {}
  exMem : ExMem := {}
  memWb : MemWb := {}
  deriving DecidableEq, Repr

-- A bubble leaves its register blank.
def Registers.capture (s : Stages) : Registers where
  ifId := (s.decode.map IfId.capture).getD {}
  idEx := (s.execute.map IdEx.capture).getD {}
  exMem := (s.memory.map ExMem.capture).getD {}
  memWb := (s.writeBack.map MemWb.capture).getD {}

def Stages.missingRegister? (s : Stages) : Option Nat :=
  s.execute.bind (fun f => f.missing? (IdEx.lookups f))
    <|> s.memory.bind (fun f => f.missing? (ExMem.lookups f))
    <|> s.writeBack.bind (fun f => f.missing? (MemWb.lookups f))

end Pipeline

end Legv8
