import Legv8.Instruction.Disassembly
import Legv8.Machine.Action

/-!
Executing instructions one by one. Each operation is the sequence of its changes, with the reads and
tests that may raise a fault in their places between them.
-/

set_option autoImplicit false

namespace Legv8

namespace Action

def loadX (i : Instruction) (w : Width) (signed : Bool) : Action Unit := do
  let address ← address i 1
  if i.number 0 = Reg.xzr.val then
    note Note.ignoredWrite
  else
    let memory := (← get).memory
    let loaded := if signed then memory.loadSigned address else memory.load address w.bytes
    write (.x (i.number 0) (← loaded))

def loadExclusive (i : Instruction) : Action Unit := do
  let address ← address i 1
  if i.number 0 = Reg.xzr.val then
    note Note.ignoredWrite
  else
    let v ← (← get).memory.load address 8
    write (.x (i.number 0) v)
    setMonitor (.set address)

def storeExclusive (i : Instruction) : Action Unit := do
  let address ← address i 2
  if (← get).monitor.permits address then
    let v ← (← get).readX i 0
    onMemory (Memory.storeBytes address v 8)
    assign (i.number 1) 0
    setMonitor {}
    setExclusiveStored true
  else
    assign (i.number 1) 1
    setExclusiveStored false

def integer (i : Instruction) (op : AluOp) (second : Source) (setsFlags : Bool) :
    Action Unit := do
  let a ← (← get).readX i 1
  let b ← (← get).secondOperand i second
  let (r, f) := op.evalFlags a b
  assign (i.number 0) r
  if setsFlags then setFlags f

def perform (i : Instruction) : Operation → Action Unit
  | .integer op second setsFlags => integer i op second setsFlags
  | .load w signed => loadX i w signed
  | .store w => do
      let address ← address i 1
      let v ← (← get).readX i 0
      store address v w.bytes
  | .loadExclusive => loadExclusive i
  | .storeExclusive => storeExclusive i
  | .moveWide false => assign (i.number 0) (i.word 1 <<< (i.number 2 % 64))
  | .moveWide true => do
      let old ← (← get).readX i 0
      assign (i.number 0) (Machine.moveWide old (i.word 1) (i.number 2))
  | .loadAddress => do
      assign (i.number 0) (instructionAddress (← get).memory.textOffset (i.word 1))
  | .branch => do
      jump (i.number 0)
      announceBranch true
  -- A branch with link is not announced, nor is a register branch.
  | .branchLink => do
      write (.x Reg.lr.val (← get).pc)
      jump (i.number 0)
  | .branchRegister => do
      let target ← (← get).readX i 0
      jump (← (← get).branchTarget target)
  | .branchIf c => do
      let holds := c.holds (← get).flags
      if holds then jump (i.number 0)
      announceBranch (holds && c.announces)
  | .branchZero whenZero => do
      let v ← (← get).readX i 0
      let taken := (v == 0) == whenZero
      if taken then jump (i.number 1)
      announceBranch taken
  | .float op .single => do
      let a ← (← get).readS i 1
      let b ← (← get).readS i 2
      write (.s (i.number 0) (op.evalSingle a b))
  | .float op .double => do
      let a ← (← get).readD i 1
      let b ← (← get).readD i 2
      write (.d (i.number 0) (op.evalDouble a b))
  | .floatCompare .single => do
      let a ← (← get).readS i 0
      let b ← (← get).readS i 1
      setFlags (.compareSingle a b)
  | .floatCompare .double => do
      let a ← (← get).readD i 0
      let b ← (← get).readD i 1
      setFlags (.compareDouble a b)
  | .floatLoad .single => do
      let address ← address i 1
      let v ← (← get).memory.load address 4
      write (.s (i.number 0) (v.setWidth 32))
  | .floatLoad .double => do
      let address ← address i 1
      let v ← (← get).memory.load address 8
      write (.d (i.number 0) v)
  | .floatStore .single => do
      let address ← address i 1
      let v ← (← get).readS i 0
      store address (v.setWidth 64) 4
  | .floatStore .double => do
      let address ← address i 1
      let v ← (← get).readD i 0
      store address v 8

-- An instruction is logged before anything can go wrong. Pseudo-instructions go no further.
def ofInstruction (i : Instruction) : Action Unit := do
  announceBranch false
  note (i.disassemble (← get).memory.textOffset)
  if i.mnemonic.isPseudo then throw (.pseudoInstruction i.mnemonic.name)
  perform i i.mnemonic.operation

end Action

namespace Machine

-- The index of the instruction has been consumed already.
def execute (m : Machine) (i : Instruction) : Except Fault Unit × Machine :=
  (Action.ofInstruction i).on m

-- At the end of the program there is no instruction, and nothing happens.
def step (m : Machine) (code : Array Instruction) : Except (Located Fault) (Option Nat) × Machine :=
  match code[m.next]? with
  | none => (.ok none, m)
  | some i =>
      match { m with next := m.next + 1 }.execute i with
      | (.error f, m') => (.error ⟨i.line, f⟩, m')
      | (.ok (), m') => (.ok (some m.next), m')

end Machine

end Legv8
