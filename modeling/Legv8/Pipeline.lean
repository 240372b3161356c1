import Legv8.Machine.Step
import Legv8.Pipeline.Hazard
import Legv8.Statistics

/-!
The five-stage pipeline. It fetches an instruction by executing it on the machine at once; what it
models is when the result becomes visible, and where the flow stalls, is flushed or forwards.
-/

set_option autoImplicit false

namespace Legv8

open Pipeline in
structure Pipeline where
  stages : Stages := {}
  registers : Registers := {}
  hazards : Hazards := {}
  dataStall : Bool := false
  branchStall : Bool := false
  flushPending : Bool := false
  -- The registers and flags as of the last write-back.
  visible : Snapshot
  log : Log := {}
  keepLog : Bool := true
  currentLine : Option Nat := none
  statistics : Statistics := {}

namespace Pipeline

def ended : String := "Execution has ended"

def lastInstruction : String := "We are at the last instruction"

def movingAlong : String := "Moving the pipeline along"

def flushing : String := "Control Hazard: Flushing pipeline"

def stalling : String := "Data Hazard: Stalling pipeline"

def Stages.display (s : Stages) : String :=
  " | ".intercalate <| s.toList.map fun stage =>
    match stage with
    | none => "bubble"
    | some f => f.instruction.mnemonic.name

def Hazards.notes (h : Hazards) : List String :=
  (if h.controlFlush then [flushing] else [])
    ++ (if h.branchRegisterStall then [stalling] else [])
    ++ (if h.flagStall then [stalling] else [])
    ++ (if h.loadUseStall then [stalling] else [])
    ++ (if h.exForwardA then ["Data Hazard: EX, forward A"] else [])
    ++ (if h.exForwardB then ["Data Hazard: EX, forward B"] else [])
    ++ (if h.memForwardA then ["Data Hazard: MEM, forward A"] else [])
    ++ (if h.memForwardB then ["Data Hazard: MEM, forward B"] else [])

def ofSnapshot (visible : Snapshot) (keepLog : Bool) : Pipeline where
  visible := visible
  keepLog := keepLog

def note (p : Pipeline) (lines : List String) : Pipeline :=
  if p.keepLog then { p with log := p.log.append lines } else p

def isDrained (p : Pipeline) (m : Machine) (code : Array Instruction) : Bool :=
  code.size ≤ m.next && p.stages.isEmpty

/-- The address of the next fetch: behind the instruction in the fetch stage, or where the machine
goes on if that stage holds nothing that was executed. -/
def pc (p : Pipeline) (m : Machine) : Word :=
  match p.stages.fetch with
  | some f => if f.isPlaceholder then m.pc else f.pc + 4
  | none => m.pc

def stallPending (p : Pipeline) : Bool :=
  p.dataStall || p.branchStall

def retire (p : Pipeline) : Pipeline :=
  match p.stages.writeBack with
  | none => p
  | some f =>
      match f.execution with
      | none => p
      | some e =>
          { p with
            visible := e.after
            statistics := p.statistics.record f.instruction.mnemonic }

def settle (p : Pipeline) : Pipeline :=
  let p := p.retire
  { p with registers := .capture p.stages }.note [p.stages.display]

def advance (p : Pipeline) (next : Option Flight) : Pipeline :=
  { p with stages := p.stages.advance next }.settle

def stall (p : Pipeline) : Pipeline :=
  { p with
    stages := p.stages.stall
    dataStall := false
    branchStall := false
    statistics := { p.statistics with dataStalls := p.statistics.dataStalls + 1 } }.settle

def drain (p : Pipeline) (code : Array Instruction) : Pipeline :=
  let p := { p.note [lastInstruction] with currentLine := code.back?.map Instruction.line }
  if p.stallPending then p.stall else (p.note [movingAlong]).advance none

-- The instruction that stands behind a branch in the program, fetched without being executed.
def placeholder? (branch : Flight) (code : Array Instruction) : Option Flight :=
  code[branch.index + 1]?.map fun i =>
    { instruction := i, index := branch.index + 1, pc := branch.pc + 4, execution := none }

-- Empties the fetch stage if that was called for, unless a branch is waiting for its operand.
def flush (p : Pipeline) : Pipeline :=
  if p.flushPending && !p.branchStall then
    { p with
      stages := { p.stages with fetch := none }
      flushPending := false
      statistics := { p.statistics with controlFlushes := p.statistics.controlFlushes + 1 } }
  else p

def executed (i : Instruction) (before after : Machine) : Flight where
  instruction := i
  index := before.next
  pc := before.pc
  execution := some
    { before := before.snapshot, after := after.snapshot, taken := after.taken }

def detectHazards (p : Pipeline) : Pipeline :=
  let h := Hazards.detect p.stages p.registers
  let p := p.note h.notes
  let s := p.statistics
  { p with
    hazards := h
    flushPending := p.flushPending || h.controlFlush
    branchStall := p.branchStall || h.branchStall
    dataStall := p.dataStall || h.loadUseStall
    statistics := { s with
      executeForwards :=
        if h.exForwardA || h.exForwardB then s.executeForwards + 1 else s.executeForwards
      memoryForwards :=
        if h.memForwardA || h.memForwardB then s.memoryForwards + 1 else s.memoryForwards } }

def finish (p : Pipeline) (m : Machine) : Except (Located Fault) Unit × Pipeline × Machine :=
  match p.stages.missingRegister? with
  | some n => (.error ⟨p.currentLine.getD 0, .noSuchRegister n⟩, p, m)
  | none => (.ok (), p.detectHazards, m)

-- After a fault nothing moves.
def fetch (p : Pipeline) (m : Machine) (code : Array Instruction) (i : Instruction) :
    Except (Located Fault) Unit × Pipeline × Machine :=
  let p := { p with currentLine := some i.line }
  match m.step code with
  | (.error e, m') => (.error e, p, m')
  | (.ok _, m') => (p.flush.advance (some (executed i m m'))).finish m'

/-- One clock cycle. Behind a taken branch its successor is fetched, but not executed. -/
def clock (p : Pipeline) (m : Machine) (code : Array Instruction) :
    Except (Located Fault) Unit × Pipeline × Machine :=
  if p.isDrained m code then (.ok (), p.note [ended], m)
  else
    let p := { p with statistics := { p.statistics with cycles := p.statistics.cycles + 1 } }
    match code[m.next]? with
    | none => (p.drain code).finish m
    | some i =>
        if p.stallPending then p.stall.finish m
        else
          match p.stages.fetch with
          | some f =>
              if f.taken then (p.advance (placeholder? f code)).finish m else p.fetch m code i
          | none => p.fetch m code i

end Pipeline

end Legv8
