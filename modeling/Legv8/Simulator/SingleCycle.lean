import Legv8.Machine.Step
import Legv8.Program
import Legv8.Statistics

set_option autoImplicit false

namespace Legv8

structure SingleCycle where
  program : Program
  machine : Machine
  maxSteps : Nat
  -- The index of the last instruction that was begun, and of the one before it.
  current : Option Nat := none
  previous : Option Nat := none
  currentLine : Option Nat := none
  fault : Option (Located Fault) := none
  statistics : Statistics := {}

namespace SingleCycle

def ofProgram (program : Program) (c : Config) : Except AssemblyError SingleCycle := do
  let program ← program.checked
  return {
    program
    machine := .ofConfig c program.instructions.size
    maxSteps := c.general.maxSteps }

def ofSource (source : String) (c : Config) : Except AssemblyError SingleCycle :=
  ofProgram (.ofSource source) c

def isFinished (s : SingleCycle) : Bool :=
  s.program.instructions.size ≤ s.machine.next

-- Executes the next instruction and tells its index; at the end of the program there is none.
def step (s : SingleCycle) : Except (Located Fault) (Option Nat) × SingleCycle :=
  match s.fault with
  | some e => (.error e, s)
  | none =>
      match s.program.instructions[s.machine.next]? with
      | none => (.ok none, s)
      | some i =>
          let index := s.machine.next
          let s := { s with
            previous := s.current
            current := some index
            currentLine := some i.line }
          match s.machine.step s.program.instructions with
          | (.error e, machine) => (.error e, { s with machine, fault := some e })
          | (.ok _, machine) =>
              let statistics := { s.statistics with cycles := s.statistics.cycles + 1 }
              (.ok (some index),
                { s with machine, statistics := statistics.record i.mnemonic })

def limitFault (s : SingleCycle) : Located Fault :=
  ⟨s.currentLine.getD 0, .stepLimit s.maxSteps⟩

def runFrom (s : SingleCycle) (taken : Nat) : Nat → Except (Located Fault) Nat × SingleCycle
  | 0 =>
      if !s.isFinished then (.error s.limitFault, { s with fault := some s.limitFault })
      else
        match s.step with
        | (.error e, s') => (.error e, s')
        | (.ok _, s') => (.ok taken, s')
  | left + 1 =>
      match s.step with
      | (.error e, s') => (.error e, s')
      | (.ok none, s') => (.ok taken, s')
      | (.ok (some _), s') => s'.runFrom (taken + 1) left

def run (s : SingleCycle) : Except (Located Fault) Nat × SingleCycle :=
  s.runFrom 0 s.maxSteps

end SingleCycle

end Legv8
