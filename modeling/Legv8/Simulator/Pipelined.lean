import Legv8.Pipeline
import Legv8.Program

set_option autoImplicit false

namespace Legv8

structure Pipelined where
  program : Program
  machine : Machine
  pipeline : Pipeline
  maxCycles : Nat
  fault : Option (Located Fault) := none

namespace Pipelined

def ofProgram (program : Program) (c : Config) : Except AssemblyError Pipelined := do
  let program ← program.checked
  let machine := Machine.ofConfig c program.instructions.size
  return {
    program
    machine
    pipeline := .ofSnapshot machine.snapshot c.pipeline.keepLog
    maxCycles := c.pipeline.maxCycles }

def ofSource (source : String) (c : Config) : Except AssemblyError Pipelined :=
  ofProgram (.ofSource source) c

def isFinished (s : Pipelined) : Bool :=
  s.pipeline.isDrained s.machine s.program.instructions

def clock (s : Pipelined) : Except (Located Fault) Unit × Pipelined :=
  match s.fault with
  | some e => (.error e, s)
  | none =>
      match s.pipeline.clock s.machine s.program.instructions with
      | (.error e, pipeline, machine) =>
          (.error e, { s with pipeline, machine, fault := some e })
      | (.ok (), pipeline, machine) => (.ok (), { s with pipeline, machine })

def limitFault (s : Pipelined) : Located Fault :=
  ⟨s.pipeline.currentLine.getD 0, .stepLimit s.maxCycles⟩

def runFrom (s : Pipelined) (taken : Nat) : Nat → Except (Located Fault) Nat × Pipelined
  | 0 =>
      if s.isFinished then (.ok taken, s)
      else (.error s.limitFault, { s with fault := some s.limitFault })
  | left + 1 =>
      if s.isFinished then (.ok taken, s)
      else
        match s.clock with
        | (.error e, s') => (.error e, s')
        | (.ok (), s') => s'.runFrom (taken + 1) left

def run (s : Pipelined) : Except (Located Fault) Nat × Pipelined :=
  s.runFrom 0 s.maxCycles

def pc (s : Pipelined) : Word :=
  s.pipeline.pc s.machine

def register (s : Pipelined) (c : RegisterClass) (r : Reg) : Word :=
  s.pipeline.visible.register c r

end Pipelined

end Legv8
