import Legv8.Instruction
import Legv8.Machine

set_option autoImplicit false

namespace Legv8.Pipeline

structure Execution where
  before : Snapshot
  after : Snapshot
  taken : Bool
  deriving DecidableEq

/-- An instruction in flight. One that was fetched behind a taken branch was never executed; it is
a placeholder and will be flushed. -/
structure Flight where
  instruction : Instruction
  index : Nat
  pc : Word
  execution : Option Execution
  deriving DecidableEq

namespace Flight

def isPlaceholder (f : Flight) : Bool :=
  f.execution.isNone

def taken (f : Flight) : Bool :=
  f.execution.any (·.taken)

end Flight

structure Stages where
  fetch : Option Flight := none
  decode : Option Flight := none
  execute : Option Flight := none
  memory : Option Flight := none
  writeBack : Option Flight := none
  deriving DecidableEq

namespace Stages

def toList (s : Stages) : List (Option Flight) :=
  [s.fetch, s.decode, s.execute, s.memory, s.writeBack]

def isEmpty (s : Stages) : Bool :=
  s.toList.all Option.isNone

def advance (s : Stages) (next : Option Flight) : Stages where
  fetch := next
  decode := s.fetch
  execute := s.decode
  memory := s.execute
  writeBack := s.memory

def stall (s : Stages) : Stages :=
  { s with execute := none, memory := s.execute, writeBack := s.memory }

end Stages

end Legv8.Pipeline
