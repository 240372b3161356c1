import Legv8.Word

set_option autoImplicit false

namespace Legv8

structure GeneralConfig where
  traceInstructions : Bool := false
  maxSteps : Nat := 1000000
  deriving DecidableEq, Repr

structure MemoryConfig where
  textOffset : Word := 0x400000
  dynamicOffset : Word := 0x10000000
  stackBase : Word := 0x8000000000
  stackPointer : Option Word := none
  deriving DecidableEq, Repr

def MemoryConfig.initialStackPointer (c : MemoryConfig) : Word :=
  c.stackPointer.getD c.stackBase

structure PipelineConfig where
  maxCycles : Nat := 5000000
  keepLog : Bool := true
  deriving DecidableEq, Repr

structure Config where
  general : GeneralConfig := {}
  memory : MemoryConfig := {}
  pipeline : PipelineConfig := {}
  deriving DecidableEq, Repr

end Legv8
