import Legv8.Operation

set_option autoImplicit false

namespace Legv8

inductive Signal where
  | low
  | high
  -- The line does not matter.
  | free
  deriving DecidableEq, Repr

def Signal.isHigh : Signal → Bool
  | .high => true
  | _ => false

structure Control where
  reg2loc : Signal
  uncondBranch : Signal
  flagBranch : Signal
  zeroBranch : Signal
  memRead : Signal
  memToReg : Signal
  memWrite : Signal
  flagWrite : Signal
  aluSrc : Signal
  aluOp : Option (Fin 4)
  regWrite : Signal
  deriving DecidableEq, Repr

namespace Control

-- The word of three-register operations. Every other word is this one with some lines changed.
def threeRegister : Control where
  reg2loc := .low
  uncondBranch := .low
  flagBranch := .low
  zeroBranch := .low
  memRead := .low
  memToReg := .low
  memWrite := .low
  flagWrite := .low
  aluSrc := .low
  aluOp := some 2
  regWrite := .high

def immediate : Control :=
  { threeRegister with reg2loc := .free, aluSrc := .high }

def load : Control :=
  { immediate with memRead := .high, memToReg := .high, aluOp := some 0 }

def store : Control :=
  { immediate with
    reg2loc := .high, memToReg := .free, memWrite := .high, aluOp := some 0, regWrite := .low }

def storeExclusive : Control :=
  { load with reg2loc := .high, memWrite := .high }

def branch : Control :=
  { threeRegister with
    reg2loc := .free, uncondBranch := .high, memToReg := .free, aluSrc := .free, aluOp := none,
    regWrite := .low }

def branchLink : Control :=
  { branch with memToReg := .low, regWrite := .high }

def branchIf : Control :=
  { branch with uncondBranch := .low, flagBranch := .high }

def branchZero : Control :=
  { branch with
    reg2loc := .high, uncondBranch := .low, zeroBranch := .high, aluSrc := .low,
    aluOp := some 1 }

def floatCompare : Control :=
  { threeRegister with flagWrite := .high, regWrite := .low }

def ofOperation : Operation → Control
  | .integer _ .register false | .float .. => threeRegister
  | .integer _ .register true => { threeRegister with flagWrite := .high }
  | .integer _ .immediate false | .moveWide _ | .loadAddress => immediate
  | .integer _ .immediate true => { immediate with flagWrite := .high }
  | .load .. | .loadExclusive | .floatLoad _ => load
  | .store _ | .floatStore _ => store
  | .storeExclusive => storeExclusive
  | .branch | .branchRegister => branch
  | .branchLink => branchLink
  | .branchIf _ => branchIf
  | .branchZero _ => branchZero
  | .floatCompare _ => floatCompare

end Control

end Legv8
