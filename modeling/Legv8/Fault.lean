import Legv8.Word

set_option autoImplicit false

namespace Legv8

inductive Segment where
  | stackOrHeap
  | text
  deriving DecidableEq, Repr

def Segment.name : Segment → String
  | .stackOrHeap => "stack or heap"
  | .text => "text"

inductive Fault where
  | outOfSegment (address : Word) (segment : Segment)
  -- A register branch to an address that is no multiple of the instruction size.
  | misalignedTarget (address : Word)
  -- A data transfer through a stack pointer that is no multiple of sixteen.
  | misalignedStack (address : Word)
  | stepLimit (limit : Nat)
  | pseudoInstruction (name : String)
  | noSuchRegister (number : Nat)
  deriving DecidableEq, Repr

def Fault.message : Fault → String
  | .outOfSegment address segment =>
      "Memory address out of bounds: " ++ Word.hex address ++ " is not in the " ++ segment.name
        ++ " segment"
  | .misalignedTarget address => "The address " ++ Word.hex address ++ " is not word aligned."
  | .misalignedStack address =>
      "Data transfer operation with misaligned SP: " ++ Word.hex address
        ++ " is not quadword aligned."
  | .stepLimit limit => "Execution step limit of " ++ toString limit ++ " exceeded"
  | .pseudoInstruction name =>
      "Pseudo-instruction '" ++ name ++ "' cannot be executed directly"
  | .noSuchRegister number => "There is no register " ++ toString number

structure Located (ε : Type) where
  line : Nat
  cause : ε
  deriving DecidableEq, Repr

end Legv8
