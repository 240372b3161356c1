import Legv8.Mnemonic

set_option autoImplicit false

namespace Legv8

/-- An instruction. The operands stand in the order in which they are written: register numbers,
immediates, or the program index that a label names. `line` counts the source lines from zero. -/
structure Instruction where
  mnemonic : Mnemonic
  args : List Int
  line : Nat
  deriving DecidableEq, Repr

namespace Instruction

-- An operand that is not there counts as zero.
def arg (i : Instruction) (k : Nat) : Int :=
  i.args[k]?.getD 0

def word (i : Instruction) (k : Nat) : Word :=
  BitVec.ofInt 64 (i.arg k)

def number (i : Instruction) (k : Nat) : Nat :=
  (i.word k).toNat

def control (i : Instruction) : Control :=
  i.mnemonic.control

end Instruction

end Legv8
