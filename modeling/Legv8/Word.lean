set_option autoImplicit false

namespace Legv8

abbrev Word := BitVec 64

abbrev Byte := BitVec 8

-- Lower-case hexadecimal behind `0x`, without leading zeros.
def Word.hex (w : Word) : String :=
  "0x" ++ String.ofList (Nat.toDigits 16 w.toNat)

-- Instructions are four bytes long, and addresses wrap at 64 bits.
def instructionAddress (textOffset index : Word) : Word :=
  textOffset + index * 4

end Legv8
