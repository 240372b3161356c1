import Legv8.Instruction

set_option autoImplicit false

namespace Legv8

def RegisterClass.registerName (c : RegisterClass) (n : Nat) : String :=
  if c = .x ∧ n = Reg.xzr.val then NamedRegister.xzr.name
  else c.letter.toString ++ toString n

namespace Instruction

def operandTexts (i : Instruction) (textOffset : Word) : String :=
  let r k := i.mnemonic.form.registerClass.registerName (i.number k)
  let x k := RegisterClass.x.registerName (i.number k)
  let n k := "#" ++ toString (i.arg k)
  let target k := Word.hex (instructionAddress textOffset (i.word k))
  match i.mnemonic.form with
  | .r => r 0
  | .rr _ => r 0 ++ ", " ++ r 1
  | .rrr _ => r 0 ++ ", " ++ r 1 ++ ", " ++ r 2
  | .ri => r 0 ++ ", " ++ n 1
  | .rri => r 0 ++ ", " ++ r 1 ++ ", " ++ n 2
  | .rm _ => r 0 ++ ", [" ++ x 1 ++ ", " ++ n 2 ++ "]"
  | .rrm => r 0 ++ ", " ++ r 1 ++ ", [" ++ x 2 ++ ", " ++ n 3 ++ "]"
  | .risi => r 0 ++ ", " ++ n 1 ++ ", LSL " ++ n 2
  | .l => target 0
  | .rl => r 0 ++ ", " ++ target 1

def disassemble (i : Instruction) (textOffset : Word) : String :=
  i.mnemonic.name ++ " " ++ i.operandTexts textOffset

end Instruction

end Legv8
