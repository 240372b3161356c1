import Legv8.Instruction
import Legv8.Instruction.Operand
import Std.Data.TreeMap

set_option autoImplicit false

namespace Legv8

abbrev LabelTable := Std.TreeMap String Nat

namespace Instruction

def decodeLabel (labels : LabelTable) (name : String) : Except DecodeError Int :=
  match labels[name]? with
  | some index => .ok index
  | none => .error (.undefinedLabel name)

def permittedImmediate : Mnemonic → Permitted
  | .lsl | .lsr => .shiftAmount
  | _ => .alu

def permittedOffset : Mnemonic → Permitted
  | .ldxr => .exclusiveOffset
  | _ => .offset

-- A text that is not there counts as empty, which an offset and a shift may be.
def decodeArgs (m : Mnemonic) (operands : List String) (labels : LabelTable) :
    Except DecodeError (List Int) := do
  let text k := operands[k]?.getD ""
  let register k := Operand.register (text k)
  match m.form with
  | .r => return [← register 0]
  | .rr _ => return [← register 0, ← register 1]
  | .rrr _ => return [← register 0, ← register 1, ← register 2]
  | .ri => return [← register 0, ← Operand.immediate (text 1) .alu]
  | .rri =>
      return [← register 0, ← register 1, ← Operand.immediate (text 2) (permittedImmediate m)]
  | .rm _ =>
      return [← register 0, ← register 1,
        ← Operand.optionalImmediate (text 2) (permittedOffset m)]
  | .rrm =>
      return [← register 0, ← register 1, ← register 2,
        ← Operand.optionalImmediate (text 3) .exclusiveOffset]
  | .risi =>
      -- The shift is looked at first, so its error wins.
      let shift ← Operand.wideShift (text 3)
      return [← register 0, ← Operand.immediate (text 1) .wide, shift]
  | .l => return [← decodeLabel labels (text 0)]
  | .rl => return [← register 0, ← decodeLabel labels (text 1)]

/-- The operands of the instruction that a pseudo-instruction stands for: a comparison drops its
difference into the zero register, and a move is a disjunction with it. -/
def expandArgs : Mnemonic → List Int → List Int
  | .cmp, args | .cmpi, args => Reg.xzr.val :: args
  | .mov, [d, s] => [d, Reg.xzr.val, s]
  | _, args => args

def decode (m : Mnemonic) (operands : List String) (line : Nat) (labels : LabelTable) :
    Except DecodeError Instruction := do
  let args ← decodeArgs m operands labels
  return ⟨m.expansion?.getD m, expandArgs m args, line⟩

end Instruction

end Legv8
