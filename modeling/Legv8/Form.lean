import Legv8.Register

set_option autoImplicit false

namespace Legv8

/-- The operand forms of the instruction set. `rn` stands for data registers, `i` for an
immediate, `m` for a memory address in brackets, `si` for an optional shift by an immediate and
`l` for a label. Only the forms with a class argument exist for more than one class. -/
inductive Form where
  | r
  | risi
  | ri
  | rr (c : RegisterClass)
  | rri
  | rrr (c : RegisterClass)
  | rm (c : RegisterClass)
  | rrm
  | l
  | rl
  deriving DecidableEq, Repr

inductive Slot where
  | data
  | base
  | comma
  | leftBracket
  | rightBracket
  | immediate
  | target
  | shift
  deriving DecidableEq, Repr

namespace Form

-- The sixteen forms in the order in which mnemonics of them are looked for.
def all : List Form :=
  [.r, .risi, .ri, .rr .x, .rr .s, .rr .d, .rri, .rrr .x, .rrr .s, .rrr .d, .rm .x, .rm .s,
    .rm .d, .rrm, .l, .rl]

theorem mem_all (f : Form) : f ∈ all := by
  cases f with
  | rr c | rrr c | rm c => cases c <;> simp [all]
  | _ => simp [all]

def registerClass : Form → RegisterClass
  | .rr c | .rrr c | .rm c => c
  | _ => .x

-- The full operand list. An address may leave out its comma and offset, and a wide immediate its
-- shift.
def layout : Form → List Slot
  | .r => [.data]
  | .rr _ => [.data, .comma, .data]
  | .rrr _ => [.data, .comma, .data, .comma, .data]
  | .ri => [.data, .comma, .immediate]
  | .rri => [.data, .comma, .data, .comma, .immediate]
  | .rm _ => [.data, .comma, .leftBracket, .base, .comma, .immediate, .rightBracket]
  | .rrm =>
      [.data, .comma, .data, .comma, .leftBracket, .base, .comma, .immediate, .rightBracket]
  | .risi => [.data, .comma, .immediate, .comma, .shift, .immediate]
  | .l => [.target]
  | .rl => [.data, .comma, .target]

-- The number of operand tokens after which an instruction of the form may already end, besides the
-- full list.
def shortEnd? : Form → Option Nat
  | .risi => some 3
  | _ => none

end Form

end Legv8
