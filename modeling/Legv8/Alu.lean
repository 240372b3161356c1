import Legv8.Flags
import Legv8.Word

set_option autoImplicit false

namespace Legv8

inductive AluOp where
  | add
  | sub
  | and
  | orr
  | eor
  | mul
  -- The high half of the signed product.
  | smulh
  | umulh
  | sdiv
  | udiv
  | lsl
  | lsr
  deriving DecidableEq, Repr

namespace AluOp

-- The result of an operation. Division by zero gives zero, signed division rounds toward zero, and
-- a shift uses the low six bits of its amount.
def eval : AluOp → Word → Word → Word
  | .add, a, b => a + b
  | .sub, a, b => a - b
  | .and, a, b => a &&& b
  | .orr, a, b => a ||| b
  | .eor, a, b => a ^^^ b
  | .mul, a, b => a * b
  | .smulh, a, b => (a.signExtend 128 * b.signExtend 128).extractLsb' 64 64
  | .umulh, a, b => (a.setWidth 128 * b.setWidth 128).extractLsb' 64 64
  | .sdiv, a, b => a.sdiv b
  | .udiv, a, b => a / b
  | .lsl, a, b => a <<< (b.toNat % 64)
  | .lsr, a, b => a >>> (b.toNat % 64)

end AluOp

namespace Flags

-- The flags of `r = a + b`. A carry leaves the top bit if both operands have theirs set, or one has
-- and the result has lost it; an addition overflows if the operands share a sign that the result
-- lacks.
def ofSum (a b r : Word) : Flags where
  n := r.msb
  z := r == 0
  c := ((a &&& b) ||| ((a ||| b) &&& ~~~r)).msb
  v := ((a ^^^ ~~~b) &&& (a ^^^ r)).msb

/-- The flags of `r = a - b`, taken as the sum of `a` and the two's complement of `b`. So a zero
subtrahend clears the carry. -/
def ofDifference (a b r : Word) : Flags :=
  ofSum a (~~~b + 1) r

def ofResult (r : Word) : Flags where
  n := r.msb
  z := r == 0

end Flags

def AluOp.evalFlags (op : AluOp) (a b : Word) : Word × Flags :=
  let r := op.eval a b
  (r, match op with
    | .add => .ofSum a b r
    | .sub => .ofDifference a b r
    | _ => .ofResult r)

end Legv8
