set_option autoImplicit false

namespace Legv8.Text.Decimal

-- The natural number nearest to a quotient; of two, the even one.
def roundQuotient (num den : Nat) : Nat :=
  let q := num / den
  let r := num % den
  if 2 * r < den then q
  else if den < 2 * r then q + 1
  else q + q % 2

def padded (width n : Nat) : String :=
  let digits := toString n
  String.ofList (List.replicate (width - digits.length) '0') ++ digits

-- A number of units of the last of some decimal places.
def fixed (places units : Nat) : String :=
  toString (units / Nat.pow 10 places) ++ "." ++ padded places (units % Nat.pow 10 places)

def quotient (x : Float) : Nat × Nat :=
  let bits := x.toBits.toNat
  let fraction := bits % Nat.pow 2 52
  let exponent := bits / Nat.pow 2 52 % Nat.pow 2 11
  let mantissa := if exponent = 0 then fraction else fraction + Nat.pow 2 52
  let shift := max exponent 1
  -- The last bit of the mantissa counts `2 ^ (shift - 1075)`.
  if shift < 1075 then (mantissa, Nat.pow 2 (1075 - shift))
  else (mantissa * Nat.pow 2 (shift - 1075), 1)

def ofFloat (places : Nat) (x : Float) : String :=
  let (num, den) := quotient x
  fixed places (roundQuotient (num * Nat.pow 10 places) den)

end Legv8.Text.Decimal
