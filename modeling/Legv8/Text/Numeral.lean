set_option autoImplicit false

namespace Legv8.Text

def digit? (radix : Nat) (c : Char) : Option Nat :=
  let value? :=
    if '0' ≤ c ∧ c ≤ '9' then some (c.toNat - '0'.toNat)
    else if 'a' ≤ c ∧ c ≤ 'z' then some (c.toNat - 'a'.toNat + 10)
    else if 'A' ≤ c ∧ c ≤ 'Z' then some (c.toNat - 'A'.toNat + 10)
    else none
  value?.filter (· < radix)

-- The number that digits stand for behind those of value `n`.
def digitsFrom? (radix : Nat) (n : Nat) : List Char → Option Nat
  | [] => some n
  | c :: cs => do digitsFrom? radix (n * radix + (← digit? radix c)) cs

def natural? (radix : Nat) : List Char → Option Nat
  | [] => none
  | cs => digitsFrom? radix 0 cs

-- A natural number behind at most one plus sign.
def unsigned? (radix : Nat) : List Char → Option Nat
  | '+' :: cs => natural? radix cs
  | cs => natural? radix cs

-- A number behind at most one sign, if 64 bits hold it in two's complement.
def int64? (radix : Nat) (cs : List Char) : Option Int :=
  let value? : Option Int :=
    match cs with
    | '-' :: ds => (natural? radix ds).map fun n => -(n : Int)
    | _ => (unsigned? radix cs).map Int.ofNat
  value?.filter fun v => -0x8000000000000000 ≤ v ∧ v < 0x8000000000000000

end Legv8.Text
