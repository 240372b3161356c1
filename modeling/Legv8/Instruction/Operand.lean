import Legv8.Register
import Legv8.Text.Numeral

set_option autoImplicit false

namespace Legv8

inductive Permitted where
  | range (lo hi : Int)
  | values (vs : List Int)
  deriving DecidableEq, Repr

namespace Permitted

def allows : Permitted → Int → Bool
  | .range lo hi, v => lo ≤ v && v ≤ hi
  | .values vs, v => vs.contains v

def message : Permitted → String
  | .range lo hi => "Permitted range: " ++ toString lo ++ " - " ++ toString hi ++ " inclusive."
  | .values vs => "Permitted values: " ++ ", ".intercalate (vs.map toString)

def alu : Permitted := .range 0 4095

def offset : Permitted := .range (-256) 255

def exclusiveOffset : Permitted := .values [0]

def shiftAmount : Permitted := .range 0 63

def wide : Permitted := .range 0 65535

def wideShift : Permitted := .values [0, 16, 32, 48]

-- What is reported for a wide shift that is no number at all.
def wideShiftSpan : Permitted := .range 0 48

end Permitted

inductive DecodeError where
  | undefinedLabel (name : String)
  -- The immediate, shown as written but without its `#`, is no number or not permitted.
  | immediateOutOfBounds (text : String) (permitted : Permitted)
  | invalidRegister (text : String)
  deriving DecidableEq, Repr

def DecodeError.message : DecodeError → String
  | .undefinedLabel name => "Undefined label: '" ++ name ++ "'"
  | .immediateOutOfBounds text permitted =>
      "Illegal immediate value: " ++ text ++ ". " ++ permitted.message
  | .invalidRegister text => "Invalid register: '" ++ text ++ "'"

namespace Operand

/-- The number of a register: an architectural name, or a number below 32 behind one ASCII
character. The character is not looked at, since the grammar has settled the class already. -/
def register? (text : String) : Option Reg :=
  match NamedRegister.ofName? text with
  | some named => some named.reg
  | none =>
      match text.toList with
      | c :: digits =>
          if c.toNat < 128 then (Text.unsigned? 10 digits).bind Reg.ofNat? else none
      | [] => none

def register (text : String) : Except DecodeError Int :=
  match register? text with
  | some r => .ok r.val
  | none => .error (.invalidRegister text)

def withoutHash : List Char → List Char
  | '#' :: cs => cs
  | cs => cs

/-- The value of a number without its mark and first sign: hexadecimal behind `0x` or `0X`, octal
behind a zero and more, decimal otherwise. -/
def magnitude? : List Char → Option Int
  | '+' :: _ => none
  | '-' :: _ => none
  | '0' :: 'x' :: cs => Text.int64? 16 cs
  | '0' :: 'X' :: cs => Text.int64? 16 cs
  | '0' :: c :: cs => Text.int64? 8 (c :: cs)
  | cs => Text.int64? 10 cs

def negate (v : Int) : Int :=
  if v = -0x8000000000000000 then v else -v

def immediate? (text : String) : Option Int :=
  match withoutHash text.toList with
  | '-' :: cs => (magnitude? cs).map negate
  | cs => magnitude? cs

def outOfBounds (text : String) (permitted : Permitted) : DecodeError :=
  .immediateOutOfBounds (String.ofList (withoutHash text.toList)) permitted

def immediate (text : String) (permitted : Permitted) : Except DecodeError Int :=
  match (immediate? text).filter permitted.allows with
  | some v => .ok v
  | none => .error (outOfBounds text permitted)

def optionalImmediate (text : String) (permitted : Permitted) : Except DecodeError Int :=
  if text = "" then .ok 0 else immediate text permitted

-- The shift of a wide move, which may be left out. Text that is no number is reported with the span
-- of the shifts, a number with the list of them.
def wideShift (text : String) : Except DecodeError Int :=
  if text = "" then .ok 0
  else
    match immediate? text with
    | none => .error (outOfBounds text .wideShiftSpan)
    | some _ => immediate text .wideShift

end Operand

end Legv8
