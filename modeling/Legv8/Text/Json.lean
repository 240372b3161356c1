import Legv8.Text.Numeral

/-!
Reading JSON text. A number is kept as it is written, since not every reader of the value takes
`1.0` for an integer, and members of an object stay in order and may repeat a key.
-/

set_option autoImplicit false

namespace Legv8.Text

-- A JSON value. A string is `none` if its escapes leave half of a surrogate pair alone.
inductive Json where
  | null
  | bool (b : Bool)
  | number (literal : List Char)
  | string (s : Option String)
  | array (elements : List Json)
  | object (members : List (Option String × Json))

namespace Json.Reading

abbrev Reader (α : Type) := List Char → Option (α × List Char)

def isBlank (c : Char) : Bool :=
  c == ' ' || c == '\t' || c == '\n' || c == '\r'

def skipBlanks (cs : List Char) : List Char :=
  cs.dropWhile isBlank

def keyword (text : String) (cs : List Char) : Option (List Char) :=
  if text.toList.isPrefixOf cs then some (cs.drop text.toList.length) else none

def digits (cs : List Char) : Option (List Char × List Char) :=
  match cs.span Char.isDigit with
  | ([], _) => none
  | (ds, rest) => some (ds, rest)

-- Takes off a natural number without needless zeros.
def natural (cs : List Char) : Option (List Char × List Char) :=
  match cs with
  | '0' :: rest => some (['0'], rest)
  | _ => digits cs

def fraction (cs : List Char) : Option (List Char × List Char) :=
  match cs with
  | '.' :: rest => (digits rest).map fun (ds, rest) => ('.' :: ds, rest)
  | _ => some ([], cs)

def exponent (cs : List Char) : Option (List Char × List Char) :=
  match cs with
  | e :: rest =>
      if e = 'e' ∨ e = 'E' then
        match rest with
        | '+' :: rest => (digits rest).map fun (ds, rest) => (e :: '+' :: ds, rest)
        | '-' :: rest => (digits rest).map fun (ds, rest) => (e :: '-' :: ds, rest)
        | _ => (digits rest).map fun (ds, rest) => (e :: ds, rest)
      else some ([], cs)
  | [] => some ([], cs)

def number (cs : List Char) : Option (List Char × List Char) := do
  let (sign, rest) := match cs with
    | '-' :: rest => (['-'], rest)
    | _ => ([], cs)
  let (whole, rest) ← natural rest
  let (places, rest) ← fraction rest
  let (power, rest) ← exponent rest
  return (sign ++ whole ++ places ++ power, rest)

def codeUnit : Reader Nat
  | a :: b :: c :: d :: rest => do
      let n := (← digit? 16 a) * 4096 + (← digit? 16 b) * 256 + (← digit? 16 c) * 16
        + (← digit? 16 d)
      return (n, rest)
  | _ => none

def escaped? : Char → Option Char
  | '"' => some '"'
  | '\\' => some '\\'
  | '/' => some '/'
  | 'b' => some '\x08'
  | 'f' => some '\x0c'
  | 'n' => some '\n'
  | 'r' => some '\r'
  | 't' => some '\t'
  | _ => none

def unitsOf (c : Char) : List Nat :=
  if c.toNat < 0x10000 then [c.toNat]
  else
    let n := c.toNat - 0x10000
    [0xD800 + n / 0x400, 0xDC00 + n % 0x400]

def stringUnits : Nat → Reader (List Nat)
  | 0, _ => none
  | _ + 1, [] => none
  | fuel + 1, c :: rest =>
      if c = '"' then some ([], rest)
      else if c = '\\' then
        match rest with
        | 'u' :: rest => do
            let (unit, rest) ← codeUnit rest
            let (units, rest) ← stringUnits fuel rest
            return (unit :: units, rest)
        | e :: rest => do
            let escape ← escaped? e
            let (units, rest) ← stringUnits fuel rest
            return (unitsOf escape ++ units, rest)
        | [] => none
      else if c.toNat < 0x20 then none
      else do
        let (units, rest) ← stringUnits fuel rest
        return (unitsOf c ++ units, rest)

def isHighSurrogate (unit : Nat) : Bool := 0xD800 ≤ unit && unit < 0xDC00

def isLowSurrogate (unit : Nat) : Bool := 0xDC00 ≤ unit && unit < 0xE000

def charsOfUnits? : List Nat → Option (List Char)
  | [] => some []
  | unit :: rest =>
      if isHighSurrogate unit then
        match rest with
        | low :: rest =>
            if isLowSurrogate low then
              (charsOfUnits? rest).map
                (Char.ofNat (0x10000 + (unit - 0xD800) * 0x400 + (low - 0xDC00)) :: ·)
            else none
        | [] => none
      else if isLowSurrogate unit then none
      else (charsOfUnits? rest).map (Char.ofNat unit :: ·)

def stringRest : Reader (Option String) := fun cs => do
  let (units, rest) ← stringUnits (cs.length + 1) cs
  return ((charsOfUnits? units).map String.ofList, rest)

mutual

def value : Nat → Reader Json
  | 0, _ => none
  | fuel + 1, cs =>
      match skipBlanks cs with
      | '[' :: rest =>
          match skipBlanks rest with
          | ']' :: rest => some (.array [], rest)
          | rest => (elements fuel rest).map fun (vs, rest) => (.array vs, rest)
      | '\x7b' :: rest =>
          match skipBlanks rest with
          | '\x7d' :: rest => some (.object [], rest)
          | rest => (members fuel rest).map fun (ms, rest) => (.object ms, rest)
      | '"' :: rest => (stringRest rest).map fun (s, rest) => (.string s, rest)
      | rest =>
          (keyword "null" rest).map (.null, ·)
            <|> (keyword "true" rest).map (.bool true, ·)
            <|> (keyword "false" rest).map (.bool false, ·)
            <|> (number rest).map fun (literal, rest) => (.number literal, rest)

def elements : Nat → Reader (List Json)
  | 0, _ => none
  | fuel + 1, cs => do
      let (v, rest) ← value fuel cs
      match skipBlanks rest with
      | ',' :: rest => (elements fuel rest).map fun (vs, rest) => (v :: vs, rest)
      | ']' :: rest => some ([v], rest)
      | _ => none

def members : Nat → Reader (List (Option String × Json))
  | 0, _ => none
  | fuel + 1, cs =>
      match skipBlanks cs with
      | '"' :: rest => do
          let (key, rest) ← stringRest rest
          match skipBlanks rest with
          | ':' :: rest => do
              let (v, rest) ← value fuel rest
              match skipBlanks rest with
              | ',' :: rest => (members fuel rest).map fun (ms, rest) => ((key, v) :: ms, rest)
              | '\x7d' :: rest => some ([(key, v)], rest)
              | _ => none
          | _ => none
      | _ => none

end

end Json.Reading

-- Reads a text that is one value and nothing else but blanks. Every second step of the reader takes
-- off a character, which bounds the number of its steps.
def Json.ofString? (text : String) : Option Json := do
  let cs := text.toList
  let (v, rest) ← Reading.value (2 * cs.length + 2) cs
  if (Reading.skipBlanks rest).isEmpty then some v else none

end Legv8.Text
