import Legv8.Mnemonic
import Legv8.Text.Blank

/-!
Cutting a line into tokens. At each place the classes are tried in their order of priority and the
first one that matches wins; a place where none matches is passed over. Since a run of visible
characters is always a token, only line breaks and the like are passed over, and no line fails to
be cut.
-/

set_option autoImplicit false

namespace Legv8

namespace Scan

def isWord (c : Char) : Bool :=
  c.isAlphanum || c == '_'

def isHexDigit (c : Char) : Bool :=
  c.isDigit || ('a' ≤ c && c ≤ 'f') || ('A' ≤ c && c ≤ 'F')

def run (p : Char → Bool) (cs : List Char) : Nat :=
  (cs.takeWhile p).length

-- A length counts as a match only if it is not zero.
def nonempty (n : Nat) : Option Nat :=
  if n = 0 then none else some n

def literal (text : String) (cs : List Char) : Option Nat :=
  if text.toList.isPrefixOf cs then some text.toList.length else none

def optionalChar (c : Char) (cs : List Char) : Nat :=
  if cs.head? = some c then 1 else 0

def hexNumber : List Char → Option Nat
  | '0' :: x :: cs =>
      if x = 'x' ∨ x = 'X' then (nonempty (run isHexDigit cs)).map (· + 2) else none
  | _ => none

-- Digits; a hexadecimal number is preferred, and without digits behind its mark only the zero
-- counts.
def number (cs : List Char) : Option Nat :=
  hexNumber cs <|> nonempty (run Char.isDigit cs)

def immediate (cs : List Char) : Option Nat :=
  let hash := optionalChar '#' cs
  let sign := optionalChar '-' (cs.drop hash)
  (number (cs.drop (hash + sign))).map (hash + sign + ·)

-- The two digits of a number from 10 to 30.
def twoDigits : List Char → Option Nat
  | a :: b :: _ =>
      if (a = '1' ∨ a = '2') ∧ b.isDigit ∨ a = '3' ∧ b = '0' then some 2 else none
  | _ => none

def shortNumber (cs : List Char) : Option Nat :=
  twoDigits cs <|> if cs.head?.any Char.isDigit then some 1 else none

def longNumber (cs : List Char) : Option Nat :=
  twoDigits cs <|> nonempty (run Char.isDigit cs)

def lettered (letter : Char) (rest : List Char → Option Nat) : List Char → Option Nat
  | c :: cs => if c = letter ∨ c = letter.toLower then (rest cs).map (· + 1) else none
  | [] => none

def aliases : List String :=
  ["XZR", "xzr", "SP", "sp", "LR", "lr", "FP", "fp", "IP0", "IP1", "ip0", "ip1"]

def register : RegisterClass → List Char → Option Nat
  | .x, cs => lettered 'X' shortNumber cs <|> aliases.findSome? (literal · cs)
  | .s, cs => lettered 'S' longNumber cs
  | .d, cs => lettered 'D' longNumber cs

-- One mnemonic, in capitals or small letters, and the blanks behind it, of which there must be at
-- least one.
def mnemonic (m : Mnemonic) (cs : List Char) : Option Nat := do
  let n ← literal m.name cs <|> literal m.name.toLower cs
  (nonempty (run Text.isBlank (cs.drop n))).map (n + ·)

def label (cs : List Char) : Option Nat :=
  let n := run isWord cs
  if n ≠ 0 ∧ (cs.drop n).head? = some ':' then some (n + 1) else none

end Scan

namespace TokenKind

def measure : TokenKind → List Char → Option Nat
  | .leftBracket, cs => Scan.literal "[" cs
  | .rightBracket, cs => Scan.literal "]" cs
  | .comma, cs => Scan.literal "," cs
  | .immediate, cs => Scan.immediate cs
  | .register c, cs => Scan.register c cs
  | .mnemonic f, cs => (Mnemonic.ofForm f).findSome? (Scan.mnemonic · cs)
  | .label, cs => Scan.label cs
  | .identifier, cs => Scan.nonempty (Scan.run Scan.isWord cs)
  | .blanks, cs => Scan.nonempty (Scan.run Text.isBlank cs)
  | .stray, cs => Scan.nonempty (Scan.run (fun c => !Text.isSpace c) cs)

def first? (cs : List Char) : Option (TokenKind × Nat) :=
  all.findSome? fun k => (k.measure cs).map (k, ·)

end TokenKind

namespace Token

def scan : List Char → List Token
  | [] => []
  | c :: cs =>
      match TokenKind.first? (c :: cs) with
      | some (k, n + 1) =>
          let rest := scan (cs.drop n)
          if k = .blanks then rest else ⟨k, String.ofList (c :: cs.take n)⟩ :: rest
      | _ => scan cs
termination_by cs => cs.length

def ofLine (line : String) : List Token :=
  scan line.toList

end Token

end Legv8
