import Legv8.Form

set_option autoImplicit false

namespace Legv8

inductive TokenKind where
  | leftBracket
  | rightBracket
  | comma
  | immediate
  | register (c : RegisterClass)
  | mnemonic (f : Form)
  | label
  | identifier
  -- A run of spaces and tabs, never kept.
  | blanks
  | stray
  deriving DecidableEq, Repr

namespace TokenKind

/-- Every class in order of priority: at one place of a line the first class that matches wins. -/
def all : List TokenKind :=
  [.leftBracket, .rightBracket, .comma, .immediate, .register .x, .register .s, .register .d]
    ++ Form.all.map .mnemonic ++ [.label, .identifier, .blanks, .stray]

theorem mem_all (k : TokenKind) : k ∈ all := by
  cases k with
  | register c => cases c <;> simp [all]
  | mnemonic f => simp [all, Form.mem_all]
  | _ => simp [all]

-- The name of the class in messages. The label-only form has no register letter.
def name : TokenKind → String
  | .leftBracket => "["
  | .rightBracket => "]"
  | .comma => ","
  | .immediate => "IMMEDIATE"
  | .register c => c.letter.toString ++ "REGISTER"
  | .mnemonic .l => "MNEMONIC"
  | .mnemonic f => f.registerClass.letter.toString ++ "MNEMONIC"
  | .label => "LABEL"
  | .identifier => "IDENTIFIER"
  | .blanks => "WHITESPACE"
  | .stray => "ERROR"

def form? : TokenKind → Option Form
  | .mnemonic f => some f
  | _ => none

def isPunctuation : TokenKind → Bool
  | .leftBracket | .rightBracket | .comma => true
  | _ => false

end TokenKind

-- A mnemonic keeps the blanks behind it.
structure Token where
  kind : TokenKind
  text : String
  deriving DecidableEq, Repr

end Legv8
