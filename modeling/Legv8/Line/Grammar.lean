import Legv8.Mnemonic
import Legv8.Text.Blank

/-!
The grammar of a line as a machine that reads tokens: a label, an instruction, or a label and an
instruction. It rejects at the first token that no line could go on with, and its errors say what
was wanted there.
-/

set_option autoImplicit false

namespace Legv8

inductive ParseError where
  | unsupportedInstruction (text : String)
  | invalidToken (expected found : String)
  | unexpectedToken (text : String)
  | missingTokens (names : List String) (plural : Bool)
  deriving DecidableEq, Repr

def ParseError.message : ParseError → String
  | .unsupportedInstruction text => "Unsupported instruction: '" ++ text ++ "'"
  | .invalidToken expected found =>
      "Invalid token: expected '" ++ expected ++ "', found '" ++ found ++ "'"
  | .unexpectedToken text => "Unexpected token: '" ++ text ++ "'. Remove this token."
  | .missingTokens names plural =>
      (if plural then "Missing tokens: " else "Missing token: ")
        ++ String.join (names.map fun name => "'" ++ name ++ "' ")

namespace Slot

-- The shift keyword is a mnemonic elsewhere.
def kind (c : RegisterClass) : Slot → TokenKind
  | .data => .register c
  | .base => .register .x
  | .comma => .comma
  | .leftBracket => .leftBracket
  | .rightBracket => .rightBracket
  | .immediate => .immediate
  | .target => .identifier
  | .shift => .mnemonic .rri

def name (c : RegisterClass) : Slot → String
  | .shift => Mnemonic.lsl.name
  | slot => (slot.kind c).name

-- Of the mnemonics only one is a shift keyword, in any mixture of cases.
def accepts (c : RegisterClass) (slot : Slot) (t : Token) : Bool :=
  t.kind == slot.kind c && (slot != .shift || (Text.trim t.text).toUpper == Mnemonic.lsl.name)

end Slot

inductive LineState where
  | start
  | labelled
  | operands (f : Form) (position : Nat)
  deriving DecidableEq, Repr

inductive Rejection where
  | unsupported
  | invalid (slot : Slot)
  | unexpected
  deriving DecidableEq, Repr

namespace LineState

def isAccepting : LineState → Bool
  | .start => false
  | .labelled => true
  | .operands f position => position == f.layout.length || f.shortEnd? == some position

def registerClass : LineState → RegisterClass
  | .operands f _ => f.registerClass
  | _ => .x

def remaining : LineState → List Slot
  | .operands f position => f.layout.drop position
  | _ => []

def expected (s : LineState) : List String :=
  s.remaining.map (·.name s.registerClass)

def begin (t : Token) : Except Rejection LineState :=
  match t.kind.form? with
  | some f => .ok (.operands f 0)
  | none => .error .unsupported

def closesAddress (f : Form) (position : Nat) : Bool :=
  position != 0 && f.layout[position - 1]? == some .base

-- An address may be closed right behind its base register, which completes the instruction.
def next : LineState → Token → Except Rejection LineState
  | .start, t => if t.kind = .label then .ok .labelled else begin t
  | .labelled, t => begin t
  | .operands f position, t =>
      match f.layout[position]? with
      | none => .error .unexpected
      | some slot =>
          if t.kind = .rightBracket ∧ closesAddress f position then
            .ok (.operands f f.layout.length)
          else if slot.accepts f.registerClass t then .ok (.operands f (position + 1))
          else .error (.invalid slot)

-- The error of a line that ended here. The message counts all the tokens still wanted, but names
-- only those from an index on.
def missing (s : LineState) (start : Nat) : ParseError :=
  .missingTokens (s.expected.drop start) (s.expected.length != 1)

-- The error of a word that begins no instruction. A mnemonic written without operands is lexed as a
-- bare word, and then its operands are what is missing.
def bareWord (text : String) : ParseError :=
  match Mnemonic.ofName? text with
  | some m => (LineState.operands m.form 0).missing 0
  | none => .unsupportedInstruction text

-- The error of a token that begins no instruction. Any other token than a word is shown together
-- with the token behind it, which helps to see a misspelt mnemonic.
def unsupported (t : Token) (following : Option Token) : ParseError :=
  match following with
  | none => bareWord t.text
  | some u =>
      if t.kind = .identifier then bareWord t.text else .unsupportedInstruction (t.text ++ u.text)

-- The error of a token that does not fit its slot. A shift keyword without a blank behind it is a
-- bare word; it is reported by what should follow, or by what does.
def invalid (s : LineState) (slot : Slot) (t : Token) (following : Option Token) : ParseError :=
  if slot = .shift ∧ Mnemonic.lsl.spells t.text then
    match following with
    | none => s.missing 1
    | some u => .invalidToken (slot.name s.registerClass) (t.text ++ u.text)
  else .invalidToken (slot.name s.registerClass) t.text

def error (s : LineState) (t : Token) (following : Option Token) : Rejection → ParseError
  | .unsupported => unsupported t following
  | .invalid slot => s.invalid slot t following
  | .unexpected => .unexpectedToken t.text

def run (s : LineState) : List Token → Except ParseError LineState
  | [] => .ok s
  | t :: ts =>
      match s.next t with
      | .ok s' => s'.run ts
      | .error r => .error (s.error t ts.head? r)

def trace (s : LineState) : List Token → List (Except Rejection LineState)
  | [] => []
  | t :: ts =>
      match s.next t with
      | .ok s' => .ok s' :: s'.trace ts
      | .error r => [.error r]

end LineState

def checkLine (tokens : List Token) : Except ParseError Unit := do
  let s ← LineState.start.run tokens
  if s.isAccepting then pure () else throw (s.missing 0)

end Legv8
