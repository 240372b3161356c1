import Legv8.Line.Grammar
import Legv8.Token.Scan

set_option autoImplicit false

namespace Legv8

structure SourceLine where
  text : String
  tokens : List Token := []
  label : Option String := none
  mnemonic : Option Mnemonic := none
  operands : List String := []
  deriving DecidableEq, Repr

namespace SourceLine

def labelName (t : Token) : Option String :=
  if t.kind = .label then some (String.ofList t.text.toList.dropLast) else none

def instructionTokens (tokens : List Token) : List Token :=
  tokens.dropWhile fun t => t.kind.form?.isNone

def operandTexts (tokens : List Token) : List String :=
  (tokens.filter fun t => !t.kind.isPunctuation).map fun t => Text.trim t.text

def ofTokens (text : String) (tokens : List Token) : SourceLine :=
  let line : SourceLine :=
    { text, tokens, label := tokens.head?.bind labelName }
  match instructionTokens tokens with
  | [] => line
  | t :: ts =>
      { line with
        mnemonic := Mnemonic.ofName? (Text.trim t.text)
        operands := operandTexts ts }

-- A line without tokens is well formed and empty.
def analyse (text : String) : Except ParseError SourceLine :=
  match Token.ofLine text with
  | [] => .ok { text }
  | t :: ts => do
      checkLine (t :: ts)
      return ofTokens text (t :: ts)

end SourceLine

end Legv8
