set_option autoImplicit false

namespace Legv8.Text

def isBlank (c : Char) : Bool :=
  c == ' ' || c == '\t'

def isSpace (c : Char) : Bool :=
  isBlank c || c == '\n' || c == '\x0b' || c == '\x0c' || c == '\r'

-- The Unicode property `White_Space`.
def isWhiteSpace (c : Char) : Bool :=
  isSpace c || c == '\u0085' || c == '\u00a0' || c == '\u1680'
    || ('\u2000' ≤ c && c ≤ '\u200a')
    || c == '\u2028' || c == '\u2029' || c == '\u202f' || c == '\u205f' || c == '\u3000'

theorem isSpace_of_isBlank {c : Char} (h : isBlank c) : isSpace c := by
  simp [isSpace, h]

theorem isWhiteSpace_of_isSpace {c : Char} (h : isSpace c) : isWhiteSpace c := by
  simp [isWhiteSpace, h]

def trimChars (cs : List Char) : List Char :=
  ((cs.dropWhile isWhiteSpace).reverse.dropWhile isWhiteSpace).reverse

def trim (text : String) : String :=
  String.ofList (trimChars text.toList)

end Legv8.Text
