/-!
Cutting a source text into lines. A line ends at a line feed, which takes one carriage return
before it along; text after the last line feed is a line of its own unless it is empty.
-/

set_option autoImplicit false

namespace Legv8.Text

def dropCarriageReturn (cs : List Char) : List Char :=
  if cs.getLast? = some '\r' then cs.dropLast else cs

-- The lines of a text whose first characters, in `line`, have been read already.
def linesAux (line : List Char) : List Char → List (List Char)
  | [] => if line.isEmpty then [] else [line.reverse]
  | c :: cs =>
      if c = '\n' then dropCarriageReturn line.reverse :: linesAux [] cs
      else linesAux (c :: line) cs

def lines (text : String) : List String :=
  (linesAux [] text.toList).map String.ofList

end Legv8.Text
