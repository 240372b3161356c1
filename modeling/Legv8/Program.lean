import Legv8.Fault
import Legv8.Instruction.Decode
import Legv8.Line
import Legv8.Text.Lines

/-!
Assembling a source text. Every line is taken apart first; then each label is bound to the index
of the next instruction, and the instructions are decoded against those bindings. A line has at
most one error, and errors are listed in the order of their lines.
-/

set_option autoImplicit false

namespace Legv8

inductive SourceError where
  | parse (e : ParseError)
  | decode (e : DecodeError)
  deriving DecidableEq, Repr

def SourceError.message : SourceError → String
  | .parse e => e.message
  | .decode e => e.message

abbrev LineError := Located SourceError

-- A reader counts lines from one.
def LineError.display (e : LineError) : String :=
  "line " ++ toString (e.line + 1) ++ ": " ++ e.cause.message

abbrev Analysis := Except ParseError SourceLine

abbrev Contribution := Option (Except SourceError Instruction)

structure Program where
  lines : List SourceLine := []
  instructions : Array Instruction := #[]
  labels : LabelTable := ∅
  errors : List LineError := []

namespace Program

-- The line that stands for an analysed one. A line at fault keeps nothing but its text.
def sourceLine (text : String) : Analysis → SourceLine
  | .ok line => line
  | .error _ => { text }

-- The last line that defines a label wins.
def bindLabels (labels : LabelTable) (count : Nat) : List SourceLine → LabelTable
  | [] => labels
  | line :: rest =>
      let labels := match line.label with
        | some name => labels.insert name count
        | none => labels
      bindLabels labels (if line.mnemonic.isSome then count + 1 else count) rest

def contribution (labels : LabelTable) (number : Nat) : Analysis → Contribution
  | .error e => some (.error (.parse e))
  | .ok line =>
      line.mnemonic.map fun m =>
        (Instruction.decode m line.operands number labels).mapError .decode

def contributions (labels : LabelTable) (number : Nat) : List Analysis → List (Nat × Contribution)
  | [] => []
  | a :: rest => (number, contribution labels number a) :: contributions labels (number + 1) rest

def instruction? : Nat × Contribution → Option Instruction
  | (_, some (.ok i)) => some i
  | _ => none

def error? : Nat × Contribution → Option LineError
  | (number, some (.error e)) => some ⟨number, e⟩
  | _ => none

def ofLines (texts : List String) : Program :=
  let analyses := texts.map SourceLine.analyse
  let lines := List.zipWith sourceLine texts analyses
  let labels := bindLabels ∅ 0 lines
  let parts := contributions labels 0 analyses
  { lines
    labels
    instructions := (parts.filterMap instruction?).toArray
    errors := parts.filterMap error? }

def ofSource (source : String) : Program :=
  ofLines (Text.lines source)

def isValid (p : Program) : Bool :=
  p.errors.isEmpty

end Program

structure AssemblyError where
  errors : List LineError
  deriving DecidableEq, Repr

def AssemblyError.message (e : AssemblyError) : String :=
  "program has " ++ toString e.errors.length ++ " compile error(s), first at "
    ++ (e.errors.head?.map LineError.display).getD ""

def Program.checked (p : Program) : Except AssemblyError Program :=
  if p.isValid then .ok p else .error ⟨p.errors⟩

end Legv8
