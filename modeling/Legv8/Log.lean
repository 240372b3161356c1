set_option autoImplicit false

namespace Legv8

-- The newest line stands in front, so that adding one costs the same however long the log is.
structure Log where
  newestFirst : List String := []
  deriving DecidableEq, Repr

namespace Log

def lines (l : Log) : List String :=
  l.newestFirst.reverse

def append (l : Log) (added : List String) : Log :=
  ⟨added.reverse ++ l.newestFirst⟩

def size (l : Log) : Nat :=
  l.newestFirst.length

def since (l : Log) (count : Nat) : List String :=
  (l.newestFirst.take (l.size - count)).reverse

def byteLength (l : Log) : Nat :=
  l.newestFirst.foldl (fun n line => n + line.utf8ByteSize + 1) 0

@[simp] theorem append_nil (l : Log) : l.append [] = l := rfl

theorem append_append (l : Log) (a b : List String) :
    (l.append a).append b = l.append (a ++ b) := by
  simp [append]

end Log

end Legv8
