set_option autoImplicit false

namespace Legv8

structure Flags where
  n : Bool := false
  z : Bool := false
  c : Bool := false
  v : Bool := false
  deriving DecidableEq, Repr

inductive Condition where
  | eq
  | ne
  | hs
  | lo
  | hi
  | ls
  | ge
  | lt
  | gt
  | le
  | mi
  | pl
  | vs
  | vc
  deriving DecidableEq, Repr

namespace Condition

def all : List Condition :=
  [.eq, .ne, .hs, .lo, .hi, .ls, .ge, .lt, .gt, .le, .mi, .pl, .vs, .vc]

theorem mem_all (c : Condition) : c ∈ all := by
  cases c <;> simp [all]

def name : Condition → String
  | .eq => "EQ"
  | .ne => "NE"
  | .hs => "HS"
  | .lo => "LO"
  | .hi => "HI"
  | .ls => "LS"
  | .ge => "GE"
  | .lt => "LT"
  | .gt => "GT"
  | .le => "LE"
  | .mi => "MI"
  | .pl => "PL"
  | .vs => "VS"
  | .vc => "VC"

def holds : Condition → Flags → Bool
  | .eq, f => f.z
  | .ne, f => !f.z
  | .hs, f => f.c
  | .lo, f => !f.c
  | .hi, f => !f.z && f.c
  | .ls, f => !(!f.z && f.c)
  | .ge, f => f.n == f.v
  | .lt, f => f.n != f.v
  | .gt, f => !f.z && f.n == f.v
  | .le, f => !(!f.z && f.n == f.v)
  | .mi, f => f.n
  | .pl, f => !f.n
  | .vs, f => f.v
  | .vc, f => !f.v

/-- Whether a taken branch under the condition is announced as taken. The signed "less than" is
not: it redirects the machine silently, so the pipeline never flushes behind it. -/
def announces : Condition → Bool
  | .lt => false
  | _ => true

end Condition

end Legv8
