import Legv8.Statistics
import Legv8.Text.Decimal

set_option autoImplicit false

namespace Legv8.Statistics

def asFloat (n : Nat) : Float :=
  (UInt64.ofNat n).toFloat

-- What the counters of cycles and instructions are divided by: never zero.
def divisor (n : Nat) : Float :=
  asFloat (max n 1)

def percent (n : Nat) (total : Float) : String :=
  Text.Decimal.ofFloat 2 (asFloat n / total * 100.0) ++ "%"

def countAndShare (n : Nat) (total : Float) : String :=
  toString n ++ " (" ++ percent n total ++ ")"

def doubleRule : String := String.ofList (List.replicate 58 '=')

def rule : String := String.ofList (List.replicate 58 '-')

def header : List String :=
  [doubleRule, "LEGv8 SIMULATION STATISTICS", doubleRule]

def summary (s : Statistics) : List String :=
  ["sim_cycles               " ++ toString s.cycles,
    "sim_insts                " ++ toString s.retired,
    "sim_cpi                  "
      ++ Text.Decimal.ofFloat 4 (divisor s.cycles / divisor s.retired),
    rule]

def hazards (s : Statistics) : List String :=
  ["HAZARDS",
    "  stalls.data            " ++ countAndShare s.dataStalls (divisor s.cycles),
    "  flushes.control        " ++ toString s.controlFlushes,
    "  forwards.ex            " ++ toString s.executeForwards,
    "  forwards.mem           " ++ toString s.memoryForwards,
    rule]

def instructionMix (s : Statistics) : List String :=
  let total := divisor s.retired
  ["INSTRUCTION MIX",
    "  op.alu                 " ++ countAndShare s.alu total,
    "  op.load                " ++ countAndShare s.load total,
    "  op.store               " ++ countAndShare s.store total,
    "  op.branch              " ++ countAndShare s.branch total,
    "  op.fp                  " ++ countAndShare s.floatingPoint total,
    rule]

def sections : List (String × (Statistics → List String)) :=
  [("summary", summary), ("hazards", hazards), ("instruction_mix", instructionMix)]

-- The report has the sections that are named, in its own order, or all of them if none is named.
def report (s : Statistics) (names : List String) : List String :=
  let wanted := sections.filter fun (name, _) => names.isEmpty || names.contains name
  header ++ wanted.flatMap fun (_, lines) => lines s

end Legv8.Statistics
