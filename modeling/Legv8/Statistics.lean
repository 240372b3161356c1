import Legv8.Mnemonic

set_option autoImplicit false

namespace Legv8

structure Statistics where
  cycles : Nat := 0
  retired : Nat := 0
  alu : Nat := 0
  load : Nat := 0
  store : Nat := 0
  branch : Nat := 0
  floatingPoint : Nat := 0
  dataStalls : Nat := 0
  controlFlushes : Nat := 0
  executeForwards : Nat := 0
  memoryForwards : Nat := 0
  deriving DecidableEq, Repr

namespace Statistics

-- An instruction counts under the first class that it belongs to.
def record (s : Statistics) (m : Mnemonic) : Statistics :=
  let s := { s with retired := s.retired + 1 }
  if m.operation.isLoad then { s with load := s.load + 1 }
  else if m.operation.isStore then { s with store := s.store + 1 }
  else if m.operation.isBranch then { s with branch := s.branch + 1 }
  else if m.isFloat then { s with floatingPoint := s.floatingPoint + 1 }
  else { s with alu := s.alu + 1 }

def mix (s : Statistics) : Nat :=
  s.alu + s.load + s.store + s.branch + s.floatingPoint

theorem record_retired (s : Statistics) (m : Mnemonic) :
    (s.record m).retired = s.retired + 1 := by
  simp only [record]
  repeat' split
  all_goals rfl

theorem record_mix (s : Statistics) (m : Mnemonic) : (s.record m).mix = s.mix + 1 := by
  simp only [record]
  repeat' split
  all_goals simp only [mix]; omega

end Statistics

end Legv8
