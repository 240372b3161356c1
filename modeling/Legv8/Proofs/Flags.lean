import Legv8.Alu

/-!
The flags of additions and subtractions, read as statements on signed integers. A subtraction adds
the negative of its subtrahend. The least integer is its own negative, so there the signed
conditions speak of a sum and not of a difference.
-/

set_option autoImplicit false

namespace Legv8

def Word.holdsInt (v : Int) : Bool :=
  -0x8000000000000000 ≤ v && v < 0x8000000000000000

theorem Word.holdsInt_iff {v : Int} :
    holdsInt v = true ↔ -0x8000000000000000 ≤ v ∧ v < 0x8000000000000000 := by
  simp [holdsInt]

theorem Word.holdsInt_toInt (a : Word) : holdsInt a.toInt = true :=
  holdsInt_iff.2 ⟨BitVec.le_toInt a, BitVec.toInt_lt⟩

def Condition.signed? : Condition → Option (Int → Bool)
  | .ge => some fun v => 0 ≤ v
  | .lt => some fun v => v < 0
  | .gt => some fun v => 0 < v
  | .le => some fun v => v ≤ 0
  | .vs => some fun v => !Word.holdsInt v
  | .vc => some Word.holdsInt
  | _ => none

namespace Flags

variable {a b : Word} {c : Condition} {test : Int → Bool} {f : Flags} {v : Int}

-- The flags tell the sign of an exact result and whether a word holds it. Without a negative result
-- they also tell whether it is zero.
structure Describes (f : Flags) (v : Int) : Prop where
  overflow : f.v = !Word.holdsInt v
  sign : (f.n != f.v) = decide (v < 0)
  zero : 0 ≤ v → f.z = decide (v = 0)

theorem Describes.holds (describes : f.Describes v) (asks : c.signed? = some test) :
    c.holds f = test v := by
  obtain ⟨overflow, sign, zero⟩ := describes
  have order : (f.n == f.v) = decide (0 ≤ v) := by
    rw [bne, Bool.not_eq_eq_eq_not, ← decide_not] at sign
    rw [sign, decide_eq_decide, Int.not_lt]
  have above : (!f.z && f.n == f.v) = decide (0 < v) := by
    rw [order]
    by_cases negative : v < 0
    · have below : ¬ 0 ≤ v ∧ ¬ 0 < v := by omega
      simp [below]
    · rw [zero (by omega), Bool.eq_iff_iff]
      simp
      omega
  cases c <;> cases asks
  case ge => exact order
  case lt => exact sign
  case gt => exact above
  case le => rw [Condition.holds, above, ← decide_not, decide_eq_decide, Int.not_lt]
  case vs => exact overflow
  case vc => rw [Condition.holds, overflow, Bool.not_not]

theorem toInt_add_cases (a b : Word) :
    (Word.holdsInt (a.toInt + b.toInt) = true ∧ (a + b).toInt = a.toInt + b.toInt) ∨
      Word.holdsInt (a.toInt + b.toInt) = false ∧
        (a.toInt + b.toInt < 0 ∧ 0 ≤ (a + b).toInt ∨
          0 < a.toInt + b.toInt ∧ (a + b).toInt < 0) := by
  have left := Word.holdsInt_iff.1 (Word.holdsInt_toInt a)
  have right := Word.holdsInt_iff.1 (Word.holdsInt_toInt b)
  rw [← Bool.not_eq_true, Word.holdsInt_iff, BitVec.toInt_add, Int.bmod]
  split <;> omega

theorem ofSum_v (a b : Word) : (ofSum a b (a + b)).v = !Word.holdsInt (a.toInt + b.toInt) := by
  have overflow : (ofSum a b (a + b)).v = a.saddOverflow b := by
    rw [BitVec.saddOverflow_eq]
    simp only [ofSum, BitVec.msb_and, BitVec.msb_xor, BitVec.msb_not]
    cases a.msb <;> cases b.msb <;> cases (a + b).msb <;> simp
  rw [overflow, Bool.eq_iff_iff]
  simp [BitVec.saddOverflow, Word.holdsInt]
  omega

theorem ofSum_describes (a b : Word) : (ofSum a b (a + b)).Describes (a.toInt + b.toInt) := by
  have negative : (ofSum a b (a + b)).n = decide ((a + b).toInt < 0) :=
    BitVec.msb_eq_toInt (x := a + b)
  have zero : (ofSum a b (a + b)).z = decide ((a + b).toInt = 0) := by
    rw [Bool.eq_iff_iff, decide_eq_true_eq]
    exact beq_iff_eq.trans (BitVec.toInt_inj (x := a + b) (y := 0)).symm
  have range := toInt_add_cases a b
  refine ⟨ofSum_v a b, ?_, fun positive => ?_⟩
  · rw [negative, ofSum_v]
    rcases range with ⟨fits, exact⟩ | ⟨wraps, ⟨low, high⟩ | ⟨high, low⟩⟩
    · rw [fits, exact]
      exact Bool.bne_false _
    · rw [wraps, decide_eq_true low, decide_eq_false (Int.not_lt.2 high)]
      rfl
    · rw [wraps, decide_eq_true low, decide_eq_false (Int.not_lt.2 (Int.le_of_lt high))]
      rfl
  · rw [zero, decide_eq_decide]
    rcases range with ⟨-, exact⟩ | ⟨-, ⟨low, -⟩ | ⟨high, result⟩⟩ <;> omega

theorem ofDifference_eq (a b : Word) : ofDifference a b (a - b) = ofSum a (-b) (a + -b) := by
  have negative : -b = ~~~b + 1 := BitVec.neg_eq_not_add b
  rw [ofDifference, negative, BitVec.sub_eq_add_neg, negative]

-- After a subtraction the signed conditions speak of the exact difference, unless the subtrahend is
-- the least integer.
theorem holds_ofDifference_iff (asks : c.signed? = some test) :
    c.holds (ofDifference a b (a - b)) = test (a.toInt - b.toInt) ↔
      b ≠ BitVec.intMin 64 ∨ a = b ∧ (c = .gt ∨ c = .le) := by
  rw [ofDifference_eq, (ofSum_describes a (-b)).holds asks]
  by_cases least : b = BitVec.intMin 64
  · subst least
    have value : (BitVec.intMin 64).toInt = -0x8000000000000000 := rfl
    have equal : a = BitVec.intMin 64 ↔ a.toInt = -0x8000000000000000 := by
      rw [← value, BitVec.toInt_inj]
    have range := Word.holdsInt_iff.1 (Word.holdsInt_toInt a)
    rw [BitVec.neg_intMin, value, equal]
    cases c <;> cases asks <;> rw [Bool.eq_iff_iff] <;> simp [Word.holdsInt] <;> omega
  · simp [least, BitVec.toInt_neg_of_ne_intMin least, Int.sub_eq_add_neg]

end Flags

end Legv8
