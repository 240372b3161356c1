import Legv8.Proofs.Flags
import Mathlib.Algebra.Group.Nat.Defs

set_option autoImplicit false

namespace Legv8

def Condition.unsigned? : Condition → Option (Nat → Nat → Bool)
  | .hs => some fun a b => b ≤ a
  | .lo => some fun a b => a < b
  | .hi => some fun a b => b < a
  | .ls => some fun a b => a ≤ b
  | _ => none

namespace Flags

variable {a b : Word} {c : Condition} {test : Nat → Nat → Bool}

theorem ofSum_c (a b : Word) : (ofSum a b (a + b)).c = decide (2 ^ 64 ≤ a.toNat + b.toNat) := by
  -- The carry out of the top bit is the majority of the two top bits and the carry into it.
  have out : BitVec.carry 64 a b false =
      Bool.atLeastTwo a.msb b.msb (BitVec.carry 63 a b false) :=
    BitVec.carry_succ 63 a b false
  have top : (a + b).msb = (a.msb ^^ (b.msb ^^ BitVec.carry 63 a b false)) :=
    BitVec.msb_add
  have range : BitVec.carry 64 a b false = decide (2 ^ 64 ≤ a.toNat + b.toNat) := by
    simp only [BitVec.carry, Nat.mod_eq_of_lt a.isLt, Nat.mod_eq_of_lt b.isLt, Bool.toNat_false,
      Nat.add_zero, ge_iff_le]
  rw [← range, out, ofSum]
  simp only [BitVec.msb_or, BitVec.msb_and, BitVec.msb_not, top]
  cases a.msb <;> cases b.msb <;> cases BitVec.carry 63 a b false <;> rfl

theorem ofDifference_c (a b : Word) :
    (ofDifference a b (a - b)).c = decide (b ≠ 0 ∧ b.toNat ≤ a.toNat) := by
  have left := a.isLt
  have right := b.isLt
  have zero : b = 0 ↔ b.toNat = 0 := (BitVec.toNat_inj (x := b) (y := 0)).symm
  rw [ofDifference_eq, ofSum_c, decide_eq_decide, BitVec.toNat_neg, Ne, zero]
  omega

theorem ofDifference_z (a b : Word) : (ofDifference a b (a - b)).z = decide (a = b) := by
  have zero : (ofDifference a b (a - b)).z = decide (a - b = 0) := rfl
  rw [zero, decide_eq_decide, BitVec.sub_eq_iff_eq_add]
  simp

theorem holds_ofDifference_unsigned_iff (asks : c.unsigned? = some test) :
    c.holds (ofDifference a b (a - b)) = test a.toNat b.toNat ↔
      b ≠ 0 ∨ a = b ∧ (c = .hi ∨ c = .ls) := by
  have equal : a = b ↔ a.toNat = b.toNat := BitVec.toNat_inj.symm
  have zero : b = 0 ↔ b.toNat = 0 := (BitVec.toNat_inj (x := b) (y := 0)).symm
  cases c <;> cases asks <;>
    simp only [Condition.holds, ofDifference_c, ofDifference_z, equal, zero, Ne]
  all_goals
    rw [Bool.eq_iff_iff]
    simp
    omega

/-- The flags of a sum tell whether it leaves the unsigned and the signed range, its sign and
whether it is zero. Those of a difference tell equal operands and the unsigned order. A zero
subtrahend never carries: with it the order is told right only by HI and LS, and only of zero. -/
theorem carry_and_order_exact (a b : Word) :
    let sum := AluOp.add.evalFlags a b
    let f := (AluOp.sub.evalFlags a b).2
    ((sum.2.c = true ↔ 2 ^ 64 ≤ a.toNat + b.toNat) ∧
      (sum.2.v = true ↔ ¬ Word.holdsInt (a.toInt + b.toInt)) ∧
      (sum.2.n = true ↔ sum.1.getLsbD 63 = true) ∧ (sum.2.z = true ↔ sum.1 = 0)) ∧
    (Condition.eq.holds f = true ↔ a = b) ∧ (Condition.ne.holds f = true ↔ a ≠ b) ∧
    ((Condition.hs.holds f = true ↔ b.toNat ≤ a.toNat) ↔ b ≠ 0) ∧
    ((Condition.lo.holds f = true ↔ a.toNat < b.toNat) ↔ b ≠ 0) ∧
    ((Condition.hi.holds f = true ↔ b.toNat < a.toNat) ↔ b ≠ 0 ∨ a = b) ∧
    ((Condition.ls.holds f = true ↔ a.toNat ≤ b.toNat) ↔ b ≠ 0 ∨ a = b) := by
  intro sum f
  have order {c : Condition} {test : Nat → Nat → Bool} {p : Prop} (asks : c.unsigned? = some test)
      (means : test a.toNat b.toNat = true ↔ p) :
      (c.holds f = true ↔ p) ↔ b ≠ 0 ∨ a = b ∧ (c = .hi ∨ c = .ls) := by
    rw [← means, ← Bool.eq_iff_iff]
    exact holds_ofDifference_unsigned_iff asks
  have equal : f.z = decide (a = b) := ofDifference_z a b
  have carry : sum.2.c = decide (2 ^ 64 ≤ a.toNat + b.toNat) := ofSum_c a b
  have overflow : sum.2.v = !Word.holdsInt (a.toInt + b.toInt) := ofSum_v a b
  refine ⟨⟨by simp [carry], by simp [overflow], ?_, beq_iff_eq⟩, by simp [Condition.holds, equal],
    by simp [Condition.holds, equal], ?hs, ?lo, ?hi, ?ls⟩
  · rw [← BitVec.msb_eq_getLsbD_last]
    rfl
  all_goals exact (order rfl decide_eq_true_iff).trans (by simp)

end Flags

end Legv8
