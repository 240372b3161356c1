import Legv8.Alu
import Mathlib.Data.Rat.Floor

set_option autoImplicit false

namespace Legv8

namespace Word

section Products

theorem halves_append (p : BitVec 128) : p.extractLsb' 64 64 ++ p.setWidth 64 = p := by
  have adjacent : 64 = 0 + 64 := rfl
  rw [BitVec.setWidth_eq_extractLsb' (by decide),
    BitVec.extractLsb'_append_extractLsb'_eq_extractLsb' adjacent, BitVec.extractLsb'_eq_self]

theorem halves_toNat (p : BitVec 128) :
    2 ^ 64 * (p.extractLsb' 64 64).toNat + (p.setWidth 64).toNat = p.toNat := by
  have whole := congrArg BitVec.toNat (halves_append p)
  rwa [BitVec.toNat_append, ← Nat.shiftLeft_add_eq_or_of_lt (p.setWidth 64).isLt,
    Nat.shiftLeft_eq, Nat.mul_comm] at whole

theorem halves_toInt (p : BitVec 128) :
    2 ^ 64 * (p.extractLsb' 64 64).toInt + (p.setWidth 64).toNat = p.toInt := by
  have whole := congrArg BitVec.toInt (halves_append p)
  rwa [BitVec.toInt_append, if_neg (by decide)] at whole

theorem setWidth_signExtend (a : Word) : (a.signExtend 128).setWidth 64 = a := by
  ext i inside
  rw [BitVec.getElem_setWidth, BitVec.getLsbD_signExtend]
  simp [inside, Nat.lt_trans inside]

theorem unsigned_product (a b : Word) :
    (a.setWidth 128 * b.setWidth 128).toNat = a.toNat * b.toNat := by
  have bound : a.toNat * b.toNat < 2 ^ 128 :=
    calc a.toNat * b.toNat < 2 ^ 64 * 2 ^ 64 := Nat.mul_lt_mul'' a.isLt b.isLt
      _ = 2 ^ 128 := rfl
  rw [BitVec.toNat_mul, BitVec.toNat_setWidth_of_le (by decide),
    BitVec.toNat_setWidth_of_le (by decide), Nat.mod_eq_of_lt bound]

theorem natAbs_toInt_le (a : Word) : a.toInt.natAbs ≤ 2 ^ 63 := by
  have low : -2 ^ 63 ≤ a.toInt := BitVec.le_toInt a
  have high : a.toInt < 2 ^ 63 := BitVec.toInt_lt
  omega

theorem signed_product (a b : Word) :
    (a.signExtend 128 * b.signExtend 128).toInt = a.toInt * b.toInt := by
  have bound : (a.toInt * b.toInt).natAbs ≤ 2 ^ 63 * 2 ^ 63 := by
    rw [Int.natAbs_mul]
    exact Nat.mul_le_mul (natAbs_toInt_le a) (natAbs_toInt_le b)
  rw [BitVec.toInt_mul, BitVec.toInt_signExtend_of_le (by decide),
    BitVec.toInt_signExtend_of_le (by decide), Int.bmod_eq_of_le (by omega) (by omega)]

theorem low_half_unsigned (a b : Word) :
    (a.setWidth 128 * b.setWidth 128).setWidth 64 = a * b := by
  rw [BitVec.setWidth_mul _ _ (by decide), BitVec.setWidth_setWidth_of_le _ (by decide),
    BitVec.setWidth_setWidth_of_le _ (by decide), BitVec.setWidth_eq, BitVec.setWidth_eq]

theorem low_half_signed (a b : Word) :
    (a.signExtend 128 * b.signExtend 128).setWidth 64 = a * b := by
  rw [BitVec.setWidth_mul _ _ (by decide), setWidth_signExtend, setWidth_signExtend]

end Products

section Quotients

def integerPart (q : ℚ) : Int :=
  if 0 ≤ q then ⌊q⌋ else ⌈q⌉

theorem integerPart_neg (q : ℚ) : integerPart (-q) = -integerPart q := by
  unfold integerPart
  rcases lt_trichotomy q 0 with negative | rfl | positive
  · rw [if_pos (by linarith), if_neg (by linarith), Int.floor_neg]
  · simp
  · rw [if_neg (by linarith), if_pos (by linarith), Int.ceil_neg]

theorem integerPart_natCast_div (n m : Nat) : integerPart ((n : ℚ) / m) = (n : Int) / m := by
  rw [integerPart, if_pos (by positivity), Rat.floor_natCast_div_natCast]

theorem integerPart_div (a b : Int) : integerPart ((a : ℚ) / b) = a.tdiv b := by
  -- Both sides change their sign with either operand, so natural numbers are enough.
  obtain ⟨n, rfl | rfl⟩ := a.eq_nat_or_neg <;> obtain ⟨m, rfl | rfl⟩ := b.eq_nat_or_neg <;>
    simp [integerPart_neg, integerPart_natCast_div, neg_div, div_neg]

theorem toInt_sdiv_exact {a b : Word} (fits : ¬(a = BitVec.intMin 64 ∧ b = -1)) :
    (a.sdiv b).toInt = integerPart ((a.toInt : ℚ) / b.toInt) := by
  rw [integerPart_div]
  exact BitVec.toInt_sdiv_of_ne_or_ne a b (not_and_or.1 fits)

end Quotients

end Word

/-- The high and the low half of a product make up the exact product. Unsigned division gives the
floor of the quotient, signed division the quotient rounded toward zero. Of all signed quotients
only that of the least integer by -1 does not fit, and wraps to the least integer. Division by zero
gives zero. -/
theorem AluOp.products_and_quotients_exact (a b : Word) :
    2 ^ 64 * (AluOp.umulh.eval a b).toNat + (AluOp.mul.eval a b).toNat = a.toNat * b.toNat ∧
    2 ^ 64 * (AluOp.smulh.eval a b).toInt + (AluOp.mul.eval a b).toNat = a.toInt * b.toInt ∧
    (AluOp.udiv.eval a b).toNat = (if b = 0 then 0 else ⌊(a.toNat : ℚ) / b.toNat⌋) ∧
    (AluOp.sdiv.eval a b).toInt =
      if b = 0 then 0
      else if a = BitVec.intMin 64 ∧ b = -1 then -2 ^ 63
      else Word.integerPart ((a.toInt : ℚ) / b.toInt) := by
  refine ⟨?umulh, ?smulh, ?udiv, ?sdiv⟩
  case umulh =>
    have halves := Word.halves_toNat (a.setWidth 128 * b.setWidth 128)
    rwa [Word.low_half_unsigned, Word.unsigned_product] at halves
  case smulh =>
    have halves := Word.halves_toInt (a.signExtend 128 * b.signExtend 128)
    rwa [Word.low_half_signed, Word.signed_product] at halves
  case udiv =>
    change ((a / b).toNat : Int) = _
    split
    next zero => simp [zero]
    next => rw [Rat.floor_natCast_div_natCast, BitVec.toNat_udiv, Int.natCast_ediv]
  case sdiv =>
    change (a.sdiv b).toInt = _
    split
    next zero => simp [zero]
    next =>
      split
      next overflow =>
        rw [overflow.1, overflow.2]
        rfl
      next fits => exact Word.toInt_sdiv_exact fits

end Legv8
