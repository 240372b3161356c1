import Legv8.Machine.Step

set_option autoImplicit false

namespace Legv8

theorem Reg.ofNat?_eq_some_iff {n : Nat} {r : Reg} : ofNat? n = some r ↔ n = r.val := by
  constructor
  · intro known
    unfold ofNat? at known
    split at known
    next => exact congrArg Fin.val (Option.some.inj known)
    next => cases known
  · rintro rfl
    exact ofNat?_val r

theorem Instruction.register_eq_ok_iff {i : Instruction} {k : Nat} {r : Reg} :
    i.register k = .ok r ↔ i.number k = r.val := by
  rw [← Reg.ofNat?_eq_some_iff, register]
  split
  next q known => rw [known, Except.ok.injEq, Option.some.injEq]
  next unknown => simp [unknown]

namespace RegisterFile

variable {f f' : RegisterFile} {w : RegisterWrite} {q r : Reg}

theorem get_set (slots : Vector Word 32) (q r : Reg) (v : Word) :
    (slots.set q v q.isLt).get r = if q = r then v else slots.get r := by
  simp only [Fin.ext_iff]
  exact Vector.getElem_set q.isLt r.isLt

theorem writeX_get (f : RegisterFile) (q r : Reg) (v : Word) :
    (f.writeX q v).x.get r = if q = r ∧ r ≠ Reg.xzr then v else f.x.get r := by
  unfold writeX
  split
  next zero =>
    have kept : ¬ (q = r ∧ r ≠ Reg.xzr) := fun ⟨same, nonzero⟩ => nonzero (same ▸ zero)
    rw [if_neg kept]
  next nonzero =>
    have aimed : q = r ∧ r ≠ Reg.xzr ↔ q = r := and_iff_left_of_imp fun same => same ▸ nonzero
    simp only [get_set, aimed]

theorem writeX_d (f : RegisterFile) (r : Reg) (v : Word) : (f.writeX r v).d = f.d := by
  unfold writeX
  split <;> rfl

theorem writeD_get (f : RegisterFile) (q r : Reg) (v : Word) :
    (f.writeD q v).d.get r = if q = r then v else f.d.get r :=
  get_set f.d q r v

theorem writeS_get (f : RegisterFile) (q r : Reg) (v : BitVec 32) :
    (f.writeS q v).d.get r = if q = r then (f.d.get r).extractLsb' 32 32 ++ v else f.d.get r := by
  rw [writeS, get_set]
  split
  next same => rw [← same]; rfl
  next => rfl

theorem readX_writeX (nonzero : r ≠ Reg.xzr) (f : RegisterFile) (v : Word) :
    (f.writeX r v).readX r = v := by
  simp [readX, writeX, nonzero]

theorem writeX_writeX (f : RegisterFile) (r : Reg) (v w : Word) :
    (f.writeX r v).writeX r w = f.writeX r w := by
  by_cases zero : r = Reg.xzr <;> simp [writeX, zero]

theorem writeX_readX (f : RegisterFile) (r : Reg) : f.writeX r (f.readX r) = f := by
  by_cases zero : r = Reg.xzr <;> simp [writeX, readX, zero]

-- A write that goes through is aimed at a register, and it is the write of its class.
theorem apply_cases (applied : f.apply (some w) = .ok f') :
    ∃ q : Reg, (∃ v, w = .x q v ∧ f' = f.writeX q v) ∨ (∃ v, w = .s q v ∧ f' = f.writeS q v) ∨
      ∃ v, w = .d q v ∧ f' = f.writeD q v := by
  cases w with
  | x n v | s n v | d n v =>
    simp only [apply] at applied
    split at applied
    next q known =>
      cases applied
      obtain rfl := Reg.ofNat?_eq_some_iff.1 known
      exact ⟨q, by simp⟩
    next => cases applied

end RegisterFile

end Legv8
