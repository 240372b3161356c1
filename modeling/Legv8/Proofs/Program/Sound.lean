import Legv8.Proofs.Program.Labels

set_option autoImplicit false

namespace Legv8

namespace Instruction

structure Sound (size : Nat) (i : Instruction) : Prop where
  registers : ∀ k < i.mnemonic.form.registerCount, 0 ≤ i.arg k ∧ i.arg k < 32
  target : ∀ t, i.target? = some t → 0 ≤ t ∧ t ≤ size
  real : i.mnemonic.isPseudo = false

theorem StartsWithRegisters.arg {i : Instruction} {count : Nat}
    (first : StartsWithRegisters count i.args) (k : Nat) (inside : k < count) :
    0 ≤ i.arg k ∧ i.arg k < 32 := by
  obtain ⟨r, named⟩ := first k inside
  have small := r.isLt
  simp only [Instruction.arg, named, Option.getD_some]
  omega

theorem number_eq {i : Instruction} {k n : Nat} (within : 0 ≤ i.arg k ∧ i.arg k ≤ n) :
    i.number k ≤ n := by
  have wrapped : i.number k = (i.arg k % 2 ^ 64).toNat := by
    simp [number, word, BitVec.toNat_ofInt]
  omega

theorem Sound.wellFormed {size : Nat} {i : Instruction} (sound : i.Sound size) : i.WellFormed := by
  intro k inside
  have bounds := sound.registers k inside
  have small : i.number k ≤ 31 := number_eq ⟨bounds.1, by omega⟩
  omega

end Instruction

namespace Program

theorem instructions_sound {texts : List String} {i : Instruction}
    (valid : (ofLines texts).isValid = true) (member : i ∈ (ofLines texts).instructions) :
    i.Sound (ofLines texts).instructions.size := by
  obtain ⟨m, operands, line, read⟩ := decode_of_mem member
  refine ⟨(Instruction.decode_registers read).arg, fun t named => ?_, Instruction.decode_real read⟩
  obtain ⟨name, index, -, bound, rfl⟩ := target_named valid member named
  have within := label_le valid bound
  omega

end Program

end Legv8
