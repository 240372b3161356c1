import Legv8.Proofs.Flags
import Legv8.Proofs.Machine.Transfer

set_option autoImplicit false

namespace Legv8.Machine

variable {m : Machine} {i : Instruction} {c : Condition} {p : Prop} {r s : Reg} {line : Nat}

def Decides (m : Machine) (c : Condition) (p : Prop) : Prop :=
  ∀ (target : Word) (line : Nat),
    let after := m.execute ⟨.bcond c, [(target.toNat : Int)], line⟩
    after.1 = .ok () ∧ (p → after.2.next = target.toNat) ∧ (¬ p → after.2.next = m.next)

theorem executed_branchIf (m : Machine) (c : Condition) (target : Word) (line : Nat) :
    let after := m.execute ⟨.bcond c, [(target.toNat : Int)], line⟩
    after.1 = .ok () ∧ after.2.next = if c.holds m.flags then target.toNat else m.next := by
  have wellFormed : (⟨.bcond c, [(target.toNat : Int)], line⟩ : Instruction).WellFormed :=
    fun k none => absurd none (Nat.not_lt_zero k)
  have done := execute_done (m := m) wellFormed rfl
  have next := executed_target (t := (target.toNat : Int)) rfl done
  rw [BitVec.ofInt_natCast, BitVec.ofNat_toNat, BitVec.setWidth_eq] at next
  exact ⟨done, next⟩

theorem decides_iff : m.Decides c p ↔ (c.holds m.flags = true ↔ p) := by
  constructor
  · -- A jump shows if it leads away from the next instruction.
    intro decides
    obtain ⟨target, away⟩ : ∃ target : Word, target.toNat ≠ m.next := by
      by_cases zero : m.next = 0
      · exact ⟨1, by simp [zero]⟩
      · exact ⟨0, fun same => zero same.symm⟩
    obtain ⟨-, jumps, stays⟩ := decides target 0
    rw [(executed_branchIf m c target 0).2] at jumps stays
    by_cases holds : c.holds m.flags = true
    · simp only [holds, if_true] at stays
      exact iff_of_true holds (Classical.byContradiction fun other => away (stays other))
    · simp only [holds] at jumps
      exact iff_of_false holds fun other => away (jumps other).symm
  · intro agrees target line
    obtain ⟨done, next⟩ := executed_branchIf m c target line
    refine ⟨done, fun holds => ?_, fun fails => ?_⟩
    · rw [next, if_pos (agrees.2 holds)]
    · rw [next, if_neg (mt agrees.1 fails)]

theorem readX_reg {k : Nat} (named : i.args[k]? = some (r.val : Int)) :
    m.readX i k = .ok (m.registers.readX r) := by
  simp [readX, Instruction.register, Instruction.number_register named, bind, Except.bind, pure,
    Except.pure]

theorem executed_compare (m : Machine) (r s : Reg) (line : Nat) :
    let after := m.execute ⟨.subs, [(Reg.xzr.val : Int), (r.val : Int), (s.val : Int)], line⟩
    let a := m.registers.readX r
    let b := m.registers.readX s
    after.1 = .ok () ∧ after.2.flags = .ofDifference a b (a - b) := by
  intro after a b
  let i : Instruction := ⟨.subs, [(Reg.xzr.val : Int), (r.val : Int), (s.val : Int)], line⟩
  have arguments : Instruction.Arguments i.mnemonic i.mnemonic.form i.args := .rrr .x Reg.xzr r s
  have wellFormed : i.WellFormed := arguments.startsWithRegisters.wellFormed
  have effect : m.effect i =
      .ok ((Effect.assign (i.number 0) (a - b)).withFlags (.ofDifference a b (a - b))) := by
    change m.operationEffect i (.integer .sub .register true) = _
    rw [operationEffect, readX_reg rfl, secondOperand, readX_reg rfl]
    rfl
  have done : (m.execute i).1 = .ok () := execute_done wellFormed effect
  obtain ⟨e, registers, same, -, state⟩ := execute_ok done
  obtain rfl := Except.ok.inj (effect.symm.trans same)
  exact ⟨done, by rw [state]; rfl⟩

/-- The signed branches behind a comparison tell how its operands are ordered, unless the second
operand is the least integer. Equal operands are ordered right even then. -/
theorem signed_branches_decide_iff (m : Machine) {x y : String} {r s : Reg} (line : Nat)
    (labels : LabelTable) (first : Operand.register x = .ok (r.val : Int))
    (second : Operand.register y = .ok (s.val : Int)) :
    let a := m.registers.readX r
    let b := m.registers.readX s
    ∃ i, Instruction.decode .cmp [x, y] line labels = .ok i ∧ (m.execute i).1 = .ok () ∧
      let m' := (m.execute i).2
      (m'.Decides .ge (b.toInt ≤ a.toInt) ↔ b ≠ BitVec.intMin 64) ∧
      (m'.Decides .lt (a.toInt < b.toInt) ↔ b ≠ BitVec.intMin 64) ∧
      (m'.Decides .gt (b.toInt < a.toInt) ↔ b ≠ BitVec.intMin 64 ∨ a = b) ∧
      (m'.Decides .le (a.toInt ≤ b.toInt) ↔ b ≠ BitVec.intMin 64 ∨ a = b) ∧
      (m'.Decides .vs (¬ Word.holdsInt (a.toInt - b.toInt)) ↔ b ≠ BitVec.intMin 64) ∧
      (m'.Decides .vc (Word.holdsInt (a.toInt - b.toInt)) ↔ b ≠ BitVec.intMin 64) := by
  intro a b
  let i : Instruction := ⟨.subs, [(Reg.xzr.val : Int), (r.val : Int), (s.val : Int)], line⟩
  obtain ⟨done, flags⟩ := executed_compare m r s line
  have decides {c : Condition} {test : Int → Bool} {p : Prop} (asks : c.signed? = some test)
      (means : test (a.toInt - b.toInt) = true ↔ p) :
      (m.execute i).2.Decides c p ↔ b ≠ BitVec.intMin 64 ∨ a = b ∧ (c = .gt ∨ c = .le) := by
    rw [decides_iff, flags, ← means, ← Bool.eq_iff_iff]
    exact Flags.holds_ofDifference_iff asks
  have decoded : Instruction.decode .cmp [x, y] line labels = .ok i := by
    have args : Instruction.decodeArgs .cmp [x, y] labels = .ok [(r.val : Int), (s.val : Int)] := by
      change (do return [← Operand.register x, ← Operand.register y]) = _
      rw [first, second]
      rfl
    rw [Instruction.decode, args]
    rfl
  refine ⟨i, decoded, done, ?ge, ?lt, ?gt, ?le, ?vs, ?vc⟩
  case vs => exact (decides rfl (by simp)).trans (by simp)
  case vc => exact (decides rfl Iff.rfl).trans (by simp)
  -- The others compare the exact difference with zero.
  all_goals exact (decides rfl (decide_eq_true_iff.trans (by omega))).trans (by simp)

-- The least integer is less than one, and the difference does not fit into a word.
theorem signed_branches_decide_iff_limits :
    let m : Machine :=
      { memory := .ofConfig {} 2
        registers := (RegisterFile.writeX {} 1 (BitVec.intMin 64)).writeX 2 1 }
    Operand.register "X1" = .ok 1 ∧ Operand.register "X2" = .ok 2 ∧
      ∃ i, Instruction.decode .cmp ["X1", "X2"] 0 ∅ = .ok i ∧ (m.execute i).1 = .ok () ∧
        (m.execute i).2.Decides .lt ((BitVec.intMin 64).toInt < (1 : Word).toInt) ∧
        (m.execute i).2.Decides .vs (¬ Word.holdsInt ((BitVec.intMin 64).toInt - (1 : Word).toInt))
    := by
  intro m
  have first : Operand.register "X1" = .ok 1 := eq_ok_of_toOption (by decide +kernel)
  have second : Operand.register "X2" = .ok 2 := eq_ok_of_toOption (by decide +kernel)
  obtain ⟨i, decoded, done, -, lt, -, -, vs, -⟩ :=
    signed_branches_decide_iff m (r := 1) (s := 2) 0 ∅ first second
  have other : m.registers.readX 2 ≠ BitVec.intMin 64 := by decide
  exact ⟨first, second, i, decoded, done, lt.2 other, vs.2 other⟩

/-- Zero is not less than the least integer, but the branch behind the comparison takes it for
less. The difference does not fit into a word, and no overflow is told. -/
theorem signed_branches_misjudge_least :
    let m : Machine :=
      { memory := .ofConfig {} 3, registers := RegisterFile.writeX {} 2 (BitVec.intMin 64) }
    let compare : Instruction := ⟨.subs, [31, 1, 2], 0⟩
    let after := (m.execute compare).2
    Instruction.decode .cmp ["X1", "X2"] 0 ∅ = .ok compare ∧ (m.execute compare).1 = .ok () ∧
      (BitVec.intMin 64).toInt ≤ (0 : Word).toInt ∧
      (after.execute ⟨.bcond .ge, [7], 1⟩).2.next = m.next ∧
      (after.execute ⟨.bcond .lt, [7], 1⟩).2.next = 7 ∧
      Word.holdsInt ((0 : Word).toInt - (BitVec.intMin 64).toInt) = false ∧
      (after.execute ⟨.bcond .vs, [7], 1⟩).2.next = m.next := by
  refine ⟨eq_ok_of_toOption (by decide +kernel), rfl, ?_⟩
  decide

end Legv8.Machine
