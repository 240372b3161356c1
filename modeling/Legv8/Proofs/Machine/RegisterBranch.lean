import Legv8.Proofs.Machine.Comparison
import Legv8.Proofs.Machine.Sound
import Legv8.Proofs.Simulator.SingleCycle

set_option autoImplicit false

namespace Legv8

theorem instructionAddress_toNat {o : Word} {n : Nat} (room : o.toNat + 4 * n < 2 ^ 64) :
    (instructionAddress o (BitVec.ofNat 64 n)).toNat = o.toNat + 4 * n := by
  have four : (4 : Word).toNat = 4 := rfl
  simp only [instructionAddress, BitVec.toNat_add, BitVec.toNat_mul, BitVec.toNat_ofNat, four]
  omega

namespace Machine

variable {m m' : Machine} {o t : Word} {size k line : Nat} {r : Reg}

structure Loaded (m : Machine) (o : Word) (size : Nat) : Prop where
  text : m.memory.textOffset = o
  static : m.memory.staticOffset = instructionAddress o (BitVec.ofNat 64 size)

theorem ofConfig_loaded (c : Config) (size : Nat) :
    (ofConfig c size).Loaded c.memory.textOffset size :=
  ⟨rfl, rfl⟩

def through (r : Reg) (line : Nat) : Instruction :=
  ⟨.br, [(r.val : Int)], line⟩

def Continues (m : Machine) (r : Reg) (k : Nat) : Prop :=
  ∀ line, (m.execute (through r line)).1 = .ok () ∧ (m.execute (through r line)).2.next = k

def Addresses (o : Word) (size : Nat) (t : Word) : Prop :=
  ∃ k < size, t.toNat = o.toNat + 4 * k

section Target

variable (aligned : 4 ∣ o.toNat) (nonempty : 0 < size) (room : o.toNat + 4 * size < 2 ^ 64)
  (loaded : m.Loaded o size)

theorem branchTarget_misaligned (m : Machine) (t : Word) (misaligned : t.toNat % 4 ≠ 0) :
    m.branchTarget t = .error (.misalignedTarget t) := by
  rw [branchTarget, if_pos misaligned]
  rfl

include aligned nonempty room loaded

theorem branchTarget_address (inside : k < size) (address : t.toNat = o.toNat + 4 * k) :
    m.branchTarget t = .ok k := by
  have whole : ¬ t.toNat % 4 ≠ 0 := by omega
  have low : o ≤ t := BitVec.le_def.2 (by omega)
  have within : ¬ (t < o || decide (o.toNat + 4 * size - 4 < t.toNat)) = true := by
    simp only [Bool.or_eq_true, decide_eq_true_eq, BitVec.lt_def]
    omega
  have index : (t - o).toNat / 4 = k := by
    rw [BitVec.toNat_sub_of_le low]
    omega
  rw [branchTarget, if_neg whole, loaded.text, loaded.static, instructionAddress_toNat room,
    if_neg within, index]
  rfl

theorem branchTarget_outside (whole : t.toNat % 4 = 0) (outside : ¬ Addresses o size t) :
    m.branchTarget t = .error (.outOfSegment t .text) := by
  have beyond : (t < o || decide (o.toNat + 4 * size - 4 < t.toNat)) = true := by
    rw [Bool.or_eq_true, decide_eq_true_eq, decide_eq_true_eq, BitVec.lt_def]
    refine Classical.byContradiction fun inside => outside ⟨(t.toNat - o.toNat) / 4, ?_, ?_⟩
    all_goals omega
  rw [branchTarget, if_neg (not_not_intro whole), loaded.text, loaded.static,
    instructionAddress_toNat room, if_pos beyond]
  rfl

theorem branchTarget_cases (t : Word) :
    (t.toNat % 4 ≠ 0 ∧ m.branchTarget t = .error (.misalignedTarget t)) ∨
      (∃ k < size, t.toNat = o.toNat + 4 * k ∧ m.branchTarget t = .ok k) ∨
      (t.toNat % 4 = 0 ∧ ¬ Addresses o size t ∧
        m.branchTarget t = .error (.outOfSegment t .text)) := by
  by_cases whole : t.toNat % 4 = 0
  · by_cases inside : Addresses o size t
    · obtain ⟨k, within, address⟩ := inside
      exact .inr (.inl ⟨k, within, address,
        branchTarget_address aligned nonempty room loaded within address⟩)
    · exact .inr (.inr ⟨whole, inside,
        branchTarget_outside aligned nonempty room loaded whole inside⟩)
  · exact .inl ⟨whole, branchTarget_misaligned m t whole⟩

end Target

theorem through_wellFormed (r : Reg) (line : Nat) : (through r line).WellFormed := by
  have arguments : Instruction.Arguments .br (Mnemonic.form .br) (through r line).args := .r r
  exact arguments.startsWithRegisters.wellFormed

theorem effect_through (m : Machine) (r : Reg) (line : Nat) :
    m.effect (through r line) =
      (m.branchTarget (m.registers.readX r)).map fun k => Effect.jumpTo k false := by
  change m.operationEffect (through r line) .branchRegister = _
  rw [operationEffect, readX_reg rfl]
  change (m.branchTarget (m.registers.readX r) >>= fun k => pure (Effect.jumpTo k false)) = _
  cases m.branchTarget (m.registers.readX r) <;> rfl

theorem execute_through_error {f : Fault}
    (target : m.branchTarget (m.registers.readX r) = .error f) :
    (m.execute (through r line)).1 = .error f := by
  rw [execute_eq, effect_through, target]
  rfl

theorem execute_through_ok (target : m.branchTarget (m.registers.readX r) = .ok k) :
    (m.execute (through r line)).1 = .ok () ∧ (m.execute (through r line)).2.next = k := by
  have effect : m.effect (through r line) = .ok (Effect.jumpTo k false) := by
    rw [effect_through, target]
    rfl
  have done := execute_done (through_wellFormed r line) effect
  obtain ⟨e, registers, same, -, state⟩ := execute_ok done
  obtain rfl := Except.ok.inj (effect.symm.trans same)
  exact ⟨done, by rw [state]; rfl⟩

theorem executed_loadAddress (m : Machine) (nonzero : r ≠ Reg.xzr) (k line : Nat) :
    let i : Instruction := ⟨.lda, [(r.val : Int), (k : Int)], line⟩
    (m.execute i).1 = .ok () ∧ (m.execute i).2.registers.readX r =
      instructionAddress m.memory.textOffset (BitVec.ofNat 64 k) := by
  intro i
  have arguments : Instruction.Arguments i.mnemonic i.mnemonic.form i.args := .rl r k
  have effect : m.effect i = .ok (Effect.assign (i.number 0)
      (instructionAddress m.memory.textOffset (i.word 1))) := rfl
  have index : i.word 1 = BitVec.ofNat 64 k := BitVec.ofInt_natCast 64 k
  obtain ⟨done, registers⟩ := execute_assign arguments.startsWithRegisters.wellFormed
    (Instruction.number_register rfl) effect
  refine ⟨done, ?_⟩
  rw [registers, index]
  exact RegisterFile.readX_writeX nonzero _ _

theorem executed_branchLabel (m : Machine) (k line : Nat) :
    let i : Instruction := ⟨.b, [(k : Int)], line⟩
    (m.execute i).1 = .ok () ∧ (m.execute i).2.next = k % 2 ^ 64 := by
  intro i
  have arguments : Instruction.Arguments i.mnemonic i.mnemonic.form i.args := .l k
  have done := execute_done (m := m) arguments.startsWithRegisters.wellFormed rfl
  refine ⟨done, (executed_target (t := k) rfl done).trans ?_⟩
  rw [BitVec.ofInt_natCast, BitVec.toNat_ofNat]
  rfl

theorem stepped_branchLink {code : Array Instruction} {target : Int}
    (fetched : code[m.next]? = some ⟨.bl, [target], line⟩) :
    (m.step code).1 = .ok (some m.next) ∧ (m.step code).2.registers.readX Reg.lr =
      instructionAddress m.memory.textOffset (BitVec.ofNat 64 (m.next + 1)) := by
  let i : Instruction := ⟨.bl, [target], line⟩
  have arguments : Instruction.Arguments i.mnemonic i.mnemonic.form i.args := .l target
  let ahead : Machine := { m with next := m.next + 1 }
  have done := execute_done (m := ahead) arguments.startsWithRegisters.wellFormed rfl
  obtain ⟨e, registers, effect, applied, state⟩ := execute_ok done
  obtain rfl := Except.ok.inj (Eq.trans (b := ahead.effect i) rfl effect)
  obtain rfl := Except.ok.inj applied
  refine ⟨(step_ok_iff fetched).2 done, ?_⟩
  rw [step_machine fetched, state]
  exact RegisterFile.readX_writeX (by decide) _ _

theorem through_outcome (aligned : 4 ∣ o.toNat) (nonempty : 0 < size)
    (room : o.toNat + 4 * size < 2 ^ 64) (loaded : m.Loaded o size) (r : Reg) (line : Nat) :
    let t := m.registers.readX r
    let after := m.execute (through r line)
    (after.1 = .ok () ↔ Addresses o size t) ∧
      (∀ k < size, t.toNat = o.toNat + 4 * k → after.2.next = k) ∧
      (¬ Addresses o size t → (after.1 = .error (.misalignedTarget t) ↔ t.toNat % 4 ≠ 0) ∧
        (after.1 = .error (.outOfSegment t .text) ↔ t.toNat % 4 = 0)) := by
  intro t after
  have nowhere (outside : ¬ Addresses o size t) :
      ∀ k < size, t.toNat = o.toNat + 4 * k → after.2.next = k :=
    fun k inside address => absurd ⟨k, inside, address⟩ outside
  rcases branchTarget_cases aligned nonempty room loaded t with
    ⟨misaligned, failed⟩ | ⟨k, inside, address, found⟩ | ⟨whole, outside, failed⟩
  · have result : after.1 = _ := execute_through_error failed
    have outside : ¬ Addresses o size t := by
      rintro ⟨k, -, address⟩
      omega
    refine ⟨iff_of_false (by simp [result]) outside, nowhere outside, fun _ => ?_⟩
    simp [result, misaligned]
  · have ran : after.1 = .ok () ∧ after.2.next = k := execute_through_ok found
    obtain ⟨done, next⟩ := ran
    have reached : Addresses o size t := ⟨k, inside, address⟩
    refine ⟨iff_of_true done reached, fun j _ place => ?_, absurd reached⟩
    exact next.trans (by omega)
  · have result : after.1 = _ := execute_through_error failed
    refine ⟨iff_of_false (by simp [result]) outside, nowhere outside, fun _ => ?_⟩
    simp [result, whole]

theorem continues_of_address (aligned : 4 ∣ o.toNat) (room : o.toNat + 4 * size < 2 ^ 64)
    (loaded : m.Loaded o size) (inside : k < size)
    (address : m.registers.readX r = instructionAddress o (BitVec.ofNat 64 k)) :
    m.Continues r k := by
  intro line
  refine execute_through_ok (branchTarget_address aligned (by omega) room loaded inside ?_)
  rw [address, instructionAddress_toNat (by omega)]

theorem decode_label_operands {x name : String} {labels : LabelTable} (line : Nat)
    (read : Operand.register x = .ok (r.val : Int)) (bound : labels[name]? = some k) :
    Instruction.decode .lda [x, name] line labels = .ok ⟨.lda, [(r.val : Int), (k : Int)], line⟩ ∧
      Instruction.decode .b [name] line labels = .ok ⟨.b, [(k : Int)], line⟩ := by
  have label : Instruction.decodeLabel labels name = .ok (k : Int) := by
    rw [Instruction.decodeLabel, bound]
  have pair : Instruction.decodeArgs .lda [x, name] labels = .ok [(r.val : Int), (k : Int)] := by
    change (do return [← Operand.register x, ← Instruction.decodeLabel labels name]) = _
    rw [read, label]
    rfl
  have single : Instruction.decodeArgs .b [name] labels = .ok [(k : Int)] := by
    change (do return [← Instruction.decodeLabel labels name]) = _
    rw [label]
    rfl
  rw [Instruction.decode, Instruction.decode, pair, single]
  exact ⟨rfl, rfl⟩

/-- A register branch reaches the instructions of the program and fails at any other address. An
address that was loaded from a label leads to the label, as a branch to it does, and the address
that a branch with link leaves behind leads to the instruction behind that branch. -/
theorem register_branches_reach_program {code : Array Instruction} (aligned : 4 ∣ o.toNat)
    (nonempty : 0 < code.size) (room : o.toNat + 4 * code.size < 2 ^ 64)
    (loaded : m.Loaded o code.size) :
    (∀ (r : Reg) (line : Nat),
      let t := m.registers.readX r
      let after := m.execute (through r line)
      (after.1 = .ok () ↔ Addresses o code.size t) ∧
        (∀ k < code.size, t.toNat = o.toNat + 4 * k → after.2.next = k) ∧
        (¬ Addresses o code.size t → (after.1 = .error (.misalignedTarget t) ↔ t.toNat % 4 ≠ 0) ∧
          (after.1 = .error (.outOfSegment t .text) ↔ t.toNat % 4 = 0))) ∧
    (∀ (x name : String) (r : Reg) (labels : LabelTable) (k line : Nat),
      Operand.register x = .ok (r.val : Int) → r ≠ Reg.xzr → labels[name]? = some k →
      k < code.size → ∃ lda b, Instruction.decode .lda [x, name] line labels = .ok lda ∧
        Instruction.decode .b [name] line labels = .ok b ∧ (m.execute lda).1 = .ok () ∧
        (m.execute b).1 = .ok () ∧ (m.execute b).2.next = k ∧
        ∀ m' : Machine, m'.Loaded o code.size →
          m'.registers.readX r = (m.execute lda).2.registers.readX r → m'.Continues r k) ∧
    ∀ (target : Int) (line : Nat), code[m.next]? = some ⟨.bl, [target], line⟩ →
      m.next + 1 < code.size → (m.step code).1 = .ok (some m.next) ∧
        ∀ m' : Machine, m'.Loaded o code.size →
          m'.registers.readX Reg.lr = (m.step code).2.registers.readX Reg.lr →
            m'.Continues Reg.lr (m.next + 1) := by
  refine ⟨through_outcome aligned nonempty room loaded,
    fun x name r labels k line read nonzero bound inside => ?label,
    fun target line fetched inside => ?link⟩
  case label =>
    obtain ⟨lda, b⟩ := decode_label_operands line read bound
    obtain ⟨stored, address⟩ := executed_loadAddress m nonzero k line
    obtain ⟨jumped, next⟩ := executed_branchLabel m k line
    refine ⟨_, _, lda, b, stored, jumped, next.trans (by omega), fun m' loaded' kept => ?_⟩
    rw [address, loaded.text] at kept
    exact continues_of_address aligned room loaded' inside kept
  case link =>
    obtain ⟨done, address⟩ := stepped_branchLink fetched
    refine ⟨done, fun m' loaded' kept => ?_⟩
    rw [address, loaded.text] at kept
    exact continues_of_address aligned room loaded' inside kept

-- The last instruction of three is reached through a label, and the one in the middle behind a
-- call.
theorem register_branches_reach_program_ends :
    let code : Array Instruction := #[⟨.bl, [2], 0⟩, ⟨.br, [5], 1⟩, ⟨.br, [30], 2⟩]
    let m := ofConfig {} 3
    let labels : LabelTable := (∅ : LabelTable).insert "end" 2
    4 ∣ (0x400000 : Word).toNat ∧ (0x400000 : Word).toNat + 4 * code.size < 2 ^ 64 ∧
      m.Loaded 0x400000 code.size ∧
      (∃ lda, Instruction.decode .lda ["X5", "end"] 0 labels = .ok lda ∧
        (m.execute lda).2.Continues 5 2) ∧
      code[m.next]? = some ⟨.bl, [2], 0⟩ ∧ (m.step code).1 = .ok (some 0) ∧
      (m.step code).2.Continues Reg.lr 1 := by
  intro code m labels
  have aligned : 4 ∣ (0x400000 : Word).toNat := by decide
  have room : (0x400000 : Word).toNat + 4 * code.size < 2 ^ 64 := by decide
  have loaded : m.Loaded 0x400000 code.size := ofConfig_loaded {} 3
  have read : Operand.register "X5" = .ok ((5 : Reg).val : Int) :=
    eq_ok_of_toOption (by decide +kernel)
  have bound : labels["end"]? = some 2 := by decide +kernel
  obtain ⟨-, label, link⟩ :=
    register_branches_reach_program aligned (by decide) room loaded
  obtain ⟨lda, b, decoded, -, -, -, -, continues⟩ :=
    label "X5" "end" 5 labels 2 0 read (by decide) bound (by decide)
  obtain ⟨called, returns⟩ := link 2 0 rfl (by decide)
  refine ⟨aligned, room, loaded, ⟨lda, decoded, continues _ ?_ rfl⟩, rfl, called,
    returns _ ⟨rfl, rfl⟩ rfl⟩
  obtain rfl := Except.ok.inj ((decode_label_operands 0 read bound).1.symm.trans decoded)
  exact ⟨rfl, rfl⟩

/-- The zero register keeps no address, so a branch through it does not lead to the label. -/
theorem zero_register_loses_label :
    let m := ofConfig {} 2
    let lda : Instruction := ⟨.lda, [31, 0], 0⟩
    Instruction.decode .lda ["XZR", "start"] 0 ((∅ : LabelTable).insert "start" 0) = .ok lda ∧
      (m.execute lda).1 = .ok () ∧ (m.execute lda).2.Loaded 0x400000 2 ∧
      ((m.execute lda).2.execute (through Reg.xzr 1)).1 = .error (.outOfSegment 0 .text) ∧
      ¬ (m.execute lda).2.Continues Reg.xzr 0 := by
  intro m lda
  have fails : ((m.execute lda).2.execute (through Reg.xzr 1)).1 =
      .error (.outOfSegment 0 .text) := rfl
  refine ⟨eq_ok_of_toOption (by decide +kernel), rfl, ⟨rfl, rfl⟩, fails, fun continues => ?_⟩
  cases fails.symm.trans (continues 1).1

end Machine

end Legv8
