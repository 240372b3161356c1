import Legv8.Proofs.Pipeline.Forwarding
import Legv8.Proofs.Pipeline.LoadUse
import Legv8.Proofs.Simulator.Structure

set_option autoImplicit false

namespace Legv8

namespace Pipeline

variable {s : Stages} {f g : Flight} {n : Nat}

structure Flight.Produces (g : Flight) (n : Nat) : Prop where
  executed : g.isPlaceholder = false
  destination : g.instruction.destination? = some (.x, n)

-- An instruction stands right in front of decode, where its result is not yet to be had.
def Stages.Ahead (s : Stages) (g : Flight) : Prop :=
  s.execute = some g ∨ s.memory = some g

structure Flight.Tests (f : Flight) (n : Nat) : Prop where
  branch : f.instruction.mnemonic = .cbz ∨ f.instruction.mnemonic = .cbnz
  register : f.instruction.number 0 = n

theorem Flight.Tests.form (tests : f.Tests n) : f.instruction.mnemonic.form = .rl := by
  rcases tests.branch with zero | zero <;> rw [zero] <;> rfl

theorem Flight.Tests.fields (tests : f.Tests n) : f.fields = { rm := some n } := by
  rw [Flight.fields, Instruction.fields, tests.form, tests.register]

theorem branchRegisterStall_iff (decode : s.decode = some f) (tests : f.Tests n) :
    (Hazards.detect s (.capture s)).branchRegisterStall = true ↔
      ∃ g, s.Ahead g ∧ g.fields.rd = some n := by
  change Hazards.branchRegisterHazard s.decode (.capture s) = true ↔ _
  rw [decode, Hazards.branchRegisterHazard, tests.form, tests.register, capture_idEx_rd,
    capture_exMem_rd]
  simp only [beq_self_eq_true, Bool.true_and, Bool.or_eq_true, beq_iff_eq, Stages.Ahead,
    or_and_right, exists_or, eq_comm (a := some n), Option.bind_eq_some_iff]

-- A compare-and-branch calls for no other stall than for the register that it tests.
theorem compare_stalls (decode : s.decode = some f) (tests : f.Tests n) :
    let h := Hazards.detect s (.capture s)
    (h.loadUseStall || h.branchStall) = h.branchRegisterStall := by
  intro h
  have flags : h.flagStall = false := by
    change Hazards.flagHazard s = false
    rw [Hazards.flagHazard, decode]
    simp [tests.form]
  have load (stalls : h.loadUseStall = true) : h.branchRegisterStall = true := by
    have consumed := loadUseStall_eq.symm.trans stalls
    obtain ⟨⟨r, i⟩, consumer, shown⟩ := (Option.any_eq_true _ _).1 consumed
    obtain ⟨g, f', execute, decode', loaded, rfl⟩ := Stages.consumer?_eq_some.1 consumer
    obtain rfl : f = f' := Option.some.inj (decode.symm.trans decode')
    -- The tested register is the only source that a compare-and-branch shows.
    have source : f.instruction.fields = { rm := some n } := tests.fields
    have same : r = n := by
      simpa [Instruction.mem_shown, source] using shown
    rw [same] at loaded
    exact (branchRegisterStall_iff decode tests).2
      ⟨g, .inl execute, (Instruction.loaded?_eq_some.1 loaded).2⟩
  rw [Hazards.branchStall, flags, Bool.or_false]
  cases stalls : h.loadUseStall with
  | false => rfl
  | true => rw [load stalls, Bool.or_self]

end Pipeline

namespace Pipelined

open Pipeline

variable {texts : List String} {c : Config} {s : SingleCycle} {k n r : Nat} {p : Pipelined}
  {f g : Flight}

theorem LockStep.rd_eq_some_iff (lock : p.LockStep s k) (ahead : p.pipeline.stages.Ahead g) :
    g.fields.rd = some r ↔ g.Produces r ∧ g.instruction.mnemonic.ShowsDestination := by
  obtain ⟨executed, recorded⟩ :
      g.isPlaceholder = false ∧ g.Recorded s.program.instructions := by
    rcases ahead with execute | memory
    · exact ⟨lock.guarded.executed.execute g execute, lock.recorded.execute g execute⟩
    · exact ⟨lock.guarded.executed.memory g memory, lock.recorded.memory g memory⟩
  obtain ⟨e, execution⟩ := Flight.exists_execution executed
  obtain ⟨m, done, -⟩ := recorded.executed execution
  rw [Flight.fields, Instruction.rd_eq_some_iff (Machine.executed_real done)]
  refine and_congr_left fun _ => ?_
  exact ⟨fun named => ⟨executed, named⟩, fun produces => produces.destination⟩

theorem LockStep.reports_iff (lock : p.LockStep s k)
    (decode : p.pipeline.stages.decode = some f) (tests : f.Tests r) :
    p.pipeline.hazards.branchRegisterStall = true ↔ ∃ g, p.pipeline.stages.Ahead g ∧
      g.Produces r ∧ g.instruction.mnemonic.ShowsDestination := by
  rw [lock.detected.hazards, lock.detected.registers, branchRegisterStall_iff decode tests]
  exact exists_congr fun g => and_congr_right fun ahead => lock.rd_eq_some_iff ahead

theorem LockStep.bubbles_iff (lock : p.LockStep s k)
    (decode : p.pipeline.stages.decode = some f) (tests : f.Tests r) :
    p.clock.1 = .ok () ∧ p.pipeline.Stalls p.clock.2.pipeline ↔
      p.pipeline.hazards.branchRegisterStall = true := by
  have busy : p.isFinished = false := by
    simp [isFinished, isDrained, Stages.isEmpty, Stages.toList, decode]
  rw [lock.stalls_iff busy, lock.detected.hazards, lock.detected.registers,
    compare_stalls decode tests]

theorem LockStep.quiet (lock : p.LockStep s k) (attempts : p.Attempts) :
    p.pipeline.hazards.branchRegisterStall = false := by
  have clear := (clear_iff.1 attempts.clear).2
  rw [lock.detected.branchStall, Hazards.branchStall, Bool.or_eq_false_iff] at clear
  exact clear.1

/-- A compare-and-branch waits exactly for those instructions ahead that produce its register and
show it as their destination. -/
theorem compare_branch_waits_iff (assembled : ofProgram (.ofLines texts) c = .ok p) (n : Nat)
    (decode : (p.after n).pipeline.stages.decode = some f) (tests : f.Tests r) :
    let waited := ∃ g, (p.after n).pipeline.stages.Ahead g ∧ g.Produces r ∧
      g.instruction.mnemonic.ShowsDestination
    ((p.after n).pipeline.hazards.branchRegisterStall = true ↔ waited) ∧
      ((p.after n).clock.1 = .ok () ∧
        (p.after n).pipeline.Stalls (p.after n).clock.2.pipeline ↔ waited) := by
  intro waited
  obtain ⟨j, k, lock, stages, -, hazards, running, failing⟩ := (LockStep.assembled assembled).shown n
  have reports : (p.after n).pipeline.hazards.branchRegisterStall = true ↔ waited := by
    unfold waited
    rw [hazards, stages]
    exact lock.reports_iff (stages ▸ decode) tests
  refine ⟨reports, ?_⟩
  rw [← reports]
  cases stopped : (p.after n).fault with
  | none =>
    obtain rfl := running stopped
    exact lock.bubbles_iff decode tests
  | some e =>
    -- A fault comes of an execution, and nothing is executed while a branch waits.
    have quiet := lock.quiet (failing (by simp [stopped]))
    rw [clock_faulted stopped, hazards, quiet]
    simp

theorem compare_branch_waits_iff_addi :
    let program := Program.ofLines ["ADDI X1, XZR, #1", "here: CBZ X1, here"]
    let p := initial program {}
    ofProgram program {} = .ok p ∧ ∃ f, (p.after 3).pipeline.stages.decode = some f ∧ f.Tests 1 ∧
      (p.after 3).pipeline.hazards.branchRegisterStall = true ∧ (p.after 3).clock.1 = .ok () ∧
      (p.after 3).pipeline.Stalls (p.after 3).clock.2.pipeline := by
  intro program p
  have facts : program.isValid = true ∧
      (p.after 3).pipeline.stages.decode.map Flight.instruction = some ⟨.cbz, [1, 1], 1⟩ ∧
      (p.after 3).pipeline.hazards.branchRegisterStall = true := by
    decide +kernel
  obtain ⟨valid, decoded, reported⟩ := facts
  have assembled : ofProgram program {} = .ok p := ofProgram_eq_ok.2 ⟨valid, rfl⟩
  obtain ⟨f, decode, instruction⟩ := Option.map_eq_some_iff.1 decoded
  have tests : f.Tests 1 := ⟨.inl (by rw [instruction]), by rw [instruction]; rfl⟩
  obtain ⟨reports, bubbles⟩ := compare_branch_waits_iff assembled 3 decode tests
  exact ⟨assembled, f, decode, tests, reported, bubbles.2 (reports.1 reported)⟩

-- A branch goes right behind the label address that it tests.
theorem compare_branch_overtakes :
    let program := Program.ofLines ["LDA X1, here", "here: CBZ X1, here"]
    let p := initial program {}
    let here := (p.after 3).pipeline
    ofProgram program {} = .ok p ∧
      (∃ f, here.stages.decode = some f ∧ f.Tests 1) ∧
      (∃ g, here.stages.Ahead g ∧ g.Produces 1) ∧
      here.hazards.branchRegisterStall = false ∧
      (p.after 4).pipeline.stages.execute.map Flight.instruction = some ⟨.cbz, [1, 1], 1⟩ := by
  intro program p here
  have facts : program.isValid = true ∧
      here.stages.decode.map Flight.instruction = some ⟨.cbz, [1, 1], 1⟩ ∧
      here.stages.execute.map (fun g => (g.instruction, g.isPlaceholder)) =
        some (⟨.lda, [1, 1], 0⟩, false) ∧
      here.hazards.branchRegisterStall = false ∧
      (p.after 4).pipeline.stages.execute.map Flight.instruction = some ⟨.cbz, [1, 1], 1⟩ := by
    decide +kernel
  obtain ⟨valid, decoded, produced, missed, moved⟩ := facts
  obtain ⟨f, decode, compare⟩ := Option.map_eq_some_iff.1 decoded
  obtain ⟨g, execute, load⟩ := Option.map_eq_some_iff.1 produced
  obtain ⟨address, executed⟩ := Prod.mk.inj load
  have tests : f.Tests 1 := ⟨.inl (by rw [compare]), by rw [compare]; rfl⟩
  have produces : g.Produces 1 := ⟨executed, by rw [address]; rfl⟩
  exact ⟨ofProgram_eq_ok.2 ⟨valid, rfl⟩, ⟨f, decode, tests⟩, ⟨g, .inl execute, produces⟩, missed,
    moved⟩

end Pipelined

end Legv8
