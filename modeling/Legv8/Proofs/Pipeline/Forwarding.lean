import Legv8.Proofs.Machine.Frame
import Legv8.Proofs.Simulator.LockStep

set_option autoImplicit false

namespace Legv8

/-- Whether the pipeline registers show what an instruction writes. They do not show the address
of a label, the link register and the outcome of a store-exclusive. -/
def Mnemonic.ShowsResult (m : Mnemonic) : Prop :=
  m ≠ .lda ∧ m ≠ .bl ∧ m ≠ .stxr

-- The pipeline registers have a field for the destination of an instruction.
def Mnemonic.ShowsDestination (m : Mnemonic) : Prop :=
  m ≠ .lda ∧ m ≠ .bl

namespace Instruction

variable {i : Instruction} {n : Nat}

-- Every destination has its field, but those of a label address and of the link register.
theorem rd_eq_some_iff (real : i.mnemonic.isPseudo = false) :
    i.fields.rd = some n ↔ i.destination? = some (.x, n) ∧ i.mnemonic.ShowsDestination := by
  unfold fields destination? Mnemonic.ShowsDestination
  cases mnemonic : i.mnemonic <;>
    simp_all [control, Mnemonic.isPseudo, Mnemonic.expansion?, Mnemonic.operation,
      Mnemonic.form, Mnemonic.control, Mnemonic.entry, Control.ofOperation, Signal.isHigh,
      Control.load, Control.store, Control.immediate, Control.threeRegister]

theorem destination_fields (shows : i.mnemonic.ShowsResult) (real : i.mnemonic.isPseudo = false)
    (named : i.destination? = some (.x, n)) :
    i.control.regWrite.isHigh = true ∧ i.fields.rd = some n := by
  have drives := Control.ofOperation_drives i.mnemonic.operation
  have write : i.control.regWrite = .high :=
    drives.register.2 (hasDestination_of_destination? named)
  obtain ⟨address, link, -⟩ := shows
  exact ⟨by rw [write]; rfl, (rd_eq_some_iff real).2 ⟨named, address, link⟩⟩

theorem fields_produced (shows : i.mnemonic.ShowsResult) (named : i.fields.rd = some n) :
    (Pipeline.DataPath.ofForm i.mnemonic.form = .result ∧
      i.mnemonic.operation.isLoad = false ∧ i.control.memToReg.isHigh = false) ∨
    (Pipeline.DataPath.ofForm i.mnemonic.form = .transfer ∧ i.control = .load) := by
  unfold Mnemonic.ShowsResult at shows
  unfold fields at named
  cases mnemonic : i.mnemonic <;>
    simp_all [control, Mnemonic.operation, Mnemonic.form, Mnemonic.control, Mnemonic.entry,
      Control.ofOperation, Signal.isHigh, Control.load, Control.immediate, Control.threeRegister,
      Control.store, Pipeline.DataPath.ofForm, Operation.isLoad]

end Instruction

namespace Pipeline

variable {code : Array Instruction} {s : SingleCycle} {k n : Nat} {p : Pipeline} {f g : Flight}

def Stages.Reads (s : Stages) (source : Option Nat) (v : Word) : Prop :=
  ∃ f e, ∃ r : Reg, s.execute = some f ∧ f.execution = some e ∧ source = some r.val ∧
    e.before.x.get r = v

def MemWb.result (w : MemWb) : Option Word :=
  if w.memToReg then w.readData else w.aluResult

structure ForwardsEarly (p : Pipeline) (source : Option Nat) : Prop where
  ahead : ∃ g, p.stages.memory = some g ∧ g.instruction.mnemonic.operation.isLoad = false
  value : ∃ v, p.stages.Reads source v ∧ p.registers.exMem.aluResult = some v

def ForwardsLate (p : Pipeline) (source : Option Nat) : Prop :=
  ∃ v, p.stages.Reads source v ∧ p.registers.memWb.result = some v

structure ForwardsRight (p : Pipeline) : Prop where
  exA : p.hazards.exForwardA = true → p.ForwardsEarly p.registers.idEx.rn
  exB : p.hazards.exForwardB = true → p.ForwardsEarly p.registers.idEx.rm
  memA : p.hazards.memForwardA = true → p.ForwardsLate p.registers.idEx.rn
  memB : p.hazards.memForwardB = true → p.ForwardsLate p.registers.idEx.rm

theorem ForwardsRight.congr {q : Pipeline} (right : p.ForwardsRight) (stages : q.stages = p.stages)
    (registers : q.registers = p.registers) (hazards : q.hazards = p.hazards) :
    q.ForwardsRight := by
  have early (source : Option Nat) (forwards : p.ForwardsEarly source) :
      q.ForwardsEarly source := by
    obtain ⟨ahead, value⟩ := forwards
    exact ⟨by rwa [stages], by rwa [stages, registers]⟩
  have late (source : Option Nat) (forwards : p.ForwardsLate source) : q.ForwardsLate source := by
    unfold ForwardsLate at forwards ⊢
    rwa [stages, registers]
  constructor <;> rw [hazards, registers]
  · exact fun reported => early _ (right.exA reported)
  · exact fun reported => early _ (right.exB reported)
  · exact fun reported => late _ (right.memA reported)
  · exact fun reported => late _ (right.memB reported)

theorem exHazard_iff {r : ExMem} {source : Option Nat} :
    Hazards.exHazard r source = true ↔
      ∃ n, source = some n ∧ r.regWrite = true ∧ r.rd = some n ∧ n ≠ Reg.xzr.val := by
  cases source with
  | none => simp [Hazards.exHazard]
  | some n =>
    simp only [Hazards.exHazard, Bool.and_eq_true, bne_iff_ne, beq_iff_eq]
    constructor
    · rintro ⟨⟨⟨write, -⟩, zero⟩, same⟩
      exact ⟨n, rfl, write, same, fun other => zero (by rw [same, other])⟩
    · rintro ⟨n, ⟨⟩, write, same, zero⟩
      exact ⟨⟨⟨write, rfl⟩, by simpa [same] using zero⟩, same⟩

theorem memHazard_iff {w : MemWb} {r : ExMem} {source : Option Nat} :
    Hazards.memHazard w r source = true ↔
      (∃ n, source = some n ∧ w.regWrite = true ∧ w.rd = some n ∧ n ≠ Reg.xzr.val) ∧
        Hazards.exHazard r source = false := by
  cases source with
  | none => simp [Hazards.memHazard]
  | some n =>
    simp only [Hazards.memHazard, Bool.and_eq_true, bne_iff_ne, beq_iff_eq, Bool.not_eq_true']
    constructor
    · rintro ⟨⟨⟨⟨write, -⟩, zero⟩, older⟩, same⟩
      exact ⟨⟨n, rfl, write, same, fun other => zero (by rw [same, other])⟩, older⟩
    · rintro ⟨⟨n, ⟨⟩, write, same, zero⟩, older⟩
      exact ⟨⟨⟨⟨write, rfl⟩, by simpa [same] using zero⟩, older⟩, same⟩

theorem Flight.after_eq {e : Execution} (execution : f.execution = some e) (r : Reg) :
    f.after (some r.val) = some (e.after.x.get r) := by
  simp [after, execution, Vector.get, Vector.getElem_toArray]

theorem MemWb.capture_result {e : Execution} {r : Reg} (shows : g.instruction.mnemonic.ShowsResult)
    (named : g.fields.rd = some r.val) (execution : g.execution = some e) :
    (MemWb.capture g).result = some (e.after.x.get r) := by
  have left := Flight.after_eq execution r
  rcases Instruction.fields_produced shows named with ⟨path, -, memToReg⟩ | ⟨path, control⟩
  · have path : g.path = .result := path
    simp [result, capture, memToReg, Flight.aluResult, path, named, left]
  · have path : g.path = .transfer := path
    have memToReg : g.instruction.control.memToReg.isHigh = true := by rw [control]; rfl
    simp [result, capture, memToReg, path, named, left]

theorem capture_idEx_rd (s : Stages) :
    (Registers.capture s).idEx.rd = s.execute.bind fun g => g.fields.rd := by
  cases execute : s.execute <;> simp [Registers.capture, execute, IdEx.capture]

theorem capture_exMem_rd (s : Stages) :
    (Registers.capture s).exMem.rd = s.memory.bind fun g => g.fields.rd := by
  cases memory : s.memory <;> simp [Registers.capture, memory, ExMem.capture]

theorem capture_memWb_rd (s : Stages) :
    (Registers.capture s).memWb.rd = s.writeBack.bind fun g => g.fields.rd := by
  cases writeBack : s.writeBack <;> simp [Registers.capture, writeBack, MemWb.capture]

theorem operand_source {source : Option Nat} (registers : p.registers = .capture p.stages)
    (operand : source = p.registers.idEx.rn ∨ source = p.registers.idEx.rm)
    (named : source = some n) :
    ∃ f, p.stages.execute = some f ∧ (f.fields.rn = some n ∨ f.fields.rm = some n) := by
  rw [named, registers] at operand
  cases execute : p.stages.execute with
  | none => simp [Registers.capture, execute] at operand
  | some f =>
    refine ⟨f, rfl, ?_⟩
    simpa [Registers.capture, execute, IdEx.capture, eq_comm (a := some n)] using operand

end Pipeline

namespace Pipelined

open Pipeline

variable {texts : List String} {c : Config} {s : SingleCycle} {k : Nat} {p : Pipelined}
  {source : Option Nat}

theorem LockStep.shows {f : Flight} (shows : ∀ i ∈ s.program.instructions, i.mnemonic.ShowsResult)
    (recorded : f.Recorded s.program.instructions) : f.instruction.mnemonic.ShowsResult :=
  shows _ (Array.mem_of_getElem? recorded.instruction)

theorem LockStep.forwardsEarly (lock : p.LockStep s k)
    (shows : ∀ i ∈ s.program.instructions, i.mnemonic.ShowsResult)
    (operand : source = p.pipeline.registers.idEx.rn ∨ source = p.pipeline.registers.idEx.rm)
    (hazard : Hazards.exHazard p.pipeline.registers.exMem source = true) :
    p.pipeline.ForwardsEarly source := by
  obtain ⟨n, named, write, rd, -⟩ := exHazard_iff.1 hazard
  have registers := lock.detected.registers
  obtain ⟨f, execute, reads⟩ := operand_source registers operand named
  rw [registers, capture_exMem_rd] at rd
  obtain ⟨g, memory, destination⟩ := Option.bind_eq_some_iff.1 rd
  obtain ⟨r, rfl⟩ : ∃ r : Reg, n = r.val := by
    have bound := (lock.known.memory g memory).fields (n := n) (by simp [← destination, Flight.fields])
    exact ⟨⟨n, bound⟩, rfl⟩
  obtain ⟨-, older, younger⟩ := lock.inStep.behind memory execute
    (lock.guarded.executed.memory g memory) (lock.guarded.executed.execute f execute)
  have shown := LockStep.shows shows (lock.recorded.memory g memory)
  obtain ⟨path, notLoad⟩ : g.path = .result ∧ g.instruction.mnemonic.operation.isLoad = false := by
    rcases Instruction.fields_produced shown destination with ⟨path, notLoad, -⟩ | ⟨-, load⟩
    · exact ⟨path, notLoad⟩
    · -- A load does not stand right ahead of its consumer: it would have stalled it.
      obtain ⟨rn, rm⟩ := lock.spaced f g r.val execute memory load destination
      exact absurd reads (by simp [rn, rm])
  refine ⟨⟨g, memory, notLoad⟩, _, ⟨f, _, r, execute, flight?_execution younger, named, rfl⟩, ?_⟩
  rw [registers]
  simp [Registers.capture, memory, ExMem.capture, Flight.aluResult, path, destination,
    Flight.after_eq (flight?_execution older) r]

theorem LockStep.read_value {f : Flight} {r : Reg} (lock : p.LockStep s k)
    (shows : ∀ i ∈ s.program.instructions, i.mnemonic.ShowsResult)
    (execute : p.pipeline.stages.execute = some f) (zero : r.val ≠ Reg.xzr.val)
    (older : Hazards.exHazard p.pipeline.registers.exMem (some r.val) = false) :
    ∃ e, f.execution = some e ∧
      e.before.x.get r = (s.after p.pipeline.statistics.retired).machine.registers.x.get r := by
  have executed := lock.guarded.executed
  -- At most one instruction stands between the retired ones and the one in execute.
  cases memory : p.pipeline.stages.memory with
  | none =>
    have recorded := lock.inStep.first memory execute (executed.execute f execute)
    exact ⟨_, flight?_execution recorded, rfl⟩
  | some g =>
    obtain ⟨inside, earlier, recorded⟩ := lock.inStep.behind memory execute
      (executed.memory g memory) (executed.execute f execute)
    refine ⟨_, flight?_execution recorded, ?_⟩
    obtain ⟨i, fetched, rfl⟩ := flight?_eq_some earlier
    obtain ⟨m, before, done, after⟩ := lock.executes.executed (by omega) fetched
    change (s.after (p.pipeline.statistics.retired + 1)).machine.registers.x.get r = _
    rw [← after, ← before]
    -- Had the instruction in memory written the register, forwarding from there would shadow this.
    refine Machine.executed_x done fun named => ?_
    have shown := LockStep.shows shows (lock.recorded.memory _ memory)
    obtain ⟨write, destination⟩ :=
      Instruction.destination_fields shown (Machine.executed_real done) named
    have hazard : Hazards.exHazard p.pipeline.registers.exMem (some r.val) = true := by
      refine exHazard_iff.2 ⟨r.val, rfl, ?_, ?_, zero⟩
      · rw [lock.detected.registers]
        simpa [Registers.capture, memory, ExMem.capture] using write
      · rw [lock.detected.registers]
        simpa [Registers.capture, memory, ExMem.capture, Flight.fields] using destination
    simp [older] at hazard

theorem LockStep.forwardsLate (lock : p.LockStep s k)
    (shows : ∀ i ∈ s.program.instructions, i.mnemonic.ShowsResult)
    (operand : source = p.pipeline.registers.idEx.rn ∨ source = p.pipeline.registers.idEx.rm)
    (hazard : Hazards.memHazard p.pipeline.registers.memWb p.pipeline.registers.exMem source = true) :
    p.pipeline.ForwardsLate source := by
  obtain ⟨⟨n, named, write, rd, zero⟩, older⟩ := memHazard_iff.1 hazard
  have registers := lock.detected.registers
  obtain ⟨f, execute, -⟩ := operand_source registers operand named
  rw [registers, capture_memWb_rd] at rd
  obtain ⟨h, writeBack, destination⟩ := Option.bind_eq_some_iff.1 rd
  obtain ⟨r, rfl⟩ : ∃ r : Reg, n = r.val := by
    have bound := (lock.known.writeBack h writeBack).fields (n := n)
      (by simp [← destination, Flight.fields])
    exact ⟨⟨n, bound⟩, rfl⟩
  obtain ⟨j, retired, recorded⟩ :=
    lock.inStep.last h writeBack (lock.guarded.executed.writeBack h writeBack)
  obtain ⟨e, execution, value⟩ := lock.read_value shows execute zero (named ▸ older)
  have shown := LockStep.shows shows (lock.recorded.writeBack h writeBack)
  refine ⟨_, ⟨f, e, r, execute, execution, named, rfl⟩, ?_⟩
  have result : (MemWb.capture h).result = some ((s.after (j + 1)).machine.registers.x.get r) :=
    MemWb.capture_result shown destination (flight?_execution recorded)
  rw [value, retired, registers]
  simpa [Registers.capture, writeBack] using result

theorem LockStep.forwardsRight (lock : p.LockStep s k)
    (shows : ∀ i ∈ s.program.instructions, i.mnemonic.ShowsResult) :
    p.pipeline.ForwardsRight := by
  have hazards := lock.detected.hazards
  constructor <;> intro reported <;> rw [hazards] at reported
  · exact lock.forwardsEarly shows (.inl rfl) reported
  · exact lock.forwardsEarly shows (.inr rfl) reported
  · exact lock.forwardsLate shows (.inl rfl) reported
  · exact lock.forwardsLate shows (.inr rfl) reported

/-- In every state that the simulator reaches, what is forwarded is what the operand was. -/
theorem forwarded_values (assembled : ofProgram (.ofLines texts) c = .ok p)
    (shows : ∀ i ∈ (Program.ofLines texts).instructions, i.mnemonic.ShowsResult) (n : Nat) :
    (p.after n).pipeline.ForwardsRight := by
  obtain ⟨valid, rfl⟩ := ofProgram_eq_ok.1 assembled
  have assembled' : SingleCycle.ofProgram (.ofLines texts) c =
      .ok (SingleCycle.initial (.ofLines texts) c) :=
    SingleCycle.ofProgram_eq_ok.2 ⟨valid, rfl⟩
  obtain ⟨j, k, lock, stages, registers, hazards, -⟩ :=
    (LockStep.initial assembled assembled').shown n
  exact (lock.forwardsRight shows).congr stages registers hazards

theorem forwarded_values_both :
    let program := Program.ofLines ["ADDI X1, XZR, #1", "ADD X2, X1, X1", "ADD X3, X2, X1"]
    let p := initial program {}
    ofProgram program {} = .ok p ∧
      (∀ i ∈ program.instructions, i.mnemonic.ShowsResult) ∧
      (p.after 5).pipeline.hazards.exForwardA = true ∧
      (p.after 5).pipeline.hazards.memForwardB = true ∧ (p.after 5).pipeline.ForwardsRight := by
  intro program p
  have facts : program.isValid = true ∧
      (∀ i ∈ program.instructions, i.mnemonic ≠ .lda ∧ i.mnemonic ≠ .bl ∧ i.mnemonic ≠ .stxr) ∧
      (p.after 5).pipeline.hazards.exForwardA = true ∧
      (p.after 5).pipeline.hazards.memForwardB = true := by
    decide +kernel
  obtain ⟨valid, shows, exA, memB⟩ := facts
  have assembled : ofProgram program {} = .ok p := ofProgram_eq_ok.2 ⟨valid, rfl⟩
  exact ⟨assembled, shows, exA, memB, forwarded_values assembled shows 5⟩

end Pipelined

end Legv8
