import Legv8.Proofs.Machine.Effect
import Legv8.Proofs.Pipeline.Clock

/-!
Taken branches in the pipeline. A placeholder is fetched only right behind a taken branch and never
leaves the fetch stage, and as long as the program goes on a flush is pending exactly while a taken
branch stands in the decode stage. So a flush never hits an executed instruction.
-/

set_option autoImplicit false

namespace Legv8.Pipeline

variable {code : Array Instruction} {p q : Pipeline} {m m' : Machine}

structure Flight.Recorded (code : Array Instruction) (f : Flight) : Prop where
  instruction : code[f.index]? = some f.instruction
  execution : ∀ e, f.execution = some e → ∃ m m' : Machine, m.next = f.index ∧
    m.step code = (.ok (some m.next), m') ∧ e = ⟨m.snapshot, m'.snapshot, m'.taken⟩

namespace Flight.Recorded

variable {f : Flight} {e : Execution}

theorem executed (recorded : f.Recorded code) (execution : f.execution = some e) :
    ∃ m : Machine, (m.execute f.instruction).1 = .ok () ∧
      e = ⟨m.snapshot, (m.execute f.instruction).2.snapshot,
        (m.execute f.instruction).2.taken⟩ := by
  obtain ⟨m, m', index, step, rfl⟩ := recorded.execution e execution
  have fetched : code[m.next]? = some f.instruction := index ▸ recorded.instruction
  have done := congrArg Prod.fst step
  have after := Machine.step_machine fetched
  rw [step] at after
  obtain rfl : m' = _ := after
  exact ⟨{ m with next := m.next + 1 }, (Machine.step_ok_iff fetched).1 done, rfl⟩

theorem announces (recorded : f.Recorded code) (taken : f.taken = true) :
    f.instruction.mnemonic.operation.announces = true := by
  unfold Flight.taken at taken
  cases execution : f.execution with
  | none => simp [execution] at taken
  | some e =>
    obtain ⟨m, done, rfl⟩ := recorded.executed execution
    exact Machine.executed_taken done (by simpa [execution] using taken)

theorem plain_branch (recorded : f.Recorded code) (executed : f.isPlaceholder = false)
    (branch : f.instruction.mnemonic.operation = .branch) : f.taken = true := by
  obtain ⟨e, execution⟩ := exists_execution executed
  obtain ⟨m, done, rfl⟩ := recorded.executed execution
  simp [Flight.taken, execution, Machine.executed_branch done branch]

end Flight.Recorded

theorem announces_mnemonic {i : Mnemonic} (announces : i.operation.announces = true) :
    i = .b ∨ (∃ c, i = .bcond c) ∨ i = .cbz ∨ i = .cbnz := by
  cases i <;> simp_all [Mnemonic.operation, Mnemonic.entry, Operation.announces]

theorem controlHazard_eq {stage : Option Flight} (recorded : ∀ f, stage = some f → f.Recorded code)
    (executed : ∀ f, stage = some f → f.isPlaceholder = false) :
    Hazards.controlHazard stage = stage.any Flight.taken := by
  cases stage with
  | none => rfl
  | some f =>
    have known := recorded f rfl
    simp only [Hazards.controlHazard, Option.any_some]
    cases taken : f.taken with
    | true =>
      rcases announces_mnemonic (known.announces taken) with plain | ⟨c, conditional⟩ | zero | zero <;>
        simp [*]
    | false =>
      -- The detector does not ask whether a plain branch was announced, but it always is.
      have other : f.instruction.mnemonic ≠ .b := by
        intro plain
        have always := known.plain_branch (executed f rfl) (by rw [plain]; rfl)
        simp [always] at taken
      split <;> simp_all

-- The hazards are those of the stages, and they alone call for stalls.
structure Detected (p : Pipeline) : Prop where
  registers : p.registers = .capture p.stages
  hazards : p.hazards = .detect p.stages p.registers
  dataStall : p.dataStall = p.hazards.loadUseStall
  branchStall : p.branchStall = p.hazards.branchStall

theorem ofSnapshot_detected (visible : Snapshot) (keepLog : Bool) :
    (ofSnapshot visible keepLog).Detected :=
  ⟨rfl, rfl, rfl, rfl⟩

theorem land_detected (data : p.dataStall = false) (branch : p.branchStall = false) :
    p.land.Detected := by
  constructor <;> simp [data, branch]

theorem clear_iff : p.stallPending = false ↔ p.dataStall = false ∧ p.branchStall = false := by
  simp [stallPending]

theorem flush_frame (p : Pipeline) :
    ∃ stages pending st, p.flush = { p with stages, flushPending := pending, statistics := st } := by
  unfold flush
  split
  · exact ⟨_, _, _, rfl⟩
  · exact ⟨_, _, _, rfl⟩

theorem Clocked.detected (clocked : Clocked code p m q m') (detected : p.Detected) :
    q.Detected := by
  cases clocked with
  | idle log drained => exact ⟨detected.registers, detected.hazards, detected.dataStall,
      detected.branchStall⟩
  | bubble log line busy pending => exact land_detected rfl rfl
  | drain log line busy ended clear =>
    obtain ⟨data, branch⟩ := clear_iff.1 clear
    exact land_detected data branch
  | behind log line branch more clear fetched taken =>
    obtain ⟨data, branch⟩ := clear_iff.1 clear
    exact land_detected data branch
  | fetch log line i m' attempts fetched done =>
    obtain ⟨data, branch⟩ := clear_iff.1 attempts.clear
    obtain ⟨_, _, _, flushed⟩ := flush_frame (p.tick log line)
    rw [flushed]
    exact land_detected data branch

-- No instruction executes right behind a load that fetches one of its operands.
def Stages.Spaced (s : Stages) : Prop :=
  ∀ f g n, s.execute = some f → s.memory = some g → g.instruction.control = .load →
    g.fields.rd = some n → f.fields.rn ≠ some n ∧ f.fields.rm ≠ some n

theorem Detected.spaced (detected : p.Detected) (clear : p.dataStall = false)
    (next : Option Flight) : (p.stages.advance next).Spaced := by
  intro f g n execute memory load fetched
  have decode : p.stages.decode = some f := execute
  have ahead : p.stages.execute = some g := memory
  have quiet : Hazards.loadUseHazard p.stages.execute (.capture p.stages) = false := by
    rw [← clear, detected.dataStall, detected.hazards, detected.registers]
    rfl
  have destination : (Registers.capture p.stages).idEx.rd = some n := by
    simp [Registers.capture, ahead, IdEx.capture, fetched]
  have sources : (Registers.capture p.stages).ifId.rn = f.fields.rn ∧
      (Registers.capture p.stages).ifId.rm = f.fields.rm := by
    simp [Registers.capture, decode, IfId.capture]
  rw [ahead, Hazards.loadUseHazard, destination, sources.1, sources.2] at quiet
  constructor <;> intro same <;> simp [load, same] at quiet

theorem Clocked.spaced (clocked : Clocked code p m q m') (detected : p.Detected)
    (spaced : p.stages.Spaced) : q.stages.Spaced := by
  cases clocked with
  | idle log drained => exact spaced
  | bubble log line busy pending =>
    rw [land_stages]
    exact fun f g n empty => nomatch empty
  | drain log line busy ended clear =>
    rw [land_stages]
    exact detected.spaced (clear_iff.1 clear).1 none
  | behind log line branch more clear fetched taken =>
    rw [land_stages]
    exact detected.spaced (clear_iff.1 clear).1 _
  | fetch log line i m' attempts fetched done =>
    rw [land_stages]
    have spaced := detected.spaced (clear_iff.1 attempts.clear).1 none
    unfold flush
    split <;> exact spaced

theorem Clocked.recorded (clocked : Clocked code p m q m')
    (recorded : p.stages.All (Flight.Recorded code)) : q.stages.All (Flight.Recorded code) := by
  refine clocked.all recorded (fun branch f _ next => ?_) fun i fetched done => ?_
  · obtain ⟨present, unexecuted⟩ := placeholder?_eq_some next
    refine ⟨present, fun e execution => ?_⟩
    simp [Flight.isPlaceholder, execution] at unexecuted
  · refine ⟨fetched, fun e execution => ?_⟩
    cases execution
    exact ⟨m, m', rfl, done, rfl⟩

structure Guarded (code : Array Instruction) (m : Machine) (p : Pipeline) : Prop where
  executed : { p.stages with fetch := none }.All fun f => f.isPlaceholder = false
  placeholder : ∀ f, p.stages.fetch = some f → f.isPlaceholder = true →
    m.next < code.size ∧ p.stages.decode.any Flight.taken = true
  flushPending : m.next < code.size → p.flushPending = p.stages.decode.any Flight.taken
  behind : m.next < code.size → p.stages.decode.any Flight.taken = true →
    ∀ f, p.stages.fetch = some f → f.isPlaceholder = true

theorem ofSnapshot_guarded (visible : Snapshot) (keepLog : Bool) :
    Guarded code m (ofSnapshot visible keepLog) :=
  ⟨.empty, fun _ none => (nomatch none), fun _ => rfl, fun _ none => (nomatch none)⟩

theorem Guarded.flush_unexecuted (guarded : Guarded code m p) (more : m.next < code.size)
    (pending : p.flushPending = true) :
    ∀ f, p.stages.fetch = some f → f.isPlaceholder = true :=
  guarded.behind more ((guarded.flushPending more).symm.trans pending)

theorem land_guarded (recorded : ∀ f, p.stages.decode = some f → f.Recorded code)
    (executed : { p.stages with fetch := none }.All fun f => f.isPlaceholder = false)
    (placeholder : ∀ f, p.stages.fetch = some f → f.isPlaceholder = true →
      m.next < code.size ∧ p.stages.decode.any Flight.taken = true)
    (flushPending : m.next < code.size → p.flushPending = true →
      p.stages.decode.any Flight.taken = true)
    (behind : m.next < code.size → p.stages.decode.any Flight.taken = true →
      ∀ f, p.stages.fetch = some f → f.isPlaceholder = true) : Guarded code m p.land := by
  refine ⟨by simpa using executed, by simpa using placeholder, fun more => ?_,
    by simpa using behind⟩
  have hazard : p.land.hazards.controlFlush = p.stages.decode.any Flight.taken := by
    rw [land_hazards]
    exact controlHazard_eq recorded executed.decode
  rw [land_flushPending, hazard, land_stages]
  cases pending : p.flushPending with
  | false => rfl
  | true => rw [flushPending more pending, Bool.or_self]

theorem flush_decode (guarded : Guarded code m p) (attempts : p.Attempts m code) (log : Log)
    (line : Option Nat) :
    let flushed := (p.tick log line).flush
    flushed.flushPending = false ∧ (∀ f, flushed.stages.fetch = some f →
      p.stages.fetch = some f ∧ f.isPlaceholder = false ∧ f.taken = false) := by
  obtain ⟨data, branch⟩ := clear_iff.1 attempts.clear
  intro flushed
  cases pending : p.flushPending with
  | true =>
    have emptied : flushed.flushPending = false ∧ flushed.stages.fetch = none := by
      simp [flushed, flush, tick, pending, branch]
    refine ⟨emptied.1, fun f fetched => ?_⟩
    rw [emptied.2] at fetched
    cases fetched
  | false =>
    have kept : flushed = p.tick log line := by
      simp [flushed, flush, tick, pending]
    rw [kept]
    refine ⟨pending, fun f fetched => ⟨fetched, ?_, attempts.straight f fetched⟩⟩
    cases unexecuted : f.isPlaceholder with
    | false => rfl
    | true =>
      -- Behind a placeholder stands the branch that called for it, with its flush pending.
      have taken := (guarded.placeholder f fetched unexecuted).2
      rw [← guarded.flushPending attempts.more, pending] at taken
      cases taken

theorem flush_executed {P : Flight → Prop} (all : { p.stages with fetch := none }.All P) :
    { p.flush.stages with fetch := none }.All P := by
  unfold flush
  split <;> exact all

theorem Clocked.guarded (clocked : Clocked code p m q m') (guarded : Guarded code m p)
    (recorded : p.stages.All (Flight.Recorded code)) : Guarded code m' q := by
  have executed := guarded.executed
  cases clocked with
  | idle log drained =>
    exact ⟨guarded.executed, guarded.placeholder, guarded.flushPending, guarded.behind⟩
  | bubble log line busy pending =>
    exact land_guarded recorded.decode
      ⟨executed.fetch, executed.decode, fun _ none => (nomatch none), executed.execute,
        executed.memory⟩
      guarded.placeholder (fun more pending => (guarded.flushPending more).symm.trans pending)
      guarded.behind
  | drain log line busy ended clear =>
    refine land_guarded recorded.fetch
      ⟨executed.fetch, fun f fetched => ?_, executed.decode, executed.execute, executed.memory⟩
      (fun _ none => nomatch none) (fun more => by omega) (fun more => by omega)
    cases unexecuted : f.isPlaceholder with
    | false => rfl
    | true =>
      have more := (guarded.placeholder f fetched unexecuted).1
      omega
  | behind log line branch more clear fetched taken =>
    have decode : p.stages.fetch.any Flight.taken = true := by simp [fetched, taken]
    refine land_guarded recorded.fetch
      ⟨executed.fetch, fun f present => ?_, executed.decode, executed.execute, executed.memory⟩
      (fun _ _ _ => ⟨more, decode⟩) (fun _ _ => decode) (fun _ _ f next => ?_)
    · obtain rfl : branch = f := Option.some.inj (fetched.symm.trans present)
      exact Flight.executed_of_taken taken
    · exact (placeholder?_eq_some next).2
  | fetch log line i m' attempts fetched done =>
    obtain ⟨served, kept⟩ := flush_decode guarded attempts log line
    have executed := flush_executed (p := p.tick log line) executed
    have straight : (p.tick log line).flush.stages.fetch.any Flight.taken = false := by
      cases present : (p.tick log line).flush.stages.fetch with
      | none => rfl
      | some f => exact (kept f present).2.2
    refine land_guarded (fun f present => recorded.fetch f (kept f present).1)
      ⟨executed.fetch, fun f present => (kept f present).2.1, executed.decode, executed.execute,
        executed.memory⟩
      (fun f next unexecuted => ?_) (fun _ pending => ?_) (fun _ taken => ?_)
    · cases next
      cases unexecuted
    · exact absurd (served.symm.trans pending) Bool.false_ne_true
    · exact absurd (straight.symm.trans taken) Bool.false_ne_true

end Legv8.Pipeline
