import Legv8.Proofs.Pipeline.Order
import Legv8.Proofs.Pipeline.Redirect
import Legv8.Simulator.Pipelined

/-!
The pipelined simulator in step with the single-cycle one. Its machine is ahead: it stands behind
the last execution, while what the pipeline shows stands behind the last write-back. The
executions between the two are in flight.
-/

set_option autoImplicit false

namespace Legv8

open Pipeline

variable {texts : List String} {c : Config} {s : SingleCycle} {k n : Nat} {p : Pipelined}

theorem Program.checked_eq_ok {program checked : Program} :
    program.checked = .ok checked ↔ program.isValid = true ∧ checked = program := by
  unfold Program.checked
  split
  next valid => simp [valid, eq_comm]
  next invalid => simp [invalid]

namespace SingleCycle

def initial (program : Program) (c : Config) : SingleCycle where
  program
  machine := .ofConfig c program.instructions.size
  maxSteps := c.general.maxSteps

theorem ofProgram_eq_ok {program : Program} :
    ofProgram program c = .ok s ↔ program.isValid = true ∧ s = initial program c := by
  simp only [ofProgram, bind_eq_ok, pure_eq_ok, Program.checked_eq_ok]
  constructor
  · rintro ⟨_, ⟨valid, rfl⟩, rfl⟩
    exact ⟨valid, rfl⟩
  · rintro ⟨valid, rfl⟩
    exact ⟨program, ⟨valid, rfl⟩, rfl⟩

theorem Executes.outcome (executes : s.Executes k) (fresh : s.fault = none) :
    (s.after k).step.1 = ((s.after k).machine.step s.program.instructions).1 ∧
      (s.after (k + 1)).machine = ((s.after k).machine.step s.program.instructions).2 := by
  have stepped := step_machine (executes.fault fresh)
  rwa [after_program] at stepped

end SingleCycle

namespace Pipelined

def initial (program : Program) (c : Config) : Pipelined where
  program
  machine := .ofConfig c program.instructions.size
  pipeline :=
    .ofSnapshot (Machine.ofConfig c program.instructions.size).snapshot c.pipeline.keepLog
  maxCycles := c.pipeline.maxCycles

theorem ofProgram_eq_ok {program : Program} :
    ofProgram program c = .ok p ↔ program.isValid = true ∧ p = initial program c := by
  simp only [ofProgram, bind_eq_ok, pure_eq_ok, Program.checked_eq_ok]
  constructor
  · rintro ⟨_, ⟨valid, rfl⟩, rfl⟩
    exact ⟨valid, rfl⟩
  · rintro ⟨valid, rfl⟩
    exact ⟨program, ⟨valid, rfl⟩, rfl⟩

def after (p : Pipelined) : Nat → Pipelined
  | 0 => p
  | n + 1 => (p.after n).clock.2

def Attempts (p : Pipelined) : Prop :=
  p.pipeline.Attempts p.machine p.program.instructions

theorem clock_program (p : Pipelined) : p.clock.2.program = p.program := by
  unfold clock
  split
  next => rfl
  next => split <;> rfl

@[simp] theorem after_program (p : Pipelined) (n : Nat) : (p.after n).program = p.program := by
  induction n with
  | zero => rfl
  | succ n ih => rw [after, clock_program, ih]

theorem clock_faulted {e : Located Fault} (stopped : p.fault = some e) :
    p.clock = (.error e, p) := by
  simp [clock, stopped]

theorem clock_ok {q : Pipeline} {m : Machine} (running : p.fault = none)
    (done : p.pipeline.clock p.machine p.program.instructions = (.ok (), q, m)) :
    p.clock = (.ok (), { p with pipeline := q, machine := m }) := by
  simp [clock, running, done]

theorem clock_error {e : Located Fault} {q : Pipeline} {m : Machine} (running : p.fault = none)
    (failed : p.pipeline.clock p.machine p.program.instructions = (.error e, q, m)) :
    p.clock = (.error e, { p with pipeline := q, machine := m, fault := some e }) := by
  simp [clock, running, failed]

structure LockStep (s : SingleCycle) (k : Nat) (p : Pipelined) : Prop where
  program : p.program = s.program
  wellFormed : ∀ i ∈ s.program.instructions, i.WellFormed
  fresh : s.fault = none
  executes : s.Executes k
  running : p.fault = none
  machine : p.machine = (s.after k).machine
  inStep : p.pipeline.InStep s k
  recorded : p.pipeline.stages.All (Flight.Recorded s.program.instructions)
  guarded : Guarded s.program.instructions p.machine p.pipeline
  detected : p.pipeline.Detected
  spaced : p.pipeline.stages.Spaced

theorem LockStep.known (lock : p.LockStep s k) :
    p.pipeline.stages.All fun f => f.instruction.WellFormed :=
  lock.recorded.imp fun _ recorded =>
    lock.wellFormed _ (Array.mem_of_getElem? recorded.instruction)

theorem LockStep.initial (assembled : ofProgram (.ofLines texts) c = .ok p)
    (assembled' : SingleCycle.ofProgram (.ofLines texts) c = .ok s) : p.LockStep s 0 := by
  obtain ⟨-, rfl⟩ := ofProgram_eq_ok.1 assembled
  obtain ⟨-, rfl⟩ := SingleCycle.ofProgram_eq_ok.1 assembled'
  exact {
    program := rfl
    wellFormed := fun i member => Program.instructions_wellFormed member
    fresh := rfl
    executes := fun j none => absurd none (Nat.not_lt_zero j)
    running := rfl
    machine := rfl
    inStep := ⟨Nat.le_refl 0, rfl, .refl _, rfl, fun f none => nomatch none⟩
    recorded := .empty
    guarded := ofSnapshot_guarded _ _
    detected := ofSnapshot_detected _ _
    spaced := fun f g n empty => nomatch empty }

theorem LockStep.assembled (assembled : ofProgram (.ofLines texts) c = .ok p) :
    p.LockStep (SingleCycle.initial (.ofLines texts) c) 0 :=
  .initial assembled (SingleCycle.ofProgram_eq_ok.2 ⟨(ofProgram_eq_ok.1 assembled).1, rfl⟩)

theorem LockStep.inStep_clocked {q : Pipeline} {m : Machine} (lock : p.LockStep s k)
    (clocked : Clocked s.program.instructions p.pipeline p.machine q m) :
    ∃ k', s.Executes k' ∧ m = (s.after k').machine ∧ q.InStep s k' ∧
      (p.Attempts ∧ k' = k + 1 ∨ ¬ p.Attempts ∧ k' = k) := by
  have executes := lock.executes
  have inStep := lock.inStep
  have guarded := lock.guarded
  unfold Attempts
  rw [lock.program]
  cases clocked with
  | idle log drained =>
    refine ⟨k, executes, lock.machine, ?_, .inr ⟨not_attempts (.inl drained), rfl⟩⟩
    exact ⟨inStep.retired_le, inStep.visible, inStep.mix, inStep.inFlight, inStep.last⟩
  | bubble log line busy pending =>
    exact ⟨k, executes, lock.machine, inStep.bubble executes log line,
      .inr ⟨not_attempts (.inr (.inl pending)), rfl⟩⟩
  | drain log line busy ended clear =>
    refine ⟨k, executes, lock.machine, inStep.move executes (fun f next => ?_) log line,
      .inr ⟨not_attempts (.inr (.inr (.inl ended))), rfl⟩⟩
    cases next
  | behind log line branch more clear fetched taken =>
    refine ⟨k, executes, lock.machine, inStep.move executes (fun f next => ?_) log line,
      .inr ⟨not_attempts (.inr (.inr (.inr ⟨branch, fetched, taken⟩))), rfl⟩⟩
    exact (placeholder?_eq_some next).2
  | fetch log line i m' attempts fetched done =>
    have next : (s.after k).step.1 = .ok (some (s.after k).machine.next) ∧
        (s.after (k + 1)).machine = m := by
      obtain ⟨result, machine⟩ := executes.outcome lock.fresh
      rw [lock.machine] at done
      rw [result, machine, done]
      exact ⟨rfl, rfl⟩
    have executes := executes.succ next.1
    refine ⟨k + 1, executes, next.2.symm, ?_, .inl ⟨attempts, rfl⟩⟩
    rw [lock.machine] at fetched
    rw [lock.machine, ← next.2]
    exact inStep.fetch executes (guarded.flush_unexecuted attempts.more) fetched log line

theorem LockStep.clock_cases (lock : p.LockStep s k) :
    (∃ k', p.clock.1 = .ok () ∧ p.clock.2.LockStep s k' ∧
      Clocked s.program.instructions p.pipeline p.machine p.clock.2.pipeline p.clock.2.machine ∧
      (p.Attempts ∧ k' = k + 1 ∨ ¬ p.Attempts ∧ k' = k)) ∨
    ∃ e m line, p.Attempts ∧ (s.after k).step.1 = .error e ∧
      p.clock = (.error e, { p with
        pipeline := p.pipeline.tick p.pipeline.log line, machine := m, fault := some e }) := by
  have program := lock.program
  rcases Pipeline.clock_cases (m := p.machine) lock.known lock.wellFormed with
    ⟨q, m, done, clocked⟩ | ⟨e, m, line, attempts, failed, stopped⟩
  · obtain ⟨k', executes, machine, inStep, attempted⟩ := lock.inStep_clocked clocked
    rw [← program] at done
    rw [clock_ok lock.running done]
    exact .inl ⟨k', rfl, {
      program
      wellFormed := lock.wellFormed
      fresh := lock.fresh
      executes
      running := lock.running
      machine
      inStep
      recorded := clocked.recorded lock.recorded
      guarded := clocked.guarded lock.guarded lock.recorded
      detected := clocked.detected lock.detected
      spaced := clocked.spaced lock.detected lock.spaced }, clocked, attempted⟩
  · rw [← program] at stopped
    rw [clock_error lock.running stopped]
    refine .inr ⟨e, m, line, by unfold Attempts; rwa [program], ?_, rfl⟩
    rw [(lock.executes.outcome lock.fresh).1, ← lock.machine, failed]

theorem LockStep.after (lock : p.LockStep s 0)
    (running : ∀ j < n, (p.after j).clock.1 = .ok ()) : ∃ k, (p.after n).LockStep s k := by
  induction n with
  | zero => exact ⟨0, lock⟩
  | succ n ih =>
    obtain ⟨k, here⟩ := ih fun j earlier => running j (by omega)
    rcases here.clock_cases with ⟨k', -, next, -⟩ | ⟨e, m, line, -, -, stopped⟩
    · exact ⟨k', next⟩
    · have done := running n (by omega)
      rw [stopped] at done
      cases done

theorem LockStep.shown (lock : p.LockStep s 0) (n : Nat) :
    ∃ j k, (p.after j).LockStep s k ∧
      (p.after n).pipeline.stages = (p.after j).pipeline.stages ∧
      (p.after n).pipeline.registers = (p.after j).pipeline.registers ∧
      (p.after n).pipeline.hazards = (p.after j).pipeline.hazards ∧
      ((p.after n).fault = none → n = j) ∧ ((p.after n).fault ≠ none → (p.after j).Attempts) := by
  induction n with
  | zero =>
    exact ⟨0, 0, lock, rfl, rfl, rfl, fun _ => rfl, fun stopped => absurd lock.running stopped⟩
  | succ n ih =>
    obtain ⟨j, k, here, stages, registers, hazards, current, failing⟩ := ih
    cases stopped : (p.after n).fault with
    | some e =>
      -- A stopped simulator stays as it is.
      have same : p.after (n + 1) = p.after n := by rw [Pipelined.after, clock_faulted stopped]
      rw [same]
      refine ⟨j, k, here, stages, registers, hazards, fun running => ?_, failing⟩
      simp [stopped] at running
    | none =>
      obtain rfl := current stopped
      rcases here.clock_cases with ⟨k', -, next, -⟩ | ⟨e, m, line, attempts, -, failed⟩
      · exact ⟨n + 1, k', next, rfl, rfl, rfl, fun _ => rfl,
          fun stopped => absurd next.running stopped⟩
      · -- A fault moves nothing, so what was shown in front of it stays.
        have stopped : p.after (n + 1) = { p.after n with
            pipeline := (p.after n).pipeline.tick (p.after n).pipeline.log line
            machine := m
            fault := some e } := by
          rw [Pipelined.after, failed]
        rw [stopped]
        exact ⟨n, k, here, rfl, rfl, rfl, fun running => (nomatch running), fun _ => attempts⟩

theorem LockStep.waiting (lock : p.LockStep s k)
    (waiting : ∀ j < n, ¬ (p.after j).Attempts) : (p.after n).LockStep s k := by
  induction n with
  | zero => exact lock
  | succ n ih =>
    have here := ih fun j earlier => waiting j (by omega)
    have idle := waiting n (by omega)
    rcases here.clock_cases with ⟨k', -, next, -, ⟨attempts, -⟩ | ⟨-, rfl⟩⟩ | ⟨e, m, line, attempts, -⟩
    · exact absurd attempts idle
    · exact next
    · exact absurd attempts idle

theorem LockStep.error_iff (lock : p.LockStep s k) (attempts : p.Attempts) (e : Located Fault) :
    p.clock.1 = .error e ↔ (s.after k).step.1 = .error e := by
  rcases lock.clock_cases with ⟨k', done, next, -, ⟨-, rfl⟩ | ⟨idle, -⟩⟩ |
      ⟨e', m, line, -, failed, stopped⟩
  · obtain ⟨index, executed⟩ := next.executes k (Nat.lt_succ_self k)
    simp [done, executed]
  · exact absurd attempts idle
  · simp [failed, stopped]

theorem after_add (p : Pipelined) (n d : Nat) : p.after (n + d) = (p.after n).after d := by
  induction d with
  | zero => rfl
  | succ d ih =>
    change (p.after (n + d)).clock.2 = _
    rw [ih]
    rfl

/-- What a run of the single-cycle simulator says of a pipelined one that has executed its first
instructions: the machine stands behind the last of them, what is shown stands behind those that
have retired, and the others are in flight, in their order. -/
structure Mirrors (s : SingleCycle) (k : Nat) (p : Pipelined) : Prop where
  executes : s.Executes k
  machine : p.machine = (s.after k).machine
  retired_le : p.pipeline.statistics.retired ≤ k
  visible : p.pipeline.visible = (s.after p.pipeline.statistics.retired).machine.snapshot
  inFlight : p.pipeline.stages.inFlight.map some =
    (List.range' p.pipeline.statistics.retired (k - p.pipeline.statistics.retired)).map s.flight?

theorem LockStep.mirrors (lock : p.LockStep s k) : p.Mirrors s k :=
  ⟨lock.executes, lock.machine, lock.inStep.retired_le, lock.inStep.visible, lock.inStep.inFlight⟩

/-- The pipelined simulator goes through the run of the single-cycle one, and its next fault is
that of the next step. -/
theorem pipelined_in_lock_step (assembled : ofProgram (.ofLines texts) c = .ok p)
    (assembled' : SingleCycle.ofProgram (.ofLines texts) c = .ok s)
    (running : ∀ j < n, (p.after j).clock.1 = .ok ()) :
    ∃ k, (p.after n).Mirrors s k ∧
      ∀ d, (∀ j < d, ¬ (p.after (n + j)).Attempts) → (p.after (n + d)).Attempts →
        ∀ e, (p.after (n + d)).clock.1 = .error e ↔ (s.after k).step.1 = .error e := by
  obtain ⟨k, lock⟩ := (LockStep.initial assembled assembled').after running
  refine ⟨k, lock.mirrors, fun d waiting attempts => ?_⟩
  simp only [after_add] at waiting attempts ⊢
  exact (lock.waiting waiting).error_iff attempts

theorem pipelined_in_lock_step_branch :
    let program := Program.ofLines
      ["ADDI X1, XZR, #1", "B end", "ADD X2, X1, X1", "end: STUR X1, [SP, #-8]"]
    let p := initial program {}
    let s := SingleCycle.initial program {}
    ofProgram program {} = .ok p ∧ SingleCycle.ofProgram program {} = .ok s ∧
      (∀ j < 5, (p.after j).clock.1 = .ok ()) ∧
      ∃ k, (p.after 5).Mirrors s k ∧
        ∀ d, (∀ j < d, ¬ (p.after (5 + j)).Attempts) → (p.after (5 + d)).Attempts →
          ∀ e, (p.after (5 + d)).clock.1 = .error e ↔ (s.after k).step.1 = .error e := by
  intro program p s
  have facts : program.isValid = true ∧
      ∀ j < 5, (p.after j).clock.1.toOption = some () := by
    decide +kernel
  obtain ⟨valid, succeeds⟩ := facts
  have assembled : ofProgram program {} = .ok p := ofProgram_eq_ok.2 ⟨valid, rfl⟩
  have assembled' : SingleCycle.ofProgram program {} = .ok s :=
    SingleCycle.ofProgram_eq_ok.2 ⟨valid, rfl⟩
  have running : ∀ j < 5, (p.after j).clock.1 = .ok () :=
    fun j inside => eq_ok_of_toOption (succeeds j inside)
  exact ⟨assembled, assembled', running, pipelined_in_lock_step assembled assembled' running⟩

end Pipelined

end Legv8
