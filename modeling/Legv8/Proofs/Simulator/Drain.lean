import Legv8.Proofs.Pipeline.Account
import Legv8.Proofs.Simulator.Bounded
import Mathlib.Data.Nat.Find

set_option autoImplicit false

namespace Legv8

open Pipeline

namespace Pipeline

variable {code : Array Instruction} {s : SingleCycle} {k n : Nat} {p q : Pipeline} {m m' : Machine}

structure Accounted (s : SingleCycle) (n k : Nat) (p : Pipeline) : Prop where
  stalls : p.statistics.dataStalls + p.stages.stallCredit ≤ 2 * k
  branches : k < n →
    p.statistics.controlFlushes + p.flushPending.toNat + (p.stages.fetch.any Flight.taken).toNat =
      s.takenBranches k
  running : k < n → p.statistics.cycles =
    k + p.statistics.dataStalls + p.statistics.controlFlushes + p.flushPending.toNat
  flushes : k = n → p.statistics.controlFlushes = s.takenBranches (n - 1)
  draining : k = n → p.statistics.cycles =
    n + p.statistics.dataStalls + p.statistics.controlFlushes + p.stages.emptied

namespace Accounted

theorem initial (some : 0 < n) (visible : Snapshot) (keepLog : Bool) :
    (ofSnapshot visible keepLog).Accounted s n 0 :=
  ⟨Nat.le_refl 0, fun _ => rfl, fun _ => rfl, fun none => by omega, fun none => by omega⟩

variable (accounted : p.Accounted s n k)

include accounted

theorem bubble (counted : p.Counted q p.stages.stall 1 0) (room : 0 < p.stages.stallRoom)
    (pending : k < n → q.flushPending = p.flushPending) : q.Accounted s n k := by
  obtain ⟨stalls, branches, running, flushes, draining⟩ := accounted
  obtain ⟨stages, cycles, dataStalls, controlFlushes⟩ := counted
  have credit : q.stages.stallCredit < p.stages.stallCredit := by
    rw [stages]
    exact Stages.stallCredit_stall room
  have emptied : q.stages.emptied = p.stages.emptied := by
    rw [stages]
    exact Stages.emptied_stall room
  have fetch : q.stages.fetch = p.stages.fetch := by
    rw [stages]
    rfl
  refine ⟨by omega, fun more => ?_, fun more => ?_, fun last => ?_, fun last => ?_⟩
  · rw [controlFlushes, pending more, fetch]
    exact branches more
  · rw [cycles, running more, pending more]
    omega
  · rw [controlFlushes]
    exact flushes last
  · rw [cycles, draining last]
    omega

theorem drain (counted : p.Counted q (p.stages.advance none) 0 0) (last : k = n)
    (busy : p.stages.isEmpty = false)
    (executed : ∀ f, p.stages.fetch = some f → f.isPlaceholder = false) :
    q.Accounted s n k := by
  obtain ⟨stalls, -, -, flushes, draining⟩ := accounted
  obtain ⟨stages, cycles, dataStalls, controlFlushes⟩ := counted
  have credit : q.stages.stallCredit ≤ p.stages.stallCredit := by
    rw [stages]
    exact Stages.stallCredit_advance none executed
  have emptied : q.stages.emptied = p.stages.emptied + 1 := by
    rw [stages]
    exact Stages.emptied_advance busy
  refine ⟨by omega, fun more => by omega, fun more => by omega, fun _ => ?_, fun _ => ?_⟩
  · rw [controlFlushes]
    exact flushes last
  · rw [cycles, draining last]
    omega

theorem behind {next : Option Flight} (counted : p.Counted q (p.stages.advance next) 0 0)
    (more : k < n) (unexecuted : ∀ f, next = some f → f.isPlaceholder = true) {branch : Flight}
    (fetched : p.stages.fetch = some branch) (taken : branch.taken = true)
    (served : p.flushPending = false) (pending : q.flushPending = true) :
    q.Accounted s n k := by
  obtain ⟨stalls, branches, running, -, -⟩ := accounted
  obtain ⟨stages, cycles, dataStalls, controlFlushes⟩ := counted
  have executed : ∀ f, p.stages.fetch = some f → f.isPlaceholder = false := by
    intro f present
    obtain rfl : branch = f := Option.some.inj (fetched.symm.trans present)
    exact Flight.executed_of_taken taken
  have idle : next.any (fun f => !f.isPlaceholder) = false := by
    cases next with
    | none => rfl
    | some f => simp [unexecuted f rfl]
  have straight : next.any Flight.taken = false := by
    cases next with
    | none => rfl
    | some f =>
      cases taken : f.taken with
      | false => simp [taken]
      | true => simp [Flight.executed_of_taken taken] at unexecuted
  have credit : q.stages.stallCredit ≤ p.stages.stallCredit := by
    rw [stages]
    simpa [idle] using Stages.stallCredit_advance next executed
  have fetch : q.stages.fetch = next := by
    rw [stages]
    rfl
  -- The flush that was owed for the branch becomes pending, and its cycle is the one of the fetch.
  have owed := branches more
  have clocked := running more
  rw [served, fetched, Option.any_some, taken, Bool.toNat_true, Bool.toNat_false] at owed
  rw [served, Bool.toNat_false] at clocked
  refine ⟨by omega, fun _ => ?_, fun _ => ?_, fun last => by omega, fun last => by omega⟩
  · rw [controlFlushes, pending, fetch, straight, Bool.toNat_true, Bool.toNat_false]
    omega
  · rw [cycles, pending, Bool.toNat_true]
    omega

theorem fetch {stages : Stages} {i : Instruction}
    (counted : p.Counted q (stages.advance (some (executed i m m'))) 0 p.flushPending.toNat)
    (more : k < n) (credit : stages.stallCredit ≤ p.stages.stallCredit)
    (kept : ∀ f, stages.fetch = some f → f.isPlaceholder = false)
    (straight : p.stages.fetch.any Flight.taken = false)
    (taken : (s.after (k + 1)).machine.taken = m'.taken)
    (served : k + 1 < n → q.flushPending = false) : q.Accounted s n (k + 1) := by
  obtain ⟨stalls, branches, running, -, -⟩ := accounted
  obtain ⟨moved, cycles, dataStalls, controlFlushes⟩ := counted
  have credit : q.stages.stallCredit ≤ p.stages.stallCredit + 2 := by
    rw [moved]
    exact Nat.le_trans (Stages.stallCredit_advance _ kept) (Nat.add_le_add_right credit 2)
  have emptied : q.stages.emptied = 0 := by
    rw [moved]
    exact Stages.emptied_fetched _
  have fetch : q.stages.fetch.any Flight.taken = m'.taken := by
    rw [moved]
    rfl
  -- A pending flush is carried out now, so that it moves from the pending ones to those counted.
  have owed := branches more
  have clocked := running more
  rw [straight, Bool.toNat_false] at owed
  refine ⟨by omega, fun more => ?_, fun more => ?_, fun last => ?_, fun last => ?_⟩
  · rw [served more, fetch, SingleCycle.takenBranches_succ, taken, Bool.toNat_false]
    omega
  · rw [served more, Bool.toNat_false]
    omega
  · obtain rfl : k = n - 1 := by omega
    omega
  · omega

end Accounted

end Pipeline

namespace Pipelined

variable {texts : List String} {c : Config} {s : SingleCycle} {k k' n : Nat} {p q : Pipelined}

theorem LockStep.more_iff (lock : p.LockStep s k) (finishes : s.Finishes n) :
    p.machine.next < s.program.instructions.size ↔ k < n := by
  rw [lock.machine]
  exact finishes.more_iff (finishes.executed_le lock.executes)

theorem LockStep.accounted (lock : p.LockStep s k) (next : q.LockStep s k')
    (finishes : s.Finishes n)
    (clocked :
      Clocked s.program.instructions p.pipeline p.machine q.pipeline q.machine)
    (attempted : p.Attempts ∧ k' = k + 1 ∨ ¬ p.Attempts ∧ k' = k)
    (accounted : p.pipeline.Accounted s n k) : q.pipeline.Accounted s n k' := by
  have le := finishes.executed_le lock.executes
  have before := lock.more_iff finishes
  have after := next.more_iff finishes
  have guarded := lock.guarded
  have guarded' := next.guarded
  have machine := next.machine
  unfold Attempts at attempted
  rw [lock.program] at attempted
  have waiting (idle : ¬ p.pipeline.Attempts p.machine s.program.instructions) : k' = k :=
    (attempted.resolve_left fun attempts => idle attempts.1).2
  generalize q.pipeline = landed, q.machine = m' at *
  cases clocked with
  | idle log drained =>
    obtain rfl := waiting (not_attempts (.inl drained))
    exact ⟨accounted.stalls, accounted.branches, accounted.running, accounted.flushes,
      accounted.draining⟩
  | bubble log line busy pending =>
    obtain rfl := waiting (not_attempts (.inr (.inl pending)))
    refine accounted.bubble (bubble_counted log line) (lock.detected.stallRoom pending) ?_
    intro inside
    have more := before.2 inside
    rw [guarded'.flushPending more, guarded.flushPending more, land_stages]
    rfl
  | drain log line busy ended clear =>
    obtain rfl := waiting (not_attempts (.inr (.inr (.inl ended))))
    refine accounted.drain (move_counted log line none) (by omega) ?_ fun f fetched => ?_
    · simpa [isDrained, ended] using busy
    · cases unexecuted : f.isPlaceholder with
      | false => rfl
      | true => exact absurd (guarded.placeholder f fetched unexecuted).1 (Nat.not_lt.2 ended)
  | behind log line branch more clear fetched taken =>
    obtain rfl := waiting (not_attempts (.inr (.inr (.inr ⟨branch, fetched, taken⟩))))
    refine accounted.behind (move_counted log line _) (before.1 more)
      (fun f next => (placeholder?_eq_some next).2) fetched taken ?_ ?_
    · cases pending : p.pipeline.flushPending with
      | false => rfl
      | true =>
        have unexecuted := guarded.flush_unexecuted more pending branch fetched
        simp [Flight.executed_of_taken taken] at unexecuted
    · rw [guarded'.flushPending more, land_stages]
      simp [move, tick, Stages.advance, fetched, taken]
  | fetch log line i m' attempts fetched done =>
    obtain rfl : k' = k + 1 := (attempted.resolve_right fun idle => idle.1 attempts).2
    obtain ⟨served, kept⟩ := flush_decode guarded attempts log line
    refine accounted.fetch (flush_counted log line attempts.clear _) (before.1 attempts.more)
      (flush_stallCredit _) (fun f present => (kept f present).2.1) ?_ ?_ fun inside => ?_
    · cases present : p.pipeline.stages.fetch with
      | none => rfl
      | some f => exact attempts.straight f present
    · rw [← machine]
    · rw [guarded'.flushPending (after.2 inside), land_stages]
      cases present : (p.pipeline.tick log line).flush.stages.fetch with
      | none => simp [move, Stages.advance, present]
      | some f => simp [move, Stages.advance, present, (kept f present).2.2]

theorem LockStep.clock_finishing (lock : p.LockStep s k) (finishes : s.Finishes n) :
    ∃ k', p.clock.1 = .ok () ∧ p.clock.2.LockStep s k' ∧
      Clocked s.program.instructions p.pipeline p.machine p.clock.2.pipeline p.clock.2.machine ∧
      (p.Attempts ∧ k' = k + 1 ∨ ¬ p.Attempts ∧ k' = k) := by
  rcases lock.clock_cases with done | ⟨e, m, line, -, failed, -⟩
  · exact done
  · have le := finishes.executed_le lock.executes
    by_cases last : k = n
    · simp [last, finishes.ended] at failed
    · obtain ⟨index, executed⟩ := finishes.executes k (by omega)
      simp [executed] at failed

structure Approaches (s : SingleCycle) (n : Nat) (p : Pipelined) : Prop where
  finishes : s.Finishes n
  reached : ∃ k, p.LockStep s k ∧ p.pipeline.Accounted s n k

namespace Approaches

variable (approaches : p.Approaches s n)

include approaches

theorem clock : p.clock.1 = .ok () ∧ p.clock.2.Approaches s n := by
  obtain ⟨finishes, k, lock, accounted⟩ := approaches
  obtain ⟨k', done, next, clocked, attempted⟩ := lock.clock_finishing finishes
  exact ⟨done, finishes, k', next, lock.accounted next finishes clocked attempted accounted⟩

theorem after (N : Nat) : (p.after N).Approaches s n := by
  induction N with
  | zero => exact approaches
  | succ N ih => exact ih.clock.2

theorem dataStalls :
    p.clock.2.pipeline.statistics.dataStalls = p.pipeline.statistics.dataStalls ∨
      p.clock.2.pipeline.statistics.dataStalls = p.pipeline.statistics.dataStalls + 1 ∧
        p.clock.2.pipeline.stages.stallRoom < p.pipeline.stages.stallRoom := by
  obtain ⟨finishes, k, lock, -⟩ := approaches
  obtain ⟨-, -, -, clocked, -⟩ := lock.clock_finishing finishes
  exact clocked.dataStalls lock.detected

theorem no_third_stall :
    (p.after 3).pipeline.statistics.dataStalls ≤ p.pipeline.statistics.dataStalls + 2 := by
  have first := approaches.dataStalls
  have second := (approaches.after 1).dataStalls
  have third := (approaches.after 2).dataStalls
  have room : p.pipeline.stages.stallRoom ≤ 2 * p.pipeline.stages.decode.isSome.toNat :=
    Stages.stallRoom_le
  have bit := Bool.toNat_le p.pipeline.stages.decode.isSome
  simp only [Pipelined.after] at first second third ⊢
  omega

theorem cycles_succ (busy : p.isFinished = false) :
    p.clock.2.pipeline.statistics.cycles = p.pipeline.statistics.cycles + 1 := by
  obtain ⟨finishes, k, lock, -⟩ := approaches
  obtain ⟨-, -, -, clocked, -⟩ := lock.clock_finishing finishes
  rw [isFinished, lock.program] at busy
  obtain ⟨_, _, _, counted⟩ := clocked.counted busy
  exact counted.cycles

theorem cycles_after {N : Nat} (busy : ∀ j < N, (p.after j).isFinished = false) :
    (p.after N).pipeline.statistics.cycles = p.pipeline.statistics.cycles + N := by
  induction N with
  | zero => rfl
  | succ N ih =>
    have counted := (approaches.after N).cycles_succ (busy N (by omega))
    rw [Pipelined.after, counted, ih fun j inside => busy j (by omega)]
    omega

theorem cycles_le (some : 0 < n) (busy : p.isFinished = false) :
    p.pipeline.statistics.cycles ≤ 4 * n + 3 := by
  obtain ⟨finishes, k, lock, accounted⟩ := approaches
  obtain ⟨stalls, branches, running, flushes, draining⟩ := accounted
  have le := finishes.executed_le lock.executes
  -- Each instruction costs its own cycle, two stalls at most and one fetch behind it at most.
  by_cases last : k = n
  · have ended : s.program.instructions.size ≤ p.machine.next := by
      have more := lock.more_iff finishes
      omega
    have occupied : p.pipeline.stages.emptied ≠ 5 := by
      intro empty
      simp [isFinished, isDrained, lock.program, ended, Stages.isEmpty_iff.2 empty] at busy
    have emptied : p.pipeline.stages.emptied ≤ 5 := Stages.emptied_le
    have taken := s.takenBranches_le (n - 1)
    have flushed := flushes last
    have clocked := draining last
    omega
  · have taken := s.takenBranches_le k
    have owed := branches (by omega)
    have clocked := running (by omega)
    omega

end Approaches

/-- What a drained simulator has come to, in terms of the run of the single-cycle one. -/
structure Drained (s : SingleCycle) (n : Nat) (p : Pipelined) : Prop where
  cycles : p.pipeline.statistics.cycles =
    n + p.pipeline.statistics.dataStalls + p.pipeline.statistics.controlFlushes + 5
  retired : p.pipeline.statistics.retired = n
  visible : p.pipeline.visible = (s.after n).machine.snapshot
  memory : p.machine.memory = (s.after n).machine.memory
  mix : p.pipeline.statistics.SameMix (s.after n).statistics
  flushes : p.pipeline.statistics.controlFlushes = s.takenBranches (n - 1)
  stalls : p.pipeline.statistics.dataStalls ≤ 2 * n

theorem Approaches.drained (approaches : p.Approaches s n) (finished : p.isFinished = true) :
    p.Drained s n := by
  obtain ⟨finishes, k, lock, accounted⟩ := approaches
  obtain ⟨stalls, -, -, flushes, draining⟩ := accounted
  obtain ⟨retired_le, visible, mix, inFlight, -⟩ := lock.inStep
  obtain ⟨ended, empty⟩ : s.program.instructions.size ≤ p.machine.next ∧
      p.pipeline.stages.isEmpty = true := by
    simpa [isFinished, isDrained, lock.program] using finished
  have last : k = n := by
    have more := lock.more_iff finishes
    have le := finishes.executed_le lock.executes
    omega
  have retired : p.pipeline.statistics.retired = n := by
    have nothing : p.pipeline.stages.inFlight = [] := by
      simp_all [Stages.isEmpty, Stages.toList, Stages.inFlight, Stages.executedIn]
    rw [nothing, List.map_nil] at inFlight
    have none := congrArg List.length inFlight
    simp only [List.length_nil, List.length_map, List.length_range'] at none
    omega
  have emptied := Stages.isEmpty_iff.1 empty
  have clocked := draining last
  exact {
    cycles := by omega
    retired
    visible := by rw [visible, retired]
    memory := by rw [lock.machine, last]
    mix := retired ▸ mix
    flushes := flushes last
    stalls := by omega }

theorem runFrom_eq {N left : Nat} (taken : Nat) (le : N ≤ left)
    (done : ∀ j < N, (p.after j).clock.1 = .ok ())
    (busy : ∀ j < N, (p.after j).isFinished = false) (finished : (p.after N).isFinished = true) :
    p.runFrom taken left = (.ok (taken + N), p.after N) := by
  have finishes : stepping.Finishes p N := by
    simp only [Stepping.Finishes, Stepping.Advances, stepping_after]
    exact ⟨fun j inside => ⟨busy j inside, done j inside⟩, finished⟩
  obtain ⟨n, out, ends, run⟩ := stepping.runFrom_ends p taken left
  obtain ⟨rfl, rfl⟩ := ends.unique (.finished le finishes)
  rw [stepping_runFrom, run, stepping_after]
  rfl

theorem pipeline_drains (assembled : ofProgram (.ofLines texts) c = .ok p)
    (assembled' : SingleCycle.ofProgram (.ofLines texts) c = .ok s) (some : 0 < n)
    (finishes : s.Finishes n) :
    (∀ N, (p.after N).clock.1 = .ok () ∧
      (p.after (N + 3)).pipeline.statistics.dataStalls ≤
        (p.after N).pipeline.statistics.dataStalls + 2) ∧
    ∃ N, (p.after N).isFinished = true ∧ (∀ j < N, (p.after j).isFinished = false) ∧
      (p.after N).Drained s n ∧
      (4 * n + 5 ≤ c.pipeline.maxCycles → p.run = (.ok N, p.after N)) := by
  have approaches : p.Approaches s n := by
    refine ⟨finishes, 0, LockStep.initial assembled assembled', ?_⟩
    obtain ⟨-, rfl⟩ := ofProgram_eq_ok.1 assembled
    exact Accounted.initial some _ _
  have limit : p.maxCycles = c.pipeline.maxCycles := by
    obtain ⟨-, rfl⟩ := ofProgram_eq_ok.1 assembled
    rfl
  have fresh : p.pipeline.statistics.cycles = 0 := by
    obtain ⟨-, rfl⟩ := ofProgram_eq_ok.1 assembled
    rfl
  have clocks (N : Nat) : (p.after N).clock.1 = .ok () := (approaches.after N).clock.1
  refine ⟨fun N => ⟨clocks N, ?_⟩, ?_⟩
  · rw [after_add]
    exact (approaches.after N).no_third_stall
  · have bounded (N : Nat) (busy : ∀ j ≤ N, (p.after j).isFinished = false) : N ≤ 4 * n + 3 := by
      have cycles := approaches.cycles_after fun j (inside : j < N) => busy j (by omega)
      have le := (approaches.after N).cycles_le some (busy N (Nat.le_refl N))
      omega
    -- A simulator that never drained would count more cycles than its instructions can take.
    have drains : ∃ N, (p.after N).isFinished = true := by
      by_contra never
      have busy (j : Nat) : (p.after j).isFinished = false := by
        simpa using fun finished => never ⟨j, finished⟩
      have le := bounded (4 * n + 4) fun j _ => busy j
      omega
    have finished := Nat.find_spec drains
    have busy : ∀ j < Nat.find drains, (p.after j).isFinished = false :=
      fun j inside => by simpa using Nat.find_min drains inside
    have le : Nat.find drains ≤ 4 * n + 5 := by
      by_contra beyond
      have le := bounded (Nat.find drains - 1) fun j inside => busy j (by omega)
      omega
    refine ⟨Nat.find drains, finished, busy, (approaches.after _).drained finished, fun enough => ?_⟩
    have within : Nat.find drains ≤ p.maxCycles := by omega
    have run := runFrom_eq 0 within (fun j _ => clocks j) busy finished
    rwa [Nat.zero_add] at run

theorem pipeline_drains_branch :
    let program := Program.ofLines
      ["ADDI X1, XZR, #0", "CBZ X1, end", "ADD X2, X1, X1", "end: STUR X1, [SP, #-8]"]
    let p := initial program {}
    let s := SingleCycle.initial program {}
    ofProgram program {} = .ok p ∧ SingleCycle.ofProgram program {} = .ok s ∧ s.Finishes 3 ∧
      ∃ N, (p.after N).isFinished = true ∧ (p.after N).Drained s 3 ∧
        p.run = (.ok N, p.after N) := by
  intro program p s
  have facts : program.isValid = true ∧
      ∀ j < 4, (s.after j).step.1.toOption = some [0, 1, 3][j]? := by
    decide +kernel
  obtain ⟨valid, steps⟩ := facts
  have assembled : ofProgram program {} = .ok p := ofProgram_eq_ok.2 ⟨valid, rfl⟩
  have assembled' : SingleCycle.ofProgram program {} = .ok s :=
    SingleCycle.ofProgram_eq_ok.2 ⟨valid, rfl⟩
  have finishes : s.Finishes 3 := by
    refine ⟨fun j inside => ?_, eq_ok_of_toOption (steps 3 (by decide))⟩
    have step := steps j (by omega)
    rw [List.getElem?_eq_getElem (by exact inside)] at step
    exact ⟨_, eq_ok_of_toOption step⟩
  obtain ⟨-, N, finished, -, drained, run⟩ :=
    pipeline_drains assembled assembled' (by decide) finishes
  exact ⟨assembled, assembled', finishes, N, finished, drained, run (by decide)⟩

end Pipelined

end Legv8
