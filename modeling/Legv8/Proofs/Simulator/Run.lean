import Legv8.Proofs.Simulator.Bounded
import Legv8.Proofs.Simulator.Fault

set_option autoImplicit false

namespace Legv8

variable {program : Program} {c : Config}

structure Statistics.Counts (s : Statistics) (n : Nat) : Prop where
  cycles : s.cycles = n
  retired : s.retired = n
  mix : s.mix = n

namespace SingleCycle

variable {s t : SingleCycle} {k n limit : Nat} {e : Located Fault}

theorem step_unlimited (running : s.fault = none) (failed : s.step.1 = .error e) :
    e.cause.isLimit = false := by
  rw [(step_machine running).1] at failed
  exact Machine.step_unlimited failed

theorem after_maxSteps (s : SingleCycle) (n : Nat) : (s.after n).maxSteps = s.maxSteps := by
  induction n with
  | zero => rfl
  | succ n ih => rw [after, step_maxSteps, ih]

theorem limits (running : s.fault = none) : stepping.Limits s.maxSteps s where
  limit n := by
    rw [stepping_after, ← after_maxSteps s n]
    rfl
  steps n e fails := by
    obtain ⟨advances, -, failed⟩ := fails
    rw [stepping_after, stepping_error] at failed
    exact step_unlimited ((stepping_advances.1 advances).fault running) failed

section Counters

theorem step_counts {index : Nat} (counts : s.statistics.Counts k)
    (done : s.step.1 = .ok (some index)) : s.step.2.statistics.Counts (k + 1) := by
  have running := (step_fault done).1
  cases fetched : s.program.instructions[s.machine.next]? with
  | none => simp [step_ended running fetched] at done
  | some i =>
    cases outcome : s.machine.step s.program.instructions with
    | mk result m =>
      cases result with
      | error e => simp [step_failed running fetched outcome] at done
      | ok x =>
        obtain ⟨cycles, retired, mix⟩ := counts
        rw [step_executed running fetched outcome]
        constructor
        · rw [Statistics.record_cycles, cycles]
        · rw [Statistics.record_retired, retired]
        · rw [Statistics.record_mix]
          exact congrArg (· + 1) mix

theorem step_uncounted (failed : s.step.1 = .error e) : s.step.2.statistics = s.statistics := by
  cases stopped : s.fault with
  | some e' => rw [step_faulted stopped]
  | none =>
    cases fetched : s.program.instructions[s.machine.next]? with
    | none => rw [step_ended stopped fetched]
    | some i =>
      cases outcome : s.machine.step s.program.instructions with
      | mk result m =>
        cases result with
        | error e => rw [step_failed stopped fetched outcome]
        | ok x => simp [step_executed stopped fetched outcome] at failed

theorem Executes.counts (executes : s.Executes n) (counts : s.statistics.Counts k) :
    (s.after n).statistics.Counts (k + n) := by
  induction n with
  | zero => exact counts
  | succ n ih =>
    obtain ⟨index, done⟩ := executes n (Nat.lt_succ_self n)
    exact step_counts (ih fun j inside => executes j (Nat.lt_succ_of_lt inside)) done

theorem ends_counts {out : Except (Located Fault) Nat × SingleCycle}
    (ends : stepping.Ends limit s n out) (counts : s.statistics.Counts k) :
    out.2.statistics.Counts (k + n) := by
  have counted := (stepping_advances.1 ends.advances).counts counts
  cases ends with
  | finished _ _ => rwa [stepping_after]
  | limited _ _ => rwa [stepping_after]
  | failed _ fails =>
    -- The step that fails is not counted.
    obtain ⟨-, -, failed⟩ := fails
    rw [stepping_after, stepping_error] at failed
    rwa [stepping_after, after, step_uncounted failed]

end Counters

section Reachable

-- The number of instructions that a call reports as executed.
def reported (s : SingleCycle) : Call → Nat
  | .step => match s.step.1 with
    | .ok (some _) => 1
    | _ => 0
  | .run => match s.run.1 with
    | .ok n => n
    | .error _ => 0

def executions (s : SingleCycle) : List Call → Nat
  | [] => 0
  | c :: calls => s.reported c + (s.call c).2.executions calls

theorem after_add (s : SingleCycle) (n d : Nat) : s.after (n + d) = (s.after n).after d := by
  induction d with
  | zero => rfl
  | succ d ih => rw [← Nat.add_assoc, after, ih, after]

theorem Executes.append (executes : s.Executes n) (more : (s.after n).Executes k) :
    s.Executes (n + k) := by
  intro j inside
  by_cases first : j < n
  · exact executes j first
  · obtain ⟨d, rfl⟩ := Nat.exists_eq_add_of_le (Nat.le_of_not_lt first)
    rw [after_add]
    exact more d (by omega)

theorem call_stopped (stopped : s.fault = some e) (call : Call) : (s.call call).2.fault ≠ none := by
  have again := step_faulted stopped
  cases call with
  | step => simp [SingleCycle.call, again, stopped]
  | run =>
    rw [SingleCycle.call, SingleCycle.run]
    cases s.maxSteps with
    | zero => by_cases ended : s.isFinished = true <;> simp [runFrom, ended, again, stopped]
    | succ left => simp [runFrom, again, stopped]

theorem behind_stopped (stopped : s.fault ≠ none) (calls : List Call) :
    (behind call s calls).fault ≠ none :=
  behind_induction (P := fun t : SingleCycle => t.fault ≠ none) stopped
    (fun t c stopped => by
      obtain ⟨e, recorded⟩ := Option.ne_none_iff_exists'.1 stopped
      exact call_stopped recorded c) calls

theorem call_reached (running : s.fault = none) {call : Call}
    (kept : (s.call call).2.fault = none) :
    s.Executes (s.reported call) ∧ (s.call call).2 = s.after (s.reported call) := by
  cases call with
  | step =>
    have own : s.reported .step = match s.step.1 with
      | .ok (some _) => 1
      | _ => 0 := rfl
    have state : (s.call .step).2 = s.step.2 := rfl
    rw [state] at kept ⊢
    rcases outcome : s.step.1 with e | _ | index
    · rw [step_records outcome] at kept
      cases kept
    · rw [own, outcome, step_finished running ((ended_iff running).1 outcome)]
      exact ⟨fun j none => absurd none (Nat.not_lt_zero j), rfl⟩
    · rw [own, outcome]
      have before : s.Executes 0 := fun j none => absurd none (Nat.not_lt_zero j)
      exact ⟨before.succ outcome, rfl⟩
  | run =>
    have own : s.reported .run = match s.run.1 with
      | .ok n => n
      | .error _ => 0 := rfl
    have state : (s.call .run).2 = s.run.2 := rfl
    obtain ⟨n, ends⟩ := run_ends running
    rw [own]
    rw [state] at kept ⊢
    generalize s.run = out at kept ends ⊢
    cases ends with
    | finished _ finishes => exact ⟨stepping_advances.1 finishes.1, stepping_after s n⟩
    | limited _ _ => cases kept
    | failed _ fails =>
      obtain ⟨-, -, failed⟩ := fails
      rw [stepping_after, stepping_error] at failed
      rw [stepping_after, after, step_records failed] at kept
      cases kept

theorem behind_reached (running : s.fault = none) {calls : List Call}
    (kept : (behind call s calls).fault = none) :
    s.Executes (s.executions calls) ∧ behind call s calls = s.after (s.executions calls) := by
  induction calls generalizing s with
  | nil => exact ⟨fun j none => absurd none (Nat.not_lt_zero j), rfl⟩
  | cons c calls ih =>
    -- A fault is never forgotten.
    have next : (s.call c).2.fault = none := by
      by_contra stopped
      exact behind_stopped stopped calls kept
    obtain ⟨executes, state⟩ := call_reached running next
    obtain ⟨more, final⟩ := ih next kept
    constructor
    · rw [executions, state]
      rw [state] at more
      exact executes.append more
    · rw [executions, after_add, ← state]
      exact final

end Reachable

end SingleCycle

namespace Pipeline

variable {p : Pipeline} {m : Machine} {code : Array Instruction} {e : Located Fault}

theorem finish_unlimited (failed : (p.finish m).1 = .error e) : e.cause.isLimit = false := by
  unfold finish at failed
  split at failed
  · cases failed
    rfl
  · cases failed

theorem fetch_unlimited {i : Instruction} (failed : (p.fetch m code i).1 = .error e) :
    e.cause.isLimit = false := by
  unfold fetch at failed
  dsimp only at failed
  split at failed
  next e' m' outcome =>
    obtain rfl := Except.error.inj failed
    exact Machine.step_unlimited (congrArg Prod.fst outcome)
  next => exact finish_unlimited failed

theorem clock_unlimited (failed : (p.clock m code).1 = .error e) : e.cause.isLimit = false := by
  cases drained : p.isDrained m code with
  | true => simp [clock, drained] at failed
  | false =>
    rw [clock_busy drained] at failed
    split at failed
    next => exact finish_unlimited failed
    next =>
      split at failed
      next => exact finish_unlimited failed
      next =>
        split at failed
        next =>
          split at failed
          next => exact finish_unlimited failed
          next => exact fetch_unlimited failed
        next => exact fetch_unlimited failed

end Pipeline

namespace Pipelined

variable {p : Pipelined} {n : Nat} {e : Located Fault}

theorem clock_fault (done : p.clock.1 = .ok ()) : p.fault = none ∧ p.clock.2.fault = none := by
  cases stopped : p.fault with
  | some e => simp [clock_faulted stopped] at done
  | none =>
    refine ⟨rfl, ?_⟩
    rcases outcome : p.pipeline.clock p.machine p.program.instructions with ⟨e | u, q, m⟩
    · simp [clock_error stopped outcome] at done
    · simpa [clock_ok stopped outcome] using stopped

theorem clock_unlimited (running : p.fault = none) (failed : p.clock.1 = .error e) :
    e.cause.isLimit = false := by
  rcases outcome : p.pipeline.clock p.machine p.program.instructions with ⟨e' | u, q, m⟩
  · rw [clock_error running outcome] at failed
    obtain rfl := Except.error.inj failed
    exact Pipeline.clock_unlimited (congrArg Prod.fst outcome)
  · simp [clock_ok running outcome] at failed

theorem after_maxCycles (p : Pipelined) (n : Nat) : (p.after n).maxCycles = p.maxCycles := by
  induction n with
  | zero => rfl
  | succ n ih => rw [after, clock_maxCycles, ih]

theorem advances_fault (advances : stepping.Advances p n) (running : p.fault = none) :
    (p.after n).fault = none := by
  cases n with
  | zero => exact running
  | succ n =>
    obtain ⟨-, done⟩ := advances n (Nat.lt_succ_self n)
    rw [stepping_after] at done
    exact (clock_fault done).2

theorem limits (running : p.fault = none) : stepping.Limits p.maxCycles p where
  limit n := by
    rw [stepping_after, ← after_maxCycles p n]
    rfl
  steps n e fails := by
    obtain ⟨advances, -, failed⟩ := fails
    rw [stepping_after] at failed
    exact clock_unlimited (advances_fault advances running) failed

end Pipelined

/-- From any state that no fault has stopped, a run does what single steps or clock cycles do, up to
its limit, and all counters of the single-cycle simulator tell how many instructions have been
executed since it was made. -/
theorem runs_bounded {s : SingleCycle} {p : Pipelined}
    (assembled : SingleCycle.ofProgram program c = .ok s)
    (assembled' : Pipelined.ofProgram program c = .ok p) :
    (∀ calls, (behind SingleCycle.call s calls).fault = none →
      let t := behind SingleCycle.call s calls
      let before := s.executions calls
      s.Executes before ∧ t = s.after before ∧
        ∃ n, SingleCycle.stepping.Law c.general.maxSteps t n t.run ∧
          t.run.2.statistics.Counts (before + n)) ∧
    ∀ calls, (behind Pipelined.call p calls).fault = none →
      let q := behind Pipelined.call p calls
      ∃ n, Pipelined.stepping.Law c.pipeline.maxCycles q n q.run := by
  obtain ⟨-, rfl⟩ := SingleCycle.ofProgram_eq_ok.1 assembled
  obtain ⟨-, rfl⟩ := Pipelined.ofProgram_eq_ok.1 assembled'
  constructor
  · intro calls running t before
    have limit : t.maxSteps = c.general.maxSteps :=
      SingleCycle.behind_maxSteps (.initial program c) calls
    obtain ⟨executes, state⟩ := SingleCycle.behind_reached rfl running
    obtain ⟨n, ends⟩ := SingleCycle.run_ends running
    have fresh : (SingleCycle.initial program c).statistics.Counts 0 := ⟨rfl, rfl, rfl⟩
    have counts := executes.counts fresh
    rw [← state, Nat.zero_add] at counts
    refine ⟨executes, state, n, ?_, SingleCycle.ends_counts ends counts⟩
    rw [← limit]
    exact ends.law (SingleCycle.limits running)
  · intro calls running q
    have limit : q.maxCycles = c.pipeline.maxCycles :=
      Pipelined.behind_maxCycles (.initial program c) calls
    obtain ⟨n, ends⟩ := Pipelined.run_ends q
    rw [← limit]
    exact ⟨n, ends.law (Pipelined.limits running)⟩

theorem runs_bounded_loop :
    let program := Program.ofLines ["loop: EORI X1, X1, #1", "CBNZ X1, loop"]
    let c : Config := { general := { maxSteps := 3 }, pipeline := { maxCycles := 6 } }
    let s := SingleCycle.initial program c
    let p := Pipelined.initial program c
    let t := behind SingleCycle.call s [.step]
    SingleCycle.ofProgram program c = .ok s ∧ Pipelined.ofProgram program c = .ok p ∧
      t.fault = none ∧ t.run.1 = .ok 3 ∧ SingleCycle.stepping.Finishes t 3 ∧
      t.run.2.statistics.Counts 4 ∧
      (∃ e, p.run.1 = .error e ∧ e.cause = .stepLimit 6) ∧
      Pipelined.stepping.Advances p 6 := by
  intro program c s p t
  have facts : program.isValid = true ∧ t.fault = none ∧ t.run.1.toOption = some 3 ∧
      s.executions [.step] = 1 ∧ failure? p.run.1 = some ⟨0, .stepLimit 6⟩ := by
    decide +kernel
  obtain ⟨valid, running, done, before, limited⟩ := facts
  have assembled : SingleCycle.ofProgram program c = .ok s :=
    SingleCycle.ofProgram_eq_ok.2 ⟨valid, rfl⟩
  have assembled' : Pipelined.ofProgram program c = .ok p :=
    Pipelined.ofProgram_eq_ok.2 ⟨valid, rfl⟩
  obtain ⟨single, pipelined⟩ := runs_bounded assembled assembled'
  obtain ⟨-, -, n, law, counts⟩ := single [.step] running
  obtain ⟨m, law'⟩ := pipelined [] rfl
  have done : t.run.1 = .ok 3 := eq_ok_of_toOption done
  have stopped : ∃ e, p.run.1 = .error e ∧ e.cause = .stepLimit 6 :=
    ⟨_, failure?_eq_some.1 limited, rfl⟩
  obtain ⟨within, finishes⟩ := (law.finished_iff 3).1 done
  obtain rfl : n = 3 := (law.ends.unique (.finished within finishes)).1
  rw [before] at counts
  exact ⟨assembled, assembled', running, done, finishes, counts, stopped,
    (law'.limited_iff.1 stopped).1⟩

end Legv8
