import Legv8.Proofs.Simulator.LockStep

set_option autoImplicit false

namespace Legv8

variable {texts : List String} {c : Config}

namespace SingleCycle

inductive Call where
  | step
  | run
  deriving DecidableEq

/-- The fault with which a call fails, if it does, and the simulator behind the call. -/
def call (s : SingleCycle) : Call → Option (Located Fault) × SingleCycle
  | .step => (failure? s.step.1, s.step.2)
  | .run => (failure? s.run.1, s.run.2)

variable {s : SingleCycle} {e : Located Fault} {taken left : Nat}

theorem step_maxSteps (s : SingleCycle) : s.step.2.maxSteps = s.maxSteps := by
  simp only [step]
  repeat' split
  all_goals rfl

theorem runFrom_maxSteps (s : SingleCycle) (taken left : Nat) :
    (s.runFrom taken left).2.maxSteps = s.maxSteps := by
  induction left generalizing s taken with
  | zero =>
    have kept := s.step_maxSteps
    rw [runFrom]
    split
    · rfl
    · split <;> simp_all
  | succ left ih =>
    have kept := s.step_maxSteps
    rw [runFrom]
    split <;> simp_all

theorem call_maxSteps (s : SingleCycle) (call : Call) : (s.call call).2.maxSteps = s.maxSteps := by
  cases call with
  | step => exact s.step_maxSteps
  | run => exact s.runFrom_maxSteps 0 _

theorem behind_maxSteps (s : SingleCycle) (calls : List Call) :
    (behind call s calls).maxSteps = s.maxSteps :=
  behind_induction (P := fun t : SingleCycle => t.maxSteps = s.maxSteps) rfl
    (fun t c same => (t.call_maxSteps c).trans same) calls

theorem step_records (failed : s.step.1 = .error e) : s.step.2.fault = some e := by
  -- The fault is the one that was there, or one of this step, which is kept.
  cases stopped : s.fault with
  | some e' =>
    rw [step_faulted stopped] at failed ⊢
    cases failed
    exact stopped
  | none =>
    cases fetched : s.program.instructions[s.machine.next]? with
    | none => simp [step_ended stopped fetched] at failed
    | some i =>
      cases outcome : s.machine.step s.program.instructions with
      | mk result m =>
        cases result with
        | error e' =>
          rw [step_failed stopped fetched outcome] at failed ⊢
          cases failed
          rfl
        | ok index => simp [step_executed stopped fetched outcome] at failed

theorem runFrom_records (failed : (s.runFrom taken left).1 = .error e) :
    (s.runFrom taken left).2.fault = some e := by
  induction left generalizing s taken with
  | zero =>
    rw [runFrom] at failed ⊢
    split at failed
    next unfinished =>
      rw [if_pos unfinished]
      cases failed
      rfl
    next finished =>
      rw [if_neg finished]
      cases outcome : s.step with
      | mk result s' =>
        have recorded := step_records (s := s) (e := e)
        cases result <;> simp_all
  | succ left ih =>
    rw [runFrom] at failed ⊢
    cases outcome : s.step with
    | mk result s' =>
      have recorded := step_records (s := s) (e := e)
      cases result with
      | error e' => simp_all
      | ok index =>
        cases index with
        | none => simp [outcome] at failed
        | some index =>
          rw [outcome] at failed
          exact ih failed

theorem call_records {call : Call} (failed : (s.call call).1 = some e) :
    (s.call call).2.fault = some e := by
  cases call with
  | step => exact step_records (failure?_eq_some.1 failed)
  | run => exact runFrom_records (failure?_eq_some.1 failed)

theorem call_step_faulted (stopped : s.fault = some e) : s.call .step = (some e, s) := by
  simp [call, step_faulted stopped, failure?]

-- A run of a stopped simulator returns the fault that stopped it, unless its limit is zero, there
-- are instructions left, and the fault is another one than that of the limit.
theorem call_run_faulted (stopped : s.fault = some e) :
    s.call .run = (some e, s) ↔ 0 < s.maxSteps ∨ s.isFinished = true ∨ e = s.limitFault := by
  have again := step_faulted stopped
  unfold call run
  cases limit : s.maxSteps with
  | succ left => simp [runFrom, again, failure?]
  | zero =>
    -- Such a run asks no step for its fault, it makes its own.
    by_cases finished : s.isFinished = true
    · simp [runFrom, finished, again, failure?]
    · simp only [runFrom, finished, failure?, Nat.lt_irrefl, false_or, Bool.not_false, if_true,
        Prod.mk.injEq, Option.some.injEq, Bool.false_eq_true]
      constructor
      · rintro ⟨same, -⟩
        exact same.symm
      · rintro rfl
        exact ⟨rfl, by rw [← stopped]⟩

theorem replies_faulted (stopped : s.fault = some e) {later : List Call} :
    replies call s later = List.replicate later.length (some e, s) ↔
      (.run ∈ later → 0 < s.maxSteps ∨ s.isFinished = true ∨ e = s.limitFault) := by
  rw [replies_eq_replicate_iff, ← call_run_faulted stopped]
  constructor
  · exact fun all => all .run
  · intro run call member
    cases call with
    | step => exact call_step_faulted stopped
    | run => exact run member

end SingleCycle

namespace Pipelined

inductive Call where
  | clock
  | run
  deriving DecidableEq

def call (p : Pipelined) : Call → Option (Located Fault) × Pipelined
  | .clock => (failure? p.clock.1, p.clock.2)
  | .run => (failure? p.run.1, p.run.2)

variable {p : Pipelined} {e : Located Fault} {taken left : Nat}

theorem clock_maxCycles (p : Pipelined) : p.clock.2.maxCycles = p.maxCycles := by
  unfold clock
  split
  · rfl
  · split <;> rfl

theorem runFrom_maxCycles (p : Pipelined) (taken left : Nat) :
    (p.runFrom taken left).2.maxCycles = p.maxCycles := by
  induction left generalizing p taken with
  | zero =>
    rw [runFrom]
    split <;> rfl
  | succ left ih =>
    have kept := p.clock_maxCycles
    rw [runFrom]
    split
    · rfl
    · split <;> simp_all

theorem call_maxCycles (p : Pipelined) (call : Call) : (p.call call).2.maxCycles = p.maxCycles := by
  cases call with
  | clock => exact p.clock_maxCycles
  | run => exact p.runFrom_maxCycles 0 _

theorem behind_maxCycles (p : Pipelined) (calls : List Call) :
    (behind call p calls).maxCycles = p.maxCycles :=
  behind_induction (P := fun q : Pipelined => q.maxCycles = p.maxCycles) rfl
    (fun q c same => (q.call_maxCycles c).trans same) calls

theorem clock_records (failed : p.clock.1 = .error e) : p.clock.2.fault = some e := by
  cases stopped : p.fault with
  | some e' =>
    rw [clock_faulted stopped] at failed ⊢
    cases failed
    exact stopped
  | none =>
    cases outcome : p.pipeline.clock p.machine p.program.instructions with
    | mk result rest =>
      cases result with
      | error e' =>
        rw [clock_error stopped outcome] at failed ⊢
        cases failed
        rfl
      | ok u => simp [clock_ok stopped outcome] at failed

theorem runFrom_records (failed : (p.runFrom taken left).1 = .error e) :
    (p.runFrom taken left).2.fault = some e := by
  induction left generalizing p taken with
  | zero =>
    rw [runFrom] at failed ⊢
    split at failed
    next => cases failed
    next unfinished =>
      rw [if_neg unfinished]
      cases failed
      rfl
  | succ left ih =>
    rw [runFrom] at failed ⊢
    split at failed
    next => cases failed
    next unfinished =>
      rw [if_neg unfinished]
      cases outcome : p.clock with
      | mk result p' =>
        have recorded := clock_records (p := p) (e := e)
        cases result with
        | error e' => simp_all
        | ok u =>
          rw [outcome] at failed
          exact ih failed

theorem call_records {call : Call} (failed : (p.call call).1 = some e) :
    (p.call call).2.fault = some e := by
  cases call with
  | clock => exact clock_records (failure?_eq_some.1 failed)
  | run => exact runFrom_records (failure?_eq_some.1 failed)

theorem call_clock_faulted (stopped : p.fault = some e) : p.call .clock = (some e, p) := by
  simp [call, clock_faulted stopped, failure?]

-- A run of a stopped simulator returns the fault that stopped it, unless nothing is left to fetch
-- and in flight, or its limit is zero and the fault is another one than that of the limit.
theorem call_run_faulted (stopped : p.fault = some e) :
    p.call .run = (some e, p) ↔
      p.isFinished = false ∧ (0 < p.maxCycles ∨ e = p.limitFault) := by
  have again := clock_faulted stopped
  unfold call run
  cases finished : p.isFinished with
  | true => cases p.maxCycles <;> simp [runFrom, finished, failure?]
  | false =>
    cases limit : p.maxCycles with
    | succ left => simp [runFrom, finished, again, failure?]
    | zero =>
      simp only [runFrom, finished, failure?, Nat.lt_irrefl, false_or, if_false, Prod.mk.injEq,
        Option.some.injEq, Bool.false_eq_true, true_and]
      constructor
      · rintro ⟨same, -⟩
        exact same.symm
      · rintro rfl
        exact ⟨rfl, by rw [← stopped]⟩

theorem replies_faulted (stopped : p.fault = some e) {later : List Call} :
    replies call p later = List.replicate later.length (some e, p) ↔
      (.run ∈ later → p.isFinished = false ∧ (0 < p.maxCycles ∨ e = p.limitFault)) := by
  rw [replies_eq_replicate_iff, ← call_run_faulted stopped]
  constructor
  · exact fun all => all .run
  · intro run call member
    cases call with
    | clock => exact call_clock_faulted stopped
    | run => exact run member

end Pipelined

/-- Behind a failed call, all later ones fail alike and change nothing just if each run among them
finds something left to do within its limit. -/
theorem faults_stick_iff {s : SingleCycle} {p : Pipelined}
    (assembled : SingleCycle.ofProgram (.ofLines texts) c = .ok s)
    (assembled' : Pipelined.ofProgram (.ofLines texts) c = .ok p) :
    (∀ earlier last e t, (behind SingleCycle.call s earlier).call last = (some e, t) → ∀ later,
      replies SingleCycle.call t later = List.replicate later.length (some e, t) ↔
        (.run ∈ later → 0 < c.general.maxSteps ∨ t.isFinished = true ∨ e = t.limitFault)) ∧
    ∀ earlier last e t, (behind Pipelined.call p earlier).call last = (some e, t) → ∀ later,
      replies Pipelined.call t later = List.replicate later.length (some e, t) ↔
        (.run ∈ later → t.isFinished = false ∧ (0 < c.pipeline.maxCycles ∨ e = t.limitFault)) := by
  obtain ⟨-, rfl⟩ := SingleCycle.ofProgram_eq_ok.1 assembled
  obtain ⟨-, rfl⟩ := Pipelined.ofProgram_eq_ok.1 assembled'
  constructor
  · intro earlier last e t failed later
    have limit : ((behind SingleCycle.call _ earlier).call last).2.maxSteps = c.general.maxSteps :=
      (SingleCycle.call_maxSteps _ last).trans
        (SingleCycle.behind_maxSteps (.initial (.ofLines texts) c) earlier)
    have stopped := SingleCycle.call_records (congrArg Prod.fst failed)
    rw [failed] at limit stopped
    rw [← limit]
    exact SingleCycle.replies_faulted stopped
  · intro earlier last e t failed later
    have limit : ((behind Pipelined.call _ earlier).call last).2.maxCycles = c.pipeline.maxCycles :=
      (Pipelined.call_maxCycles _ last).trans
        (Pipelined.behind_maxCycles (.initial (.ofLines texts) c) earlier)
    have stopped := Pipelined.call_records (congrArg Prod.fst failed)
    rw [failed] at limit stopped
    rw [← limit]
    exact Pipelined.replies_faulted stopped

theorem faults_stick_iff_load :
    let program := Program.ofLines ["LDUR X1, [XZR, #0]", "ADDI X2, XZR, #2"]
    let s := SingleCycle.initial program {}
    let p := Pipelined.initial program {}
    let e : Located Fault := ⟨0, .outOfSegment 0 .stackOrHeap⟩
    SingleCycle.ofProgram program {} = .ok s ∧ Pipelined.ofProgram program {} = .ok p ∧
      (∃ t, s.call .step = (some e, t) ∧
        replies SingleCycle.call t [.run, .step, .run] = List.replicate 3 (some e, t)) ∧
      ∃ t, p.call .clock = (some e, t) ∧
        replies Pipelined.call t [.run, .clock, .run] = List.replicate 3 (some e, t) := by
  intro program s p e
  have facts : program.isValid = true ∧ (s.call .step).1 = some e ∧ (p.call .clock).1 = some e ∧
      (p.call .clock).2.isFinished = false := by
    decide +kernel
  obtain ⟨valid, step, clock, busy⟩ := facts
  have assembled : SingleCycle.ofProgram program {} = .ok s :=
    SingleCycle.ofProgram_eq_ok.2 ⟨valid, rfl⟩
  have assembled' : Pipelined.ofProgram program {} = .ok p :=
    Pipelined.ofProgram_eq_ok.2 ⟨valid, rfl⟩
  obtain ⟨single, pipelined⟩ := faults_stick_iff assembled assembled'
  refine ⟨assembled, assembled', ⟨_, Prod.ext step rfl, ?_⟩, ⟨_, Prod.ext clock rfl, ?_⟩⟩
  · exact (single [] .step e _ (Prod.ext step rfl) [.run, .step, .run]).2 fun _ => .inl (by decide)
  · exact (pipelined [] .clock e _ (Prod.ext clock rfl) [.run, .clock, .run]).2
      fun _ => ⟨busy, .inl (by decide)⟩

/-- The only instruction of a program fails in an empty pipeline, and a run behind it succeeds. A
limit of zero replaces the fault of an instruction by its own. -/
theorem run_forgets_fault :
    let e : Located Fault := ⟨0, .outOfSegment 0 .stackOrHeap⟩
    (let program := Program.ofLines ["LDUR X1, [XZR, #0]"]
      let p := Pipelined.initial program {}
      Pipelined.ofProgram program {} = .ok p ∧ (p.call .clock).1 = some e ∧
        ((p.call .clock).2.call .run).1 = none) ∧
    (let program := Program.ofLines ["LDUR X1, [XZR, #0]", "ADDI X2, XZR, #2"]
      let c : Config := { general := { maxSteps := 0 } }
      let s := SingleCycle.initial program c
      SingleCycle.ofProgram program c = .ok s ∧ (s.call .step).1 = some e ∧
        ((s.call .step).2.call .run).1 = some ⟨0, .stepLimit 0⟩) := by
  intro e
  constructor
  · intro program p
    have facts : program.isValid = true ∧ (p.call .clock).1 = some e ∧
        ((p.call .clock).2.call .run).1 = none := by
      decide +kernel
    exact ⟨Pipelined.ofProgram_eq_ok.2 ⟨facts.1, rfl⟩, facts.2⟩
  · intro program c s
    have facts : program.isValid = true ∧ (s.call .step).1 = some e ∧
        ((s.call .step).2.call .run).1 = some ⟨0, .stepLimit 0⟩ := by
      decide +kernel
    exact ⟨SingleCycle.ofProgram_eq_ok.2 ⟨facts.1, rfl⟩, facts.2⟩

end Legv8
