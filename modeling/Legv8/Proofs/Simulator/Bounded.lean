import Legv8.Proofs.Machine.Sound
import Legv8.Proofs.Simulator.LockStep

set_option autoImplicit false

namespace Legv8

structure Stepping (σ : Type) where
  finished : σ → Bool
  step : σ → Except (Located Fault) Unit × σ
  -- The fault of a run that is at its limit, and how the system keeps it.
  limitFault : σ → Located Fault
  record : σ → Located Fault → σ

namespace Stepping

variable {σ : Type}

def runFrom (S : Stepping σ) (s : σ) (taken : Nat) : Nat → Except (Located Fault) Nat × σ
  | 0 =>
      if S.finished s then (.ok taken, s)
      else (.error (S.limitFault s), S.record s (S.limitFault s))
  | left + 1 =>
      if S.finished s then (.ok taken, s)
      else
        match S.step s with
        | (.error e, s') => (.error e, s')
        | (.ok (), s') => S.runFrom s' (taken + 1) left

def after (S : Stepping σ) (s : σ) : Nat → σ
  | 0 => s
  | n + 1 => (S.step (S.after s n)).2

variable (S : Stepping σ)

def Advances (s : σ) (n : Nat) : Prop :=
  ∀ j < n, S.finished (S.after s j) = false ∧ (S.step (S.after s j)).1 = .ok ()

def Finishes (s : σ) (n : Nat) : Prop :=
  S.Advances s n ∧ S.finished (S.after s n) = true

def Fails (s : σ) (n : Nat) (e : Located Fault) : Prop :=
  S.Advances s n ∧ S.finished (S.after s n) = false ∧ (S.step (S.after s n)).1 = .error e

inductive Ends (limit : Nat) (s : σ) : Nat → Except (Located Fault) Nat × σ → Prop where
  | finished {n : Nat} : n ≤ limit → S.Finishes s n → Ends limit s n (.ok n, S.after s n)
  | limited : S.Advances s limit → S.finished (S.after s limit) = false →
      Ends limit s limit (.error (S.limitFault (S.after s limit)),
        S.record (S.after s limit) (S.limitFault (S.after s limit)))
  | failed {n : Nat} {e : Located Fault} : n < limit → S.Fails s n e →
      Ends limit s n (.error e, S.after s (n + 1))

variable {S} {s : σ} {n n' limit taken left : Nat} {e : Located Fault}
  {out out' : Except (Located Fault) Nat × σ}

theorem after_succ (s : σ) (n : Nat) : S.after s (n + 1) = S.after (S.step s).2 n := by
  induction n with
  | zero => rfl
  | succ n ih => rw [after, ih, after]

theorem Advances.zero : S.Advances s 0 :=
  fun _ none => absurd none (Nat.not_lt_zero _)

theorem advances_succ : S.Advances s (n + 1) ↔
    (S.finished s = false ∧ (S.step s).1 = .ok ()) ∧ S.Advances (S.step s).2 n := by
  constructor
  · intro advances
    refine ⟨advances 0 (Nat.succ_pos n), fun j inside => ?_⟩
    rw [← after_succ]
    exact advances (j + 1) (Nat.succ_lt_succ inside)
  · rintro ⟨first, rest⟩ j inside
    cases j with
    | zero => exact first
    | succ j =>
      rw [after_succ]
      exact rest j (Nat.lt_of_succ_lt_succ inside)

theorem Ends.advances (ends : S.Ends limit s n out) : S.Advances s n := by
  cases ends with
  | finished _ finishes => exact finishes.1
  | limited advances _ => exact advances
  | failed _ fails => exact fails.1

theorem Ends.succ (busy : S.finished s = false) (done : (S.step s).1 = .ok ())
    (ends : S.Ends limit (S.step s).2 n out) :
    S.Ends (limit + 1) s (n + 1) (out.1.map (· + 1), out.2) := by
  have first : S.finished s = false ∧ (S.step s).1 = .ok () := ⟨busy, done⟩
  cases ends with
  | finished within finishes =>
    rw [← after_succ]
    refine .finished (Nat.succ_le_succ within) ⟨advances_succ.2 ⟨first, finishes.1⟩, ?_⟩
    rw [after_succ]
    exact finishes.2
  | limited advances more =>
    rw [← after_succ] at more ⊢
    exact .limited (advances_succ.2 ⟨first, advances⟩) more
  | failed within fails =>
    obtain ⟨advances, more, failed⟩ := fails
    rw [← after_succ] at more failed ⊢
    exact .failed (Nat.succ_lt_succ within) ⟨advances_succ.2 ⟨first, advances⟩, more, failed⟩

theorem runFrom_ends (s : σ) (taken left : Nat) :
    ∃ n out, S.Ends left s n out ∧ S.runFrom s taken left = (out.1.map (taken + ·), out.2) := by
  -- By induction on the steps that are left: the first of them is put in front of the others.
  induction left generalizing s taken with
  | zero =>
    rw [runFrom]
    cases finished : S.finished s with
    | true => exact ⟨0, _, .finished (Nat.le_refl 0) ⟨.zero, finished⟩, rfl⟩
    | false => exact ⟨0, _, .limited .zero finished, rfl⟩
  | succ left ih =>
    rw [runFrom]
    cases finished : S.finished s with
    | true => exact ⟨0, _, .finished (Nat.zero_le _) ⟨.zero, finished⟩, rfl⟩
    | false =>
      rw [if_neg Bool.false_ne_true]
      split
      next e s' failed =>
        have fails : S.Fails s 0 e := ⟨.zero, finished, congrArg Prod.fst failed⟩
        refine ⟨0, _, .failed (Nat.succ_pos left) fails, ?_⟩
        rw [after, after, failed]
        rfl
      next s' done =>
        obtain ⟨n, out, ends, run⟩ := ih s' (taken + 1)
        have first : (S.step s).1 = .ok () := congrArg Prod.fst done
        have state : (S.step s).2 = s' := congrArg Prod.snd done
        rw [← state] at ends
        refine ⟨n + 1, _, ends.succ finished first, ?_⟩
        rw [run]
        cases out.1 with
        | error e => rfl
        | ok k => simp [Except.map, Nat.add_assoc, Nat.add_comm 1 k]

theorem run_ends (s : σ) (limit : Nat) : ∃ n, S.Ends limit s n (S.runFrom s 0 limit) := by
  obtain ⟨n, ⟨result, final⟩, ends, run⟩ := S.runFrom_ends s 0 limit
  refine ⟨n, ?_⟩
  cases result <;> simpa [run, Except.map] using ends

theorem Ends.steps_le (ends : S.Ends limit s n out) : n ≤ limit := by
  cases ends with
  | finished within _ => exact within
  | limited _ _ => exact Nat.le_refl _
  | failed within _ => exact Nat.le_of_lt within

-- Where one run ends, no other one goes on.
theorem Ends.not_lt (ends : S.Ends limit s n out) (ends' : S.Ends limit s n' out') :
    ¬ n < n' := by
  intro before
  obtain ⟨busy, done⟩ := ends'.advances n before
  cases ends with
  | finished _ finishes =>
    rw [finishes.2] at busy
    cases busy
  | limited _ _ => exact absurd ends'.steps_le (Nat.not_le_of_lt before)
  | failed _ fails =>
    rw [fails.2.2] at done
    cases done

theorem Ends.unique (ends : S.Ends limit s n out) (ends' : S.Ends limit s n' out') :
    n = n' ∧ out = out' := by
  have least := ends.not_lt ends'
  have least' := ends'.not_lt ends
  obtain rfl : n = n' := by omega
  refine ⟨rfl, ?_⟩
  -- Both end behind the same steps, where the system has only one way to go on.
  cases ends with
  | finished _ finishes =>
    cases ends' with
    | finished _ _ => rfl
    | limited _ busy => exact Bool.noConfusion (finishes.2.symm.trans busy)
    | failed _ fails => exact Bool.noConfusion (finishes.2.symm.trans fails.2.1)
  | limited _ busy =>
    cases ends' with
    | finished _ finishes => exact Bool.noConfusion (finishes.2.symm.trans busy)
    | limited _ _ => rfl
    | failed within _ => exact absurd within (Nat.lt_irrefl _)
  | failed within fails =>
    cases ends' with
    | finished _ finishes => exact Bool.noConfusion (finishes.2.symm.trans fails.2.1)
    | limited _ _ => exact absurd within (Nat.lt_irrefl _)
    | failed _ fails' =>
      obtain rfl := Except.error.inj (fails.2.2.symm.trans fails'.2.2)
      rfl

structure Limits (S : Stepping σ) (limit : Nat) (s : σ) : Prop where
  limit : ∀ n, (S.limitFault (S.after s n)).cause = .stepLimit limit
  steps : ∀ n e, S.Fails s n e → e.cause.isLimit = false

/-- A bounded run as single steps tell it, of which some succeed: the result is the number of steps
to the end, the fault of the limit, or the first fault of a step, and the system is left where
these steps end. -/
structure Law (S : Stepping σ) (limit : Nat) (s : σ) (n : Nat)
    (out : Except (Located Fault) Nat × σ) : Prop where
  ends : S.Ends limit s n out
  finished_iff : ∀ n, out.1 = .ok n ↔ n ≤ limit ∧ S.Finishes s n
  limited_iff : (∃ e, out.1 = .error e ∧ e.cause = .stepLimit limit) ↔
    S.Advances s limit ∧ S.finished (S.after s limit) = false
  failed_iff : ∀ e, e.cause ≠ .stepLimit limit →
    (out.1 = .error e ↔ ∃ n < limit, S.Fails s n e)

theorem Ends.law (ends : S.Ends limit s n out) (limits : S.Limits limit s) :
    S.Law limit s n out where
  ends
  finished_iff := by
    intro k
    constructor
    · intro done
      cases ends with
      | finished within finishes =>
        obtain rfl := Except.ok.inj done
        exact ⟨within, finishes⟩
      | limited _ _ => cases done
      | failed _ _ => cases done
    · rintro ⟨within, finishes⟩
      rw [(ends.unique (.finished within finishes)).2]
  limited_iff := by
    constructor
    · rintro ⟨e, stopped, cause⟩
      cases ends with
      | finished _ _ => cases stopped
      | limited advances busy => exact ⟨advances, busy⟩
      | failed _ fails =>
        obtain rfl := Except.error.inj stopped
        have other := limits.steps _ _ fails
        rw [cause] at other
        cases other
    · rintro ⟨advances, busy⟩
      rw [(ends.unique (.limited advances busy)).2]
      exact ⟨_, rfl, limits.limit _⟩
  failed_iff := by
    intro e other
    constructor
    · intro stopped
      cases ends with
      | finished _ _ => cases stopped
      | limited _ _ =>
        obtain rfl := Except.error.inj stopped
        exact absurd (limits.limit _) other
      | failed within fails =>
        obtain rfl := Except.error.inj stopped
        exact ⟨_, within, fails⟩
    · rintro ⟨k, within, fails⟩
      rw [(ends.unique (.failed within fails)).2]

end Stepping

namespace SingleCycle

def stepping : Stepping SingleCycle where
  finished s := match s.step.1 with
    | .ok none => true
    | _ => false
  step s := (s.step.1.map fun _ => (), s.step.2)
  limitFault := limitFault
  record s e := { s with fault := some e }

variable {s : SingleCycle} {n taken left : Nat}

theorem stepping_after (s : SingleCycle) (n : Nat) : stepping.after s n = s.after n := by
  induction n with
  | zero => rfl
  | succ n ih => rw [Stepping.after, ih, after, stepping]

theorem stepping_finished : stepping.finished s = true ↔ s.step.1 = .ok none := by
  unfold stepping
  dsimp only
  split <;> simp_all

theorem stepping_step : stepping.step s = (s.step.1.map fun _ => (), s.step.2) :=
  rfl

theorem stepping_error {e : Located Fault} :
    (stepping.step s).1 = .error e ↔ s.step.1 = .error e := by
  rw [stepping_step]
  cases s.step.1 <;> simp [Except.map]

theorem stepping_goes : (stepping.finished s = false ∧ (stepping.step s).1 = .ok ()) ↔
    ∃ index, s.step.1 = .ok (some index) := by
  rw [← Bool.not_eq_true, stepping_finished, stepping_step]
  rcases s.step.1 with e | _ | index <;> simp [Except.map]

theorem stepping_advances : stepping.Advances s n ↔ s.Executes n := by
  simp only [Stepping.Advances, Executes, stepping_after, stepping_goes]

theorem ended_iff (running : s.fault = none) : s.step.1 = .ok none ↔ s.isFinished = true := by
  rw [isFinished, decide_eq_true_eq, ← Array.getElem?_eq_none_iff]
  constructor
  · intro ended
    cases fetched : s.program.instructions[s.machine.next]? with
    | none => rfl
    | some i =>
      rw [(step_machine running).1] at ended
      cases Machine.step_index fetched ended
  · intro ended
    rw [step_ended running ended]

theorem step_finished (running : s.fault = none) (finished : s.isFinished = true) :
    s.step = (.ok none, s) := by
  rw [isFinished, decide_eq_true_eq, ← Array.getElem?_eq_none_iff] at finished
  exact step_ended running finished

theorem stepping_isFinished (running : s.fault = none) :
    stepping.finished s = s.isFinished := by
  rw [Bool.eq_iff_iff, stepping_finished, ended_iff running]

theorem stepping_runFrom (running : s.fault = none) :
    s.runFrom taken left = stepping.runFrom s taken left := by
  induction left generalizing s taken with
  | zero =>
    rw [runFrom, Stepping.runFrom, stepping_isFinished running]
    cases ended : s.isFinished with
    | true => rw [step_finished running ended]; rfl
    | false => rfl
  | succ left ih =>
    rw [runFrom, Stepping.runFrom, stepping_isFinished running, stepping_step]
    cases ended : s.isFinished with
    | true => rw [step_finished running ended]; rfl
    | false =>
      cases outcome : s.step with
      | mk result s' =>
        have first := congrArg Prod.fst outcome
        rcases result with e | _ | index
        · rfl
        · rw [(ended_iff running).1 first] at ended
          cases ended
        · have kept := (step_fault first).2
          rw [outcome] at kept
          exact ih kept

theorem run_ends (running : s.fault = none) : ∃ n, stepping.Ends s.maxSteps s n s.run := by
  rw [SingleCycle.run, stepping_runFrom running]
  exact Stepping.run_ends s s.maxSteps

end SingleCycle

namespace Pipelined

def stepping : Stepping Pipelined where
  finished := isFinished
  step := clock
  limitFault := limitFault
  record p e := { p with fault := some e }

theorem stepping_after (p : Pipelined) (n : Nat) : stepping.after p n = p.after n := by
  induction n with
  | zero => rfl
  | succ n ih => rw [Stepping.after, ih, after, stepping]

theorem stepping_runFrom (p : Pipelined) (taken left : Nat) :
    p.runFrom taken left = stepping.runFrom p taken left := by
  induction left generalizing p taken with
  | zero => rfl
  | succ left ih =>
    have step : stepping.step p = p.clock := rfl
    have finished : stepping.finished p = p.isFinished := rfl
    rw [runFrom, Stepping.runFrom, step, finished]
    cases outcome : p.clock with
    | mk result p' =>
      cases result with
      | error e => rfl
      | ok u => simp only [ih]

theorem run_ends (p : Pipelined) : ∃ n, stepping.Ends p.maxCycles p n p.run := by
  rw [Pipelined.run, stepping_runFrom]
  exact Stepping.run_ends p p.maxCycles

end Pipelined

end Legv8
