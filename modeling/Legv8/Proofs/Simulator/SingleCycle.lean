import Legv8.Simulator.SingleCycle

set_option autoImplicit false

namespace Legv8

namespace Machine

variable {m : Machine} {code : Array Instruction}

theorem step_past_end (ended : code[m.next]? = none) : m.step code = (.ok none, m) := by
  simp [step, ended]

theorem step_index {i : Instruction} {x : Option Nat} (fetched : code[m.next]? = some i)
    (done : (m.step code).1 = .ok x) : x = some m.next := by
  rw [step, fetched] at done
  dsimp only at done
  split at done
  next => simp at done
  next => simpa using done.symm

theorem step_machine {i : Instruction} (fetched : code[m.next]? = some i) :
    (m.step code).2 = ({ m with next := m.next + 1 }.execute i).2 := by
  rw [step, fetched]
  dsimp only
  split <;> simp_all

theorem step_ok_iff {i : Instruction} (fetched : code[m.next]? = some i) :
    (m.step code).1 = .ok (some m.next) ↔ ({ m with next := m.next + 1 }.execute i).1 = .ok () := by
  rw [step, fetched]
  dsimp only
  split <;> simp_all

end Machine

structure Statistics.SameMix (a b : Statistics) : Prop where
  retired : a.retired = b.retired
  alu : a.alu = b.alu
  load : a.load = b.load
  store : a.store = b.store
  branch : a.branch = b.branch
  floatingPoint : a.floatingPoint = b.floatingPoint

namespace Statistics

theorem SameMix.refl (a : Statistics) : a.SameMix a :=
  ⟨rfl, rfl, rfl, rfl, rfl, rfl⟩

theorem SameMix.trans {a b c : Statistics} (first : a.SameMix b) (second : b.SameMix c) :
    a.SameMix c :=
  ⟨first.retired.trans second.retired, first.alu.trans second.alu, first.load.trans second.load,
    first.store.trans second.store, first.branch.trans second.branch,
    first.floatingPoint.trans second.floatingPoint⟩

theorem SameMix.symm {a b : Statistics} (same : a.SameMix b) : b.SameMix a :=
  ⟨same.retired.symm, same.alu.symm, same.load.symm, same.store.symm, same.branch.symm,
    same.floatingPoint.symm⟩

theorem SameMix.record {a b : Statistics} (same : a.SameMix b) (m : Mnemonic) :
    (a.record m).SameMix (b.record m) := by
  obtain ⟨retired, alu, load, store, branch, floatingPoint⟩ := same
  simp only [Statistics.record]
  repeat' split
  all_goals constructor <;> simp [*]

theorem record_cycles (s : Statistics) (m : Mnemonic) : (s.record m).cycles = s.cycles := by
  simp only [record]
  repeat' split
  all_goals rfl

theorem record_dataStalls (s : Statistics) (m : Mnemonic) :
    (s.record m).dataStalls = s.dataStalls := by
  simp only [record]
  repeat' split
  all_goals rfl

theorem record_controlFlushes (s : Statistics) (m : Mnemonic) :
    (s.record m).controlFlushes = s.controlFlushes := by
  simp only [record]
  repeat' split
  all_goals rfl

end Statistics

namespace SingleCycle

variable {s : SingleCycle}

theorem step_program (s : SingleCycle) : s.step.2.program = s.program := by
  simp only [step]
  repeat' split
  all_goals rfl

theorem step_faulted {e : Located Fault} (stopped : s.fault = some e) : s.step = (.error e, s) := by
  simp [step, stopped]

theorem step_ended (running : s.fault = none)
    (ended : s.program.instructions[s.machine.next]? = none) : s.step = (.ok none, s) := by
  simp [step, running, ended]

theorem step_failed {i : Instruction} {e : Located Fault} {m : Machine} (running : s.fault = none)
    (fetched : s.program.instructions[s.machine.next]? = some i)
    (failed : s.machine.step s.program.instructions = (.error e, m)) :
    s.step = (.error e,
      { s with
        previous := s.current, current := some s.machine.next, currentLine := some i.line
        machine := m, fault := some e }) := by
  simp [step, running, fetched, failed]

theorem step_executed {i : Instruction} {x : Option Nat} {m : Machine} (running : s.fault = none)
    (fetched : s.program.instructions[s.machine.next]? = some i)
    (done : s.machine.step s.program.instructions = (.ok x, m)) :
    s.step = (.ok (some s.machine.next),
      { s with
        previous := s.current, current := some s.machine.next, currentLine := some i.line
        machine := m
        statistics := { s.statistics with cycles := s.statistics.cycles + 1 }.record i.mnemonic }) := by
  simp [step, running, fetched, done]

theorem step_machine (running : s.fault = none) :
    s.step.1 = (s.machine.step s.program.instructions).1 ∧
      s.step.2.machine = (s.machine.step s.program.instructions).2 := by
  cases fetched : s.program.instructions[s.machine.next]? with
  | none => simp [step_ended running fetched, Machine.step_past_end fetched]
  | some i =>
    cases outcome : s.machine.step s.program.instructions with
    | mk result m =>
      cases result with
      | error e => simp [step_failed running fetched outcome]
      | ok x =>
        have index : x = some s.machine.next := Machine.step_index fetched (congrArg Prod.fst outcome)
        simp [step_executed running fetched outcome, index]

theorem step_fault {x : Option Nat} (done : s.step.1 = .ok x) :
    s.fault = none ∧ s.step.2.fault = none := by
  cases stopped : s.fault with
  | some e => simp [step_faulted stopped] at done
  | none =>
    refine ⟨rfl, ?_⟩
    cases fetched : s.program.instructions[s.machine.next]? with
    | none => simpa [step_ended stopped fetched] using stopped
    | some i =>
      cases outcome : s.machine.step s.program.instructions with
      | mk result m =>
        cases result with
        | error e => simp [step_failed stopped fetched outcome] at done
        | ok _ => simpa [step_executed stopped fetched outcome] using stopped

theorem step_mix {i : Instruction} {index : Nat} (done : s.step.1 = .ok (some index))
    (fetched : s.program.instructions[s.machine.next]? = some i) :
    s.step.2.statistics.SameMix (s.statistics.record i.mnemonic) := by
  have running := (step_fault done).1
  cases outcome : s.machine.step s.program.instructions with
  | mk result m =>
    cases result with
    | error e => simp [step_failed running fetched outcome] at done
    | ok _ =>
      have same : Statistics.SameMix { s.statistics with cycles := s.statistics.cycles + 1 }
        s.statistics := ⟨rfl, rfl, rfl, rfl, rfl, rfl⟩
      simpa [step_executed running fetched outcome] using same.record i.mnemonic

def after (s : SingleCycle) : Nat → SingleCycle
  | 0 => s
  | n + 1 => (s.after n).step.2

def Executes (s : SingleCycle) (k : Nat) : Prop :=
  ∀ j < k, ∃ index, (s.after j).step.1 = .ok (some index)

@[simp] theorem after_program (s : SingleCycle) (n : Nat) : (s.after n).program = s.program := by
  induction n with
  | zero => rfl
  | succ n ih => rw [after, step_program, ih]

theorem Executes.succ {k index : Nat} (executes : s.Executes k)
    (next : (s.after k).step.1 = .ok (some index)) : s.Executes (k + 1) := by
  intro j inside
  by_cases earlier : j < k
  · exact executes j earlier
  · obtain rfl : j = k := by omega
    exact ⟨index, next⟩

theorem Executes.fault {k : Nat} (executes : s.Executes k) (fresh : s.fault = none) :
    (s.after k).fault = none := by
  cases k with
  | zero => exact fresh
  | succ k =>
    obtain ⟨_, done⟩ := executes k (by omega)
    exact (step_fault done).2

theorem Executes.step {j k : Nat} (executes : s.Executes k) (inside : j < k) :
    ∃ i, s.program.instructions[(s.after j).machine.next]? = some i ∧
      ((s.after j).machine.step s.program.instructions) =
        (.ok (some (s.after j).machine.next), (s.after (j + 1)).machine) := by
  obtain ⟨index, done⟩ := executes j inside
  have running := (step_fault done).1
  obtain ⟨result, machine⟩ := step_machine running
  rw [result] at done
  simp only [after_program] at done machine
  cases fetched : s.program.instructions[(s.after j).machine.next]? with
  | none => simp [Machine.step_past_end fetched] at done
  | some i =>
    refine ⟨i, rfl, Prod.ext ?_ machine.symm⟩
    rw [done, Machine.step_index fetched done]

theorem Executes.executed {j k : Nat} {i : Instruction} (executes : s.Executes k)
    (inside : j < k)
    (fetched : s.program.instructions[(s.after j).machine.next]? = some i) :
    ∃ m : Machine, m.registers = (s.after j).machine.registers ∧ (m.execute i).1 = .ok () ∧
      (m.execute i).2 = (s.after (j + 1)).machine := by
  obtain ⟨i', fetched', step⟩ := executes.step inside
  have after := Machine.step_machine fetched
  have done := congrArg Prod.fst step
  rw [step] at after
  exact ⟨{ (s.after j).machine with next := (s.after j).machine.next + 1 }, rfl,
    (Machine.step_ok_iff fetched).1 done, after.symm⟩

theorem Executes.mix {j k : Nat} {i : Instruction} (executes : s.Executes k) (inside : j < k)
    (fetched : s.program.instructions[(s.after j).machine.next]? = some i) :
    (s.after (j + 1)).statistics.SameMix ((s.after j).statistics.record i.mnemonic) := by
  obtain ⟨index, done⟩ := executes j inside
  exact step_mix done (by simpa using fetched)

structure Finishes (s : SingleCycle) (n : Nat) : Prop where
  executes : s.Executes n
  ended : (s.after n).step.1 = .ok none

namespace Finishes

variable {n : Nat} (finishes : s.Finishes n)

include finishes

theorem executed_le {k : Nat} (executes : s.Executes k) : k ≤ n := by
  by_cases beyond : n < k
  · obtain ⟨index, done⟩ := executes n beyond
    simp [finishes.ended] at done
  · omega

theorem more_iff {k : Nat} (le : k ≤ n) :
    (s.after k).machine.next < s.program.instructions.size ↔ k < n := by
  constructor
  · intro more
    -- With an instruction left at the end, the last step would have executed it.
    by_cases last : k = n
    · subst last
      have ended := finishes.ended
      rw [(step_machine (step_fault ended).1).1, after_program] at ended
      have fetched := Array.getElem?_eq_getElem more
      have index := Machine.step_index fetched ended
      cases index
    · omega
  · intro inside
    obtain ⟨i, fetched, -⟩ := finishes.executes.step inside
    obtain ⟨more, -⟩ := Array.getElem?_eq_some_iff.1 fetched
    exact more

end Finishes

def takenBranches (s : SingleCycle) (k : Nat) : Nat :=
  (List.range k).countP fun j => (s.after (j + 1)).machine.taken

theorem takenBranches_succ (s : SingleCycle) (k : Nat) :
    s.takenBranches (k + 1) = s.takenBranches k + (s.after (k + 1)).machine.taken.toNat := by
  rw [takenBranches, List.range_succ, List.countP_append, List.countP_singleton]
  cases (s.after (k + 1)).machine.taken <;> rfl

theorem takenBranches_le (s : SingleCycle) (k : Nat) : s.takenBranches k ≤ k := by
  have count : s.takenBranches k ≤ (List.range k).length := List.countP_le_length
  rwa [List.length_range] at count

end SingleCycle

end Legv8
