import Legv8.Proofs.Simulator.Structure

set_option autoImplicit false

namespace Legv8

namespace Machine

variable {m m' : Machine} {code : Array Instruction} {i : Instruction} {e : Effect}

theorem jump_announced {index : Nat} (effect : m.effect i = .ok e) (jump : e.jump = some index) :
    i.mnemonic.operation.isBranch = true ∧ e.taken = i.mnemonic.operation.announces := by
  have branch := (effect_fits effect).jump index jump
  refine ⟨branch, ?_⟩
  have effect := effect_operation effect
  cases operation : i.mnemonic.operation with
  | branch | branchLink =>
    rw [operation] at effect
    cases pure_eq_ok.1 effect
    rfl
  | branchRegister =>
    simp only [operation, operationEffect, bind_eq_ok, pure_eq_ok] at effect
    obtain ⟨target, -, index, -, rfl⟩ := effect
    rfl
  | branchIf c =>
    simp only [operation, operationEffect, pure_eq_ok] at effect
    split at effect
    next =>
      cases effect
      rfl
    next =>
      cases effect
      cases jump
  | branchZero whenZero =>
    simp only [operation, operationEffect, bind_eq_ok, pure_eq_ok] at effect
    obtain ⟨v, -, effect⟩ := effect
    split at effect
    next =>
      cases effect
      rfl
    next =>
      cases effect
      cases jump
  | _ => simp [operation, Operation.isBranch] at branch

theorem step_straight (fetched : code[m.next]? = some i)
    (done : m.step code = (.ok (some m.next), m')) (untaken : m'.taken = false)
    (loud : i.mnemonic.operation.isBranch = true → i.mnemonic.operation.announces = true) :
    m'.pc = m.pc + 4 := by
  have executed := (step_ok_iff fetched).1 (congrArg Prod.fst done)
  obtain ⟨e, registers, effect, -, after⟩ := execute_ok executed
  have machine := step_machine fetched
  rw [done, after] at machine
  have index : m'.next = e.jump.getD (m.next + 1) := congrArg Machine.next machine
  have taken : m'.taken = e.taken := congrArg Machine.taken machine
  have straight : e.jump = none := by
    cases jump : e.jump with
    | none => rfl
    | some index =>
      obtain ⟨branch, announced⟩ := jump_announced effect jump
      rw [← taken, untaken, loud branch] at announced
      cases announced
  rw [pc, pc, index, straight, step_text done]
  exact instructionAddress_succ _ _

end Machine

def Mnemonic.silentBranches : List Mnemonic :=
  [.bl, .br, .bcond .lt]

theorem Mnemonic.announces_of_isBranch {m : Mnemonic} (loud : m ∉ silentBranches)
    (branch : m.operation.isBranch = true) : m.operation.announces = true := by
  cases m with
  | bcond c => cases c <;> first | rfl | simp [silentBranches] at loud
  | bl | br => simp [silentBranches] at loud
  | _ => first | rfl | cases branch

namespace Pipeline

variable {code : Array Instruction} {p q : Pipeline} {m m' : Machine} {f : Flight}
  {s : SingleCycle} {k : Nat}

structure Places (p q : Pipeline) (f : Flight) : Prop where
  fetched : q.stages.fetch = some f
  moved : ¬ p.Stalls q

theorem Clocked.placed_cases (clocked : Clocked code p m q m') (places : p.Places q f) :
    (∃ branch, p.stages.fetch = some branch ∧ branch.taken = true ∧ f.pc = branch.pc + 4) ∨
      p.Attempts m code ∧ f.pc = m.pc := by
  have fetched := places.fetched
  cases clocked with
  | idle log drained =>
    have empty : p.stages.fetch = none := by
      simp only [isDrained, Stages.isEmpty, Stages.toList, Bool.and_eq_true, List.all_cons,
        Option.isNone_iff_eq_none] at drained
      exact drained.2.1
    rw [empty] at fetched
    cases fetched
  | bubble log line busy pending =>
    have counted := bubble_counted (p := p) log line
    exact absurd ⟨counted.stages, counted.dataStalls⟩ places.moved
  | drain log line busy ended clear =>
    rw [land_stages] at fetched
    cases fetched
  | behind log line branch more clear stage taken =>
    rw [land_stages] at fetched
    obtain ⟨i, -, rfl⟩ := Option.map_eq_some_iff.1 fetched
    exact .inl ⟨branch, stage, taken, rfl⟩
  | fetch log line i m' attempts next done =>
    rw [land_stages] at fetched
    cases fetched
    exact .inr ⟨attempts, rfl⟩

theorem InStep.newest (inStep : p.InStep s k) (fetch : p.stages.fetch = some f)
    (executed : f.isPlaceholder = false) : ∃ r, k = r + 1 ∧ s.flight? r = some f := by
  have held : p.stages.inFlight =
      Stages.executedIn [p.stages.memory, p.stages.execute, p.stages.decode] ++ [f] := by
    have single : Stages.executedIn [some f] = [f] := Stages.executedIn_executed [] executed
    rw [Stages.inFlight, fetch, ← single]
    exact Stages.executedIn_append [_, _, _] [some f]
  have count := congrArg List.length inStep.inFlight
  simp only [List.length_map, List.length_range', held, List.length_append,
    List.length_singleton] at count
  obtain ⟨inside, recorded⟩ := inStep.position (f := f)
    (j := (Stages.executedIn [p.stages.memory, p.stages.execute, p.stages.decode]).length) (by
      rw [held, List.getElem?_concat_length])
  exact ⟨_, by omega, recorded⟩

end Pipeline

namespace Pipelined

open Pipeline

variable {texts : List String} {c : Config} {s : SingleCycle} {k : Nat} {p : Pipelined}
  {f : Flight}

theorem LockStep.newest (lock : p.LockStep s k) (fetch : p.pipeline.stages.fetch = some f)
    (executed : f.isPlaceholder = false) :
    ∃ m : Machine, f.pc = m.pc ∧ f.taken = p.machine.taken ∧
      s.program.instructions[m.next]? = some f.instruction ∧
      m.step s.program.instructions = (.ok (some m.next), p.machine) := by
  obtain ⟨r, rfl, recorded⟩ := lock.inStep.newest fetch executed
  obtain ⟨i, fetched, rfl⟩ := flight?_eq_some recorded
  obtain ⟨-, -, step⟩ := lock.executes.step (Nat.lt_succ_self r)
  rw [← lock.machine] at step ⊢
  exact ⟨(s.after r).machine, rfl, rfl, fetched, step⟩

-- The instruction in the fetch stage has gone elsewhere without announcing it.
def Strays (p : Pipelined) : Prop :=
  ∃ g, p.pipeline.stages.fetch = some g ∧ g.isPlaceholder = false ∧
    g.instruction.mnemonic ∈ Mnemonic.silentBranches ∧ p.machine.pc ≠ g.pc + 4

theorem pc_eq (p : Pipelined) : p.pc =
    match p.pipeline.stages.fetch with
    | some g => if g.isPlaceholder then p.machine.pc else g.pc + 4
    | none => p.machine.pc :=
  rfl

theorem LockStep.pc_iff (lock : p.LockStep s k) (attempts : p.Attempts) :
    p.machine.pc = p.pc ↔ ¬ p.Strays := by
  rw [pc_eq, Strays]
  cases stage : p.pipeline.stages.fetch with
  | none => simp
  | some g =>
    cases unexecuted : g.isPlaceholder with
    | true => simp [unexecuted]
    | false =>
      by_cases silent : g.instruction.mnemonic ∈ Mnemonic.silentBranches
      next => simp [unexecuted, silent]
      next =>
        -- An announced branch is behind its placeholder by now, so this one was not taken.
        obtain ⟨m, address, taken, fetched, step⟩ := lock.newest stage unexecuted
        have untaken : p.machine.taken = false := taken ▸ attempts.straight g stage
        have straight := Machine.step_straight fetched step untaken
          (Mnemonic.announces_of_isBranch silent)
        simp [unexecuted, silent, straight, address]

theorem LockStep.placed_iff (lock : p.LockStep s k) (done : p.clock.1 = .ok ())
    (places : p.pipeline.Places p.clock.2.pipeline f) : f.pc = p.pc ↔ ¬ p.Strays := by
  rcases lock.clock_cases with ⟨k', -, -, clocked, attempted⟩ | ⟨e, m, line, -, -, failed⟩
  · rcases clocked.placed_cases places with ⟨branch, stage, taken, address⟩ | ⟨attempts, address⟩
    · -- The branch was announced, and its successor comes next.
      have executed := Flight.executed_of_taken taken
      have announces := (lock.recorded.fetch branch stage).announces taken
      have loud : branch.instruction.mnemonic ∉ Mnemonic.silentBranches := by
        intro silent
        simp only [Mnemonic.silentBranches, List.mem_cons, List.not_mem_nil, or_false] at silent
        rcases silent with same | same | same <;> rw [same] at announces <;> cases announces
      simp [pc_eq, Strays, stage, executed, loud, address]
    · rw [address]
      refine lock.pc_iff ?_
      unfold Attempts
      rwa [lock.program]
  · rw [failed] at done
    cases done

/-- The program counter tells the address of the record that the next clock cycle fetches, executed
or not, exactly if the machine has not strayed from it. -/
theorem pc_predicts_fetch_iff (assembled : ofProgram (.ofLines texts) c = .ok p) (n : Nat)
    (done : (p.after n).clock.1 = .ok ())
    (places : (p.after n).pipeline.Places (p.after n).clock.2.pipeline f) :
    f.pc = (p.after n).pc ↔ ¬ (p.after n).Strays := by
  have running : (p.after n).fault = none := by
    cases stopped : (p.after n).fault with
    | none => rfl
    | some e =>
      rw [clock_faulted stopped] at done
      cases done
  obtain ⟨j, k, lock, -, -, -, current, -⟩ := (LockStep.assembled assembled).shown n
  cases current running
  exact lock.placed_iff done places

-- A placeholder is fetched behind a taken branch.
theorem pc_predicts_fetch_iff_placeholder :
    let program := Program.ofLines ["CBZ XZR, end", "ADDI X1, XZR, #1", "end: ADDI X2, XZR, #2"]
    let p := initial program {}
    ofProgram program {} = .ok p ∧ (p.after 1).clock.1 = .ok () ∧
      ∃ f, (p.after 1).pipeline.Places (p.after 1).clock.2.pipeline f ∧ f.isPlaceholder = true ∧
        ¬ (p.after 1).Strays ∧ f.pc = (p.after 1).pc := by
  intro program p
  have facts : program.isValid = true ∧ (p.after 1).clock.1.toOption = some () ∧
      (p.after 1).pipeline.stages.fetch.map (fun g => g.instruction.mnemonic) = some .cbz ∧
      (p.after 1).clock.2.pipeline.stages.fetch.map Flight.isPlaceholder = some true ∧
      (p.after 1).clock.2.pipeline.statistics.dataStalls =
        (p.after 1).pipeline.statistics.dataStalls := by
    decide +kernel
  obtain ⟨valid, succeeds, branch, fetched, unstalled⟩ := facts
  have assembled : ofProgram program {} = .ok p := ofProgram_eq_ok.2 ⟨valid, rfl⟩
  have done : (p.after 1).clock.1 = .ok () := eq_ok_of_toOption succeeds
  obtain ⟨f, next, unexecuted⟩ := Option.map_eq_some_iff.1 fetched
  have places : (p.after 1).pipeline.Places (p.after 1).clock.2.pipeline f :=
    ⟨next, not_stalls unstalled⟩
  have follows : ¬ (p.after 1).Strays := by
    rintro ⟨g, stage, -, silent, -⟩
    rw [stage, Option.map_some, Option.some_inj] at branch
    simp [branch, Mnemonic.silentBranches] at silent
  exact ⟨assembled, done, f, places, unexecuted, follows,
    (pc_predicts_fetch_iff assembled 1 done places).2 follows⟩

/-- Behind a branch with link the instruction at its target comes next, not the one behind it. -/
theorem pc_misses_linked_fetch :
    let program := Program.ofLines ["BL end", "ADDI X1, XZR, #1", "end: ADDI X2, XZR, #2"]
    let p := initial program {}
    ofProgram program {} = .ok p ∧ (p.after 1).clock.1 = .ok () ∧
      ∃ f, (p.after 1).pipeline.Places (p.after 1).clock.2.pipeline f ∧
        f.pc = 0x400008 ∧ (p.after 1).pc = 0x400004 := by
  intro program p
  have facts : program.isValid = true ∧ (p.after 1).clock.1.toOption = some () ∧
      (p.after 1).clock.2.pipeline.stages.fetch.map Flight.pc = some 0x400008 ∧
      (p.after 1).clock.2.pipeline.statistics.dataStalls =
        (p.after 1).pipeline.statistics.dataStalls ∧ (p.after 1).pc = 0x400004 := by
    decide +kernel
  obtain ⟨valid, succeeds, fetched, unstalled, told⟩ := facts
  obtain ⟨f, next, address⟩ := Option.map_eq_some_iff.1 fetched
  exact ⟨ofProgram_eq_ok.2 ⟨valid, rfl⟩, eq_ok_of_toOption succeeds, f,
    ⟨next, not_stalls unstalled⟩, address, told⟩

end Pipelined

end Legv8
