import Legv8.Proofs.Pipeline.Clock

/-!
The order of the instructions in flight. Against a run of the single-cycle simulator the pipeline
holds the executions between the retired ones and the last one, oldest first, and none is lost,
doubled or overtaken, whatever bubbles and placeholders stand between them.
-/

set_option autoImplicit false

namespace Legv8

def SingleCycle.flight? (s : SingleCycle) (j : Nat) : Option Pipeline.Flight :=
  s.program.instructions[(s.after j).machine.next]?.map fun i =>
    Pipeline.executed i (s.after j).machine (s.after (j + 1)).machine

namespace Pipeline

namespace Stages

def executedIn (stages : List (Option Flight)) : List Flight :=
  (stages.filterMap id).filter fun f => !f.isPlaceholder

def inFlight (s : Stages) : List Flight :=
  executedIn [s.memory, s.execute, s.decode, s.fetch]

theorem executedIn_append (a b : List (Option Flight)) :
    executedIn (a ++ b) = executedIn a ++ executedIn b := by
  simp [executedIn]

@[simp] theorem executedIn_none (rest : List (Option Flight)) :
    executedIn (none :: rest) = executedIn rest := by
  simp [executedIn]

theorem executedIn_placeholder {f : Flight} (rest : List (Option Flight))
    (unexecuted : f.isPlaceholder = true) : executedIn (some f :: rest) = executedIn rest := by
  simp [executedIn, unexecuted]

theorem executedIn_executed {f : Flight} (rest : List (Option Flight))
    (executed : f.isPlaceholder = false) : executedIn (some f :: rest) = f :: executedIn rest := by
  simp [executedIn, executed]

theorem executedIn_bubble {stage : Option Flight} (rest : List (Option Flight))
    (empty : ∀ f, stage = some f → f.isPlaceholder = true) :
    executedIn (stage :: rest) = executedIn rest := by
  cases stage with
  | none => exact executedIn_none rest
  | some f => exact executedIn_placeholder rest (empty f rfl)

end Stages

open Stages

variable {code : Array Instruction} {s : SingleCycle} {k : Nat} {p q : Pipeline} {m m' : Machine}

/-- The pipeline stands behind the first executions of a run: it shows the state behind the
retired ones and holds the others. -/
structure InStep (s : SingleCycle) (k : Nat) (p : Pipeline) : Prop where
  retired_le : p.statistics.retired ≤ k
  visible : p.visible = (s.after p.statistics.retired).machine.snapshot
  mix : p.statistics.SameMix (s.after p.statistics.retired).statistics
  inFlight : p.stages.inFlight.map some =
    (List.range' p.statistics.retired (k - p.statistics.retired)).map s.flight?
  last : ∀ f, p.stages.writeBack = some f → f.isPlaceholder = false →
    ∃ r, p.statistics.retired = r + 1 ∧ s.flight? r = some f

theorem flight?_eq_some {j : Nat} {f : Flight} (recorded : s.flight? j = some f) :
    ∃ i, s.program.instructions[(s.after j).machine.next]? = some i ∧
      f = executed i (s.after j).machine (s.after (j + 1)).machine := by
  obtain ⟨i, fetched, rfl⟩ := Option.map_eq_some_iff.1 recorded
  exact ⟨i, fetched, rfl⟩

theorem flight?_execution {j : Nat} {f : Flight} (recorded : s.flight? j = some f) :
    f.execution = some
      { before := (s.after j).machine.snapshot
        after := (s.after (j + 1)).machine.snapshot
        taken := (s.after (j + 1)).machine.taken } := by
  obtain ⟨i, -, rfl⟩ := flight?_eq_some recorded
  rfl

theorem InStep.position (inStep : p.InStep s k) {j : Nat} {f : Flight}
    (held : p.stages.inFlight[j]? = some f) :
    p.statistics.retired + j < k ∧ s.flight? (p.statistics.retired + j) = some f := by
  have place := congrArg (fun l => l[j]?) inStep.inFlight
  simp only [List.getElem?_map, held, Option.map_some] at place
  obtain ⟨index, present, recorded⟩ := Option.map_eq_some_iff.1 place.symm
  obtain ⟨inside, rfl⟩ := List.getElem?_eq_some_iff.1 present
  have bound : j < k - p.statistics.retired := by simpa using inside
  have le := inStep.retired_le
  refine ⟨by omega, ?_⟩
  simpa using recorded

theorem InStep.behind {f g : Flight} (inStep : p.InStep s k)
    (memory : p.stages.memory = some g)
    (execute : p.stages.execute = some f) (first : g.isPlaceholder = false)
    (second : f.isPlaceholder = false) :
    p.statistics.retired + 1 < k ∧ s.flight? p.statistics.retired = some g ∧
      s.flight? (p.statistics.retired + 1) = some f := by
  have held : p.stages.inFlight =
      g :: f :: Stages.executedIn [p.stages.decode, p.stages.fetch] := by
    rw [Stages.inFlight, memory, execute, Stages.executedIn_executed _ first,
      Stages.executedIn_executed _ second]
  obtain ⟨-, older⟩ := inStep.position (j := 0) (f := g) (by rw [held]; rfl)
  obtain ⟨inside, younger⟩ := inStep.position (j := 1) (f := f) (by rw [held]; rfl)
  exact ⟨inside, older, younger⟩

theorem InStep.first {f : Flight} (inStep : p.InStep s k)
    (memory : p.stages.memory = none)
    (execute : p.stages.execute = some f) (executed : f.isPlaceholder = false) :
    s.flight? p.statistics.retired = some f := by
  have held : p.stages.inFlight =
      f :: Stages.executedIn [p.stages.decode, p.stages.fetch] := by
    rw [Stages.inFlight, memory, execute, Stages.executedIn_none,
      Stages.executedIn_executed _ executed]
  exact (inStep.position (j := 0) (f := f) (by rw [held]; rfl)).2

theorem InStep.land {k' : Nat} (inStep : p.InStep s k) (executes : s.Executes k') (le : k ≤ k')
    (same : q.statistics.SameMix p.statistics) (visible : q.visible = p.visible)
    (order : (executedIn (q.stages.writeBack :: [q.stages.memory, q.stages.execute,
        q.stages.decode, q.stages.fetch])).map some =
      (List.range' p.statistics.retired (k' - p.statistics.retired)).map s.flight?) :
    q.land.InStep s k' := by
  obtain ⟨retired_le, shown, mix, -, -⟩ := inStep
  by_cases empty : ∀ f, q.stages.writeBack = some f → f.isPlaceholder = true
  · have kept : q.land.statistics.SameMix p.statistics := by
      have landed := land_mix q
      rw [retire_bubble q empty] at landed
      exact landed.trans same
    rw [executedIn_bubble _ empty] at order
    refine ⟨?_, ?_, ?_, ?_, ?_⟩
    · rw [kept.retired]
      omega
    · rw [kept.retired, land_visible, retire_bubble q empty, visible, shown]
    · rw [kept.retired]
      exact kept.trans mix
    · rw [kept.retired, land_stages]
      exact order
    · intro f stage executed
      simp [empty f (by simpa using stage)] at executed
  · obtain ⟨f, stage, executed⟩ : ∃ f, q.stages.writeBack = some f ∧ f.isPlaceholder = false := by
      simpa using empty
    obtain ⟨e, execution⟩ := Flight.exists_execution executed
    -- What has reached the last stage is the oldest execution that has not retired.
    rw [stage, executedIn_executed _ executed, List.map_cons] at order
    obtain ⟨n, count⟩ : ∃ n, k' - p.statistics.retired = n + 1 := by
      cases count : k' - p.statistics.retired with
      | zero => simp [count] at order
      | succ n => exact ⟨n, rfl⟩
    rw [count, List.range'_succ, List.map_cons, List.cons.injEq] at order
    obtain ⟨first, rest⟩ := order
    obtain ⟨i, fetched, rfl⟩ := flight?_eq_some first.symm
    have retired := retire_executed q stage execution
    have counted : q.land.statistics.SameMix (p.statistics.record i.mnemonic) := by
      have landed := land_mix q
      rw [retired] at landed
      exact landed.trans (same.record i.mnemonic)
    have total : q.land.statistics.retired = p.statistics.retired + 1 := by
      rw [counted.retired, Statistics.record_retired]
    have remaining : k' - q.land.statistics.retired = n := by omega
    refine ⟨by omega, ?_, ?_, ?_, ?_⟩
    · rw [total, land_visible, retired]
      cases execution
      rfl
    · have inside : p.statistics.retired < k' := by omega
      rw [total]
      exact counted.trans ((mix.record i.mnemonic).trans (executes.mix inside fetched).symm)
    · rw [land_stages, remaining, total]
      exact rest
    · intro g present _
      refine ⟨p.statistics.retired, total, ?_⟩
      rw [land_stages, stage] at present
      rw [← first, present]

theorem flush_inFlight (unexecuted : p.flushPending = true →
    ∀ f, p.stages.fetch = some f → f.isPlaceholder = true) :
    p.flush.stages.inFlight = p.stages.inFlight := by
  unfold flush
  split
  next pending =>
    -- The fetch stage counts for nothing, before the flush and behind it.
    have empty := unexecuted (by simp_all)
    have fetch : executedIn [p.stages.fetch] = executedIn [none] := by
      rw [executedIn_bubble _ empty, executedIn_none]
    have split (stage : Option Flight) :
        executedIn [p.stages.memory, p.stages.execute, p.stages.decode, stage] =
          executedIn [p.stages.memory, p.stages.execute, p.stages.decode] ++ executedIn [stage] :=
      executedIn_append [p.stages.memory, p.stages.execute, p.stages.decode] [stage]
    simp only [inFlight, split, fetch]
  next => rfl

theorem flush_shown (p : Pipeline) :
    p.flush.statistics.SameMix p.statistics ∧ p.flush.visible = p.visible := by
  unfold flush
  split
  · exact ⟨⟨rfl, rfl, rfl, rfl, rfl, rfl⟩, rfl⟩
  · exact ⟨.refl _, rfl⟩

theorem InStep.move (inStep : p.InStep s k) (executes : s.Executes k) {next : Option Flight}
    (unexecuted : ∀ f, next = some f → f.isPlaceholder = true) (log : Log) (line : Option Nat) :
    ((p.tick log line).move next).land.InStep s k := by
  refine inStep.land executes (Nat.le_refl k) ⟨rfl, rfl, rfl, rfl, rfl, rfl⟩ rfl ?_
  change (executedIn ([p.stages.memory, p.stages.execute, p.stages.decode, p.stages.fetch] ++
    [next])).map some = _
  have nothing : executedIn [] = [] := rfl
  rw [executedIn_append, executedIn_bubble _ unexecuted, nothing, List.append_nil]
  exact inStep.inFlight

theorem InStep.bubble (inStep : p.InStep s k) (executes : s.Executes k) (log : Log)
    (line : Option Nat) : (p.tick log line).bubble.land.InStep s k := by
  refine inStep.land executes (Nat.le_refl k) ⟨rfl, rfl, rfl, rfl, rfl, rfl⟩ rfl ?_
  change (executedIn ([p.stages.memory, p.stages.execute] ++
    (none :: [p.stages.decode, p.stages.fetch]))).map some = _
  rw [executedIn_append, executedIn_none, ← executedIn_append]
  exact inStep.inFlight

theorem InStep.fetch (inStep : p.InStep s k) (executes : s.Executes (k + 1))
    (unexecuted : p.flushPending = true → ∀ f, p.stages.fetch = some f → f.isPlaceholder = true)
    {i : Instruction} (fetched : s.program.instructions[(s.after k).machine.next]? = some i)
    (log : Log) (line : Option Nat) :
    ((p.tick log line).flush.move
      (some (executed i (s.after k).machine (s.after (k + 1)).machine))).land.InStep s (k + 1) := by
  obtain ⟨same, visible⟩ := flush_shown (p.tick log line)
  have held := flush_inFlight (p := p.tick log line) unexecuted
  refine inStep.land executes (Nat.le_succ k) (same.trans ⟨rfl, rfl, rfl, rfl, rfl, rfl⟩) visible ?_
  have bound := inStep.retired_le
  have count : k + 1 - p.statistics.retired = (k - p.statistics.retired) + 1 := by omega
  have newest : p.statistics.retired + (k - p.statistics.retired) = k := by omega
  have recorded : s.flight? k =
      some (executed i (s.after k).machine (s.after (k + 1)).machine) := by
    simp [SingleCycle.flight?, fetched]
  rw [count, List.range'_1_concat, List.map_append, newest, ← inStep.inFlight]
  change (executedIn ([(p.tick log line).flush.stages.memory,
    (p.tick log line).flush.stages.execute, (p.tick log line).flush.stages.decode,
    (p.tick log line).flush.stages.fetch] ++
      [some (executed i (s.after k).machine (s.after (k + 1)).machine)])).map some = _
  rw [executedIn_append, executedIn_executed [] (by rfl), List.map_append]
  change (p.tick log line).flush.stages.inFlight.map some ++ _ = _
  rw [held, List.map_singleton, recorded]
  rfl

end Pipeline

end Legv8
