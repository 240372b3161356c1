import Legv8.Proofs.Pipeline.Structure
import Legv8.Proofs.Simulator.LockStep

set_option autoImplicit false

namespace Legv8.Pipelined

open Pipeline

variable {texts : List String} {c : Config} {s : SingleCycle} {k n : Nat} {p : Pipelined}

variable {offset : Word}

theorem LockStep.branch {f : Flight} (lock : p.LockStep s k)
    (follows : p.pipeline.stages.Follows) (fetched : p.pipeline.stages.fetch = some f)
    (unexecuted : f.isPlaceholder = true) :
    ∃ b, p.pipeline.stages.decode = some b ∧ b.isPlaceholder = false ∧
      b.instruction.mnemonic.operation.isBranch = true ∧ b.taken = true ∧
      f.index = b.index + 1 := by
  obtain ⟨b, decode, taken, index⟩ := follows f fetched unexecuted
  have announces := (lock.recorded.decode b decode).announces taken
  exact ⟨b, decode, Flight.executed_of_taken taken, Operation.isBranch_of_announces announces, taken, index⟩

theorem LockStep.stalls_iff (lock : p.LockStep s k) (busy : p.isFinished = false) :
    p.clock.1 = .ok () ∧ p.pipeline.Stalls p.clock.2.pipeline ↔
      (p.pipeline.hazards.loadUseStall || p.pipeline.hazards.branchStall) = true := by
  have pending : p.pipeline.stallPending =
      (p.pipeline.hazards.loadUseStall || p.pipeline.hazards.branchStall) := by
    rw [stallPending, lock.detected.dataStall, lock.detected.branchStall]
  rw [← pending]
  rcases lock.clock_cases with ⟨k', done, -, clocked, -⟩ | ⟨e, m, line, attempts, -, failed⟩
  · rw [isFinished, lock.program] at busy
    rw [← clocked.stalls_iff busy]
    exact and_iff_right done
  · rw [failed]
    refine iff_of_false ?_ (by simp [attempts.clear])
    rintro ⟨done, -⟩
    cases done

end Legv8.Pipelined
