import Legv8.Proofs.Machine.Sound
import Legv8.Proofs.Pipeline.Account
import Legv8.Proofs.Pipeline.Order

set_option autoImplicit false

namespace Legv8

theorem instructionAddress_succ (o : Word) (n : Nat) :
    instructionAddress o (BitVec.ofNat 64 (n + 1)) =
      instructionAddress o (BitVec.ofNat 64 n) + 4 := by
  rw [instructionAddress, instructionAddress, BitVec.ofNat_add, BitVec.add_mul, BitVec.add_assoc]
  rfl

theorem Machine.step_text {m m' : Machine} {code : Array Instruction}
    (done : m.step code = (.ok (some m.next), m')) :
    m'.memory.textOffset = m.memory.textOffset := by
  cases fetched : code[m.next]? with
  | none => simp [step_past_end fetched] at done
  | some i =>
    have executed := (step_ok_iff fetched).1 (congrArg Prod.fst done)
    have after := step_machine fetched
    obtain ⟨e, registers, -, -, state⟩ := execute_ok executed
    rw [done, state] at after
    obtain rfl : m' = _ := after
    exact (apply_text m.memory e.store).1

theorem Operation.isBranch_of_announces {op : Operation} (announces : op.announces = true) :
    op.isBranch = true := by
  cases op with
  | branch | branchZero | branchIf => rfl
  | _ => cases announces

namespace Pipeline

variable {code : Array Instruction} {o : Word} {p q : Pipeline} {m m' : Machine}

def Flight.Placed (o : Word) (f : Flight) : Prop :=
  f.pc = instructionAddress o (BitVec.ofNat 64 f.index)

def Stages.Follows (s : Stages) : Prop :=
  ∀ f, s.fetch = some f → f.isPlaceholder = true →
    ∃ b, s.decode = some b ∧ b.taken = true ∧ f.index = b.index + 1

theorem placeholder?_placed {branch f : Flight} (placed : branch.Placed o)
    (next : placeholder? branch code = some f) : f.Placed o := by
  obtain ⟨i, -, rfl⟩ := Option.map_eq_some_iff.1 next
  exact (congrArg (· + 4) placed).trans (instructionAddress_succ o branch.index).symm

theorem Clocked.text (clocked : Clocked code p m q m') :
    m'.memory.textOffset = m.memory.textOffset := by
  cases clocked with
  | idle | bubble | drain | behind => rfl
  | fetch log line i m' attempts fetched done => exact Machine.step_text done

theorem Clocked.placed (clocked : Clocked code p m q m') (text : m.memory.textOffset = o)
    (placed : p.stages.All (Flight.Placed o)) : q.stages.All (Flight.Placed o) := by
  refine clocked.all placed (fun branch f here next => placeholder?_placed here next) ?_
  intro i fetched done
  rw [← text]
  rfl

theorem Clocked.follows (clocked : Clocked code p m q m') (follows : p.stages.Follows) :
    q.stages.Follows := by
  cases clocked with
  | idle log drained => exact follows
  | bubble log line busy pending =>
    rw [land_stages]
    exact follows
  | drain log line busy ended clear =>
    rw [land_stages]
    exact fun f none => nomatch none
  | behind log line branch more clear fetched taken =>
    rw [land_stages]
    intro f next unexecuted
    obtain ⟨i, -, rfl⟩ := Option.map_eq_some_iff.1 next
    exact ⟨branch, fetched, taken, rfl⟩
  | fetch log line i m' attempts fetched done =>
    rw [land_stages]
    rintro f ⟨⟩ unexecuted
    cases unexecuted

-- A clock cycle lets fetch and decode wait, puts a bubble in front of them, and counts that.
structure Stalls (p q : Pipeline) : Prop where
  stages : q.stages = p.stages.stall
  dataStalls : q.statistics.dataStalls = p.statistics.dataStalls + 1

theorem not_stalls (same : q.statistics.dataStalls = p.statistics.dataStalls) : ¬ p.Stalls q := by
  intro stalls
  have counted := stalls.dataStalls
  omega

theorem Clocked.stalls_iff (clocked : Clocked code p m q m') (busy : p.isDrained m code = false) :
    p.Stalls q ↔ p.stallPending = true := by
  cases clocked with
  | idle log drained => simp [busy] at drained
  | bubble log line busy pending =>
    have counted := bubble_counted (p := p) log line
    exact iff_of_true ⟨counted.stages, counted.dataStalls⟩ pending
  | drain log line busy ended clear =>
    exact iff_of_false (not_stalls (move_counted log line none).dataStalls) (by simp [clear])
  | behind log line branch more clear fetched taken =>
    exact iff_of_false (not_stalls (move_counted log line _).dataStalls) (by simp [clear])
  | fetch log line i m' attempts fetched done =>
    have clear := attempts.clear
    exact iff_of_false (not_stalls (flush_counted log line clear _).dataStalls) (by simp [clear])

end Pipeline

end Legv8
