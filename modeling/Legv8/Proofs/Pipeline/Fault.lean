import Legv8.Proofs.Machine.Fault
import Legv8.Proofs.Pipeline.Clock

set_option autoImplicit false

namespace Legv8

namespace Pipeline

/-- A pipeline that clock cycles have led to. Between them nothing is asked of the machine. -/
inductive Reachable : Pipeline → Prop
  | initial (visible : Snapshot) (keepLog : Bool) : Reachable (ofSnapshot visible keepLog)
  | clock {p : Pipeline} (m : Machine) {code : Array Instruction} (reached : Reachable p)
      (wellFormed : ∀ i ∈ code, i.WellFormed) : Reachable (p.clock m code).2.1

variable {p : Pipeline} {m : Machine} {code : Array Instruction}

theorem Reachable.known (reached : p.Reachable) :
    p.stages.All fun f => f.instruction.WellFormed := by
  induction reached with
  | initial visible keepLog => exact .empty
  | @clock p m code reached wellFormed known =>
    rcases clock_cases (m := m) known wellFormed with
      ⟨q, m', outcome, clocked⟩ | ⟨e, m', line, -, -, outcome⟩
    · rw [outcome]
      refine clocked.all known (fun branch f _ next => ?_) fun i fetched _ => ?_
      · exact wellFormed f.instruction (Array.mem_of_getElem? (placeholder?_eq_some next).1)
      · exact wellFormed i (Array.mem_of_getElem? fetched)
    · -- A failing cycle moves nothing.
      rw [outcome]
      exact known

theorem clock_failed {e : Located Fault} (reached : p.Reachable)
    (wellFormed : ∀ i ∈ code, i.WellFormed) (failed : (p.clock m code).1 = .error e) :
    ∃ line, (p.clock m code).2.1 = p.tick p.log line := by
  rcases clock_cases (m := m) reached.known wellFormed with
    ⟨q, m', outcome, -⟩ | ⟨f, m', line, -, -, outcome⟩
  · rw [outcome] at failed
    cases failed
  · exact ⟨line, by rw [outcome]⟩

end Pipeline

/-- A fault leaves the machine as it was, apart from its log and the branch it announced, and the
pipeline as well, apart from the line that it points at and its cycle count. -/
theorem faults_change_nothing :
    (∀ (m : Machine) (i : Instruction) (f : Fault), i.WellFormed →
      (m.execute i).1 = .error f →
        let m' := (m.execute i).2
        m' = { m with taken := m'.taken, log := m'.log }) ∧
      ∀ (p : Pipeline) (m : Machine) (code : Array Instruction) (e : Located Fault),
        p.Reachable → (∀ i ∈ code, i.WellFormed) → (p.clock m code).1 = .error e →
          let q := (p.clock m code).2.1
          q = { p with
            currentLine := q.currentLine
            statistics := { p.statistics with cycles := q.statistics.cycles } } := by
  constructor
  · intro m i f wellFormed failed
    exact Action.ofInstruction_faultsFirst wellFormed m f failed
  · intro p m code e reached wellFormed failed
    obtain ⟨line, after⟩ := Pipeline.clock_failed reached wellFormed failed
    rw [after]
    rfl

-- A load fails that a branch has led to, while the flush behind the branch is pending.
theorem faults_change_nothing_flush :
    let load : Instruction := ⟨.ldur, [2, 31, 0], 2⟩
    let code : Array Instruction := #[⟨.b, [2], 0⟩, ⟨.addi, [1, 31, 1], 1⟩, load]
    let m := Machine.ofConfig {} 3
    let first := (Pipeline.ofSnapshot m.snapshot true).clock m code
    let second := first.2.1.clock first.2.2 code
    let p := second.2.1
    let third := p.clock second.2.2 code
    let e : Fault := .outOfSegment 0 .stackOrHeap
    (m.execute load).1 = .error e ∧ (m.execute load).2.registers = m.registers ∧
      third.1 = .error ⟨2, e⟩ ∧ p.stages.fetch.isSome ∧ p.stages.decode.isSome ∧
      third.2.1.stages = p.stages ∧ p.flushPending = true ∧ third.2.1.flushPending = true := by
  intro load code m first second p third e
  have named : ∀ i ∈ code, i.WellFormed := by
    unfold Instruction.WellFormed
    decide
  have facts : failure? (m.execute load).1 = some e ∧ failure? third.1 = some ⟨2, e⟩ ∧
      p.stages.fetch.isSome ∧ p.stages.decode.isSome ∧ p.flushPending = true := by
    decide +kernel
  obtain ⟨single, pipelined, fetched, decoded, pending⟩ := facts
  obtain ⟨machine, pipeline⟩ := faults_change_nothing
  have executed := failure?_eq_some.1 single
  have clocked := failure?_eq_some.1 pipelined
  have reached : p.Reachable :=
    .clock first.2.2 (.clock m (.initial m.snapshot true) named) named
  have kept := machine m load e (named load (by simp [code])) executed
  have still := pipeline p second.2.2 code ⟨2, e⟩ reached named clocked
  refine ⟨executed, ?_, clocked, fetched, decoded, ?_, pending, ?_⟩
  · rw [kept]
  · rw [still]
  · rw [still]
    exact pending

end Legv8
