import Legv8.Proofs.Machine.Sound
import Legv8.Proofs.Simulator.LockStep

set_option autoImplicit false

namespace Legv8

open Pipeline

variable {texts : List String} {c : Config} {s : SingleCycle} {p : Pipelined}

namespace SingleCycle

structure Sound (s : SingleCycle) : Prop where
  code : ∀ i ∈ s.program.instructions, i.Sound s.program.instructions.size
  machine : s.machine.Within s.program.instructions.size
  fault : ∀ e, s.fault = some e → e.cause.isInternal = false

theorem initial_sound (valid : (Program.ofLines texts).isValid = true) :
    (initial (.ofLines texts) c).Sound where
  code := fun _ member => Program.instructions_sound valid member
  machine := Machine.ofConfig_within c _
  fault := fun _ none => nomatch none

theorem step_sound (sound : s.Sound) :
    s.step.2.Sound ∧ ∀ e, s.step.1 = .error e → e.cause.isInternal = false := by
  cases stopped : s.fault with
  | some e =>
    rw [step_faulted stopped]
    exact ⟨sound, fun _ failed => by cases failed; exact sound.fault e stopped⟩
  | none =>
    obtain ⟨within, external⟩ := Machine.step_within sound.code sound.machine
    cases fetched : s.program.instructions[s.machine.next]? with
    | none =>
      rw [step_ended stopped fetched]
      exact ⟨sound, fun _ failed => nomatch failed⟩
    | some i =>
      cases outcome : s.machine.step s.program.instructions with
      | mk result m =>
        rw [outcome] at within external
        cases result with
        | error e =>
          rw [step_failed stopped fetched outcome]
          have known := external e rfl
          exact ⟨⟨sound.code, within, fun _ recorded => by cases recorded; exact known⟩,
            fun _ failed => by cases failed; exact known⟩
        | ok index =>
          rw [step_executed stopped fetched outcome]
          exact ⟨⟨sound.code, within, sound.fault⟩, fun _ failed => nomatch failed⟩

theorem Sound.after (sound : s.Sound) (n : Nat) : (s.after n).Sound := by
  induction n with
  | zero => exact sound
  | succ n ih => exact (step_sound ih).1

end SingleCycle

namespace Pipelined

structure Sound (p : Pipelined) : Prop where
  code : ∀ i ∈ p.program.instructions, i.Sound p.program.instructions.size
  machine : p.machine.Within p.program.instructions.size
  recorded : p.pipeline.stages.All (Flight.Recorded p.program.instructions)
  fault : ∀ e, p.fault = some e → e.cause.isInternal = false

theorem initial_sound (valid : (Program.ofLines texts).isValid = true) :
    (initial (.ofLines texts) c).Sound where
  code := fun _ member => Program.instructions_sound valid member
  machine := Machine.ofConfig_within c _
  recorded := .empty
  fault := fun _ none => nomatch none

theorem clocked_within {code : Array Instruction} {q q' : Pipeline} {m m' : Machine}
    (sound : ∀ i ∈ code, i.Sound code.size) (within : m.Within code.size)
    (clocked : Clocked code q m q' m') : m'.Within code.size := by
  have stepped := (Machine.step_within sound within).1
  cases clocked with
  | idle | bubble | drain | behind => exact within
  | fetch log line i m' attempts fetched done => rwa [done] at stepped

theorem clock_sound (sound : p.Sound) :
    p.clock.2.Sound ∧ ∀ e, p.clock.1 = .error e → e.cause.isInternal = false := by
  obtain ⟨code, machine, recorded, fault⟩ := sound
  cases stopped : p.fault with
  | some e =>
    rw [clock_faulted stopped]
    exact ⟨⟨code, machine, recorded, fault⟩, fun _ failed => by cases failed; exact fault e stopped⟩
  | none =>
    have known (i : Instruction) (member : i ∈ p.program.instructions) : i.WellFormed :=
      (code i member).wellFormed
    have flying := recorded.imp fun f here => known _ (Array.mem_of_getElem? here.instruction)
    rcases Pipeline.clock_cases (m := p.machine) flying known with
      ⟨q, m, done, clocked⟩ | ⟨e, m, line, -, failed, outcome⟩
    · rw [clock_ok stopped done]
      exact ⟨⟨code, clocked_within code machine clocked, clocked.recorded recorded, fault⟩,
        fun _ failed => nomatch failed⟩
    · -- Nothing moves in the cycle of a fault, which is that of the machine.
      obtain ⟨within, external⟩ := Machine.step_within code machine
      rw [failed] at within external
      rw [clock_error stopped outcome]
      exact ⟨⟨code, within, recorded, fun _ now => by cases now; exact external e rfl⟩,
        fun _ failed => by cases failed; exact external e rfl⟩

theorem Sound.after (sound : p.Sound) (n : Nat) : (p.after n).Sound := by
  induction n with
  | zero => exact sound
  | succ n ih => exact (clock_sound ih).1

end Pipelined

/-- A program without errors is sound, and so are its runs in both simulators. -/
theorem assembled_runs_sound (assembled : SingleCycle.ofProgram (.ofLines texts) c = .ok s)
    (assembled' : Pipelined.ofProgram (.ofLines texts) c = .ok p) :
    let code := (Program.ofLines texts).instructions
    (∀ i ∈ code, i.Sound code.size) ∧
      ∀ n, (s.after n).machine.next ≤ code.size ∧ (p.after n).machine.next ≤ code.size ∧
        (∀ e, (s.after n).step.1 = .error e → e.cause.isInternal = false) ∧
        ∀ e, (p.after n).clock.1 = .error e → e.cause.isInternal = false := by
  intro code
  obtain ⟨valid, rfl⟩ := SingleCycle.ofProgram_eq_ok.1 assembled
  obtain ⟨-, rfl⟩ := Pipelined.ofProgram_eq_ok.1 assembled'
  refine ⟨fun i member => Program.instructions_sound valid member, fun n => ?_⟩
  have single := (SingleCycle.initial_sound (c := c) valid).after n
  have pipelined := (Pipelined.initial_sound (c := c) valid).after n
  have next := single.machine.next
  have next' := pipelined.machine.next
  rw [SingleCycle.after_program] at next
  rw [Pipelined.after_program] at next'
  exact ⟨next, next', (SingleCycle.step_sound single).2, (Pipelined.clock_sound pipelined).2⟩

theorem assembled_runs_sound_branches :
    let program := Program.ofLines
      ["CBZ XZR, end", "LDA X1, end", "BR X1", "end: LDUR X2, [XZR, #0]"]
    let code := program.instructions
    let s := SingleCycle.initial program {}
    let p := Pipelined.initial program {}
    SingleCycle.ofProgram program {} = .ok s ∧ Pipelined.ofProgram program {} = .ok p ∧
      code.size = 4 ∧ (∀ i ∈ code, i.Sound code.size) ∧
      ∀ n, (s.after n).machine.next ≤ code.size ∧ (p.after n).machine.next ≤ code.size ∧
        (∀ e, (s.after n).step.1 = .error e → e.cause.isInternal = false) ∧
        ∀ e, (p.after n).clock.1 = .error e → e.cause.isInternal = false := by
  intro program code s p
  have facts : program.isValid = true ∧ code.size = 4 := by decide +kernel
  have assembled : SingleCycle.ofProgram program {} = .ok s :=
    SingleCycle.ofProgram_eq_ok.2 ⟨facts.1, rfl⟩
  have assembled' : Pipelined.ofProgram program {} = .ok p :=
    Pipelined.ofProgram_eq_ok.2 ⟨facts.1, rfl⟩
  exact ⟨assembled, assembled', facts.2, assembled_runs_sound assembled assembled'⟩

end Legv8
