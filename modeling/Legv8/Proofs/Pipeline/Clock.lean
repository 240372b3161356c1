import Legv8.Pipeline
import Legv8.Proofs.Instruction.Registers
import Legv8.Proofs.Simulator.SingleCycle

/-!
One clock cycle of the pipeline. Every cycle of a pipeline whose instructions name existing
registers is one of five: it is idle, puts a bubble in, drains, fetches behind a branch, or
executes an instruction. The cycle fails only if the instruction that it executes does.
-/

set_option autoImplicit false

namespace Legv8

theorem Instruction.WellFormed.fields {i : Instruction} {n : Nat} (wellFormed : i.WellFormed)
    (named : some n ∈ [i.fields.rn, i.fields.rm, i.fields.rd]) : n < 32 := by
  unfold Instruction.fields at named
  cases form : i.mnemonic.form with
  | rrr c | rm c =>
    cases c <;> simp only [form] at named <;> (try split at named) <;> simp at named
    all_goals rcases named with rfl | rfl | rfl <;> exact wellFormed _ (by simp [form, Form.registerCount])
  | rri | rrm | risi | rl =>
    simp [form] at named
    all_goals rcases named with rfl | rfl | rfl <;> exact wellFormed _ (by simp [form, Form.registerCount])
  | _ => simp [form] at named

namespace Pipeline

namespace Flight

variable {f : Flight}

theorem isPlaceholder_iff : f.isPlaceholder = true ↔ f.execution = none :=
  Option.isNone_iff_eq_none

theorem exists_execution (executed : f.isPlaceholder = false) : ∃ e, f.execution = some e := by
  simpa [isPlaceholder, Option.isSome_iff_exists] using executed

theorem executed_of_taken (taken : f.taken = true) : f.isPlaceholder = false := by
  unfold Flight.taken at taken
  cases execution : f.execution <;> simp_all [isPlaceholder]

theorem missing?_eq_none {ns : List (Option Nat)} (known : ∀ n, some n ∈ ns → n < 32) :
    f.missing? ns = none := by
  unfold missing?
  split
  next => rfl
  next =>
    rw [List.find?_eq_none]
    intro n member
    have bound := known n (by simpa using member)
    simpa using bound

theorem missing?_lookups (wellFormed : f.instruction.WellFormed) :
    f.missing? (IdEx.lookups f) = none ∧ f.missing? (ExMem.lookups f) = none ∧
      f.missing? (MemWb.lookups f) = none := by
  have named (ns : List (Option Nat)) (among : ns ⊆ [f.fields.rn, f.fields.rm, f.fields.rd]) :
      f.missing? ns = none :=
    missing?_eq_none fun n member => wellFormed.fields (among member)
  refine ⟨named _ ?_, named _ ?_, named _ ?_⟩
  · unfold IdEx.lookups
    split <;> simp
  · unfold ExMem.lookups
    split <;> simp
  · unfold MemWb.lookups
    split <;> simp

end Flight

structure Stages.All (P : Flight → Prop) (s : Stages) : Prop where
  fetch : ∀ f, s.fetch = some f → P f
  decode : ∀ f, s.decode = some f → P f
  execute : ∀ f, s.execute = some f → P f
  memory : ∀ f, s.memory = some f → P f
  writeBack : ∀ f, s.writeBack = some f → P f

namespace Stages

variable {P : Flight → Prop} {s : Stages}

theorem All.empty : ({} : Stages).All P := by
  constructor <;> intro f present <;> cases present

theorem All.imp {Q : Flight → Prop} (all : s.All P) (weaker : ∀ f, P f → Q f) : s.All Q := by
  obtain ⟨fetch, decode, execute, memory, writeBack⟩ := all
  exact ⟨fun f present => weaker f (fetch f present), fun f present => weaker f (decode f present),
    fun f present => weaker f (execute f present), fun f present => weaker f (memory f present),
    fun f present => weaker f (writeBack f present)⟩

theorem All.advance {next : Option Flight} (all : s.All P) (new : ∀ f, next = some f → P f) :
    (s.advance next).All P :=
  ⟨new, all.fetch, all.decode, all.execute, all.memory⟩

theorem All.stall (all : s.All P) : s.stall.All P :=
  ⟨all.fetch, all.decode, (fun _ present => nomatch present), all.execute, all.memory⟩

theorem All.flush (all : s.All P) : { s with fetch := none }.All P :=
  ⟨(fun _ present => nomatch present), all.decode, all.execute, all.memory, all.writeBack⟩

theorem missingRegister?_eq_none (all : s.All fun f => f.instruction.WellFormed) :
    s.missingRegister? = none := by
  have execute : s.execute.bind (fun f => f.missing? (IdEx.lookups f)) = none := by
    cases present : s.execute with
    | none => rfl
    | some f => exact (Flight.missing?_lookups (all.execute f present)).1
  have memory : s.memory.bind (fun f => f.missing? (ExMem.lookups f)) = none := by
    cases present : s.memory with
    | none => rfl
    | some f => exact (Flight.missing?_lookups (all.memory f present)).2.1
  have writeBack : s.writeBack.bind (fun f => f.missing? (MemWb.lookups f)) = none := by
    cases present : s.writeBack with
    | none => rfl
    | some f => exact (Flight.missing?_lookups (all.writeBack f present)).2.2
  simp [missingRegister?, execute, memory, writeBack]

end Stages

variable {code : Array Instruction} {p q : Pipeline} {m m' : Machine}

-- A note changes nothing but the log.

@[simp] theorem note_stages (p : Pipeline) (lines : List String) :
    (p.note lines).stages = p.stages := by
  unfold note
  split <;> rfl

@[simp] theorem note_registers (p : Pipeline) (lines : List String) :
    (p.note lines).registers = p.registers := by
  unfold note
  split <;> rfl

@[simp] theorem note_hazards (p : Pipeline) (lines : List String) :
    (p.note lines).hazards = p.hazards := by
  unfold note
  split <;> rfl

@[simp] theorem note_dataStall (p : Pipeline) (lines : List String) :
    (p.note lines).dataStall = p.dataStall := by
  unfold note
  split <;> rfl

@[simp] theorem note_branchStall (p : Pipeline) (lines : List String) :
    (p.note lines).branchStall = p.branchStall := by
  unfold note
  split <;> rfl

@[simp] theorem note_flushPending (p : Pipeline) (lines : List String) :
    (p.note lines).flushPending = p.flushPending := by
  unfold note
  split <;> rfl

@[simp] theorem note_visible (p : Pipeline) (lines : List String) :
    (p.note lines).visible = p.visible := by
  unfold note
  split <;> rfl

@[simp] theorem note_statistics (p : Pipeline) (lines : List String) :
    (p.note lines).statistics = p.statistics := by
  unfold note
  split <;> rfl

-- The end of a clock cycle in which the instructions moved: the last stage retires, the pipeline
-- registers are read, and hazards are looked for.
def land (p : Pipeline) : Pipeline :=
  p.settle.detectHazards

theorem retire_bubble (p : Pipeline) (empty : ∀ f, p.stages.writeBack = some f → f.isPlaceholder) :
    p.retire = p := by
  unfold retire
  cases stage : p.stages.writeBack with
  | none => rfl
  | some f =>
    simp [Flight.isPlaceholder_iff.1 (empty f stage)]

theorem retire_executed {f : Flight} {e : Execution} (p : Pipeline)
    (stage : p.stages.writeBack = some f) (execution : f.execution = some e) :
    p.retire =
      { p with
        visible := e.after
        statistics := p.statistics.record f.instruction.mnemonic } := by
  simp [retire, stage, execution]

theorem retire_frame (p : Pipeline) :
    ∃ v st, p.retire = { p with visible := v, statistics := st } ∧
      st.cycles = p.statistics.cycles ∧ st.dataStalls = p.statistics.dataStalls ∧
      st.controlFlushes = p.statistics.controlFlushes := by
  unfold retire
  split
  · exact ⟨_, _, rfl, rfl, rfl, rfl⟩
  · split
    · exact ⟨_, _, rfl, rfl, rfl, rfl⟩
    · exact ⟨_, _, rfl, Statistics.record_cycles _ _, Statistics.record_dataStalls _ _,
        Statistics.record_controlFlushes _ _⟩

@[simp] theorem land_stages (p : Pipeline) : p.land.stages = p.stages := by
  obtain ⟨v, st, retired, -⟩ := retire_frame p
  simp [land, settle, detectHazards, retired]

@[simp] theorem land_registers (p : Pipeline) : p.land.registers = .capture p.stages := by
  obtain ⟨v, st, retired, -⟩ := retire_frame p
  simp [land, settle, detectHazards, retired]

@[simp] theorem land_hazards (p : Pipeline) :
    p.land.hazards = .detect p.stages (.capture p.stages) := by
  obtain ⟨v, st, retired, -⟩ := retire_frame p
  simp [land, settle, detectHazards, retired]

@[simp] theorem land_dataStall (p : Pipeline) :
    p.land.dataStall = (p.dataStall || p.land.hazards.loadUseStall) := by
  obtain ⟨v, st, retired, -⟩ := retire_frame p
  simp [land, settle, detectHazards, retired]

@[simp] theorem land_branchStall (p : Pipeline) :
    p.land.branchStall = (p.branchStall || p.land.hazards.branchStall) := by
  obtain ⟨v, st, retired, -⟩ := retire_frame p
  simp [land, settle, detectHazards, retired]

@[simp] theorem land_flushPending (p : Pipeline) :
    p.land.flushPending = (p.flushPending || p.land.hazards.controlFlush) := by
  obtain ⟨v, st, retired, -⟩ := retire_frame p
  simp [land, settle, detectHazards, retired]

@[simp] theorem land_visible (p : Pipeline) : p.land.visible = p.retire.visible := by
  simp [land, settle, detectHazards]

@[simp] theorem land_retired (p : Pipeline) :
    p.land.statistics.retired = p.retire.statistics.retired := by
  simp [land, settle, detectHazards]

theorem land_mix (p : Pipeline) : p.land.statistics.SameMix p.retire.statistics := by
  constructor <;> simp [land, settle, detectHazards]

@[simp] theorem land_cycles (p : Pipeline) : p.land.statistics.cycles = p.statistics.cycles := by
  obtain ⟨v, st, retired, same, -⟩ := retire_frame p
  simp [land, settle, detectHazards, retired, same]

@[simp] theorem land_dataStalls (p : Pipeline) :
    p.land.statistics.dataStalls = p.statistics.dataStalls := by
  obtain ⟨v, st, retired, -, same, -⟩ := retire_frame p
  simp [land, settle, detectHazards, retired, same]

@[simp] theorem land_controlFlushes (p : Pipeline) :
    p.land.statistics.controlFlushes = p.statistics.controlFlushes := by
  obtain ⟨v, st, retired, -, -, same⟩ := retire_frame p
  simp [land, settle, detectHazards, retired, same]

def tick (p : Pipeline) (log : Log) (line : Option Nat) : Pipeline :=
  { p with
    log
    currentLine := line
    statistics := { p.statistics with cycles := p.statistics.cycles + 1 } }

def bubble (p : Pipeline) : Pipeline :=
  { p with
    stages := p.stages.stall
    dataStall := false
    branchStall := false
    statistics := { p.statistics with dataStalls := p.statistics.dataStalls + 1 } }

def move (p : Pipeline) (next : Option Flight) : Pipeline :=
  { p with stages := p.stages.advance next }

/-- The next clock cycle is to execute an instruction: there is one, no stall is called for, and
no taken branch stands in the fetch stage. -/
structure Attempts (p : Pipeline) (m : Machine) (code : Array Instruction) : Prop where
  more : m.next < code.size
  clear : p.stallPending = false
  straight : ∀ f, p.stages.fetch = some f → f.taken = false

-- What a clock cycle can do without failing.
inductive Clocked (code : Array Instruction) (p : Pipeline) (m : Machine) :
    Pipeline → Machine → Prop
  | idle (log : Log) (drained : p.isDrained m code = true) : Clocked code p m { p with log } m
  | bubble (log : Log) (line : Option Nat) (busy : p.isDrained m code = false)
      (pending : p.stallPending = true) : Clocked code p m (p.tick log line).bubble.land m
  | drain (log : Log) (line : Option Nat) (busy : p.isDrained m code = false)
      (ended : code.size ≤ m.next) (clear : p.stallPending = false) :
      Clocked code p m ((p.tick log line).move none).land m
  | behind (log : Log) (line : Option Nat) (branch : Flight) (more : m.next < code.size)
      (clear : p.stallPending = false) (fetched : p.stages.fetch = some branch)
      (taken : branch.taken = true) :
      Clocked code p m ((p.tick log line).move (placeholder? branch code)).land m
  | fetch (log : Log) (line : Option Nat) (i : Instruction) (m' : Machine)
      (attempts : p.Attempts m code) (fetched : code[m.next]? = some i)
      (done : m.step code = (.ok (some m.next), m')) :
      Clocked code p m ((p.tick log line).flush.move (some (executed i m m'))).land m'

theorem placeholder?_eq_some {branch f : Flight} (next : placeholder? branch code = some f) :
    code[f.index]? = some f.instruction ∧ f.isPlaceholder = true := by
  obtain ⟨i, present, rfl⟩ := Option.map_eq_some_iff.1 next
  exact ⟨present, rfl⟩

theorem isDrained_of_more (more : m.next < code.size) : p.isDrained m code = false := by
  have running : ¬ code.size ≤ m.next := by omega
  simp [isDrained, running]

theorem not_attempts (waits : p.isDrained m code = true ∨ p.stallPending = true ∨
    code.size ≤ m.next ∨ ∃ f, p.stages.fetch = some f ∧ f.taken = true) :
    ¬ p.Attempts m code := by
  rintro ⟨more, clear, straight⟩
  rcases waits with drained | pending | ended | ⟨f, fetched, taken⟩
  · simp [isDrained_of_more more] at drained
  · simp [clear] at pending
  · omega
  · simp [straight f fetched] at taken

theorem settle_finish (known : p.stages.All fun f => f.instruction.WellFormed) :
    p.settle.finish m = (.ok (), p.land, m) := by
  have stages : p.settle.stages = p.stages := by
    obtain ⟨v, st, retired, -⟩ := retire_frame p
    simp [settle, retired]
  simp [finish, stages, Stages.missingRegister?_eq_none known, land]

theorem note_log (p : Pipeline) (lines : List String) :
    p.note lines = { p with log := (p.note lines).log } := by
  unfold note
  split <;> rfl

theorem flush_all {P : Flight → Prop} (all : p.stages.All P) : p.flush.stages.All P := by
  unfold flush
  split
  · exact all.flush
  · exact all

theorem drain_eq (p : Pipeline) (code : Array Instruction) :
    ∃ log line, p.drain code =
      if p.stallPending then ({ p with log, currentLine := line } : Pipeline).bubble.settle
      else (({ p with log, currentLine := line } : Pipeline).move none).settle := by
  let begun : Pipeline :=
    { p.note [lastInstruction] with currentLine := code.back?.map Instruction.line }
  have noted : begun = { p with log := begun.log, currentLine := begun.currentLine } := by
    unfold begun
    rw [note_log p]
  have same : begun.stallPending = p.stallPending := by rw [noted]; rfl
  change ∃ log line, (if begun.stallPending then begun.stall
    else (begun.note [movingAlong]).advance none) = _
  by_cases pending : p.stallPending = true
  · refine ⟨begun.log, begun.currentLine, ?_⟩
    rw [if_pos (same.trans pending), if_pos pending, noted]
    rfl
  · refine ⟨(begun.note [movingAlong]).log, begun.currentLine, ?_⟩
    rw [if_neg (by simpa [same] using pending), if_neg pending, note_log, noted]
    rfl

theorem clock_busy (busy : p.isDrained m code = false) :
    p.clock m code =
      match code[m.next]? with
      | none => ((p.tick p.log p.currentLine).drain code).finish m
      | some i =>
          if p.stallPending then (p.tick p.log p.currentLine).stall.finish m
          else
            match p.stages.fetch with
            | some f =>
                if f.taken then
                  ((p.tick p.log p.currentLine).advance (placeholder? f code)).finish m
                else (p.tick p.log p.currentLine).fetch m code i
            | none => (p.tick p.log p.currentLine).fetch m code i := by
  rw [clock, busy]
  rfl

theorem clock_attempts {i : Instruction} (attempts : p.Attempts m code)
    (fetched : code[m.next]? = some i) :
    p.clock m code = (p.tick p.log p.currentLine).fetch m code i := by
  rw [clock_busy (isDrained_of_more attempts.more), fetched]
  dsimp only
  rw [if_neg (by simp [attempts.clear])]
  cases stage : p.stages.fetch with
  | none => rfl
  | some f => simp [attempts.straight f stage]

theorem fetch_failed {i : Instruction} {e : Located Fault} (failed : m.step code = (.error e, m')) :
    (p.tick p.log p.currentLine).fetch m code i = (.error e, p.tick p.log (some i.line), m') := by
  simp only [fetch, failed]
  rfl

theorem fetch_done {i : Instruction} {x : Option Nat}
    (known : p.stages.All fun f => f.instruction.WellFormed) (wellFormed : i.WellFormed)
    (done : m.step code = (.ok x, m')) :
    (p.tick p.log p.currentLine).fetch m code i =
      (.ok (), ((p.tick p.log (some i.line)).flush.move (some (executed i m m'))).land, m') := by
  simp only [fetch, done]
  apply settle_finish
  refine Stages.All.advance (flush_all (p := p.tick p.log (some i.line)) known) ?_
  intro f new
  cases new
  exact wellFormed

theorem clock_cases (known : p.stages.All fun f => f.instruction.WellFormed)
    (wellFormed : ∀ i ∈ code, i.WellFormed) :
    (∃ q m', p.clock m code = (.ok (), q, m') ∧ Clocked code p m q m') ∨
      ∃ e m' line, p.Attempts m code ∧ m.step code = (.error e, m') ∧
        p.clock m code = (.error e, p.tick p.log line, m') := by
  cases drained : p.isDrained m code with
  | true =>
    refine .inl ⟨p.note [ended], m, by simp [clock, drained], ?_⟩
    rw [note_log]
    exact .idle _ drained
  | false =>
    cases fetched : code[m.next]? with
    | none =>
      have finished : code.size ≤ m.next := Array.getElem?_eq_none_iff.1 fetched
      -- Nothing is left to fetch.
      obtain ⟨log, line, drain⟩ := drain_eq (p.tick p.log p.currentLine) code
      rw [clock_busy drained, fetched, drain]
      cases pending : p.stallPending with
      | true =>
        refine .inl ⟨(p.tick log line).bubble.land, m, ?_, .bubble log line drained pending⟩
        rw [if_pos (by exact pending)]
        exact settle_finish known.stall
      | false =>
        refine .inl ⟨((p.tick log line).move none).land, m, ?_,
          .drain log line drained finished pending⟩
        rw [if_neg (by simpa [stallPending, tick] using pending)]
        exact settle_finish (known.advance fun _ new => nomatch new)
    | some i =>
      have more : m.next < code.size := by
        obtain ⟨inside, -⟩ := Array.getElem?_eq_some_iff.1 fetched
        exact inside
      have named : i.WellFormed := wellFormed i (Array.mem_of_getElem? fetched)
      cases pending : p.stallPending with
      | true =>
        refine .inl ⟨(p.tick p.log p.currentLine).bubble.land, m, ?_,
          .bubble _ _ drained pending⟩
        rw [clock_busy drained, fetched]
        dsimp only
        rw [if_pos pending]
        exact settle_finish known.stall
      | false =>
        -- A stall goes before a fetch, and a fetch behind a branch before an execution.
        by_cases behind : ∃ branch, p.stages.fetch = some branch ∧ branch.taken = true
        · obtain ⟨branch, stage, taken⟩ := behind
          refine .inl ⟨((p.tick p.log p.currentLine).move (placeholder? branch code)).land, m, ?_,
            .behind _ _ branch more pending stage taken⟩
          rw [clock_busy drained, fetched]
          dsimp only
          rw [if_neg (by simp [pending]), stage]
          dsimp only
          rw [if_pos taken]
          refine settle_finish (known.advance fun f new => ?_)
          exact wellFormed f.instruction (Array.mem_of_getElem? (placeholder?_eq_some new).1)
        · have attempts : p.Attempts m code :=
            ⟨more, pending, fun f stage => by simpa using fun taken => behind ⟨f, stage, taken⟩⟩
          rw [clock_attempts attempts fetched]
          cases outcome : m.step code with
          | mk result m' =>
            cases result with
            | error e => exact .inr ⟨e, m', _, attempts, rfl, fetch_failed outcome⟩
            | ok x =>
              refine .inl ⟨_, m', fetch_done known named outcome, ?_⟩
              have index := Machine.step_index fetched (congrArg Prod.fst outcome)
              exact .fetch _ _ i m' attempts fetched (index ▸ outcome)

theorem Clocked.all {P : Flight → Prop} (clocked : Clocked code p m q m')
    (all : p.stages.All P)
    (waiting : ∀ branch f, P branch → placeholder? branch code = some f → P f)
    (new : ∀ i, code[m.next]? = some i → m.step code = (.ok (some m.next), m') →
      P (executed i m m')) : q.stages.All P := by
  cases clocked with
  | idle log drained => exact all
  | bubble log line busy pending =>
    rw [land_stages]
    exact all.stall
  | drain log line busy ended clear =>
    rw [land_stages]
    exact all.advance fun f none => nomatch none
  | behind log line branch more clear fetched taken =>
    rw [land_stages]
    exact all.advance fun f => waiting branch f (all.fetch branch fetched)
  | fetch log line i m' attempts fetched done =>
    rw [land_stages]
    refine (flush_all (p := p.tick log line) all).advance fun f next => ?_
    cases next
    exact new i fetched done

end Pipeline

end Legv8
