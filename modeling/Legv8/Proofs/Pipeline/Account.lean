import Legv8.Proofs.Pipeline.Redirect

set_option autoImplicit false

namespace Legv8.Pipeline

variable {code : Array Instruction} {p q : Pipeline} {m m' : Machine}

namespace Stages

-- The number of stages, from fetch on, that have run empty.
def emptied (s : Stages) : Nat :=
  s.toList.findIdx Option.isSome

def stallRoom (s : Stages) : Nat :=
  match s.decode, s.execute, s.memory with
  | none, _, _ => 0
  | some _, some _, _ => 2
  | some _, none, some _ => 1
  | some _, none, none => 0

def stallCredit (s : Stages) : Nat :=
  s.stallRoom + 2 * (s.fetch.any fun f => !f.isPlaceholder).toNat

variable {s : Stages}

theorem isEmpty_iff : s.isEmpty = true ↔ s.emptied = 5 := by
  have length : s.toList.length = 5 := rfl
  rw [isEmpty, emptied, ← length, List.findIdx_eq_length, List.all_eq_true]
  simp

theorem emptied_le : s.emptied ≤ 5 :=
  List.findIdx_le_length

theorem emptied_fetched (f : Flight) : (s.advance (some f)).emptied = 0 := by
  simp [emptied, advance, toList, List.findIdx_cons]

theorem emptied_advance (busy : s.isEmpty = false) :
    (s.advance none).emptied = s.emptied + 1 := by
  obtain ⟨fetch, decode, execute, memory, writeBack⟩ := s
  cases fetch <;> cases decode <;> cases execute <;> cases memory <;> cases writeBack <;>
    first | rfl | cases busy

theorem emptied_stall (room : 0 < s.stallRoom) : s.stall.emptied = s.emptied := by
  obtain ⟨fetch, decode, execute, memory, writeBack⟩ := s
  cases decode with
  | none => cases room
  | some f => cases fetch <;> rfl

theorem stallRoom_stall (room : 0 < s.stallRoom) : s.stall.stallRoom < s.stallRoom := by
  obtain ⟨fetch, decode, execute, memory, writeBack⟩ := s
  cases decode with
  | none => cases room
  | some f =>
    cases execute with
    | some g => exact Nat.one_lt_two
    | none =>
      cases memory with
      | some g => exact Nat.one_pos
      | none => cases room

theorem stallCredit_stall (room : 0 < s.stallRoom) : s.stall.stallCredit < s.stallCredit :=
  Nat.add_lt_add_right (stallRoom_stall room) _

theorem stallRoom_le : s.stallRoom ≤ 2 * s.decode.isSome.toNat := by
  unfold stallRoom
  split <;> simp [*]

theorem stallCredit_advance (next : Option Flight)
    (executed : ∀ f, s.fetch = some f → f.isPlaceholder = false) :
    (s.advance next).stallCredit ≤
      s.stallCredit + 2 * (next.any fun f => !f.isPlaceholder).toNat := by
  -- Two stalls at most are added in decode, and twice the instruction is given up in fetch.
  have held : s.fetch.isSome = s.fetch.any fun f => !f.isPlaceholder := by
    cases fetch : s.fetch with
    | none => rfl
    | some f => simp [executed f fetch]
  have room : (s.advance next).stallRoom ≤ 2 * s.fetch.isSome.toNat := stallRoom_le
  unfold stallCredit
  rw [← held]
  change (s.advance next).stallRoom + 2 * (next.any fun f => !f.isPlaceholder).toNat ≤ _
  omega

end Stages

theorem Detected.stallRoom (detected : p.Detected) (pending : p.stallPending = true) :
    0 < p.stages.stallRoom := by
  obtain ⟨registers, hazards, dataStall, branchStall⟩ := detected
  rw [stallPending, dataStall, branchStall, hazards, registers] at pending
  unfold Stages.stallRoom
  -- No detector reports anything unless there is an instruction in front of the one in decode.
  cases decode : p.stages.decode with
  | none =>
    cases execute : p.stages.execute <;>
      simp [Hazards.branchStall, Hazards.detect, Hazards.branchRegisterHazard, Hazards.flagHazard,
        Hazards.loadUseHazard, Registers.capture, decode, execute] at pending
    obtain ⟨⟨-, named⟩, blank⟩ := pending
    simp [blank] at named
  | some f =>
    cases execute : p.stages.execute <;> cases memory : p.stages.memory <;>
      simp [Hazards.branchStall, Hazards.detect, Hazards.branchRegisterHazard, Hazards.flagHazard,
        Hazards.loadUseHazard, Hazards.stageSetsFlags, Registers.capture, decode, execute,
        memory] at pending ⊢

theorem flush_stallCredit (p : Pipeline) :
    p.flush.stages.stallCredit ≤ p.stages.stallCredit := by
  unfold flush
  split
  next => exact Nat.add_le_add_left (Nat.zero_le _) _
  next => exact Nat.le_refl _

structure Counted (p q : Pipeline) (stages : Stages) (stalls flushes : Nat) : Prop where
  stages : q.stages = stages
  cycles : q.statistics.cycles = p.statistics.cycles + 1
  dataStalls : q.statistics.dataStalls = p.statistics.dataStalls + stalls
  controlFlushes : q.statistics.controlFlushes = p.statistics.controlFlushes + flushes

variable (log : Log) (line : Option Nat)

theorem bubble_counted : p.Counted (p.tick log line).bubble.land p.stages.stall 1 0 :=
  ⟨land_stages _, land_cycles _, land_dataStalls _, land_controlFlushes _⟩

theorem move_counted (next : Option Flight) :
    p.Counted ((p.tick log line).move next).land (p.stages.advance next) 0 0 :=
  ⟨land_stages _, land_cycles _, land_dataStalls _, land_controlFlushes _⟩

theorem flush_counted (clear : p.stallPending = false) (next : Option Flight) :
    p.Counted ((p.tick log line).flush.move next).land
      ((p.tick log line).flush.stages.advance next) 0 p.flushPending.toNat := by
  have branch : p.branchStall = false := (clear_iff.1 clear).2
  refine ⟨land_stages _, (land_cycles _).trans ?_, (land_dataStalls _).trans ?_,
    (land_controlFlushes _).trans ?_⟩
  all_goals cases pending : p.flushPending <;> simp [move, flush, tick, pending, branch]

theorem Clocked.counted (clocked : Clocked code p m q m') (busy : p.isDrained m code = false) :
    ∃ stages stalls flushes, p.Counted q stages stalls flushes := by
  cases clocked with
  | idle log drained => simp [busy] at drained
  | bubble log line busy pending => exact ⟨_, _, _, bubble_counted log line⟩
  | drain log line busy ended clear => exact ⟨_, _, _, move_counted log line none⟩
  | behind log line branch more clear fetched taken => exact ⟨_, _, _, move_counted log line _⟩
  | fetch log line i m' attempts fetched done =>
    exact ⟨_, _, _, flush_counted log line attempts.clear _⟩

theorem Clocked.dataStalls (clocked : Clocked code p m q m') (detected : p.Detected) :
    q.statistics.dataStalls = p.statistics.dataStalls ∨
      q.statistics.dataStalls = p.statistics.dataStalls + 1 ∧
        q.stages.stallRoom < p.stages.stallRoom := by
  cases clocked with
  | idle log drained => exact .inl rfl
  | bubble log line busy pending =>
    have counted := bubble_counted (p := p) log line
    refine .inr ⟨counted.dataStalls, ?_⟩
    rw [counted.stages]
    exact Stages.stallRoom_stall (detected.stallRoom pending)
  | drain log line busy ended clear => exact .inl (move_counted log line none).dataStalls
  | behind log line branch more clear fetched taken =>
    exact .inl (move_counted log line _).dataStalls
  | fetch log line i m' attempts fetched done =>
    exact .inl (flush_counted log line attempts.clear _).dataStalls

end Legv8.Pipeline
