import Legv8.Proofs.Machine.Exclusive

set_option autoImplicit false

namespace Legv8

def Word.withLow (w : Word) (v : BitVec 32) : Word :=
  BitVec.ofNat 64 (2 ^ 32 * (w.toNat / 2 ^ 32) + v.toNat)

theorem Word.withLow_eq (w : Word) (v : BitVec 32) :
    w.withLow v = w.extractLsb' 32 32 ++ v := by
  have low : v.toNat < 2 ^ 32 := v.isLt
  apply BitVec.eq_of_toNat_eq
  rw [withLow, BitVec.toNat_ofNat, BitVec.toNat_append, ← Nat.shiftLeft_add_eq_or_of_lt low,
    Nat.shiftLeft_eq, BitVec.extractLsb'_toNat, Nat.shiftRight_eq_div_pow]
  omega

theorem Word.and_low (w : Word) : w &&& 0xFFFFFFFF = (w.extractLsb' 0 32).setWidth 64 := by
  have mask : (0xFFFFFFFF : Word).toNat = 2 ^ 32 - 1 := rfl
  apply BitVec.eq_of_toNat_eq
  rw [BitVec.toNat_and, mask, Nat.and_two_pow_sub_one_eq_mod,
    BitVec.toNat_setWidth_of_le (by decide), BitVec.extractLsb'_toNat, Nat.shiftRight_zero]

namespace RegisterWrite

def x? (r : Reg) : RegisterWrite → Option Word
  | .x n v => if n = r.val then some v else none
  | .s .. | .d .. => none

/-- What a write makes of the bits of a floating-point register: through the double precision view
it replaces them all, through the single precision view those of the lower half. -/
def replace (r : Reg) (old : Word) : RegisterWrite → Word
  | .x .. => old
  | .s n v => if n = r.val then old.withLow v else old
  | .d n v => if n = r.val then v else old

def lastX (r : Reg) (history : List RegisterWrite) : Option Word :=
  history.reverse.findSome? (x? r)

def replay (r : Reg) (history : List RegisterWrite) : Word :=
  history.foldl (replace r) 0

variable {r : Reg} {history : List RegisterWrite} {w : RegisterWrite}

theorem lastX_concat : lastX r (history ++ [w]) = (w.x? r).or (lastX r history) := by
  rw [lastX, List.reverse_concat, List.findSome?_cons, lastX]
  cases w.x? r <;> rfl

theorem replay_concat : replay r (history ++ [w]) = w.replace r (replay r history) := by
  simp [replay]

end RegisterWrite

namespace RegisterFile

open RegisterWrite

variable {f f' : RegisterFile} {w : RegisterWrite} {earlier history : List RegisterWrite}

theorem apply_get_x (applied : f.apply (some w) = .ok f') (r : Reg) :
    f'.x.get r = if r = Reg.xzr then f.x.get r else (w.x? r).getD (f.x.get r) := by
  obtain ⟨q, ⟨v, rfl, rfl⟩ | ⟨v, rfl, rfl⟩ | ⟨v, rfl, rfl⟩⟩ := apply_cases applied
  case inl =>
    rw [writeX_get, x?]
    by_cases aimed : q = r <;> by_cases zero : r = Reg.xzr <;> simp [← Fin.ext_iff, aimed, zero]
  all_goals
    simp [writeS, writeD, x?]

theorem apply_get_d (applied : f.apply (some w) = .ok f') (r : Reg) :
    f'.d.get r = w.replace r (f.d.get r) := by
  obtain ⟨q, ⟨v, rfl, rfl⟩ | ⟨v, rfl, rfl⟩ | ⟨v, rfl, rfl⟩⟩ := apply_cases applied
  · rw [writeX_d, replace]
  · simp only [writeS_get, replace, Word.withLow_eq, Fin.ext_iff]
  · simp only [writeD_get, replace, Fin.ext_iff]

-- A register file holds what a history of writes has left. The slot of the zero register, which
-- reads do not look at, has stayed zero.
structure Holds (f : RegisterFile) (history : List RegisterWrite) : Prop where
  x : ∀ r, f.x.get r = if r = Reg.xzr then 0 else (lastX r history).getD 0
  d : ∀ r, f.d.get r = replay r history

theorem holds_nil : Holds {} [] := by
  constructor
  · intro r
    simp [Vector.get, lastX]
  · intro r
    simp [Vector.get, replay]

theorem Holds.write (holds : f.Holds history) (applied : f.apply (some w) = .ok f') :
    f'.Holds (history ++ [w]) := by
  constructor
  · intro r
    rw [apply_get_x applied, holds.x, lastX_concat]
    by_cases zero : r = Reg.xzr
    · simp [zero]
    · cases w.x? r <;> simp [zero]
  · intro r
    rw [apply_get_d applied, holds.d, replay_concat]

-- Writes one after the other, up to the first to a register that does not exist.
def applyAll (f : RegisterFile) (history : List RegisterWrite) : Except Fault RegisterFile :=
  history.foldlM (fun f w => f.apply (some w)) f

theorem Holds.writes (holds : f.Holds earlier) (known : ∀ w ∈ history, w.target.2 < 32) :
    ∃ f', f.applyAll history = .ok f' ∧ f'.Holds (earlier ++ history) := by
  -- Each write goes from the front of the history to the end of what the file holds already.
  induction history generalizing f earlier with
  | nil => exact ⟨f, rfl, by simpa using holds⟩
  | cons w rest ih =>
    obtain ⟨f', applied⟩ : ∃ f', f.apply (some w) = .ok f' := by
      apply apply_known
      rintro _ ⟨⟩
      exact known w (by simp)
    have rest_known : ∀ v ∈ rest, v.target.2 < 32 := fun v member => known v (by simp [member])
    obtain ⟨last, later, holds⟩ := ih (holds.write applied) rest_known
    refine ⟨last, ?_, by simpa using holds⟩
    rw [applyAll, List.foldlM_cons, applied]
    exact later

theorem Holds.readX (holds : f.Holds history) (r : Reg) :
    f.readX r = if r = Reg.xzr then 0 else (lastX r history).getD 0 := by
  have slot : f.x[r] = _ := holds.x r
  rw [RegisterFile.readX, slot]
  split <;> rfl

theorem readS_toNat (f : RegisterFile) (r : Reg) :
    (f.readS r).toNat = (f.readD r).toNat % 2 ^ 32 := by
  rw [readS, readD, BitVec.extractLsb'_toNat, Nat.shiftRight_zero]

end RegisterFile

theorem Machine.snapshot_reads_iff {m : Machine} :
    (∀ c r, m.snapshot.register c r = m.registers.read c r) ↔ m.registers.x.get Reg.xzr = 0 := by
  constructor
  · intro agree
    exact agree .x Reg.xzr
  · intro zero c r
    -- Only the integer view sets a register apart, and there the two sides differ in one slot.
    cases c with
    | x =>
      change m.registers.x.get r = if r = Reg.xzr then 0 else m.registers.x.get r
      split
      next same => rw [same, zero]
      next => rfl
    | s => exact Word.and_low _
    | d => rfl

namespace RegisterFile

variable {f : RegisterFile} {history : List RegisterWrite}

theorem Holds.snapshot (holds : f.Holds history) {m : Machine} (holding : m.registers = f) :
    ∀ c r, m.snapshot.register c r = f.read c r := by
  subst holding
  apply Machine.snapshot_reads_iff.2
  exact holds.x Reg.xzr

/-- Behind any history of writes to registers that exist, an integer register reads as the value
that was written to it last and the zero register as zero, a floating-point register as the replay
of the writes through both of its views, and every snapshot reads like the registers. -/
theorem reads_replay_history (known : ∀ w ∈ history, w.target.2 < 32) :
    ∃ f, applyAll {} history = .ok f ∧
      (∀ r, f.readX r = if r = Reg.xzr then 0 else (RegisterWrite.lastX r history).getD 0) ∧
      (∀ r, f.readD r = RegisterWrite.replay r history) ∧
      (∀ r, (f.readS r).toNat = (RegisterWrite.replay r history).toNat % 2 ^ 32) ∧
      ∀ m : Machine, m.registers = f → ∀ c r, m.snapshot.register c r = f.read c r := by
  obtain ⟨f, applied, holds⟩ := holds_nil.writes known
  refine ⟨f, applied, holds.readX, holds.d, fun r => ?_, fun m holding => holds.snapshot holding⟩
  rw [readS_toNat]
  exact congrArg (·.toNat % 2 ^ 32) (holds.d r)

-- Writes through both views of one register, over an earlier value, and to the zero register.
theorem reads_replay_history_views :
    let history : List RegisterWrite :=
      [.x 1 5, .d 2 0x1111222233334444, .x 31 7, .s 2 0xAAAABBBB, .x 1 6, .s 3 9]
    (∀ w ∈ history, w.target.2 < 32) ∧ ∃ f, applyAll {} history = .ok f ∧
      f.readX 1 = 6 ∧ f.readX Reg.xzr = 0 ∧ f.readD 2 = 0x11112222AAAABBBB ∧
      (f.readS 2).toNat = 0xAAAABBBB ∧ f.readD 3 = 9 ∧
      ∀ m : Machine, m.registers = f → m.snapshot.register .s 2 = 0xAAAABBBB := by
  intro history
  have known : ∀ w ∈ history, w.target.2 < 32 := by decide
  obtain ⟨f, applied, x, d, s, shown⟩ := reads_replay_history known
  have low : (f.readS 2).toNat = 0xAAAABBBB := (s 2).trans (by decide +kernel)
  refine ⟨known, f, applied, (x 1).trans (by decide +kernel), x Reg.xzr,
    (d 2).trans (by decide +kernel), low, (d 3).trans (by decide +kernel), fun m holding => ?_⟩
  rw [shown m holding, read]
  apply BitVec.eq_of_toNat_eq
  rw [BitVec.toNat_setWidth_of_le (by decide), low]
  rfl

end RegisterFile

namespace Machine

open RegisterFile

theorem execute_registers (m : Machine) (i : Instruction) :
    (m.execute i).2.registers = m.registers ∨
      ∃ w, m.registers.apply (some w) = .ok (m.execute i).2.registers := by
  rw [execute_eq]
  cases m.effect i with
  | error f => exact .inl rfl
  | ok e =>
    obtain ⟨store, write⟩ := e
    simp only [commit, apply, announce]
    cases write with
    | none => exact .inl rfl
    | some w =>
      cases applied : m.registers.apply (some w) with
      | error f => exact .inl rfl
      | ok registers => exact .inr ⟨w, applied⟩

theorem executeAll_holds (c : Config) (count : Nat) (is : List Instruction) :
    ∃ history, ((ofConfig c count).executeAll is).registers.Holds history := by
  induction is using List.reverseRecOn with
  | nil =>
    exact ⟨_, holds_nil.write (w := .x Reg.sp.val c.memory.initialStackPointer) rfl⟩
  | append_singleton is i ih =>
    obtain ⟨history, holds⟩ := ih
    rw [executeAll_concat]
    rcases execute_registers ((ofConfig c count).executeAll is) i with same | ⟨w, applied⟩
    · exact ⟨history, same ▸ holds⟩
    · exact ⟨history ++ [w], holds.write applied⟩

theorem executeAll_snapshot (c : Config) (count : Nat) (is : List Instruction) :
    let m := (ofConfig c count).executeAll is
    ∀ k r, m.snapshot.register k r = m.registers.read k r := by
  obtain ⟨history, holds⟩ := executeAll_holds c count is
  exact holds.snapshot rfl

end Machine

end Legv8
