import Legv8.Proofs.Machine.Commit

set_option autoImplicit false

namespace Legv8

def RegisterWrite.target : RegisterWrite → RegisterClass × Nat
  | .x n _ => (.x, n)
  | .s n _ => (.s, n)
  | .d n _ => (.d, n)

def Instruction.destination? (i : Instruction) : Option (RegisterClass × Nat) :=
  match i.mnemonic.operation with
  | .integer .. | .load .. | .loadExclusive | .moveWide _ | .loadAddress => some (.x, i.number 0)
  | .storeExclusive => some (.x, i.number 1)
  | .branchLink => some (.x, Reg.lr.val)
  | .float _ .single | .floatLoad .single => some (.s, i.number 0)
  | .float _ .double | .floatLoad .double => some (.d, i.number 0)
  | _ => none

def Instruction.target? (i : Instruction) : Option Int :=
  match i.mnemonic.form with
  | .l => some (i.arg 0)
  | .rl => some (i.arg 1)
  | _ => none

def Operation.announces : Operation → Bool
  | .branch | .branchZero _ => true
  | .branchIf c => c.announces
  | _ => false

namespace Effect

variable {n : Nat} {v : Word}

theorem assign_write {w : RegisterWrite} (written : (assign n v).write = some w) :
    w = .x n v ∧ n ≠ Reg.xzr.val := by
  unfold assign at written
  split at written
  next => cases written
  next other => exact ⟨by simpa using written.symm, other⟩

structure Fits (i : Instruction) (e : Effect) : Prop where
  write : ∀ w, e.write = some w → i.destination? = some w.target
  flags : ∀ f, e.flags = some f → i.mnemonic.operation.setsFlags = true
  jump : ∀ index, e.jump = some index → i.mnemonic.operation.isBranch = true
  taken : e.taken = true → i.mnemonic.operation.announces = true
  store : ∀ bytes, e.store = some bytes → i.mnemonic.operation.isStore = true
  monitor : ∀ tag, e.monitor = some tag →
    i.mnemonic.operation = .loadExclusive ∨ i.mnemonic.operation.isStore = true
  exclusive : ∀ b, e.exclusiveStored = some b → i.mnemonic.operation = .storeExclusive

theorem fits_assign {i : Instruction} (named : i.destination? = some (.x, n)) :
    (assign n v).Fits i := by
  refine ⟨?_, by simp, by simp, by simp, by simp, by simp, by simp⟩
  intro w written
  obtain ⟨rfl, -⟩ := assign_write written
  exact named

end Effect

namespace Machine

variable {m m' : Machine} {i : Instruction} {e : Effect}

theorem check_ok {memory : Memory} {address : Word} {size : Nat} {u : Unit} :
    memory.check address size = .ok u ↔ memory.allows address size = true := by
  unfold Memory.check
  split <;> simp_all

theorem storeEffect_ok {address value : Word} {size : Nat}
    (effect : m.storeEffect address value size = .ok e) :
    m.memory.allows address size = true ∧
      e = { store := some (address, BigEndian.tail value size)
            monitor := some (m.monitor.afterStore address size)
            notes := if m.monitor.touches address size then [Note.tagCleared] else [] } := by
  simp only [storeEffect, bind_eq_ok, pure_eq_ok, check_ok] at effect
  obtain ⟨_, allowed, rfl⟩ := effect
  exact ⟨allowed, rfl⟩

theorem storeEffect_fits {address value : Word} {size : Nat}
    (store : i.mnemonic.operation.isStore = true)
    (effect : m.storeEffect address value size = .ok e) : e.Fits i := by
  obtain ⟨-, rfl⟩ := storeEffect_ok effect
  constructor <;> simp [store]

theorem storeExclusive_ok (effect : m.operationEffect i .storeExclusive = .ok e) :
    ∃ address, m.address i 2 = .ok address ∧
      if m.monitor.permits address then
        ∃ v, m.readX i 0 = .ok v ∧ m.memory.allows address 8 = true ∧
          e = { Effect.assign (i.number 1) 0 with
                store := some (address, BigEndian.tail v 8)
                monitor := some {}
                exclusiveStored := some true }
      else e = { Effect.assign (i.number 1) 1 with exclusiveStored := some false } := by
  simp only [operationEffect, bind_eq_ok] at effect
  obtain ⟨address, read, effect⟩ := effect
  refine ⟨address, read, ?_⟩
  split at effect
  next permitted =>
    simp only [bind_eq_ok, pure_eq_ok, check_ok] at effect
    obtain ⟨v, value, _, allowed, rfl⟩ := effect
    rw [if_pos permitted]
    exact ⟨v, value, allowed, rfl⟩
  next refused =>
    rw [if_neg refused]
    exact (pure_eq_ok.1 effect).symm

theorem storeExclusive_fits (of : i.mnemonic.operation = .storeExclusive)
    (effect : m.operationEffect i .storeExclusive = .ok e) : e.Fits i := by
  have named : i.destination? = some (.x, i.number 1) := by simp [Instruction.destination?, of]
  obtain ⟨address, -, outcome⟩ := storeExclusive_ok effect
  split at outcome
  next =>
    obtain ⟨v, -, -, rfl⟩ := outcome
    exact { Effect.fits_assign named (v := 0) with
            store := by simp [of, Operation.isStore]
            monitor := by simp [of, Operation.isStore]
            exclusive := by simp [of] }
  next =>
    obtain rfl := outcome
    exact { Effect.fits_assign named (v := 1) with exclusive := by simp [of] }

theorem loadExclusive_fits (of : i.mnemonic.operation = .loadExclusive)
    (effect : m.operationEffect i .loadExclusive = .ok e) : e.Fits i := by
  have named : i.destination? = some (.x, i.number 0) := by simp [Instruction.destination?, of]
  simp only [operationEffect, bind_eq_ok] at effect
  obtain ⟨address, -, effect⟩ := effect
  split at effect
  next => exact pure_eq_ok.1 effect ▸ Effect.fits_assign named
  next =>
    simp only [bind_eq_ok, pure_eq_ok] at effect
    obtain ⟨v, -, rfl⟩ := effect
    exact { Effect.fits_assign named (v := v) with monitor := by simp [of] }

theorem load_fits {w : Width} {signed : Bool} (of : i.mnemonic.operation = .load w signed)
    (effect : m.operationEffect i (.load w signed) = .ok e) : e.Fits i := by
  have named : i.destination? = some (.x, i.number 0) := by simp [Instruction.destination?, of]
  simp only [operationEffect, bind_eq_ok] at effect
  obtain ⟨address, -, effect⟩ := effect
  split at effect
  next => exact pure_eq_ok.1 effect ▸ Effect.fits_assign named
  next =>
    split at effect <;> simp only [bind_eq_ok, pure_eq_ok] at effect <;>
      obtain ⟨v, -, rfl⟩ := effect <;> exact Effect.fits_assign named

theorem operationEffect_fits {op : Operation} (of : i.mnemonic.operation = op)
    (effect : m.operationEffect i op = .ok e) : e.Fits i := by
  cases op with
  | load => exact load_fits of effect
  | loadExclusive => exact loadExclusive_fits of effect
  | storeExclusive => exact storeExclusive_fits of effect
  | store w =>
    simp only [operationEffect, bind_eq_ok] at effect
    obtain ⟨address, -, v, -, stored⟩ := effect
    exact storeEffect_fits (by simp [of, Operation.isStore]) stored
  | floatStore p =>
    cases p <;> simp only [operationEffect, bind_eq_ok] at effect <;>
      obtain ⟨address, -, v, -, stored⟩ := effect <;>
      exact storeEffect_fits (by simp [of, Operation.isStore]) stored
  | integer op second setsFlags =>
    have named : i.destination? = some (.x, i.number 0) := by simp [Instruction.destination?, of]
    simp only [operationEffect, bind_eq_ok, pure_eq_ok] at effect
    obtain ⟨a, -, b, -, rfl⟩ := effect
    have fits := Effect.fits_assign named (v := (op.evalFlags a b).1)
    cases setsFlags with
    | false => exact fits
    | true => exact { fits with flags := by simp [of, Operation.setsFlags] }
  | moveWide keep =>
    have named : i.destination? = some (.x, i.number 0) := by simp [Instruction.destination?, of]
    cases keep with
    | false => exact pure_eq_ok.1 effect ▸ Effect.fits_assign named
    | true =>
      simp only [operationEffect, bind_eq_ok, pure_eq_ok] at effect
      obtain ⟨old, -, rfl⟩ := effect
      exact Effect.fits_assign named
  | loadAddress =>
    have named : i.destination? = some (.x, i.number 0) := by simp [Instruction.destination?, of]
    exact pure_eq_ok.1 effect ▸ Effect.fits_assign named
  | branch =>
    obtain rfl := pure_eq_ok.1 effect
    constructor <;> simp [Effect.jumpTo, of, Operation.isBranch, Operation.announces]
  | branchLink =>
    obtain rfl := pure_eq_ok.1 effect
    constructor <;> simp [Effect.jumpTo, of, Operation.isBranch, Instruction.destination?,
      RegisterWrite.target]
  | branchRegister =>
    simp only [operationEffect, bind_eq_ok, pure_eq_ok] at effect
    obtain ⟨target, -, index, -, rfl⟩ := effect
    constructor <;> simp [Effect.jumpTo, of, Operation.isBranch]
  | branchIf c =>
    obtain rfl := pure_eq_ok.1 effect
    split <;> constructor <;> simp [Effect.jumpTo, of, Operation.isBranch, Operation.announces]
  | branchZero whenZero =>
    simp only [operationEffect, bind_eq_ok, pure_eq_ok] at effect
    obtain ⟨v, -, rfl⟩ := effect
    split <;> constructor <;> simp [Effect.jumpTo, of, Operation.isBranch, Operation.announces]
  | float op p =>
    cases p <;> simp only [operationEffect, bind_eq_ok, pure_eq_ok] at effect <;>
      obtain ⟨a, -, b, -, rfl⟩ := effect <;>
      constructor <;> simp [of, Instruction.destination?, RegisterWrite.target]
  | floatCompare p =>
    cases p <;> simp only [operationEffect, bind_eq_ok, pure_eq_ok] at effect <;>
      obtain ⟨a, -, b, -, rfl⟩ := effect <;>
      constructor <;> simp [of, Effect.withFlags, Operation.setsFlags]
  | floatLoad p =>
    cases p <;> simp only [operationEffect, bind_eq_ok, pure_eq_ok] at effect <;>
      obtain ⟨address, -, v, -, rfl⟩ := effect <;>
      constructor <;> simp [of, Instruction.destination?, RegisterWrite.target]

theorem effect_fits (effect : m.effect i = .ok e) : e.Fits i := by
  unfold Machine.effect at effect
  split at effect
  next => cases effect
  next => exact operationEffect_fits rfl effect

theorem effect_operation (effect : m.effect i = .ok e) :
    m.operationEffect i i.mnemonic.operation = .ok e := by
  unfold Machine.effect at effect
  split at effect
  next => cases effect
  next => exact effect

theorem execute_ok (done : (m.execute i).1 = .ok ()) :
    ∃ e registers, m.effect i = .ok e ∧ m.registers.apply e.write = .ok registers ∧
      (m.execute i).2 =
        { m with
          memory := m.memory.apply e.store
          registers
          flags := e.flags.getD m.flags
          next := e.jump.getD m.next
          taken := e.taken
          monitor := e.monitor.getD m.monitor
          exclusiveStored := e.exclusiveStored.getD m.exclusiveStored
          log := (m.announce i).log.append e.notes } := by
  simp only [execute_eq] at done ⊢
  cases effect : m.effect i with
  | error f => simp [effect, commit] at done
  | ok e =>
    simp only [effect, commit, apply] at done ⊢
    cases written : m.registers.apply e.write with
    | error f => simp [announce, written] at done
    | ok registers => exact ⟨e, registers, rfl, written, by simp [announce, written]⟩

def branches (m : Machine) (i : Instruction) : Bool :=
  match i.mnemonic.operation with
  | .branch | .branchLink => true
  | .branchIf c => c.holds m.flags
  | .branchZero whenZero => (m.readX i 0).toOption.any (· == 0) == whenZero
  | _ => false

theorem effect_target {e : Effect} {t : Int} (named : i.target? = some t)
    (effect : m.effect i = .ok e) :
    e.jump = if m.branches i then some (BitVec.ofInt 64 t).toNat else none := by
  have effect := effect_operation effect
  unfold Instruction.target? at named
  unfold branches
  -- Only branches have a label operand, and the load of an address, which goes nowhere.
  cases mnemonic : i.mnemonic <;> rw [mnemonic] at named effect <;> cases named
  case b | bl =>
    obtain rfl := pure_eq_ok.1 effect
    rfl
  case bcond c =>
    obtain rfl := pure_eq_ok.1 effect
    change (if c.holds m.flags then _ else _ : Effect).jump = if c.holds m.flags then _ else _
    split <;> rfl
  case cbz | cbnz =>
    obtain ⟨v, read, effect⟩ := bind_eq_ok.1 effect
    obtain rfl := pure_eq_ok.1 effect
    rw [read]
    change (if (v == 0) == _ then _ else _ : Effect).jump = if (v == 0) == _ then _ else _
    split <;> rfl
  case lda =>
    obtain rfl := pure_eq_ok.1 effect
    simp [Mnemonic.operation, Mnemonic.entry]

theorem executed_target {t : Int} (named : i.target? = some t)
    (done : (m.execute i).1 = .ok ()) :
    (m.execute i).2.next = if m.branches i then (BitVec.ofInt 64 t).toNat else m.next := by
  obtain ⟨e, registers, effect, -, after⟩ := execute_ok done
  rw [after, effect_target named effect]
  split <;> rfl

theorem apply_x {f f' : RegisterFile} {w : Option RegisterWrite} {r : Reg}
    (applied : f.apply w = .ok f') (other : ∀ v, w ≠ some (.x r v)) : f'.x.get r = f.x.get r := by
  cases w with
  | none =>
    cases applied
    rfl
  | some w =>
    obtain ⟨q, ⟨v, rfl, rfl⟩ | ⟨v, -, rfl⟩ | ⟨v, -, rfl⟩⟩ := RegisterFile.apply_cases applied
    · have apart : q ≠ r := fun same => other v (by rw [same])
      rw [RegisterFile.writeX_get, if_neg fun aimed => apart aimed.1]
    · rfl
    · rfl

theorem executed_x {r : Reg} (done : (m.execute i).1 = .ok ())
    (other : i.destination? ≠ some (.x, r.val)) :
    (m.execute i).2.registers.x.get r = m.registers.x.get r := by
  obtain ⟨e, registers, effect, applied, after⟩ := execute_ok done
  rw [after]
  exact apply_x applied fun v written => other ((effect_fits effect).write _ written)

theorem executed_taken (done : (m.execute i).1 = .ok ()) (taken : (m.execute i).2.taken = true) :
    i.mnemonic.operation.announces = true := by
  obtain ⟨e, registers, effect, applied, after⟩ := execute_ok done
  rw [after] at taken
  exact (effect_fits effect).taken taken

theorem executed_branch (done : (m.execute i).1 = .ok ())
    (branch : i.mnemonic.operation = .branch) : (m.execute i).2.taken = true := by
  obtain ⟨e, registers, effect, applied, after⟩ := execute_ok done
  have effect := effect_operation effect
  rw [branch] at effect
  obtain rfl := pure_eq_ok.1 effect
  rw [after]
  rfl

theorem executed_real (done : (m.execute i).1 = .ok ()) :
    i.mnemonic.isPseudo = false := by
  obtain ⟨e, registers, effect, -, -⟩ := execute_ok done
  unfold Machine.effect at effect
  split at effect
  next => cases effect
  next real => simpa using real

end Machine

end Legv8
