import Legv8.Proofs.Machine.Action
import Legv8.Proofs.Register.File

/-!
An execution as one change. The effect of an instruction is worked out from the state before it,
and applying the effect as a whole comes to the same as making its changes one by one.
-/

set_option autoImplicit false

namespace Legv8

structure Effect where
  store : Option (Word × List Byte) := none
  write : Option RegisterWrite := none
  flags : Option Flags := none
  -- The program index to go on with, if not the following one.
  jump : Option Nat := none
  taken : Bool := false
  monitor : Option Monitor := none
  exclusiveStored : Option Bool := none
  notes : List String := []
  deriving DecidableEq, Repr

def Operation.base? : Operation → Option Nat
  | .load .. | .store _ | .loadExclusive | .floatLoad _ | .floatStore _ => some 1
  | .storeExclusive => some 2
  | _ => none

namespace Effect

def assign (n : Nat) (v : Word) : Effect :=
  if n = Reg.xzr.val then { notes := [Note.ignoredWrite] } else { write := some (.x n v) }

def withFlags (e : Effect) (f : Flags) : Effect :=
  { e with flags := some f, notes := e.notes ++ [Note.flagsSet] }

def jumpTo (index : Nat) (taken : Bool) : Effect :=
  { jump := some index, taken }

variable {n : Nat} {v : Word}

@[simp] theorem assign_store : (assign n v).store = none := by
  unfold assign
  split <;> rfl

@[simp] theorem assign_flags : (assign n v).flags = none := by
  unfold assign
  split <;> rfl

@[simp] theorem assign_jump : (assign n v).jump = none := by
  unfold assign
  split <;> rfl

@[simp] theorem assign_taken : (assign n v).taken = false := by
  unfold assign
  split <;> rfl

@[simp] theorem assign_monitor : (assign n v).monitor = none := by
  unfold assign
  split <;> rfl

@[simp] theorem assign_exclusiveStored : (assign n v).exclusiveStored = none := by
  unfold assign
  split <;> rfl

end Effect

def Memory.apply (m : Memory) : Option (Word × List Byte) → Memory
  | none => m
  | some (address, bytes) => m.write address bytes

namespace Machine

def address (m : Machine) (i : Instruction) (base : Nat) : Except Fault Word := do
  let r ← i.register base
  let v := m.registers.readX r
  if r = Reg.sp && !stackIsAligned v then throw (.misalignedStack v)
  return v + i.word (base + 1)

def stackNotes (m : Machine) (i : Instruction) : List String :=
  match i.mnemonic.operation.base? with
  | none => []
  | some base =>
      if i.number base = Reg.sp.val then
        [if stackIsAligned (m.registers.readX Reg.sp) then Note.stackAligned
          else Note.stackMisaligned]
      else []

def storeEffect (m : Machine) (address value : Word) (size : Nat) : Except Fault Effect := do
  m.memory.check address size
  return {
    store := some (address, BigEndian.tail value size)
    monitor := some (m.monitor.afterStore address size)
    notes := if m.monitor.touches address size then [Note.tagCleared] else [] }

def operationEffect (m : Machine) (i : Instruction) : Operation → Except Fault Effect
  | .integer op second setsFlags => do
      let a ← m.readX i 1
      let b ← m.secondOperand i second
      let (r, f) := op.evalFlags a b
      let e := Effect.assign (i.number 0) r
      return if setsFlags then e.withFlags f else e
  | .load w signed => do
      let address ← m.address i 1
      if i.number 0 = Reg.xzr.val then return .assign (i.number 0) 0
      let v ← if signed then m.memory.loadSigned address else m.memory.load address w.bytes
      return .assign (i.number 0) v
  | .store w => do
      let address ← m.address i 1
      let v ← m.readX i 0
      m.storeEffect address v w.bytes
  | .loadExclusive => do
      let address ← m.address i 1
      if i.number 0 = Reg.xzr.val then return .assign (i.number 0) 0
      let v ← m.memory.load address 8
      return { Effect.assign (i.number 0) v with monitor := some (.set address) }
  | .storeExclusive => do
      let address ← m.address i 2
      if m.monitor.permits address then
        let v ← m.readX i 0
        m.memory.check address 8
        return { Effect.assign (i.number 1) 0 with
          store := some (address, BigEndian.tail v 8)
          monitor := some {}
          exclusiveStored := some true }
      else
        return { Effect.assign (i.number 1) 1 with exclusiveStored := some false }
  | .moveWide false =>
      return .assign (i.number 0) (i.word 1 <<< (i.number 2 % 64))
  | .moveWide true => do
      let old ← m.readX i 0
      return .assign (i.number 0) (moveWide old (i.word 1) (i.number 2))
  | .loadAddress =>
      return .assign (i.number 0) (instructionAddress m.memory.textOffset (i.word 1))
  | .branch => return .jumpTo (i.number 0) true
  | .branchLink =>
      -- A branch with link is not announced, nor is a register branch.
      return { Effect.jumpTo (i.number 0) false with write := some (.x Reg.lr m.pc) }
  | .branchRegister => do
      let target ← m.readX i 0
      return .jumpTo (← m.branchTarget target) false
  | .branchIf c =>
      return if c.holds m.flags then .jumpTo (i.number 0) c.announces else {}
  | .branchZero whenZero => do
      let v ← m.readX i 0
      return if (v == 0) == whenZero then .jumpTo (i.number 1) true else {}
  | .float op .single => do
      let a ← m.readS i 1
      let b ← m.readS i 2
      return { write := some (.s (i.number 0) (op.evalSingle a b)) }
  | .float op .double => do
      let a ← m.readD i 1
      let b ← m.readD i 2
      return { write := some (.d (i.number 0) (op.evalDouble a b)) }
  | .floatCompare .single => do
      let a ← m.readS i 0
      let b ← m.readS i 1
      return Effect.withFlags {} (.compareSingle a b)
  | .floatCompare .double => do
      let a ← m.readD i 0
      let b ← m.readD i 1
      return Effect.withFlags {} (.compareDouble a b)
  | .floatLoad .single => do
      let address ← m.address i 1
      let v ← m.memory.load address 4
      return { write := some (.s (i.number 0) (v.setWidth 32)) }
  | .floatLoad .double => do
      let address ← m.address i 1
      let v ← m.memory.load address 8
      return { write := some (.d (i.number 0) v) }
  | .floatStore .single => do
      let address ← m.address i 1
      let v ← m.readS i 0
      m.storeEffect address (v.setWidth 64) 4
  | .floatStore .double => do
      let address ← m.address i 1
      let v ← m.readD i 0
      m.storeEffect address v 8

def effect (m : Machine) (i : Instruction) : Except Fault Effect :=
  if i.mnemonic.isPseudo then .error (.pseudoInstruction i.mnemonic.name)
  else m.operationEffect i i.mnemonic.operation

-- Memory comes first, then the rest.
def apply (m : Machine) (e : Effect) : Except Fault Unit × Machine :=
  let m := { m with memory := m.memory.apply e.store }
  match m.registers.apply e.write with
  | .error f => (.error f, m)
  | .ok registers =>
      (.ok (),
        { m with
          registers
          flags := e.flags.getD m.flags
          next := e.jump.getD m.next
          taken := e.taken
          monitor := e.monitor.getD m.monitor
          exclusiveStored := e.exclusiveStored.getD m.exclusiveStored
          log := m.log.append e.notes })

-- The branch before the instruction is forgotten.
def announce (m : Machine) (i : Instruction) : Machine :=
  { m with
    taken := false
    log := m.log.append (i.disassemble m.memory.textOffset :: m.stackNotes i) }

def commit (m : Machine) : Except Fault Effect → Except Fault Unit × Machine
  | .error f => (.error f, m)
  | .ok e => m.apply e

def noteStack (m : Machine) (i : Instruction) : Machine :=
  { m with log := m.log.append (m.stackNotes i) }

theorem commit_pure (m : Machine) (e : Effect) : m.commit (pure e) = m.apply e := rfl

end Machine

namespace Action

variable {α : Type} {m : Machine} {i : Instruction}

theorem on_assign (n : Nat) (v : Word) :
    (assign n v).on m =
      match m.registers.apply (Effect.assign n v).write with
      | .error f => (.error f, m)
      | .ok registers =>
          (.ok (), { m with registers, log := m.log.append (Effect.assign n v).notes }) := by
  unfold assign Effect.assign
  split
  next => rfl
  next => exact on_write _

theorem on_address {base : Nat} (named : i.mnemonic.operation.base? = some base) :
    (address i base).on m = (m.address i base, m.noteStack i) := by
  simp only [address, Machine.address, Machine.noteStack, Machine.stackNotes, named, on_bind,
    on_get, on_lift]
  cases known : i.register base with
  | error f =>
    have other : i.number base ≠ Reg.sp.val := by
      intro stack
      cases known.symm.trans (Instruction.register_eq_ok_iff.2 stack)
    rw [if_neg other]
    rfl
  | ok r =>
    have number : i.number base = r.val := Instruction.register_eq_ok_iff.1 known
    by_cases stack : r = Reg.sp
    next =>
      subst stack
      simp only [ok_bind, number, if_true, decide_true, Bool.true_and]
      cases Machine.stackIsAligned (m.registers.readX Reg.sp) <;> rfl
    next =>
      have other : i.number base ≠ Reg.sp.val := number ▸ fun same => stack (Fin.ext same)
      simp only [ok_bind, if_neg other, if_neg stack, decide_eq_false stack, Bool.false_and]
      rfl

theorem on_read {x : Machine → Except Fault α} {f : α → Action Unit} {g : α → Except Fault Effect}
    (rest : ∀ v, (f v).on m = m.commit (g v)) :
    ((get : Action Machine) >>= fun s => liftM (x s) >>= f).on m = m.commit (x m >>= g) := by
  simp only [on_bind, on_get, on_lift]
  cases x m with
  | error e => rfl
  | ok v => exact rest v

theorem on_transfer {base : Nat} {f : Word → Action Unit} {g : Word → Except Fault Effect}
    (named : i.mnemonic.operation.base? = some base)
    (rest : ∀ a, (f a).on (m.noteStack i) = (m.noteStack i).commit (g a)) :
    (address i base >>= f).on m = (m.noteStack i).commit (m.address i base >>= g) := by
  rw [on_bind, on_address named]
  cases m.address i base with
  | error e => rfl
  | ok a => exact rest a

section Fresh

variable (fresh : m.taken = false)
include fresh

theorem assign_eq (n : Nat) (v : Word) :
    (assign n v).on m = m.commit (.ok (Effect.assign n v)) := by
  simp only [on_assign, Machine.commit, Machine.apply, Memory.apply, Effect.assign_store]
  cases m.registers.apply (Effect.assign n v).write with
  | error f => rfl
  | ok registers => simp [fresh]

theorem ignore_eq {n : Nat} (zero : n = Reg.xzr.val) :
    (note Note.ignoredWrite).on m = m.commit (.ok (Effect.assign n 0)) := by
  rw [← assign_eq fresh, assign, if_pos zero]

theorem write_eq (w : RegisterWrite) : (write w).on m = m.commit (.ok { write := some w }) := by
  simp only [on_write, Machine.commit, Machine.apply, Memory.apply]
  cases m.registers.apply (some w) with
  | error f => rfl
  | ok registers => simp [fresh]

theorem setFlags_eq (f : Flags) :
    (setFlags f).on m = m.commit (.ok (Effect.withFlags {} f)) := by
  rw [on_setFlags, ← fresh]
  rfl

theorem store_eq (a v : Word) (size : Nat) :
    (store a v size).on m = m.commit (m.storeEffect a v size) := by
  simp only [store, Machine.storeEffect, on_bind, on_storeBytes, Memory.check]
  cases m.memory.allows a size with
  | false => rfl
  | true =>
    simp only [if_true, ok_bind, Machine.commit_pure, Machine.apply, Memory.apply,
      RegisterFile.apply]
    cases touched : m.monitor.touches a size <;> simp [touched, fresh, Monitor.afterStore]

theorem integer_eq (op : AluOp) (second : Source) (setsFlags : Bool) :
    (integer i op second setsFlags).on m =
      m.commit (m.operationEffect i (.integer op second setsFlags)) := by
  simp only [integer, Machine.operationEffect]
  refine on_read fun a => on_read fun b => ?_
  cases setsFlags with
  | false =>
    simp only [Bool.false_eq_true, if_false, bind_pure_unit]
    exact assign_eq fresh _ _
  | true =>
    simp only [if_true, on_bind, on_assign, on_setFlags, Machine.commit_pure, Machine.apply,
      Effect.withFlags, Effect.assign_store, Memory.apply]
    cases m.registers.apply (Effect.assign (i.number 0) (op.evalFlags a b).1).write with
    | error f => rfl
    | ok registers => simp [fresh, Log.append_append]

theorem load_eq {w : Width} {signed : Bool} (of : i.mnemonic.operation = .load w signed) :
    (loadX i w signed).on m = (m.noteStack i).commit (m.operationEffect i (.load w signed)) := by
  have noted : (m.noteStack i).taken = false := fresh
  simp only [loadX, Machine.operationEffect]
  refine on_transfer (by simp [of, Operation.base?]) fun a => ?_
  by_cases zero : i.number 0 = Reg.xzr.val
  next =>
    rw [if_pos zero, if_pos zero]
    exact ignore_eq noted zero
  next =>
    have loads v := assign_eq noted (i.number 0) v
    simp only [assign, if_neg zero] at loads
    rw [if_neg zero, if_neg zero]
    cases signed with
    | false => exact on_read loads
    | true => exact on_read loads

theorem loadExclusive_eq (of : i.mnemonic.operation = .loadExclusive) :
    (loadExclusive i).on m = (m.noteStack i).commit (m.operationEffect i .loadExclusive) := by
  have noted : (m.noteStack i).taken = false := fresh
  simp only [loadExclusive, Machine.operationEffect]
  refine on_transfer (by simp [of, Operation.base?]) fun a => ?_
  by_cases zero : i.number 0 = Reg.xzr.val
  next =>
    rw [if_pos zero, if_pos zero]
    exact ignore_eq noted zero
  next =>
    rw [if_neg zero, if_neg zero]
    refine on_read fun v => ?_
    simp only [on_bind, on_write, on_setMonitor, Machine.commit_pure, Machine.apply,
      Effect.assign, if_neg zero, Memory.apply]
    cases (m.noteStack i).registers.apply (some (.x (i.number 0) v)) with
    | error f => rfl
    | ok registers => simp [noted]

theorem storeExclusive_eq (of : i.mnemonic.operation = .storeExclusive) :
    (storeExclusive i).on m = (m.noteStack i).commit (m.operationEffect i .storeExclusive) := by
  simp only [storeExclusive, Machine.operationEffect]
  refine on_transfer (by simp [of, Operation.base?]) fun a => ?_
  -- The note about the stack pointer bears on nothing that follows.
  have kept : (m.noteStack i).monitor = m.monitor ∧ (m.noteStack i).memory = m.memory ∧
      (m.noteStack i).readX i 0 = m.readX i 0 ∧ (m.noteStack i).taken = false :=
    ⟨rfl, rfl, rfl, fresh⟩
  obtain ⟨monitor, memory, value, fresh⟩ := kept
  rw [← monitor, ← memory, ← value]
  generalize m.noteStack i = m at fresh
  rw [on_bind, on_get]
  by_cases permitted : m.monitor.permits a
  next =>
    simp only [if_pos permitted]
    refine on_read fun v => ?_
    simp only [on_bind, on_storeBytes, on_assign, on_setMonitor, on_setExclusiveStored,
      Memory.check]
    cases m.memory.allows a 8 with
    | false => rfl
    | true =>
      simp only [if_true, ok_bind, Machine.commit_pure, Machine.apply, Memory.apply]
      cases m.registers.apply (Effect.assign (i.number 1) 0).write with
      | error f => rfl
      | ok registers => simp [fresh]
  next =>
    simp only [if_neg permitted, on_bind, on_assign, on_setExclusiveStored, Machine.commit_pure,
      Machine.apply, Memory.apply, Effect.assign_store]
    cases m.registers.apply (Effect.assign (i.number 1) 1).write with
    | error f => rfl
    | ok registers => simp [fresh]

theorem perform_eq {op : Operation} (of : i.mnemonic.operation = op) :
    (perform i op).on m = (m.noteStack i).commit (m.operationEffect i op) := by
  -- Only a data transfer says something about the stack pointer.
  have unnoted (none : op.base? = none) : m.noteStack i = m := by
    simp [Machine.noteStack, Machine.stackNotes, of, none]
  have noted : (m.noteStack i).taken = false := fresh
  cases op with
  | load w signed => exact load_eq fresh of
  | loadExclusive => exact loadExclusive_eq fresh of
  | storeExclusive => exact storeExclusive_eq fresh of
  | store w =>
    simp only [perform, Machine.operationEffect]
    exact on_transfer (by simp [of, Operation.base?]) fun a => on_read fun v => store_eq noted a v _
  | floatLoad p =>
    cases p <;> simp only [perform, Machine.operationEffect] <;>
      exact on_transfer (by simp [of, Operation.base?]) fun a => on_read fun v => write_eq noted _
  | floatStore p =>
    cases p <;> simp only [perform, Machine.operationEffect] <;>
      exact on_transfer (by simp [of, Operation.base?]) fun a => on_read fun v =>
        store_eq noted a _ _
  | integer op second setsFlags =>
    rw [unnoted rfl]
    exact integer_eq fresh op second setsFlags
  | moveWide keep =>
    rw [unnoted rfl]
    cases keep with
    | false => exact assign_eq fresh _ _
    | true => exact on_read fun old => assign_eq fresh _ _
  | loadAddress =>
    rw [unnoted rfl]
    simp only [perform, on_bind, on_get, assign_eq fresh]
    rfl
  | branch =>
    rw [unnoted rfl]
    rfl
  | branchLink =>
    rw [unnoted rfl]
    simp only [perform, on_bind, on_get, write_eq fresh]
    -- The link register is one of the 32, so its write goes through.
    rfl
  | branchRegister =>
    rw [unnoted rfl]
    simp only [perform, Machine.operationEffect]
    refine on_read fun target => on_read fun index => ?_
    rw [on_jump, ← fresh]
    rfl
  | branchIf c =>
    rw [unnoted rfl]
    simp only [perform, Machine.operationEffect, on_bind, on_get]
    cases c.holds m.flags <;> rfl
  | branchZero whenZero =>
    rw [unnoted rfl]
    simp only [perform, Machine.operationEffect]
    refine on_read fun v => ?_
    cases (v == 0) == whenZero <;> rfl
  | float op p =>
    rw [unnoted rfl]
    cases p <;> simp only [perform, Machine.operationEffect] <;>
      exact on_read fun a => on_read fun b => write_eq fresh _
  | floatCompare p =>
    rw [unnoted rfl]
    cases p <;> simp only [perform, Machine.operationEffect] <;>
      exact on_read fun a => on_read fun b => setFlags_eq fresh _

end Fresh

end Action

namespace Machine

variable {m : Machine} {i : Instruction}

-- Neither the log nor the last branch is a source of any effect.
theorem operationEffect_log (op : Operation) (taken : Bool) (log : Log) :
    { m with taken, log }.operationEffect i op = m.operationEffect i op := by
  cases op with
  | integer op second => cases second <;> rfl
  | moveWide keep => cases keep <;> rfl
  | float op p | floatCompare p | floatLoad p | floatStore p => cases p <;> rfl
  | _ => rfl

theorem stackNotes_pseudo (pseudo : i.mnemonic.isPseudo = true) : m.stackNotes i = [] := by
  unfold stackNotes
  cases mnemonic : i.mnemonic <;> rw [mnemonic] at pseudo <;> first | rfl | cases pseudo

theorem execute_eq (m : Machine) (i : Instruction) :
    m.execute i = (m.announce i).commit (m.effect i) := by
  have announced : m.announce i =
      noteStack
        { m with taken := false, log := m.log.append [i.disassemble m.memory.textOffset] } i := by
    simp only [announce, noteStack, Log.append_append, List.singleton_append]
    rfl
  simp only [execute, Action.ofInstruction, Action.on_bind, Action.on_announceBranch,
    Action.on_get, Action.on_note]
  by_cases pseudo : i.mnemonic.isPseudo
  next =>
    simp only [announce, effect, stackNotes_pseudo pseudo, if_pos pseudo]
    rfl
  next =>
    rw [effect, if_neg pseudo, if_neg pseudo, announced, ← operationEffect_log]
    exact Action.perform_eq rfl rfl

end Machine

end Legv8
