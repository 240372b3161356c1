import Legv8.Machine.Step
import Legv8.Proofs.Memory.Bytes

set_option autoImplicit false

namespace Legv8.Action

variable {α β : Type} {m : Machine}

@[simp] theorem on_pure (x : α) : (pure x : Action α).on m = (.ok x, m) := rfl

@[simp] theorem on_bind (a : Action α) (f : α → Action β) :
    (a >>= f).on m =
      match a.on m with
      | (.ok x, m') => (f x).on m'
      | (.error e, m') => (.error e, m') := by
  simp only [on, ExceptT.run_bind, StateT.run_bind]
  rcases a.run.run m with ⟨x | x, m'⟩ <;> rfl

@[simp] theorem on_get : (get : Action Machine).on m = (.ok m, m) := rfl

@[simp] theorem on_lift (x : Except Fault α) : (liftM x : Action α).on m = (x, m) := by
  cases x <;> rfl

@[simp] theorem on_note (line : String) :
    (note line).on m = (.ok (), { m with log := m.log.append [line] }) := rfl

@[simp] theorem on_setFlags (f : Flags) :
    (setFlags f).on m = (.ok (), { m with flags := f, log := m.log.append [Note.flagsSet] }) := rfl

@[simp] theorem on_jump (index : Nat) : (jump index).on m = (.ok (), { m with next := index }) :=
  rfl

@[simp] theorem on_announceBranch (taken : Bool) :
    (announceBranch taken).on m = (.ok (), { m with taken }) := rfl

@[simp] theorem on_setMonitor (monitor : Monitor) :
    (setMonitor monitor).on m = (.ok (), { m with monitor }) := rfl

@[simp] theorem on_setExclusiveStored (stored : Bool) :
    (setExclusiveStored stored).on m = (.ok (), { m with exclusiveStored := stored }) := rfl

theorem on_onMemory (a : ExceptT Fault (StateM Memory) α) :
    (onMemory a).on m =
      ((a.run.run m.memory).1, { m with memory := (a.run.run m.memory).2 }) := rfl

theorem on_storeBytes (a v : Word) (size : Nat) :
    (onMemory (Memory.storeBytes a v size)).on m =
      if m.memory.allows a size then
        (.ok (), { m with memory := m.memory.write a (BigEndian.tail v size) })
      else (.error (.outOfSegment a .stackOrHeap), m) := by
  rw [on_onMemory, Memory.storeBytes_eq]
  cases m.memory.allows a size <;> rfl

theorem on_write (w : RegisterWrite) :
    (write w).on m =
      match m.registers.apply (some w) with
      | .error f => (.error f, m)
      | .ok registers => (.ok (), { m with registers }) := by
  simp only [write, on_bind, on_get, on_lift]
  cases m.registers.apply (some w) <;> rfl

end Legv8.Action
