import Legv8.Proofs.Machine.Transfer

set_option autoImplicit false

namespace Legv8

namespace Operation

def hasDestination : Operation → Bool
  | .integer .. | .load .. | .loadExclusive | .storeExclusive | .moveWide _ | .loadAddress
  | .branchLink | .float .. | .floatLoad _ => true
  | _ => false

def span? : Operation → Option Width
  | .storeExclusive => some .double
  | op => op.storeWidth?

theorem span?_isSome (op : Operation) : op.span?.isSome = op.isStore := by
  cases op <;> rfl

theorem span?_of_storeWidth? {op : Operation} {w : Width} (store : op.storeWidth? = some w) :
    op.base? = some 1 ∧ op.span? = some w := by
  cases op with
  | store | floatStore => exact ⟨rfl, store⟩
  | _ => cases store

end Operation

namespace Control

structure Drives (c : Control) (op : Operation) : Prop where
  memory : c.memWrite = .high ↔ op.isStore = true
  flags : c.flagWrite = .high ↔ op.setsFlags = true
  register : c.regWrite = .high ↔ op.hasDestination = true
  index : c.uncondBranch = .high ∨ c.flagBranch = .high ∨ c.zeroBranch = .high ↔
    op.isBranch = true

theorem ofOperation_drives (op : Operation) : (ofOperation op).Drives op := by
  unfold ofOperation
  split <;> constructor <;>
    simp [threeRegister, immediate, load, store, storeExclusive, branch, branchLink, branchIf,
      branchZero, floatCompare, Operation.isStore, Operation.setsFlags, Operation.hasDestination,
      Operation.isBranch]

end Control

theorem Instruction.hasDestination_of_destination? {i : Instruction}
    {target : RegisterClass × Nat} (named : i.destination? = some target) :
    i.mnemonic.operation.hasDestination = true := by
  unfold destination? at named
  split at named <;> simp_all [Operation.hasDestination]

theorem RegisterFile.apply_d {f f' : RegisterFile} {w : Option RegisterWrite} {r : Reg}
    (applied : f.apply w = .ok f') (changed : f'.d.get r ≠ f.d.get r) :
    (∃ v, w = some (.s r v)) ∨ ∃ v, w = some (.d r v) := by
  cases w with
  | none =>
    cases applied
    exact absurd rfl changed
  | some w =>
    obtain ⟨q, ⟨v, -, rfl⟩ | ⟨v, rfl, rfl⟩ | ⟨v, rfl, rfl⟩⟩ := apply_cases applied
    · exact absurd (by rw [writeX_d]) changed
    · obtain rfl : q = r := Classical.byContradiction fun apart =>
        changed (by rw [writeS_get, if_neg apart])
      exact .inl ⟨v, rfl⟩
    · obtain rfl : q = r := Classical.byContradiction fun apart =>
        changed (by rw [writeD_get, if_neg apart])
      exact .inr ⟨v, rfl⟩

namespace Machine

variable {m : Machine} {i : Instruction}

/-- What an instruction may leave different, by the lines of its control word. -/
structure Framed (m : Machine) (i : Instruction) (m' : Machine) : Prop where
  memory : ∀ a, m'.memory.peek a ≠ m.memory.peek a → i.control.memWrite = .high ∧
    ∃ base w start, i.mnemonic.operation.base? = some base ∧
      i.mnemonic.operation.span? = some w ∧ m.address i base = .ok start ∧
      ∃ k < w.bytes, start + BitVec.ofNat 64 k = a
  flags : m'.flags ≠ m.flags → i.control.flagWrite = .high
  x : ∀ r, m'.registers.x.get r ≠ m.registers.x.get r →
    i.control.regWrite = .high ∧ i.destination? = some (.x, r.val)
  d : ∀ r, m'.registers.d.get r ≠ m.registers.d.get r → i.control.regWrite = .high ∧
    (i.destination? = some (.s, r.val) ∨ i.destination? = some (.d, r.val))
  index : m'.next ≠ m.next → i.control.uncondBranch = .high ∨ i.control.flagBranch = .high ∨
    i.control.zeroBranch = .high
  monitor : m'.monitor ≠ m.monitor → i.mnemonic.operation = .loadExclusive ∨
    i.mnemonic.operation = .storeExclusive ∨ ∃ w, i.mnemonic.operation.storeWidth? = some w

theorem written_span {w : Width} {start v : Word} {memory : Memory} {a : Word}
    (written : memory = m.memory.write start (BigEndian.tail v w.bytes))
    (changed : memory.peek a ≠ m.memory.peek a) : ∃ k < w.bytes, start + BitVec.ofNat 64 k = a := by
  refine Classical.byContradiction fun outside => changed ?_
  rw [written]
  refine Memory.peek_write_outside fun k inside meet => outside ⟨k, ?_, meet⟩
  rwa [BigEndian.length_tail, Nat.min_eq_left w.bytes_le] at inside

theorem executed_memory {a : Word} (done : (m.execute i).1 = .ok ())
    (changed : (m.execute i).2.memory.peek a ≠ m.memory.peek a) :
    ∃ base w start, i.mnemonic.operation.base? = some base ∧
      i.mnemonic.operation.span? = some w ∧ m.address i base = .ok start ∧
      ∃ k < w.bytes, start + BitVec.ofNat 64 k = a := by
  rcases transfer_cases i.mnemonic.operation with
    load | exclusive | ⟨w, store⟩ | ⟨load, store, width⟩
  · obtain ⟨start, -, memory, -⟩ := executed_loadExclusive done load
    exact absurd (by rw [memory]) changed
  · obtain ⟨start, r, address, -, outcome⟩ := executed_storeExclusive done exclusive
    split at outcome
    next =>
      obtain ⟨v, -, -, memory, -⟩ := outcome
      exact ⟨2, .double, start, by rw [exclusive]; rfl, by rw [exclusive]; rfl, address,
        written_span (w := .double) memory changed⟩
    next => exact absurd (by rw [outcome.1]) changed
  · obtain ⟨start, v, address, -, memory, -⟩ := executed_store done store
    obtain ⟨base, span⟩ := Operation.span?_of_storeWidth? store
    exact ⟨1, w, start, base, span, address, written_span memory changed⟩
  · exact absurd (by rw [(executed_still done load store).1]) changed

/-- An instruction changes only what its control word says. -/
theorem execute_framed (done : (m.execute i).1 = .ok ()) : m.Framed i (m.execute i).2 := by
  obtain ⟨e, registers, effect, applied, after⟩ := execute_ok done
  have fits := effect_fits effect
  have drives := Control.ofOperation_drives i.mnemonic.operation
  have named {target : RegisterClass × Nat} (destination : i.destination? = some target) :
      i.control.regWrite = .high :=
    drives.register.2 (Instruction.hasDestination_of_destination? destination)
  constructor
  case memory =>
    intro a changed
    obtain ⟨base, w, start, operand, span, place⟩ := executed_memory done changed
    refine ⟨drives.memory.2 ?_, base, w, start, operand, span, place⟩
    rw [← Operation.span?_isSome, span]
    rfl
  case flags =>
    intro changed
    rw [after] at changed
    cases set : e.flags with
    | none => exact absurd (by rw [set]; rfl) changed
    | some f => exact drives.flags.2 (fits.flags f set)
  case x =>
    intro r changed
    have destination : i.destination? = some (.x, r.val) :=
      Classical.byContradiction fun other => changed (executed_x done other)
    exact ⟨named destination, destination⟩
  case d =>
    intro r changed
    rw [after] at changed
    have written := RegisterFile.apply_d applied changed
    have destination : i.destination? = some (.s, r.val) ∨ i.destination? = some (.d, r.val) :=
      written.imp (fun ⟨v, write⟩ => fits.write _ write) fun ⟨v, write⟩ => fits.write _ write
    exact ⟨destination.elim named named, destination⟩
  case index =>
    intro changed
    rw [after] at changed
    cases jump : e.jump with
    | none => exact absurd (by rw [jump]; rfl) changed
    | some index => exact drives.index.2 (fits.jump index jump)
  case monitor =>
    intro changed
    rcases transfer_cases i.mnemonic.operation with load | exclusive | store | ⟨load, store, -⟩
    · exact .inl load
    · exact .inr (.inl exclusive)
    · exact .inr (.inr store)
    · exact absurd (executed_still done load store).2 changed

theorem execute_framed_store :
    let m : Machine :=
      { memory := .ofConfig {} 1
        registers := (RegisterFile.writeX {} 9 0x10000000).writeX 1 5 }
    let i : Instruction := ⟨.stur, [1, 9, 8], 0⟩
    (m.execute i).1 = .ok () ∧ m.Framed i (m.execute i).2 ∧
      (m.execute i).2.memory.peek 0x1000000F = 5 := by
  intro m i
  have done : (m.execute i).1 = .ok () := eq_ok_of_toOption (by decide +kernel)
  exact ⟨done, execute_framed done, by decide +kernel⟩

end Machine

end Legv8
