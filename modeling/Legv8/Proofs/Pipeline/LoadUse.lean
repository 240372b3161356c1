import Legv8.Proofs.Instruction.Registers
import Legv8.Proofs.Machine.Effect
import Legv8.Proofs.Pipeline.Clock

set_option autoImplicit false

namespace Legv8

/-- The operands that name the integer registers from which an operation takes values. -/
def Operation.sources : Operation → List Nat
  | .integer _ .register _ => [1, 2]
  | .integer _ .immediate _ | .load .. | .loadExclusive | .floatLoad _ | .floatStore _ => [1]
  | .store _ => [1, 0]
  | .storeExclusive => [2, 0]
  | .moveWide true | .branchRegister | .branchZero _ => [0]
  | .moveWide false | .loadAddress | .branch | .branchLink | .branchIf _ | .float ..
  | .floatCompare _ => []

namespace Instruction

def reads (i : Instruction) : List Nat :=
  i.mnemonic.operation.sources.map i.number

def loaded? (i : Instruction) : Option Nat :=
  match i.mnemonic.operation with
  | .load .. | .loadExclusive => some (i.number 0)
  | _ => none

def Decoded (i : Instruction) : Prop :=
  ∃ m operands line labels, decode m operands line labels = .ok i

theorem Decoded.real {i : Instruction} (decoded : i.Decoded) : i.mnemonic.isPseudo = false := by
  obtain ⟨m, operands, line, labels, decoded⟩ := decoded
  exact decode_real decoded

end Instruction

namespace Machine

variable {m : Machine} {i : Instruction} {x : Vector Word 32}

def withX (m : Machine) (x : Vector Word 32) : Machine :=
  { m with registers := { m.registers with x } }

theorem operationEffect_withX {op : Operation}
    (value : ∀ k ∈ op.sources, (m.withX x).readX i k = m.readX i k)
    (base : ∀ k ∈ op.sources, (m.withX x).address i k = m.address i k) :
    (m.withX x).operationEffect i op = m.operationEffect i op := by
  cases op with
  | integer op source setsFlags =>
    cases source <;> simp only [Operation.sources, List.forall_mem_cons] at value <;>
      simp only [operationEffect, secondOperand, value]
  | load | loadExclusive =>
    rw [operationEffect, operationEffect, base 1 List.mem_cons_self]
    rfl
  | store =>
    simp only [Operation.sources, List.forall_mem_cons] at value base
    simp only [operationEffect, value, base]
    rfl
  | storeExclusive =>
    simp only [Operation.sources, List.forall_mem_cons] at value base
    simp only [operationEffect, value, base]
    rfl
  | moveWide keep =>
    cases keep with
    | true => rw [operationEffect, operationEffect, value 0 List.mem_cons_self]
    | false => rfl
  | branchRegister =>
    rw [operationEffect, operationEffect, value 0 List.mem_cons_self]
    rfl
  | branchZero => rw [operationEffect, operationEffect, value 0 List.mem_cons_self]
  | floatLoad p | floatStore p =>
    cases p <;> rw [operationEffect, operationEffect, base 1 List.mem_cons_self] <;> rfl
  | float op p | floatCompare p => cases p <;> rfl
  | loadAddress | branch | branchLink | branchIf => rfl

theorem effect_reads
    (same : ∀ r : Reg, r.val ∈ i.reads → (m.withX x).registers.readX r = m.registers.readX r) :
    (m.withX x).effect i = m.effect i := by
  have held (k : Nat) (source : k ∈ i.mnemonic.operation.sources) {r : Reg}
      (known : Reg.ofNat? (i.number k) = some r) :
      (m.withX x).registers.readX r = m.registers.readX r := by
    have read : i.number k ∈ i.reads := List.mem_map_of_mem source
    exact same r (Reg.ofNat?_eq_some_iff.1 known ▸ read)
  have value (k : Nat) (source : k ∈ i.mnemonic.operation.sources) :
      (m.withX x).readX i k = m.readX i k := by
    unfold readX Instruction.register
    cases known : Reg.ofNat? (i.number k) with
    | none => rfl
    | some r => exact congrArg Except.ok (held k source known)
  have base (k : Nat) (source : k ∈ i.mnemonic.operation.sources) :
      (m.withX x).address i k = m.address i k := by
    unfold address Instruction.register
    cases known : Reg.ofNat? (i.number k) with
    | none => rfl
    | some r => simp only [held k source known, bind, Except.bind]
  -- Nothing else that an effect is worked out from is kept in the integer registers.
  unfold effect
  split
  · rfl
  · exact operationEffect_withX value base

end Machine

namespace Instruction

def shown (i : Instruction) : List Nat :=
  i.fields.rn.toList ++ i.fields.rm.toList

theorem mem_shown {i : Instruction} {r : Nat} :
    r ∈ i.shown ↔ some r = i.fields.rn ∨ some r = i.fields.rm := by
  unfold shown
  cases i.fields.rn <;> cases i.fields.rm <;> simp

theorem shown_eq {i : Instruction} (real : i.mnemonic.isPseudo = false) :
    i.shown =
      match i.mnemonic.operation with
      | .moveWide true | .branchRegister | .floatLoad _ | .floatStore _ => []
      | .loadAddress => [i.number 0]
      | _ => i.reads := by
  unfold shown fields reads control Mnemonic.control
  cases mnemonic : i.mnemonic <;> rw [mnemonic] at real <;> first | rfl | cases real

theorem loaded?_eq_some {i : Instruction} {r : Nat} :
    i.loaded? = some r ↔ i.control = .load ∧ i.fields.rd = some r := by
  unfold loaded? fields
  cases mnemonic : i.mnemonic <;>
    simp [mnemonic, control, Mnemonic.operation, Mnemonic.form, Mnemonic.control, Mnemonic.entry,
      Control.ofOperation, Signal.isHigh, Control.load, Control.immediate, Control.threeRegister,
      Control.store, Control.storeExclusive, Control.branch, Control.branchLink, Control.branchIf,
      Control.branchZero, Control.floatCompare]

/-- Whether the detector is wrong about an instruction behind a load into a register. Some
operations read integer registers that no field shows, the destination of an address is shown as a
source, and the zero register is taken for one that is fetched. -/
def misjudges (i : Instruction) (r : Nat) : Bool :=
  match i.mnemonic.operation with
  | .moveWide true | .branchRegister | .floatLoad _ | .floatStore _ =>
      r != Reg.xzr.val && i.reads.contains r
  | .loadAddress => r == i.number 0
  | _ => r == Reg.xzr.val && i.reads.contains r

theorem shown_contains_iff {i : Instruction} (real : i.mnemonic.isPseudo = false) (r : Nat) :
    i.shown.contains r = (r != Reg.xzr.val && i.reads.contains r) ↔ i.misjudges r = false := by
  have plain : i.reads.contains r = (r != Reg.xzr.val && i.reads.contains r) ↔
      (r == Reg.xzr.val && i.reads.contains r) = false := by
    rw [bne]
    cases r == Reg.xzr.val <;> simp
  rw [shown_eq real]
  unfold misjudges
  -- Where all reads are shown, the detector goes wrong with the zero register alone.
  cases operation : i.mnemonic.operation with
  | moveWide keep =>
    cases keep with
    | true => simp
    | false => exact plain
  | branchRegister | floatLoad | floatStore => simp
  | loadAddress => simp [reads, operation, Operation.sources]
  | _ => exact plain

end Instruction

namespace Pipeline

variable {s : Stages}

def Stages.consumer? (s : Stages) : Option (Nat × Instruction) := do
  return (← (← s.execute).instruction.loaded?, (← s.decode).instruction)

def Stages.loadUse (s : Stages) : Bool :=
  s.consumer?.any fun (r, i) => r != Reg.xzr.val && i.reads.contains r

theorem Stages.consumer?_eq_some {r : Nat} {i : Instruction} :
    s.consumer? = some (r, i) ↔ ∃ load f, s.execute = some load ∧ s.decode = some f ∧
      load.instruction.loaded? = some r ∧ f.instruction = i := by
  simp only [consumer?, Option.bind_eq_bind, Option.bind_eq_some_iff, Option.pure_def,
    Option.some.injEq, Prod.mk.injEq]
  constructor
  · rintro ⟨load, execute, _, fetched, f, decode, rfl, rfl⟩
    exact ⟨load, f, execute, decode, fetched, rfl⟩
  · rintro ⟨load, f, execute, decode, fetched, rfl⟩
    exact ⟨load, execute, r, fetched, f, decode, rfl, rfl⟩

theorem loadUseStall_eq :
    (Hazards.detect s (.capture s)).loadUseStall =
      s.consumer?.any fun (r, i) => i.shown.contains r := by
  change Hazards.loadUseHazard s.execute (.capture s) = _
  cases execute : s.execute with
  | none => simp [Hazards.loadUseHazard, Stages.consumer?, execute]
  | some load =>
    have destination : (Registers.capture s).idEx.rd = load.fields.rd := by
      rw [Registers.capture, execute]
      rfl
    rw [Hazards.loadUseHazard, destination]
    cases fetched : load.instruction.loaded? with
    | none =>
      -- A load without a register for the integer unit names no destination, so it stalls nobody.
      have other (r : Nat) (named : load.fields.rd = some r) : load.instruction.control ≠ .load :=
        fun control => by simp [Instruction.loaded?_eq_some.2 ⟨control, named⟩] at fetched
      cases named : load.fields.rd with
      | none => simp [Stages.consumer?, execute, fetched]
      | some r => simp [Stages.consumer?, execute, fetched, other r named]
    | some r =>
      obtain ⟨control, named⟩ : load.instruction.control = .load ∧ load.fields.rd = some r :=
        Instruction.loaded?_eq_some.1 fetched
      cases decode : s.decode with
      | none => simp [Stages.consumer?, Registers.capture, execute, decode, named]
      | some f =>
        have sources : (Registers.capture s).ifId.rn = f.instruction.fields.rn ∧
            (Registers.capture s).ifId.rm = f.instruction.fields.rm := by
          rw [Registers.capture, decode]
          exact ⟨rfl, rfl⟩
        rw [sources.1, sources.2, control, named, Bool.eq_iff_iff]
        simp [Stages.consumer?, execute, fetched, decode, Instruction.mem_shown]

/-- Load-use stalls are called for exactly, but for the instructions that the detector
misjudges. -/
theorem loadUseStall_exact_iff (decoded : s.All fun f => f.instruction.Decoded) :
    (Hazards.detect s (.capture s)).loadUseStall = s.loadUse ↔
      ∀ r i, s.consumer? = some (r, i) → i.misjudges r = false := by
  rw [loadUseStall_eq, Stages.loadUse]
  cases consumer : s.consumer? with
  | none => simp
  | some pair =>
    obtain ⟨r, i⟩ := pair
    obtain ⟨load, f, -, decode, -, rfl⟩ := Stages.consumer?_eq_some.1 consumer
    have judged := Instruction.shown_contains_iff (decoded.decode f decode).real r
    simpa using judged

def Stages.pair (first second : Instruction) : Stages where
  decode := some ⟨second, 1, 0x400004, some ⟨{}, {}, false⟩⟩
  execute := some ⟨first, 0, 0x400000, some ⟨{}, {}, false⟩⟩

theorem Stages.pair_all {P : Instruction → Prop} {first second : Instruction} (one : P first)
    (two : P second) : (pair first second).All fun f => P f.instruction := by
  constructor <;> rintro f ⟨⟩ <;> assumption

theorem loadUseStall_exact_iff_add :
    let s := Stages.pair ⟨.ldur, [1, 9, 0], 0⟩ ⟨.add, [3, 1, 4], 1⟩
    s.loadUse = true ∧ (Hazards.detect s (.capture s)).loadUseStall = true := by
  intro s
  have load : (⟨.ldur, [1, 9, 0], 0⟩ : Instruction).Decoded :=
    ⟨.ldur, ["X1", "X9"], 0, ∅, eq_ok_of_toOption (by decide +kernel)⟩
  have add : (⟨.add, [3, 1, 4], 1⟩ : Instruction).Decoded :=
    ⟨.add, ["X3", "X1", "X4"], 1, ∅, eq_ok_of_toOption (by decide +kernel)⟩
  have reads : s.loadUse = true := by decide
  refine ⟨reads, ((loadUseStall_exact_iff (Stages.pair_all load add)).2 ?_).trans reads⟩
  rintro r i ⟨⟩
  decide

theorem loadUseStall_inexact :
    let kept := Stages.pair ⟨.ldur, [1, 9, 0], 0⟩ ⟨.movk, [1, 5, 0], 1⟩
    let zero := Stages.pair ⟨.ldur, [31, 9, 0], 0⟩ ⟨.add, [3, 31, 4], 1⟩
    (kept.All fun f => f.instruction.Decoded) ∧ kept.loadUse = true ∧
      (Hazards.detect kept (.capture kept)).loadUseStall = false ∧
      (zero.All fun f => f.instruction.Decoded) ∧ zero.loadUse = false ∧
      (Hazards.detect zero (.capture zero)).loadUseStall = true := by
  have load : (⟨.ldur, [1, 9, 0], 0⟩ : Instruction).Decoded :=
    ⟨.ldur, ["X1", "X9"], 0, ∅, eq_ok_of_toOption (by decide +kernel)⟩
  have move : (⟨.movk, [1, 5, 0], 1⟩ : Instruction).Decoded :=
    ⟨.movk, ["X1", "#5"], 1, ∅, eq_ok_of_toOption (by decide +kernel)⟩
  have prefetch : (⟨.ldur, [31, 9, 0], 0⟩ : Instruction).Decoded :=
    ⟨.ldur, ["XZR", "X9"], 0, ∅, eq_ok_of_toOption (by decide +kernel)⟩
  have add : (⟨.add, [3, 31, 4], 1⟩ : Instruction).Decoded :=
    ⟨.add, ["X3", "XZR", "X4"], 1, ∅, eq_ok_of_toOption (by decide +kernel)⟩
  exact ⟨Stages.pair_all load move, by decide, by decide, Stages.pair_all prefetch add, by decide,
    by decide⟩

end Pipeline

end Legv8
