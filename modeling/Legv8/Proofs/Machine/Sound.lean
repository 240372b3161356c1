import Legv8.Proofs.Machine.Transfer
import Legv8.Proofs.Program.Sound

set_option autoImplicit false

namespace Legv8

-- The faults that no assembled program runs into.
def Fault.isInternal : Fault → Bool
  | .pseudoInstruction _ | .noSuchRegister _ => true
  | _ => false

def Fault.isLimit : Fault → Bool
  | .stepLimit _ => true
  | _ => false

def Raises {α : Type} (kind : Fault → Prop) (x : Except Fault α) : Prop :=
  ∀ f, x = .error f → kind f

namespace Raises

variable {α β : Type} {kind : Fault → Prop} {x : Except Fault α}

theorem pure (a : α) : Raises kind (pure a : Except Fault α) := by
  intro f failed
  cases failed

theorem throw {f : Fault} (own : kind f) : Raises kind (throw f : Except Fault α) := by
  rintro _ ⟨⟩
  exact own

theorem bind {f : α → Except Fault β} (first : Raises kind x) (next : ∀ a, Raises kind (f a)) :
    Raises kind (x >>= f) := by
  cases x with
  | error e => exact fun _ failed => first _ (by cases failed; rfl)
  | ok a => exact next a

theorem ite {p : Prop} [Decidable p] {y : Except Fault α} (left : Raises kind x)
    (right : Raises kind y) : Raises kind (if p then x else y) := by
  split
  · exact left
  · exact right

end Raises

def Clean {α : Type} (x : Except Fault α) : Prop :=
  ∀ f, x = .error f → f.isInternal = false

def Operation.lookups : Operation → Nat
  | .integer _ .register _ | .storeExclusive | .float .. => 3
  | .integer _ .immediate _ | .load .. | .store _ | .loadExclusive | .floatCompare _
  | .floatLoad _ | .floatStore _ => 2
  | .moveWide _ | .branchRegister | .branchZero _ => 1
  | .loadAddress | .branch | .branchLink | .branchIf _ => 0

theorem Mnemonic.lookups_le {i : Mnemonic} (real : i.isPseudo = false) :
    i.operation.lookups ≤ i.form.registerCount := by
  cases i
  case cmp | cmpi | mov => cases real
  case bcond => exact Nat.zero_le _
  all_goals decide

namespace Machine

variable {m : Machine} {i : Instruction} {k count : Nat}

theorem register_clean (known : ∀ k < count, i.number k < 32) (inside : k < count) :
    Clean (i.register k) := by
  intro f failed
  have exists? : Reg.ofNat? (i.number k) = some ⟨i.number k, known k inside⟩ := by
    simp [Reg.ofNat?, known k inside]
  simp [Instruction.register, exists?] at failed

variable {kind : Fault → Prop}

section Raises

variable (plain : ∀ f : Fault, f.isInternal = false → f.isLimit = false → kind f)

theorem readX_raises (known : Raises kind (i.register k)) : Raises kind (m.readX i k) :=
  known.bind fun _ => .pure _

theorem readS_raises (known : Raises kind (i.register k)) : Raises kind (m.readS i k) :=
  known.bind fun _ => .pure _

theorem readD_raises (known : Raises kind (i.register k)) : Raises kind (m.readD i k) :=
  known.bind fun _ => .pure _

include plain

theorem address_raises (known : Raises kind (i.register k)) : Raises kind (m.address i k) :=
  known.bind fun _ => .ite ((Raises.throw (plain _ rfl rfl)).bind fun _ => .pure _) (.pure _)

theorem check_raises (memory : Memory) (address : Word) (size : Nat) :
    Raises kind (memory.check address size) := by
  intro f failed
  unfold Memory.check at failed
  split at failed
  · cases failed
  · cases failed
    exact plain _ rfl rfl

theorem load_raises (memory : Memory) (address : Word) (size : Nat) :
    Raises kind (memory.load address size) :=
  (check_raises plain memory address size).bind fun _ => .pure _

theorem storeEffect_raises (address value : Word) (size : Nat) :
    Raises kind (m.storeEffect address value size) :=
  (check_raises plain m.memory address size).bind fun _ => .pure _

theorem branchTarget_raises (target : Word) : Raises kind (m.branchTarget target) := by
  unfold branchTarget
  refine .ite ((Raises.throw (plain _ rfl rfl)).bind fun _ => ?_) ?_ <;>
    exact .ite ((Raises.throw (plain _ rfl rfl)).bind fun _ => .pure _) (.pure _)

theorem operationEffect_raises (op : Operation)
    (known : ∀ k < op.lookups, Raises kind (i.register k)) :
    Raises kind (m.operationEffect i op) := by
  have x (k : Nat) (inside : k < op.lookups) : Raises kind (m.readX i k) :=
    readX_raises (known k inside)
  have s (k : Nat) (inside : k < op.lookups) : Raises kind (m.readS i k) :=
    readS_raises (known k inside)
  have d (k : Nat) (inside : k < op.lookups) : Raises kind (m.readD i k) :=
    readD_raises (known k inside)
  have base (k : Nat) (inside : k < op.lookups) : Raises kind (m.address i k) :=
    address_raises plain (known k inside)
  -- Each read takes one of the first operands, of which the operation looks up enough.
  cases op with
  | integer op source setsFlags =>
    cases source with
    | register =>
      have left := x 1 (Nat.one_lt_succ_succ _)
      have right := x 2 (Nat.lt_succ_self _)
      exact left.bind fun _ => right.bind fun _ => .pure _
    | immediate =>
      have left := x 1 (Nat.one_lt_succ_succ _)
      exact left.bind fun _ => (Raises.pure _).bind fun _ => .pure _
  | load w signed =>
    have place := base 1 (Nat.one_lt_succ_succ _)
    refine place.bind fun a => .ite (.pure _) ?_
    cases signed with
    | false => exact (load_raises plain _ _ _).bind fun _ => .pure _
    | true => exact ((load_raises plain _ _ _).bind fun _ => .pure _).bind fun _ => .pure _
  | store w =>
    have place := base 1 (Nat.one_lt_succ_succ _)
    have value := x 0 (Nat.succ_pos _)
    exact place.bind fun _ => value.bind fun _ => storeEffect_raises plain _ _ _
  | loadExclusive =>
    have place := base 1 (Nat.one_lt_succ_succ _)
    exact place.bind fun _ => .ite (.pure _) ((load_raises plain _ _ _).bind fun _ => .pure _)
  | storeExclusive =>
    have place := base 2 (Nat.lt_succ_self _)
    have value := x 0 (Nat.succ_pos _)
    exact place.bind fun _ =>
      .ite (value.bind fun _ => (check_raises plain _ _ _).bind fun _ => .pure _) (.pure _)
  | moveWide keep =>
    cases keep with
    | false => exact .pure _
    | true => exact (x 0 (Nat.succ_pos _)).bind fun _ => .pure _
  | loadAddress | branch | branchLink | branchIf => exact .pure _
  | branchRegister =>
    exact (x 0 (Nat.succ_pos _)).bind fun _ => (branchTarget_raises plain _).bind fun _ => .pure _
  | branchZero whenZero => exact (x 0 (Nat.succ_pos _)).bind fun _ => .pure _
  | float op p =>
    cases p with
    | single =>
      have left := s 1 (Nat.one_lt_succ_succ _)
      have right := s 2 (Nat.lt_succ_self _)
      exact left.bind fun _ => right.bind fun _ => .pure _
    | double =>
      have left := d 1 (Nat.one_lt_succ_succ _)
      have right := d 2 (Nat.lt_succ_self _)
      exact left.bind fun _ => right.bind fun _ => .pure _
  | floatCompare p =>
    cases p with
    | single =>
      have left := s 0 (Nat.succ_pos _)
      have right := s 1 (Nat.one_lt_succ_succ _)
      exact left.bind fun _ => right.bind fun _ => .pure _
    | double =>
      have left := d 0 (Nat.succ_pos _)
      have right := d 1 (Nat.one_lt_succ_succ _)
      exact left.bind fun _ => right.bind fun _ => .pure _
  | floatLoad p =>
    have place := base 1 (Nat.one_lt_succ_succ _)
    cases p <;> exact place.bind fun _ => (load_raises plain _ _ _).bind fun _ => .pure _
  | floatStore p =>
    have place := base 1 (Nat.one_lt_succ_succ _)
    cases p with
    | single =>
      have value := s 0 (Nat.succ_pos _)
      exact place.bind fun _ => value.bind fun _ => storeEffect_raises plain _ _ _
    | double =>
      have value := d 0 (Nat.succ_pos _)
      exact place.bind fun _ => value.bind fun _ => storeEffect_raises plain _ _ _

end Raises

theorem operationEffect_clean (op : Operation) (known : ∀ k < op.lookups, i.number k < 32) :
    Clean (m.operationEffect i op) :=
  operationEffect_raises (fun _ external _ => external) op fun _ inside =>
    register_clean known inside

theorem execute_clean {size : Nat} {f : Fault} (sound : i.Sound size)
    (failed : (m.execute i).1 = .error f) : f.isInternal = false := by
  obtain ⟨effect, -⟩ := execute_failed sound.wellFormed failed
  rw [Machine.effect, if_neg (by simp [sound.real])] at effect
  refine operationEffect_clean _ (fun k inside => ?_) f effect
  exact sound.wellFormed k (Nat.lt_of_lt_of_le inside (Mnemonic.lookups_le sound.real))

theorem register_unlimited (i : Instruction) (k : Nat) :
    Raises (fun f => f.isLimit = false) (i.register k) := by
  intro f failed
  unfold Instruction.register at failed
  split at failed
  · cases failed
  · cases failed
    rfl

theorem apply_unlimited {registers : RegisterFile} {write : Option RegisterWrite} {f : Fault}
    (failed : registers.apply write = .error f) : f.isLimit = false := by
  unfold RegisterFile.apply at failed
  repeat' split at failed
  all_goals cases failed
  all_goals rfl

-- The fault of the step limit is none of an instruction.
theorem execute_unlimited {f : Fault} (failed : (m.execute i).1 = .error f) :
    f.isLimit = false := by
  rw [execute_eq] at failed
  cases effect : m.effect i with
  | error f' =>
    rw [effect] at failed
    obtain rfl : f' = f := Except.error.inj failed
    rw [Machine.effect] at effect
    split at effect
    · cases effect
      rfl
    · exact operationEffect_raises (fun _ _ unlimited => unlimited) _
        (fun k _ => register_unlimited i k) _ effect
  | ok e =>
    simp only [effect, commit, apply] at failed
    split at failed
    next f' refused =>
      obtain rfl : f' = f := Except.error.inj failed
      exact apply_unlimited refused
    next => cases failed

theorem step_unlimited {code : Array Instruction} {e : Located Fault}
    (failed : (m.step code).1 = .error e) : e.cause.isLimit = false := by
  unfold step at failed
  split at failed
  next => cases failed
  next =>
    split at failed
    next f m' outcome =>
      obtain rfl := Except.error.inj failed
      exact execute_unlimited (congrArg Prod.fst outcome)
    next => cases failed

structure Within (size : Nat) (m : Machine) : Prop where
  next : m.next ≤ size
  text : m.memory.staticOffset = instructionAddress m.memory.textOffset (BitVec.ofNat 64 size)

theorem ofConfig_within (c : Config) (size : Nat) : (ofConfig c size).Within size :=
  ⟨Nat.zero_le _, rfl⟩

theorem write_text (memory : Memory) (a : Word) (bytes : List Byte) :
    (memory.write a bytes).textOffset = memory.textOffset ∧
      (memory.write a bytes).staticOffset = memory.staticOffset := by
  induction bytes generalizing memory a with
  | nil => exact ⟨rfl, rfl⟩
  | cons b bs ih => exact ih _ _

theorem apply_text (memory : Memory) (store : Option (Word × List Byte)) :
    (memory.apply store).textOffset = memory.textOffset ∧
      (memory.apply store).staticOffset = memory.staticOffset := by
  cases store with
  | none => exact ⟨rfl, rfl⟩
  | some stored => exact write_text memory stored.1 stored.2

theorem branchTarget_ok {index : Nat} {target : Word} (branch : m.branchTarget target = .ok index) :
    m.memory.textOffset ≤ target ∧ target.toNat ≤ m.memory.staticOffset.toNat - 4 ∧
      index = (target - m.memory.textOffset).toNat / 4 := by
  unfold branchTarget at branch
  by_cases misaligned : target.toNat % 4 ≠ 0
  · rw [if_pos misaligned] at branch
    cases branch
  rw [if_neg misaligned] at branch
  by_cases outside : (target < m.memory.textOffset ||
      decide (m.memory.staticOffset.toNat - 4 < target.toNat)) = true
  · rw [if_pos outside] at branch
    cases branch
  rw [if_neg outside] at branch
  simp only [Bool.or_eq_true, decide_eq_true_eq, not_or, BitVec.not_lt, Nat.not_lt] at outside
  exact ⟨outside.1, outside.2, (pure_eq_ok.1 branch).symm⟩

theorem branchTarget_le {size index : Nat} {target : Word} (within : m.Within size)
    (branch : m.branchTarget target = .ok index) : index ≤ size := by
  have text := congrArg BitVec.toNat within.text
  have four : (4 : Word).toNat = 4 := rfl
  simp only [instructionAddress, BitVec.toNat_add, BitVec.toNat_mul, BitVec.toNat_ofNat,
    four] at text
  obtain ⟨low, high, rfl⟩ := branchTarget_ok branch
  rw [BitVec.toNat_sub_of_le low]
  have low := BitVec.le_def.1 low
  -- This holds also where the text segment reaches the end of the address space.
  omega

theorem effect_jump {size index : Nat} {e : Effect} (sound : i.Sound size) (within : m.Within size)
    (effect : m.effect i = .ok e) (jump : e.jump = some index) : index ≤ size := by
  have branch := (effect_fits effect).jump index jump
  cases named : i.target? with
  | some t =>
    have bounds := sound.target t named
    have label : (BitVec.ofInt 64 t).toNat ≤ size := by
      rw [BitVec.toNat_ofInt]
      omega
    rw [effect_target named effect] at jump
    split at jump
    · obtain rfl := Option.some.inj jump
      exact label
    · cases jump
  | none =>
    -- Only the register branch goes elsewhere than to a label.
    have effect := effect_operation effect
    unfold Instruction.target? at named
    cases mnemonic : i.mnemonic <;> simp only [mnemonic, Mnemonic.operation, Mnemonic.entry,
      Mnemonic.form, Operation.isBranch, Bool.false_eq_true, reduceCtorEq] at branch named
    case br =>
      simp only [mnemonic, Mnemonic.operation, Mnemonic.entry, operationEffect, bind_eq_ok,
        pure_eq_ok] at effect
      obtain ⟨v, -, target, found, rfl⟩ := effect
      obtain rfl : target = index := Option.some.inj jump
      exact branchTarget_le within found

theorem execute_within {size : Nat} (sound : i.Sound size) (within : m.Within size) :
    (m.execute i).2.Within size := by
  cases outcome : (m.execute i).1 with
  | error f =>
    rw [(execute_failed sound.wellFormed outcome).2]
    exact ⟨within.next, within.text⟩
  | ok u =>
    obtain ⟨e, registers, effect, -, after⟩ := execute_ok outcome
    obtain ⟨text, static⟩ := apply_text m.memory e.store
    rw [after]
    refine ⟨?_, by rw [static, text, within.text]⟩
    cases jump : e.jump with
    | none => exact within.next
    | some index => exact effect_jump sound within effect jump

variable {code : Array Instruction}

theorem step_within (sound : ∀ i ∈ code, i.Sound code.size) (within : m.Within code.size) :
    (m.step code).2.Within code.size ∧
      ∀ e, (m.step code).1 = .error e → e.cause.isInternal = false := by
  unfold step
  cases fetched : code[m.next]? with
  | none => exact ⟨within, fun e failed => nomatch failed⟩
  | some i =>
    obtain ⟨inside, -⟩ := Array.getElem?_eq_some_iff.1 fetched
    have known := sound i (Array.mem_of_getElem? fetched)
    have moved : { m with next := m.next + 1 }.Within code.size := ⟨inside, within.text⟩
    have kept := execute_within known moved
    dsimp only
    cases outcome : { m with next := m.next + 1 }.execute i with
    | mk result m' =>
      rw [outcome] at kept
      cases result with
      | ok u => exact ⟨kept, fun e failed => nomatch failed⟩
      | error f =>
        refine ⟨kept, ?_⟩
        rintro _ ⟨⟩
        exact execute_clean known (congrArg Prod.fst outcome)

end Machine

end Legv8
