import Legv8.Proofs.Machine.Transfer

/-!
Where the faults of an instruction stand among its changes. Whatever may fail comes before the first
change that a program can see, so a fault leaves behind no more than notes in the log.
-/

set_option autoImplicit false

namespace Legv8

def Machine.SameButLog (m m' : Machine) : Prop :=
  m' = { m with taken := m'.taken, log := m'.log }

theorem Machine.SameButLog.trans {m m' m'' : Machine} (first : m.SameButLog m')
    (second : m'.SameButLog m'') : m.SameButLog m'' := by
  unfold SameButLog at *
  rw [second, first]

namespace Action

variable {α β : Type}

-- A quiet action may fail or not; a certain one may change anything, but does not fail.
def Quiet (a : Action α) : Prop :=
  ∀ m : Machine, m.SameButLog (a.on m).2

def Certain (a : Action α) : Prop :=
  ∀ m : Machine, ∃ x, (a.on m).1 = .ok x

def FaultsFirst (a : Action α) : Prop :=
  ∀ (m : Machine) (f : Fault), (a.on m).1 = .error f → m.SameButLog (a.on m).2

variable {a : Action α} {f : α → Action β}

theorem Quiet.faultsFirst (quiet : Quiet a) : FaultsFirst a :=
  fun m _ _ => quiet m

theorem Certain.faultsFirst (certain : Certain a) : FaultsFirst a := by
  intro m f failed
  obtain ⟨x, done⟩ := certain m
  cases done.symm.trans failed

theorem Quiet.bind (first : Quiet a) (rest : ∀ x, Quiet (f x)) : Quiet (a >>= f) := by
  intro m
  have same := first m
  rw [on_bind]
  generalize a.on m = outcome at same
  rcases outcome with ⟨e | x, m'⟩
  · exact same
  · exact same.trans (rest x m')

theorem Certain.bind (first : Certain a) (rest : ∀ x, Certain (f x)) : Certain (a >>= f) := by
  intro m
  obtain ⟨x, done⟩ := first m
  rw [on_bind]
  generalize a.on m = outcome at done
  obtain ⟨result, m'⟩ := outcome
  obtain rfl : result = .ok x := done
  exact rest x m'

theorem Quiet.andThen (first : Quiet a) (rest : ∀ x, FaultsFirst (f x)) :
    FaultsFirst (a >>= f) := by
  intro m e failed
  have same := first m
  rw [on_bind] at failed ⊢
  generalize a.on m = outcome at same failed
  rcases outcome with ⟨e' | x, m'⟩
  · exact same
  · exact same.trans (rest x m' e failed)

theorem FaultsFirst.andThen (first : FaultsFirst a) (rest : ∀ x, Certain (f x)) :
    FaultsFirst (a >>= f) := by
  intro m e failed
  have same := first m
  rw [on_bind] at failed ⊢
  generalize a.on m = outcome at same failed
  rcases outcome with ⟨e' | x, m'⟩
  · exact same e' rfl
  · obtain ⟨y, done⟩ := rest x m'
    cases done.symm.trans failed

theorem quiet_pure (x : α) : Quiet (pure x) := fun _ => rfl

theorem quiet_get : Quiet (get : Action Machine) := fun _ => rfl

theorem certain_pure (x : α) : Certain (pure x) := fun _ => ⟨x, rfl⟩

theorem certain_get : Certain (get : Action Machine) := fun m => ⟨m, rfl⟩

theorem quiet_throw (e : Fault) : Quiet (throw e : Action α) := fun _ => rfl

theorem quiet_lift (x : Except Fault α) : Quiet (liftM x : Action α) := by
  intro m
  rw [on_lift]
  rfl

theorem quiet_note (line : String) : Quiet (note line) := fun _ => rfl

theorem quiet_announceBranch (taken : Bool) : Quiet (announceBranch taken) := fun _ => rfl

theorem certain_note (line : String) : Certain (note line) := fun _ => ⟨(), rfl⟩

theorem certain_setFlags (f : Flags) : Certain (setFlags f) := fun _ => ⟨(), rfl⟩

theorem certain_jump (index : Nat) : Certain (jump index) := fun _ => ⟨(), rfl⟩

theorem certain_announceBranch (taken : Bool) : Certain (announceBranch taken) :=
  fun _ => ⟨(), rfl⟩

theorem certain_setMonitor (monitor : Monitor) : Certain (setMonitor monitor) :=
  fun _ => ⟨(), rfl⟩

theorem certain_setExclusiveStored (stored : Bool) : Certain (setExclusiveStored stored) :=
  fun _ => ⟨(), rfl⟩

theorem FaultsFirst.read {x : Machine → Except Fault α} (rest : ∀ v, FaultsFirst (f v)) :
    FaultsFirst ((get : Action Machine) >>= fun m => liftM (x m) >>= f) :=
  quiet_get.andThen fun m => (quiet_lift (x m)).andThen rest

theorem write_faultsFirst (w : RegisterWrite) : FaultsFirst (write w) := by
  intro m e failed
  rw [on_write] at failed ⊢
  split
  next => rfl
  next registers applied =>
    rw [applied] at failed
    cases failed

theorem storeBytes_faultsFirst (address v : Word) (size : Nat) :
    FaultsFirst (onMemory (Memory.storeBytes address v size)) := by
  intro m e failed
  rw [on_storeBytes] at failed ⊢
  split
  next allowed => simp [allowed] at failed
  next => rfl

theorem assign_faultsFirst (n : Nat) (v : Word) : FaultsFirst (assign n v) := by
  unfold assign
  split
  next => exact (quiet_note _).faultsFirst
  next => exact write_faultsFirst _

theorem assign_certain {n : Nat} (known : n < 32) (v : Word) : Certain (assign n v) := by
  unfold assign
  split
  next => exact certain_note _
  next =>
    intro m
    rw [on_write]
    simp [RegisterFile.apply, Reg.ofNat?, known]

theorem store_faultsFirst (address v : Word) (size : Nat) : FaultsFirst (store address v size) := by
  refine (storeBytes_faultsFirst address v size).andThen fun _ => certain_get.bind fun m => ?_
  dsimp only
  split
  next => exact (certain_setMonitor {}).bind fun _ => certain_note _
  next => exact certain_pure ()

theorem address_quiet (i : Instruction) (base : Nat) : Quiet (address i base) := by
  refine (quiet_lift _).bind fun r => quiet_get.bind fun m => ?_
  have aligned : Quiet (note Note.stackAligned >>= fun _ =>
      pure (m.registers.readX r + i.word (base + 1))) :=
    (quiet_note _).bind fun _ => quiet_pure _
  dsimp only
  split
  next =>
    split
    next => exact (quiet_note _).bind fun _ => (quiet_throw _).bind fun _ => aligned
    next => exact aligned
  next => exact quiet_pure _

variable (i : Instruction)

theorem integer_faultsFirst (op : AluOp) (second : Source) (setsFlags : Bool) :
    FaultsFirst (integer i op second setsFlags) := by
  refine .read fun a => .read fun b => (assign_faultsFirst _ _).andThen fun _ => ?_
  split
  next => exact certain_setFlags _
  next => exact certain_pure ()

theorem load_faultsFirst (w : Width) (signed : Bool) : FaultsFirst (loadX i w signed) := by
  refine (address_quiet i 1).andThen fun a => ?_
  split
  next => exact (quiet_note _).faultsFirst
  next => exact .read fun v => write_faultsFirst _

theorem loadExclusive_faultsFirst : FaultsFirst (loadExclusive i) := by
  refine (address_quiet i 1).andThen fun a => ?_
  split
  next => exact (quiet_note _).faultsFirst
  next => exact .read fun v => (write_faultsFirst _).andThen fun _ => certain_setMonitor _

variable {i}

-- The value is stored before the outcome is written, so the outcome must have a register.
theorem storeExclusive_faultsFirst (known : i.number 1 < 32) : FaultsFirst (storeExclusive i) := by
  refine (address_quiet i 2).andThen fun a => quiet_get.andThen fun m => ?_
  split
  next =>
    refine .read fun v => (storeBytes_faultsFirst a v 8).andThen fun _ => ?_
    exact (assign_certain known 0).bind fun _ => (certain_setMonitor _).bind fun _ =>
      certain_setExclusiveStored _
  next => exact (assign_faultsFirst _ _).andThen fun _ => certain_setExclusiveStored _

theorem perform_faultsFirst {op : Operation} (known : op = .storeExclusive → i.number 1 < 32) :
    FaultsFirst (perform i op) := by
  cases op with
  | integer op second setsFlags => exact integer_faultsFirst i op second setsFlags
  | load w signed => exact load_faultsFirst i w signed
  | loadExclusive => exact loadExclusive_faultsFirst i
  | storeExclusive => exact storeExclusive_faultsFirst (known rfl)
  | store w => exact (address_quiet i 1).andThen fun a => .read fun v => store_faultsFirst a v _
  | moveWide keep =>
    cases keep with
    | false => exact assign_faultsFirst _ _
    | true => exact .read fun old => assign_faultsFirst _ _
  | loadAddress => exact quiet_get.andThen fun m => assign_faultsFirst _ _
  | branch => exact ((certain_jump _).bind fun _ => certain_announceBranch _).faultsFirst
  | branchLink =>
    exact quiet_get.andThen fun m => (write_faultsFirst _).andThen fun _ => certain_jump _
  | branchRegister => exact .read fun target => .read fun index => (certain_jump _).faultsFirst
  | branchIf c =>
    refine quiet_get.andThen fun m => Certain.faultsFirst ?_
    dsimp only
    split
    next => exact (certain_jump _).bind fun _ => certain_announceBranch _
    next => exact certain_announceBranch _
  | branchZero whenZero =>
    refine .read fun v => Certain.faultsFirst ?_
    dsimp only
    split
    next => exact (certain_jump _).bind fun _ => certain_announceBranch _
    next => exact certain_announceBranch _
  | float op p => cases p <;> exact .read fun a => .read fun b => write_faultsFirst _
  | floatCompare p =>
    cases p <;> exact .read fun a => .read fun b => (certain_setFlags _).faultsFirst
  | floatLoad p =>
    cases p <;> exact (address_quiet i 1).andThen fun a => .read fun v => write_faultsFirst _
  | floatStore p =>
    cases p <;> exact (address_quiet i 1).andThen fun a => .read fun v => store_faultsFirst a _ _

theorem ofInstruction_faultsFirst (wellFormed : i.WellFormed) : FaultsFirst (ofInstruction i) := by
  have outcome (of : i.mnemonic.operation = .storeExclusive) : i.number 1 < 32 := by
    have named : i.destination? = some (.x, i.number 1) := by simp [Instruction.destination?, of]
    exact wellFormed.destination named
  have performed : FaultsFirst (perform i i.mnemonic.operation) := perform_faultsFirst outcome
  refine (quiet_announceBranch false).andThen fun _ => quiet_get.andThen fun m =>
    (quiet_note _).andThen fun _ => ?_
  split
  next => exact (quiet_throw _).andThen fun _ => performed
  next => exact performed

end Action

end Legv8
