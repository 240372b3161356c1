import Legv8.Proofs.Machine.Transfer
import Mathlib.Data.List.Induction

set_option autoImplicit false

namespace Legv8.Machine

variable {m : Machine} {i : Instruction} {a v : Word}

def executeAll (m : Machine) (is : List Instruction) : Machine :=
  is.foldl (fun m i => (m.execute i).2) m

theorem executeAll_concat (m : Machine) (is : List Instruction) (i : Instruction) :
    m.executeAll (is ++ [i]) = ((m.executeAll is).execute i).2 := by
  simp [executeAll]

structure LoadsExclusively (m : Machine) (i : Instruction) (a v : Word) : Prop where
  operation : i.mnemonic.operation = .loadExclusive
  kept : i.number 0 ≠ Reg.xzr.val
  address : m.address i 1 = .ok a
  done : (m.execute i).1 = .ok ()
  loaded : (m.execute i).2.readX i 0 = .ok v

structure Overwrites (m : Machine) (i : Instruction) (a : Word) : Prop where
  done : (m.execute i).1 = .ok ()
  hit : ∃ w b, i.mnemonic.operation.storeWidth? = some w ∧ m.address i 1 = .ok b ∧
    Overlap b w.bytes a 8

structure StoresExclusively (m : Machine) (i : Instruction) : Prop where
  operation : i.mnemonic.operation = .storeExclusive
  done : (m.execute i).1 = .ok ()
  stored : (m.execute i).2.exclusiveStored = true

def Disturbs (m : Machine) (i : Instruction) (a : Word) : Prop :=
  (∃ b v, m.LoadsExclusively i b v) ∨ m.Overwrites i a ∨ m.StoresExclusively i

/-- The last load-exclusive of a history was at an address and loaded a value, and since then no
store has written there and no store-exclusive has succeeded. -/
def Reserved (m : Machine) (history : List Instruction) (a v : Word) : Prop :=
  ∃ before i since, history = before ++ i :: since ∧
    (m.executeAll before).LoadsExclusively i a v ∧
    ∀ earlier j later, since = earlier ++ j :: later →
      ¬ (m.executeAll (before ++ i :: earlier)).Disturbs j a

theorem not_reserved_nil (m : Machine) (a v : Word) : ¬ m.Reserved [] a v := by
  rintro ⟨before, i, since, split, -⟩
  simp at split

theorem split_concat {history before since : List Instruction} {first : Instruction}
    (split : history ++ [i] = before ++ first :: since) :
    (since = [] ∧ history = before ∧ i = first) ∨
      ∃ rest, since = rest ++ [i] ∧ history = before ++ first :: rest := by
  rcases List.eq_nil_or_concat since with rfl | ⟨rest, last, rfl⟩
  · obtain ⟨whole, same⟩ := List.append_inj' split rfl
    exact .inl ⟨rfl, whole, by simpa using same⟩
  · rw [List.concat_eq_append, ← List.cons_append, ← List.append_assoc] at split
    obtain ⟨whole, same⟩ := List.append_inj' split rfl
    obtain rfl : i = last := by simpa using same
    exact .inr ⟨rest, List.concat_eq_append, whole⟩

theorem reserved_concat {history : List Instruction} :
    m.Reserved (history ++ [i]) a v ↔ (m.executeAll history).LoadsExclusively i a v ∨
      m.Reserved history a v ∧ ¬ (m.executeAll history).Disturbs i a := by
  -- Either the new instruction is the load itself, or the load stands before it.
  constructor
  · rintro ⟨before, first, since, split, loads, quiet⟩
    rcases split_concat split with ⟨-, rfl, rfl⟩ | ⟨rest, rfl, rfl⟩
    · exact .inl loads
    · refine .inr ⟨⟨before, first, rest, rfl, loads, fun earlier j later part => ?_⟩, ?_⟩
      · exact quiet earlier j (later ++ [i]) (by simp [part])
      · exact quiet rest i [] rfl
  · rintro (loads | ⟨⟨before, first, since, rfl, loads, quiet⟩, undisturbed⟩)
    · refine ⟨history, i, [], rfl, loads, fun earlier j later part => ?_⟩
      simp at part
    · refine ⟨before, first, since ++ [i], by simp, loads, fun earlier j later part => ?_⟩
      rcases split_concat part with ⟨-, rfl, rfl⟩ | ⟨rest, -, whole⟩
      · exact undisturbed
      · exact quiet earlier j rest whole

theorem Disturbs.done (disturbs : m.Disturbs i a) : (m.execute i).1 = .ok () := by
  rcases disturbs with ⟨b, v, loads⟩ | overwrites | stores
  · exact loads.done
  · exact overwrites.done
  · exact stores.done

theorem disturbs_store {w : Width} {b : Word} (done : (m.execute i).1 = .ok ())
    (store : i.mnemonic.operation.storeWidth? = some w) (address : m.address i 1 = .ok b) :
    m.Disturbs i a ↔ Overlap b w.bytes a 8 := by
  constructor
  · rintro (⟨c, v, loads⟩ | ⟨-, w', c, store', address', overlap⟩ | stores)
    · simp [loads.operation, Operation.storeWidth?] at store
    · obtain rfl : w = w' := Option.some.inj (store.symm.trans store')
      obtain rfl : b = c := Except.ok.inj (address.symm.trans address')
      exact overlap
    · simp [stores.operation, Operation.storeWidth?] at store
  · intro overlap
    exact .inr (.inl ⟨done, w, b, store, address, overlap⟩)

theorem not_disturbs (load : ∀ b v, ¬ m.LoadsExclusively i b v)
    (store : i.mnemonic.operation.storeWidth? = none) (exclusive : ¬ m.StoresExclusively i) :
    ¬ m.Disturbs i a := by
  rintro (⟨b, v, loads⟩ | ⟨-, w, b, written, -⟩ | stores)
  · exact load b v loads
  · simp [store] at written
  · exact exclusive stores

structure Tracks (m : Machine) (i : Instruction) (a : Word) : Prop where
  tag : (m.execute i).2.monitor.tag = some a ↔
    (∃ v, m.LoadsExclusively i a v) ∨ m.monitor.tag = some a ∧ ¬ m.Disturbs i a
  load : m.monitor.tag = some a → ¬ m.Disturbs i a →
    (m.execute i).2.memory.load a 8 = m.memory.load a 8

theorem tracks_still (memory : (m.execute i).2.memory = m.memory)
    (monitor : (m.execute i).2.monitor = m.monitor) (load : ∀ b v, ¬ m.LoadsExclusively i b v)
    (quiet : ¬ m.Disturbs i a) : m.Tracks i a :=
  ⟨by simp [monitor, load, quiet], fun _ _ => by rw [memory]⟩

theorem tracks_loadExclusive (done : (m.execute i).1 = .ok ())
    (of : i.mnemonic.operation = .loadExclusive) : m.Tracks i a := by
  obtain ⟨b, address, memory, outcome⟩ := executed_loadExclusive done of
  split at outcome
  next zero =>
    have lost (c v : Word) : ¬ m.LoadsExclusively i c v := fun loads => loads.kept zero
    refine tracks_still memory outcome lost (not_disturbs lost ?_ fun stores => ?_)
    · simp [of, Operation.storeWidth?]
    · have other := stores.operation
      simp [of] at other
  next kept =>
    obtain ⟨v, loaded, monitor, result⟩ := outcome
    have loads : m.LoadsExclusively i b v := ⟨of, kept, address, done, result⟩
    have tagged : (m.execute i).2.monitor.tag = some b := by
      rw [monitor]
      rfl
    refine ⟨?_, fun _ quiet => absurd (.inl ⟨b, v, loads⟩) quiet⟩
    rw [tagged, Option.some_inj]
    constructor
    · rintro rfl
      exact .inl ⟨v, loads⟩
    · rintro (⟨v', again⟩ | ⟨-, quiet⟩)
      · exact Except.ok.inj (address.symm.trans again.address)
      · exact absurd (.inl ⟨b, v, loads⟩) quiet

theorem tracks_storeExclusive (done : (m.execute i).1 = .ok ())
    (of : i.mnemonic.operation = .storeExclusive) : m.Tracks i a := by
  obtain ⟨b, r, address, register, outcome⟩ := executed_storeExclusive done of
  have lost (c v : Word) : ¬ m.LoadsExclusively i c v := by
    intro loads
    have other := loads.operation
    simp [of] at other
  split at outcome
  next permitted =>
    obtain ⟨v, value, allowed, memory, registers, monitor, stored⟩ := outcome
    have disturbs : m.Disturbs i a := .inr (.inr ⟨of, done, stored⟩)
    exact ⟨by simp [monitor, lost, disturbs], fun _ quiet => absurd disturbs quiet⟩
  next refused =>
    obtain ⟨memory, registers, monitor, stored⟩ := outcome
    refine tracks_still memory monitor lost (not_disturbs lost ?_ fun stores => ?_)
    · simp [of, Operation.storeWidth?]
    · have success := stores.stored
      simp [stored] at success

theorem tracks_store {w : Width} (done : (m.execute i).1 = .ok ())
    (store : i.mnemonic.operation.storeWidth? = some w)
    (held : ∀ tag, m.monitor.tag = some tag → m.memory.allows tag 8 = true) : m.Tracks i a := by
  obtain ⟨b, v, address, allowed, memory, monitor⟩ := executed_store done store
  have disturbs : m.Disturbs i a ↔ Overlap b w.bytes a 8 := disturbs_store done store address
  have lost (c v : Word) : ¬ m.LoadsExclusively i c v := by
    intro loads
    simp [loads.operation, Operation.storeWidth?] at store
  have touches (tagged : m.monitor.tag = some a) :
      m.monitor.touches b w.bytes = true ↔ m.Disturbs i a := by
    rw [disturbs]
    exact Monitor.touches_iff tagged (held a tagged) allowed w.bytes_pos w.bytes_le
  constructor
  · rw [monitor, Monitor.afterStore]
    constructor
    · intro tagged
      split at tagged
      next => cases tagged
      next apart => exact .inr ⟨tagged, fun hit => apart ((touches tagged).2 hit)⟩
    · rintro (⟨v, loads⟩ | ⟨tagged, quiet⟩)
      · exact absurd loads (lost a v)
      · rwa [if_neg fun hit => quiet ((touches tagged).1 hit)]
  · intro tagged quiet
    rw [memory]
    refine Memory.load_write_apart ?_
    rw [BigEndian.length_tail, Nat.min_eq_left w.bytes_le]
    exact fun overlap => quiet (disturbs.2 overlap)

theorem tracks (wellFormed : i.WellFormed)
    (held : ∀ tag, m.monitor.tag = some tag → m.memory.allows tag 8 = true) (a : Word) :
    m.Tracks i a := by
  cases result : (m.execute i).1 with
  | error f =>
    obtain ⟨-, after⟩ := execute_failed wellFormed result
    refine tracks_still (by rw [after]; rfl) (by rw [after]; rfl) (fun b v loads => ?_) ?_
    · cases result.symm.trans loads.done
    · exact fun disturbs => nomatch result.symm.trans disturbs.done
  | ok u =>
    have done : (m.execute i).1 = .ok () := result
    rcases transfer_cases i.mnemonic.operation with
      load | exclusive | ⟨w, store⟩ | ⟨load, store, width⟩
    · exact tracks_loadExclusive done load
    · exact tracks_storeExclusive done exclusive
    · exact tracks_store done store held
    · obtain ⟨memory, monitor⟩ := executed_still done load store
      have lost (c v : Word) : ¬ m.LoadsExclusively i c v := fun loads => load loads.operation
      refine tracks_still memory monitor lost (not_disturbs lost width fun stores => ?_)
      simp [stores.operation, Operation.isStore] at store

theorem LoadsExclusively.load (loads : m.LoadsExclusively i a v) :
    (m.execute i).2.memory.load a 8 = .ok v := by
  obtain ⟨b, address, memory, outcome⟩ := executed_loadExclusive loads.done loads.operation
  rw [if_neg loads.kept] at outcome
  obtain ⟨w, loaded, monitor, result⟩ := outcome
  obtain rfl : b = a := Except.ok.inj (address.symm.trans loads.address)
  obtain rfl : w = v := Except.ok.inj (result.symm.trans loads.loaded)
  rw [memory, loaded]

structure Remembers (start : Machine) (history : List Instruction) : Prop where
  tag : ∀ a, (start.executeAll history).monitor.tag = some a ↔ ∃ v, start.Reserved history a v
  load : ∀ a v, start.Reserved history a v → (start.executeAll history).memory.load a 8 = .ok v

theorem remembers {start : Machine} (fresh : start.monitor.tag = none)
    {history : List Instruction} (wellFormed : ∀ i ∈ history, i.WellFormed) :
    start.Remembers history := by
  induction history using List.reverseRecOn with
  | nil =>
    refine ⟨fun a => ?_, fun a v reserved => absurd reserved (not_reserved_nil start a v)⟩
    simp [executeAll, fresh, not_reserved_nil]
  | append_singleton history i ih =>
    obtain ⟨tag, load⟩ := ih fun j member => wellFormed j (by simp [member])
    -- What is reserved can be loaded, so it lies in the window, and no store there wraps around.
    have held (a : Word) (tagged : (start.executeAll history).monitor.tag = some a) :
        (start.executeAll history).memory.allows a 8 = true := by
      obtain ⟨v, reserved⟩ := (tag a).1 tagged
      exact Memory.load_ok (load a v reserved)
    have step (a : Word) := tracks (wellFormed i (by simp)) held a
    refine ⟨fun a => ?_, fun a v reserved => ?_⟩
    · rw [executeAll_concat, (step a).tag, tag]
      simp only [reserved_concat, exists_or, exists_and_right]
    · rw [executeAll_concat]
      rcases reserved_concat.1 reserved with loads | ⟨earlier, quiet⟩
      · exact loads.load
      · rw [(step a).load ((tag a).2 ⟨v, earlier⟩) quiet]
        exact load a v earlier

/-- A store-exclusive writes its value, says so in its outcome register, and clears the tag. -/
structure Commits (m : Machine) (i : Instruction) (a : Word) : Prop where
  memory : ∃ v, m.readX i 0 = .ok v ∧ m.memory.store a v 8 = .ok (m.execute i).2.memory
  outcome : ∃ r, i.register 1 = .ok r ∧ (m.execute i).2.registers = m.registers.writeX r 0
  tag : (m.execute i).2.monitor.tag = none
  stored : (m.execute i).2.exclusiveStored = true

-- A store-exclusive says in its outcome register that it has not written.
structure Refuses (m : Machine) (i : Instruction) : Prop where
  memory : (m.execute i).2.memory = m.memory
  outcome : ∃ r, i.register 1 = .ok r ∧ (m.execute i).2.registers = m.registers.writeX r 1
  tag : (m.execute i).2.monitor = m.monitor
  stored : (m.execute i).2.exclusiveStored = false

theorem storeExclusive_cases (done : (m.execute i).1 = .ok ())
    (exclusive : i.mnemonic.operation = .storeExclusive) (address : m.address i 2 = .ok a) :
    (m.monitor.tag = some a ∧ m.Commits i a) ∨ (m.monitor.tag ≠ some a ∧ m.Refuses i) := by
  obtain ⟨b, r, address', register, outcome⟩ := executed_storeExclusive done exclusive
  obtain rfl : a = b := Except.ok.inj (address.symm.trans address')
  split at outcome
  next permitted =>
    obtain ⟨v, value, allowed, memory, registers, monitor, stored⟩ := outcome
    refine .inl ⟨by simpa [Monitor.permits] using permitted, ?_, ⟨r, register, registers⟩, ?_, stored⟩
    · exact ⟨v, value, by rw [memory, Memory.store_eq_ok allowed]⟩
    · rw [monitor]
  next refused =>
    obtain ⟨memory, registers, monitor, stored⟩ := outcome
    exact .inr ⟨by simpa [Monitor.permits] using refused, memory, ⟨r, register, registers⟩, monitor,
      stored⟩

/-- Load-exclusive and store-exclusive together are an atomic exchange, whatever was executed
before. -/
theorem store_exclusive_atomic (c : Config) (count : Nat) {history : List Instruction}
    (wellFormed : ∀ j ∈ history, j.WellFormed)
    (exclusive : i.mnemonic.operation = .storeExclusive)
    (address : ((ofConfig c count).executeAll history).address i 2 = .ok a)
    (done : (((ofConfig c count).executeAll history).execute i).1 = .ok ()) :
    (((ofConfig c count).executeAll history).Commits i a ↔
      ∃ v, (ofConfig c count).Reserved history a v) ∧
    (∀ v, (ofConfig c count).Reserved history a v →
      ((ofConfig c count).executeAll history).memory.load a 8 = .ok v) ∧
    ((¬ ∃ v, (ofConfig c count).Reserved history a v) →
      ((ofConfig c count).executeAll history).Refuses i) := by
  have fresh : (ofConfig c count).monitor.tag = none := rfl
  obtain ⟨tag, load⟩ := remembers fresh wellFormed
  rw [← tag]
  rcases storeExclusive_cases done exclusive address with ⟨tagged, commits⟩ | ⟨untagged, refuses⟩
  · exact ⟨⟨fun _ => tagged, fun _ => commits⟩, load a, fun untagged => absurd tagged untagged⟩
  · refine ⟨⟨fun commits => ?_, fun tagged => absurd tagged untagged⟩, load a, fun _ => refuses⟩
    cases commits.stored.symm.trans refuses.stored

-- The store to the byte behind the reserved doubleword does not matter.
theorem store_exclusive_atomic_adjacent :
    let history : List Instruction :=
      [⟨.movz, [9, 0x1000, 16], 0⟩, ⟨.ldxr, [2, 9, 0], 1⟩, ⟨.sturb, [1, 9, 8], 2⟩]
    let exclusive : Instruction := ⟨.stxr, [1, 3, 9, 0], 3⟩
    let start := ofConfig {} 4
    let m := start.executeAll history
    (∀ j ∈ history, j.WellFormed) ∧ m.address exclusive 2 = .ok 0x10000000 ∧
      (m.execute exclusive).1 = .ok () ∧ m.Commits exclusive 0x10000000 ∧
      ∃ v, start.Reserved history 0x10000000 v := by
  intro history exclusive start m
  have wellFormed : ∀ j ∈ history, j.WellFormed := by
    simp only [Instruction.WellFormed]
    decide
  have address : m.address exclusive 2 = .ok 0x10000000 :=
    eq_ok_of_toOption (by decide +kernel)
  have done : (m.execute exclusive).1 = .ok () := eq_ok_of_toOption (by decide +kernel)
  obtain ⟨commits_iff, -, refuses⟩ := store_exclusive_atomic {} 4 wellFormed rfl address done
  have reserved : ∃ v, start.Reserved history 0x10000000 v := by
    by_contra none
    have stored : (m.execute exclusive).2.exclusiveStored = true := by decide +kernel
    have refused : m.Refuses exclusive := refuses none
    cases stored.symm.trans refused.stored
  exact ⟨wellFormed, address, done, commits_iff.2 reserved, reserved⟩

end Legv8.Machine
