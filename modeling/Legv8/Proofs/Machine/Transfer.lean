import Legv8.Proofs.Instruction.Registers
import Legv8.Proofs.Machine.Effect
import Legv8.Proofs.Memory.Bytes

set_option autoImplicit false

namespace Legv8

def Operation.storeWidth? : Operation → Option Width
  | .store w => some w
  | .floatStore p => some p.width
  | _ => none

theorem Width.bytes_le (w : Width) : w.bytes ≤ 8 := by
  cases w <;> decide

theorem Width.bytes_pos (w : Width) : 0 < w.bytes := by
  cases w <;> decide

theorem Instruction.WellFormed.destination {i : Instruction} {target : RegisterClass × Nat}
    (wellFormed : i.WellFormed) (named : i.destination? = some target) : target.2 < 32 := by
  have operand (k : Nat) (inside : k < i.mnemonic.form.registerCount) : i.number k < 32 :=
    wellFormed k inside
  unfold destination? at named
  cases mnemonic : i.mnemonic <;>
    simp only [mnemonic, Mnemonic.operation, Mnemonic.entry, Option.some.injEq,
      reduceCtorEq] at named <;>
    subst named <;>
    first
      | decide
      | exact operand _ (by simp [mnemonic, Mnemonic.form, Mnemonic.entry, Form.registerCount])

theorem RegisterFile.apply_known {f : RegisterFile} {w : Option RegisterWrite}
    (known : ∀ v, w = some v → v.target.2 < 32) : ∃ f', f.apply w = .ok f' := by
  rcases w with _ | ⟨n, v⟩ | ⟨n, v⟩ | ⟨n, v⟩
  case none => exact ⟨f, rfl⟩
  all_goals
    have inside : n < 32 := known _ rfl
    simp [apply, Reg.ofNat?, inside]

theorem RegisterFile.apply_assign {f f' : RegisterFile} {n : Nat} {v : Word}
    (applied : f.apply (Effect.assign n v).write = .ok f') :
    ∃ r, Reg.ofNat? n = some r ∧ f' = f.writeX r v := by
  unfold Effect.assign at applied
  split at applied
  next zero =>
    cases applied
    exact ⟨Reg.xzr, by rw [zero, Reg.ofNat?_val], by simp [writeX]⟩
  next =>
    obtain ⟨q, ⟨_, ⟨⟩, rfl⟩ | ⟨_, ⟨⟩, -⟩ | ⟨_, ⟨⟩, -⟩⟩ := apply_cases applied
    exact ⟨q, Reg.ofNat?_val q, rfl⟩

namespace Machine

variable {m : Machine} {i : Instruction} {e : Effect}

theorem execute_failed {f : Fault} (wellFormed : i.WellFormed)
    (failed : (m.execute i).1 = .error f) :
    m.effect i = .error f ∧ (m.execute i).2 = m.announce i := by
  simp only [execute_eq] at failed ⊢
  cases effect : m.effect i with
  | error g => simpa [effect, commit] using failed
  | ok e =>
    have known (w : RegisterWrite) (written : e.write = some w) : w.target.2 < 32 :=
      wellFormed.destination ((effect_fits effect).write w written)
    obtain ⟨registers, applied⟩ :=
      RegisterFile.apply_known (f := (m.announce i).registers) known
    simp [effect, commit, apply, applied] at failed

theorem execute_done (wellFormed : i.WellFormed) (effect : m.effect i = .ok e) :
    (m.execute i).1 = .ok () := by
  cases result : (m.execute i).1 with
  | ok => rfl
  | error f => cases effect.symm.trans (execute_failed wellFormed result).1

theorem execute_assign {r : Reg} {v : Word} (wellFormed : i.WellFormed)
    (target : i.number 0 = r.val) (effect : m.effect i = .ok (Effect.assign (i.number 0) v)) :
    (m.execute i).1 = .ok () ∧ (m.execute i).2.registers = m.registers.writeX r v := by
  have done := execute_done wellFormed effect
  obtain ⟨e, registers, same, applied, state⟩ := execute_ok done
  obtain rfl := Except.ok.inj (effect.symm.trans same)
  obtain ⟨q, known, rfl⟩ := RegisterFile.apply_assign applied
  obtain rfl : r = q := Fin.ext (target.symm.trans (Reg.ofNat?_eq_some_iff.1 known))
  exact ⟨done, by rw [state]⟩

theorem transfer_cases (op : Operation) :
    op = .loadExclusive ∨ op = .storeExclusive ∨ (∃ w, op.storeWidth? = some w) ∨
      (op ≠ .loadExclusive ∧ op.isStore = false ∧ op.storeWidth? = none) := by
  cases op <;> simp [Operation.storeWidth?, Operation.isStore]

theorem executed_still (done : (m.execute i).1 = .ok ())
    (load : i.mnemonic.operation ≠ .loadExclusive) (store : i.mnemonic.operation.isStore = false) :
    (m.execute i).2.memory = m.memory ∧ (m.execute i).2.monitor = m.monitor := by
  obtain ⟨e, registers, effect, applied, after⟩ := execute_ok done
  have fits := effect_fits effect
  have nothing : e.store = none := by
    cases stored : e.store with
    | none => rfl
    | some bytes => simp [fits.store bytes stored] at store
  have untagged : e.monitor = none := by
    cases tagged : e.monitor with
    | none => rfl
    | some tag => rcases fits.monitor tag tagged with other | other <;> simp_all
  rw [after, nothing, untagged]
  exact ⟨rfl, rfl⟩

theorem executed_store {w : Width} (done : (m.execute i).1 = .ok ())
    (store : i.mnemonic.operation.storeWidth? = some w) :
    ∃ a v, m.address i 1 = .ok a ∧ m.memory.allows a w.bytes = true ∧
      (m.execute i).2.memory = m.memory.write a (BigEndian.tail v w.bytes) ∧
      (m.execute i).2.monitor = m.monitor.afterStore a w.bytes := by
  obtain ⟨e, registers, effect, applied, after⟩ := execute_ok done
  have stored : ∃ a v, m.address i 1 = .ok a ∧ m.storeEffect a v w.bytes = .ok e := by
    have effect := effect_operation effect
    unfold Operation.storeWidth? at store
    split at store
    next w' of =>
      cases store
      rw [of] at effect
      simp only [operationEffect, bind_eq_ok] at effect
      obtain ⟨a, address, v, -, stored⟩ := effect
      exact ⟨a, v, address, stored⟩
    next p of =>
      cases store
      rw [of] at effect
      cases p <;> simp only [operationEffect, bind_eq_ok] at effect <;>
        obtain ⟨a, address, v, -, stored⟩ := effect <;>
        exact ⟨a, _, address, stored⟩
    next => cases store
  obtain ⟨a, v, address, stored⟩ := stored
  obtain ⟨allowed, rfl⟩ := storeEffect_ok stored
  rw [after]
  exact ⟨a, v, address, allowed, rfl, rfl⟩

theorem executed_loadExclusive (done : (m.execute i).1 = .ok ())
    (of : i.mnemonic.operation = .loadExclusive) :
    ∃ a, m.address i 1 = .ok a ∧ (m.execute i).2.memory = m.memory ∧
      if i.number 0 = Reg.xzr.val then (m.execute i).2.monitor = m.monitor
      else ∃ v, m.memory.load a 8 = .ok v ∧ (m.execute i).2.monitor = .set a ∧
        (m.execute i).2.readX i 0 = .ok v := by
  obtain ⟨e, registers, effect, applied, after⟩ := execute_ok done
  have effect := effect_operation effect
  simp only [of, operationEffect, bind_eq_ok] at effect
  obtain ⟨a, address, effect⟩ := effect
  refine ⟨a, address, ?_⟩
  split at effect
  next zero =>
    obtain rfl := pure_eq_ok.1 effect
    rw [after, if_pos zero]
    simp [Memory.apply]
  next other =>
    simp only [bind_eq_ok, pure_eq_ok] at effect
    obtain ⟨v, loaded, rfl⟩ := effect
    obtain ⟨r, known, rfl⟩ := RegisterFile.apply_assign applied
    have nonzero : r ≠ Reg.xzr := by
      rintro rfl
      exact other (Reg.ofNat?_eq_some_iff.1 known)
    rw [after, if_neg other]
    refine ⟨by simp [Memory.apply], v, loaded, rfl, ?_⟩
    simp [readX, Instruction.register, known, RegisterFile.readX, RegisterFile.writeX, nonzero,
      bind, Except.bind, pure, Except.pure]

theorem executed_storeExclusive (done : (m.execute i).1 = .ok ())
    (of : i.mnemonic.operation = .storeExclusive) :
    ∃ a r, m.address i 2 = .ok a ∧ i.register 1 = .ok r ∧
      if m.monitor.permits a then
        ∃ v, m.readX i 0 = .ok v ∧ m.memory.allows a 8 = true ∧
          (m.execute i).2.memory = m.memory.write a (BigEndian.tail v 8) ∧
          (m.execute i).2.registers = m.registers.writeX r 0 ∧
          (m.execute i).2.monitor = {} ∧ (m.execute i).2.exclusiveStored = true
      else
        (m.execute i).2.memory = m.memory ∧
          (m.execute i).2.registers = m.registers.writeX r 1 ∧
          (m.execute i).2.monitor = m.monitor ∧ (m.execute i).2.exclusiveStored = false := by
  obtain ⟨e, registers, effect, applied, after⟩ := execute_ok done
  have effect := effect_operation effect
  rw [of] at effect
  obtain ⟨a, address, outcome⟩ := storeExclusive_ok effect
  rw [after]
  split at outcome
  next permitted =>
    obtain ⟨v, value, allowed, rfl⟩ := outcome
    obtain ⟨r, known, rfl⟩ := RegisterFile.apply_assign applied
    refine ⟨a, r, address, by simp [Instruction.register, known], ?_⟩
    rw [if_pos permitted]
    exact ⟨v, value, allowed, rfl, rfl, rfl, rfl⟩
  next refused =>
    obtain rfl := outcome
    obtain ⟨r, known, rfl⟩ := RegisterFile.apply_assign applied
    refine ⟨a, r, address, by simp [Instruction.register, known], ?_⟩
    rw [if_neg refused]
    simp [Memory.apply]

end Machine

end Legv8
