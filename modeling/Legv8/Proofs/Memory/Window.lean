import Legv8.Operation
import Legv8.Proofs.Memory.Bytes

set_option autoImplicit false

namespace Legv8.Memory

variable {m : Memory} {a : Word} {size : Nat} {w : Width}

def Covers (m : Memory) (a : Word) (size : Nat) : Prop :=
  m.dynamicOffset.toNat ≤ a.toNat ∧ a.toNat + size ≤ m.stackBase.toNat

instance (m : Memory) (a : Word) (size : Nat) : Decidable (m.Covers a size) :=
  inferInstanceAs (Decidable (_ ∧ _))

-- Loads and stores of a width at an address succeed inside the window and fail outside.
structure Confines (m : Memory) (a : Word) (w : Width) : Prop where
  inside : m.Covers a w.bytes →
    (∃ v, m.load a w.bytes = .ok v) ∧ ∀ v, ∃ m', m.store a v w.bytes = .ok m'
  outside : ¬ m.Covers a w.bytes →
    m.load a w.bytes = .error (.outOfSegment a .stackOrHeap) ∧
      ∀ v, m.store a v w.bytes = .error (.outOfSegment a .stackOrHeap)

theorem allows_iff :
    m.allows a size = true ↔
      m.dynamicOffset.toNat ≤ a.toNat ∧ a.toNat ≤ m.stackBase.toNat - size := by
  simp only [allows, Bool.and_eq_true, decide_eq_true_eq, BitVec.le_def]

theorem allows_iff_covers_iff :
    (m.allows a size = true ↔ m.Covers a size) ↔
      size ≤ m.stackBase.toNat ∨ m.dynamicOffset ≠ 0 ∨ a ≠ 0 := by
  have start : m.dynamicOffset = 0 ↔ m.dynamicOffset.toNat = 0 :=
    (BitVec.toNat_inj (x := m.dynamicOffset) (y := 0)).symm
  have address : a = 0 ↔ a.toNat = 0 := (BitVec.toNat_inj (x := a) (y := 0)).symm
  rw [allows_iff, Covers, Ne, Ne, start, address]
  omega

theorem load_eq_ok (allowed : m.allows a size = true) :
    m.load a size = .ok (BigEndian.value (m.read a size)) := by
  simp [load, check, allowed, bind, Except.bind, pure, Except.pure]

theorem access_eq_error (refused : m.allows a size = false) :
    m.load a size = .error (.outOfSegment a .stackOrHeap) ∧
      ∀ v, m.store a v size = .error (.outOfSegment a .stackOrHeap) := by
  refine ⟨?_, fun v => store_eq_error refused⟩
  simp [load, check, refused, bind, Except.bind]

theorem confines_iff : m.Confines a w ↔ (m.allows a w.bytes = true ↔ m.Covers a w.bytes) := by
  cases tested : m.allows a w.bytes with
  | true =>
    have loaded := load_eq_ok tested
    have stored (v : Word) := store_eq_ok (v := v) tested
    constructor
    · intro confines
      refine iff_of_true rfl (Classical.byContradiction fun outside => ?_)
      cases loaded.symm.trans (confines.outside outside).1
    · intro covers
      exact ⟨fun _ => ⟨⟨_, loaded⟩, fun v => ⟨_, stored v⟩⟩,
        fun outside => absurd (covers.1 rfl) outside⟩
  | false =>
    have failed := access_eq_error tested
    constructor
    · intro confines
      refine iff_of_false Bool.false_ne_true fun inside => ?_
      obtain ⟨v, loaded⟩ := (confines.inside inside).1
      cases failed.1.symm.trans loaded
    · intro covers
      exact ⟨fun inside => absurd (covers.2 inside) Bool.false_ne_true, fun _ => failed⟩

/-- The window confines every access, but for one at zero that does not fit into a window from
zero on. -/
theorem window_confines_iff (m : Memory) (a : Word) (w : Width) :
    m.Confines a w ↔ w.bytes ≤ m.stackBase.toNat ∨ m.dynamicOffset ≠ 0 ∨ a ≠ 0 := by
  rw [confines_iff, allows_iff_covers_iff]

-- Eight bytes in a window of three.
theorem window_overrun :
    let m := ofConfig { dynamicOffset := 0, stackBase := 3 } 0
    ¬ m.Covers 0 Width.double.bytes ∧ m.load 0 Width.double.bytes = .ok 0 ∧
      ∃ m', m.store 0 (-1) Width.double.bytes = .ok m' ∧ m'.peek 7 = 0xFF := by
  refine ⟨by decide, eq_ok_of_toOption (by decide +kernel), _, rfl, by decide +kernel⟩

end Legv8.Memory
