import Legv8.Memory
import Legv8.Monitor
import Legv8.Proofs.Outcome
import Mathlib.Algebra.Group.Nat.Defs

set_option autoImplicit false

namespace Legv8

def Overlap (a : Word) (size : Nat) (b : Word) (size' : Nat) : Prop :=
  ∃ k < size, ∃ l < size', a + BitVec.ofNat 64 k = b + BitVec.ofNat 64 l

namespace Memory

variable {m : Memory} {a b : Word} {size size' : Nat}

structure SameWindow (m m' : Memory) : Prop where
  dynamicOffset : m'.dynamicOffset = m.dynamicOffset
  stackBase : m'.stackBase = m.stackBase

theorem SameWindow.allows {m' : Memory} (same : m.SameWindow m') (a : Word) (size : Nat) :
    m'.allows a size = m.allows a size := by
  simp only [Memory.allows, same.dynamicOffset, same.stackBase]

theorem write_window (m : Memory) (a : Word) (bytes : List Byte) :
    m.SameWindow (m.write a bytes) := by
  induction bytes generalizing m a with
  | nil => exact ⟨rfl, rfl⟩
  | cons b bs ih =>
    obtain ⟨dynamicOffset, stackBase⟩ := ih { m with bytes := m.bytes.insert a b } (a + 1)
    exact ⟨dynamicOffset, stackBase⟩

theorem peek_insert (m : Memory) (a b : Word) (v : Byte) :
    { m with bytes := m.bytes.insert a v }.peek b = if a = b then v else m.peek b := by
  simp only [peek, Std.TreeMap.getElem?_insert, Std.compare_eq_iff_eq]
  split <;> rfl

theorem peek_write_outside {bytes : List Byte}
    (outside : ∀ k < bytes.length, a + BitVec.ofNat 64 k ≠ b) :
    (m.write a bytes).peek b = m.peek b := by
  induction bytes generalizing m a with
  | nil => rfl
  | cons v bs ih =>
    have here : a ≠ b := by simpa using outside 0 (by simp)
    rw [write, ih, peek_insert, if_neg here]
    intro k inside
    have next := outside (k + 1) (by simpa using inside)
    rwa [BitVec.ofNat_add, BitVec.add_comm (BitVec.ofNat 64 k), ← BitVec.add_assoc] at next

theorem read_congr {m' : Memory} {n : Nat}
    (same : ∀ k < n, m'.peek (a + BitVec.ofNat 64 k) = m.peek (a + BitVec.ofNat 64 k)) :
    m'.read a n = m.read a n := by
  induction n generalizing a with
  | zero => rfl
  | succ n ih =>
    have here : m'.peek a = m.peek a := by simpa using same 0 (by omega)
    rw [read, read, here, ih]
    intro k inside
    have next := same (k + 1) (by omega)
    rwa [BitVec.ofNat_add, BitVec.add_comm (BitVec.ofNat 64 k), ← BitVec.add_assoc] at next

theorem load_write_apart {bytes : List Byte} (apart : ¬ Overlap a bytes.length b size) :
    (m.write a bytes).load b size = m.load b size := by
  have same : (m.write a bytes).read b size = m.read b size := by
    refine read_congr fun l inside => peek_write_outside fun k covered meet => ?_
    exact apart ⟨k, covered, l, inside, meet⟩
  simp only [load, check, (write_window m a bytes).allows, same]

theorem load_ok {v : Word} (loaded : m.load a size = .ok v) : m.allows a size = true := by
  simp only [load, bind_eq_ok, check] at loaded
  obtain ⟨u, allowed, -⟩ := loaded
  split at allowed
  next inside => exact inside
  next => cases allowed

theorem storeBytes_eq (a v : Word) (size : Nat) :
    (storeBytes a v size).run.run m =
      if m.allows a size then (.ok (), m.write a (BigEndian.tail v size))
      else (.error (.outOfSegment a .stackOrHeap), m) := by
  have run : (storeBytes a v size).run.run m =
      (liftM (m.check a size) >>= fun _ => modify fun m => m.write a (BigEndian.tail v size) :
        ExceptT Fault (StateM Memory) Unit).run.run m := rfl
  rw [run, check]
  cases m.allows a size <;> rfl

theorem store_eq_ok {v : Word} (allowed : m.allows a size = true) :
    m.store a v size = .ok (m.write a (BigEndian.tail v size)) := by
  simp only [store, storeBytes_eq, allowed, if_true]

theorem store_eq_error {v : Word} (refused : m.allows a size = false) :
    m.store a v size = .error (.outOfSegment a .stackOrHeap) := by
  simp only [store, storeBytes_eq, refused, Bool.false_eq_true, if_false]

theorem allows_end (allowed : m.allows a size = true) (small : size < 2 ^ 64) :
    a.toNat + size < 2 ^ 64 := by
  -- The window ends below the last address.
  have inside : a.toNat ≤ m.stackBase.toNat - size := by
    simp only [allows, Bool.and_eq_true, decide_eq_true_eq] at allowed
    exact allowed.2
  have bound := m.stackBase.isLt
  omega

theorem overlap_iff (first : a.toNat + size < 2 ^ 64) (second : b.toNat + size' < 2 ^ 64)
    (some : 0 < size) (some' : 0 < size') :
    Overlap a size b size' ↔ a.toNat < b.toNat + size' ∧ b.toNat < a.toNat + size := by
  have shift (c : Word) (k : Nat) (low : c.toNat + k < 2 ^ 64) :
      (c + BitVec.ofNat 64 k).toNat = c.toNat + k := by
    simp only [BitVec.toNat_add, BitVec.toNat_ofNat]
    omega
  constructor
  · rintro ⟨k, inside, l, inside', meet⟩
    have place := congrArg BitVec.toNat meet
    rw [shift a k (by omega), shift b l (by omega)] at place
    omega
  · -- The later one of the two addresses lies in both ranges.
    rintro ⟨left, right⟩
    by_cases order : a.toNat ≤ b.toNat
    · refine ⟨b.toNat - a.toNat, by omega, 0, some', BitVec.eq_of_toNat_eq ?_⟩
      rw [shift a _ (by omega), shift b 0 (by omega)]
      omega
    · refine ⟨0, some, a.toNat - b.toNat, by omega, BitVec.eq_of_toNat_eq ?_⟩
      rw [shift a 0 (by omega), shift b _ (by omega)]
      omega

end Memory

theorem Monitor.touches_iff {w : Monitor} {m : Memory} {a tag : Word} {size : Nat}
    (tagged : w.tag = some tag) (tagAllowed : m.allows tag 8 = true)
    (allowed : m.allows a size = true) (some : 0 < size) (small : size ≤ 8) :
    w.touches a size = true ↔ Overlap a size tag 8 := by
  have tagEnd := Memory.allows_end tagAllowed (by decide)
  have storeEnd := Memory.allows_end allowed (by omega)
  rw [Memory.overlap_iff storeEnd tagEnd some (by decide)]
  have stops (b : Word) (n : Nat) (low : b.toNat + n < 2 ^ 64) : rangeEnd b n = b.toNat + n := by
    unfold rangeEnd
    omega
  simp only [touches, tagged, stops tag 8 tagEnd, stops a size storeEnd, Bool.and_eq_true,
    decide_eq_true_eq]

end Legv8
