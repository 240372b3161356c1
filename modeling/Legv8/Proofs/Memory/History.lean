import Legv8.Operation
import Legv8.Proofs.Memory.Bytes
import Mathlib.Data.Finset.Card
import Mathlib.Data.Nat.Digits.Defs

set_option autoImplicit false

namespace Legv8

namespace BigEndian

theorem tail_eq {n : Nat} (small : n ≤ 8) (v : Word) :
    tail v n = (List.range n).map fun i => v.extractLsb' (8 * (n - 1 - i)) 8 := by
  apply List.ext_getElem
  · simp [small]
  · intro i left right
    have inside : i < n := by simpa using right
    have place : 7 - (8 - n + i) = n - 1 - i := by omega
    simp [tail, bytes, place]

theorem shift_toNat {v : Word} {b : Byte} (room : v.toNat * 256 < 2 ^ 64) :
    (v <<< 8 ||| b.setWidth 64).toNat = v.toNat * 256 + b.toNat := by
  have low : b.toNat < 2 ^ 8 := b.isLt
  have kept : v.toNat <<< 8 = v.toNat * 256 := Nat.shiftLeft_eq v.toNat 8
  rw [BitVec.toNat_or, BitVec.toNat_shiftLeft, BitVec.toNat_setWidth_of_le (by decide), kept,
    Nat.mod_eq_of_lt room, ← kept, ← Nat.shiftLeft_add_eq_or_of_lt low, kept]

theorem foldl_toNat {bs : List Byte} {v : Word}
    (room : (v.toNat + 1) * 256 ^ bs.length ≤ 2 ^ 64) :
    (bs.foldl (fun (v : Word) b => v <<< 8 ||| b.setWidth 64) v).toNat =
      v.toNat * 256 ^ bs.length + Nat.ofDigits 256 (bs.map BitVec.toNat).reverse := by
  induction bs generalizing v with
  | nil => simp
  | cons b bs ih =>
    have low : b.toNat < 256 := b.isLt
    have power : 0 < 256 ^ bs.length := Nat.pow_pos (by decide)
    rw [List.length_cons, Nat.pow_succ', ← Nat.mul_assoc] at room ⊢
    have whole : (v.toNat + 1) * 256 ≤ 2 ^ 64 :=
      Nat.le_trans (Nat.le_mul_of_pos_right _ power) room
    -- The bits of the value so far and those of the next byte do not overlap.
    have shifted : (v <<< 8 ||| b.setWidth 64).toNat = v.toNat * 256 + b.toNat :=
      shift_toNat (by omega)
    have next : (v <<< 8 ||| b.setWidth 64).toNat + 1 ≤ (v.toNat + 1) * 256 := by omega
    rw [List.foldl_cons, ih (Nat.le_trans (Nat.mul_le_mul_right _ next) room), shifted,
      List.map_cons, Nat.ofDigits_reverse_cons, List.length_map]
    ring

theorem value_toNat (bs : List Byte) :
    (value bs).toNat = Nat.ofDigits 256 ((bs.take 8).map BitVec.toNat).reverse := by
  have room : ((0 : Word).toNat + 1) * 256 ^ (bs.take 8).length ≤ 2 ^ 64 := by
    have power : 256 ^ (bs.take 8).length ≤ 256 ^ 8 :=
      Nat.pow_le_pow_right (by decide) (List.length_take_le _ _)
    simpa using power
  simpa [value] using foldl_toNat room

end BigEndian

namespace Memory

structure Store where
  address : Word
  value : Word
  width : Width
  deriving DecidableEq

/-- The bytes that a store writes, if it succeeds: the digits of its value, the last of them at the
highest address. -/
def Store.writes (s : Store) : List (Word × Byte) :=
  (List.range s.width.bytes).map fun i =>
    (s.address + BitVec.ofNat 64 i,
      BitVec.ofNat 8 (s.value.toNat >>> (8 * (s.width.bytes - 1 - i))))

def attempt (m : Memory) (s : Store) : Except Fault Unit × Memory :=
  (storeBytes s.address s.value s.width.bytes).run.run m

def written (m : Memory) : List Store → List (Word × Byte)
  | [] => []
  | s :: rest =>
      match m.attempt s with
      | (.ok (), m') => s.writes ++ m'.written rest
      | (.error _, m') => m'.written rest

def latest (writes : List (Word × Byte)) (b : Word) : Option Byte :=
  writes.reverse.lookup b

def put (m : Memory) (w : Word × Byte) : Memory :=
  { m with bytes := m.bytes.insert w.1 w.2 }

variable {m : Memory} {a b : Word}

theorem add_one_offset (a : Word) (i : Nat) :
    a + 1 + BitVec.ofNat 64 i = a + BitVec.ofNat 64 (i + 1) := by
  rw [BitVec.add_assoc, BitVec.add_comm 1, BitVec.ofNat_add i 1]
  rfl

theorem write_eq_put (m : Memory) (a : Word) (f : Nat → Byte) (n : Nat) :
    m.write a ((List.range n).map f) =
      ((List.range n).map fun i => (a + BitVec.ofNat 64 i, f i)).foldl put m := by
  induction n generalizing m a f with
  | zero => rfl
  | succ n ih =>
    simp only [List.range_succ_eq_map, List.map_cons, List.map_map, write, List.foldl_cons]
    have rest := ih (m.put (a, f 0)) (a + 1) (f ∘ Nat.succ)
    simp only [add_one_offset] at rest
    simpa [put, Function.comp_def] using rest

theorem attempt_cases (m : Memory) (s : Store) :
    m.attempt s = (.ok (), s.writes.foldl put m) ∨ ∃ f, m.attempt s = (.error f, m) := by
  rw [attempt, storeBytes_eq]
  split
  next =>
    have small : s.width.bytes ≤ 8 := by cases s.width <;> decide
    left
    rw [BigEndian.tail_eq small, write_eq_put]
    rfl
  next =>
    right
    exact ⟨_, rfl⟩

theorem behind_eq_put (m : Memory) (history : List Store) :
    behind attempt m history = (m.written history).foldl put m := by
  induction history generalizing m with
  | nil => rfl
  | cons s rest ih =>
    -- A store that fails adds no byte and leaves the memory to the stores behind it.
    have later : behind attempt m (s :: rest) = behind attempt (m.attempt s).2 rest := rfl
    rw [later, ih, written]
    rcases m.attempt_cases s with done | ⟨f, failed⟩
    · simp [done]
    · simp [failed]

theorem peek_put (w : Word × Byte) (b : Word) :
    (m.put w).peek b = if b = w.1 then w.2 else m.peek b := by
  rw [put, peek_insert]
  simp only [eq_comm]

theorem peek_foldl_put (writes : List (Word × Byte)) (b : Word) :
    (writes.foldl put m).peek b = (latest writes b).getD (m.peek b) := by
  induction writes generalizing m with
  | nil => rfl
  | cons w rest ih =>
    obtain ⟨c, v⟩ := w
    rw [List.foldl_cons, ih, peek_put, latest, latest, List.reverse_cons, List.lookup_append,
      List.lookup_cons]
    -- A later write to the address hides this one.
    cases rest.reverse.lookup b with
    | some u => rfl
    | none =>
      by_cases here : b = c
      · simp [here]
      · rw [if_neg here, beq_eq_false_iff_ne.2 here]
        rfl

structure Occupies (m : Memory) (addresses : Finset Word) : Prop where
  holds : ∀ b, b ∈ m.bytes ↔ b ∈ addresses
  footprint : m.footprint = addresses.card

theorem occupies_put {addresses : Finset Word} (occupies : m.Occupies addresses)
    (w : Word × Byte) : (m.put w).Occupies (insert w.1 addresses) := by
  constructor
  · intro b
    rw [put, Std.TreeMap.mem_insert, occupies.holds, Finset.mem_insert, Std.compare_eq_iff_eq,
      eq_comm]
  · have size : (m.put w).footprint = if w.1 ∈ m.bytes then m.footprint else m.footprint + 1 :=
      Std.TreeMap.size_insert
    rw [size, occupies.footprint]
    split
    next present => rw [Finset.insert_eq_of_mem ((occupies.holds w.1).1 present)]
    next absent => rw [Finset.card_insert_of_notMem (mt (occupies.holds w.1).2 absent)]

theorem occupies_foldl_put {addresses : Finset Word} (occupies : m.Occupies addresses)
    (writes : List (Word × Byte)) :
    (writes.foldl put m).Occupies (addresses ∪ (writes.map Prod.fst).toFinset) := by
  induction writes generalizing m addresses with
  | nil => simpa using occupies
  | cons w rest ih =>
    have later := ih (occupies_put occupies w)
    rwa [Finset.insert_union, ← Finset.union_insert, ← List.toFinset_cons] at later

theorem read_eq_map (m : Memory) (a : Word) (n : Nat) :
    m.read a n = (List.range n).map fun i => m.peek (a + BitVec.ofNat 64 i) := by
  induction n generalizing a with
  | zero => rfl
  | succ n ih =>
    rw [read, ih, List.range_succ_eq_map, List.map_cons, List.map_map, BitVec.add_zero]
    simp only [add_one_offset]
    rfl

theorem load_digits {size : Nat} {v : Word} (loaded : m.load a size = .ok v) :
    v.toNat = Nat.ofDigits 256
      ((List.range (min size 8)).map fun i => (m.peek (a + BitVec.ofNat 64 i)).toNat).reverse := by
  simp only [load, bind_eq_ok, pure_eq_ok] at loaded
  obtain ⟨_, -, rfl⟩ := loaded
  rw [BigEndian.value_toNat, read_eq_map, ← List.map_take, List.take_range, List.map_map,
    Nat.min_comm]
  rfl

theorem loadSigned_toInt (m : Memory) (a : Word) :
    (m.loadSigned a).map BitVec.toInt =
      (m.load a 4).map fun v => (v.toNat : Int).bmod (2 ^ 32) := by
  unfold loadSigned
  cases m.load a 4 with
  | error f => simp [bind, Except.bind, Except.map]
  | ok v =>
    have narrow : ((v.setWidth 32).signExtend 64).toInt = (v.toNat : Int).bmod (2 ^ 32) := by
      rw [BitVec.toInt_signExtend_of_le (by decide), BitVec.toInt_eq_toNat_bmod,
        BitVec.toNat_setWidth, Int.natCast_emod, Int.emod_bmod]
    simp [bind, Except.bind, pure, Except.pure, Except.map, narrow]

/-- A memory is a map of bytes: it holds at every address the byte that was written there last and
zero elsewhere, and a load reads the digits of a number from it. -/
theorem memory_refines_bytes (c : MemoryConfig) (count : Nat) (history : List Store) :
    let start := ofConfig c count
    let m := behind attempt start history
    (∀ b, m.peek b = (latest (start.written history) b).getD 0) ∧
      (∀ a size v, m.load a size = .ok v →
        v.toNat = Nat.ofDigits 256 ((List.range (min size 8)).map fun i =>
          ((latest (start.written history) (a + BitVec.ofNat 64 i)).getD 0).toNat).reverse) ∧
      (∀ a, (m.loadSigned a).map BitVec.toInt =
        (m.load a 4).map fun v => (v.toNat : Int).bmod (2 ^ 32)) ∧
      (∀ s f, (m.attempt s).1 = .error f → (m.attempt s).2 = m) ∧
      m.footprint = ((start.written history).map Prod.fst).toFinset.card := by
  intro start m
  have run : m = (start.written history).foldl put start := behind_eq_put start history
  have bytes (b : Word) : m.peek b = (latest (start.written history) b).getD 0 := by
    rw [run, peek_foldl_put]
    rfl
  refine ⟨bytes, fun a size v loaded => ?_, m.loadSigned_toInt, fun s f failed => ?_, ?_⟩
  · simpa only [bytes] using load_digits loaded
  · rcases m.attempt_cases s with done | ⟨g, unchanged⟩
    · simp [done] at failed
    · rw [unchanged]
  · have empty : start.Occupies ∅ := ⟨fun b => by simp [start, ofConfig], rfl⟩
    rw [run, (occupies_foldl_put empty (start.written history)).footprint, Finset.empty_union]

-- A doubleword, a word over its end and behind it, and a store below the data window.
theorem memory_refines_bytes_overlap :
    let history : List Store :=
      [⟨0x10000000, 0x1122334455667788, .double⟩, ⟨0x10000006, 0xAABBCCDD, .word⟩,
        ⟨0, 5, .byte⟩]
    let start := ofConfig {} 3
    let m := behind attempt start history
    ∃ v, m.load 0x10000004 8 = .ok v ∧ v.toNat = 0x5566AABBCCDD0000 ∧ m.footprint = 10 := by
  intro history start m
  obtain ⟨-, loads, -, -, footprint⟩ := memory_refines_bytes {} 3 history
  have loaded : m.load 0x10000004 8 = .ok 0x5566AABBCCDD0000 :=
    eq_ok_of_toOption (by decide +kernel)
  exact ⟨_, loaded, (loads _ _ _ loaded).trans (by decide +kernel),
    footprint.trans (by decide +kernel)⟩

end Memory

end Legv8
