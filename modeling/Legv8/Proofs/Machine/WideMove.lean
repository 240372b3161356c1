import Legv8.Proofs.Instruction.Disassembly
import Legv8.Proofs.Machine.Comparison
import Legv8.Proofs.Machine.Exclusive

set_option autoImplicit false

namespace Legv8

namespace Word

def lane (w : Word) (k : Fin 4) : BitVec 16 :=
  w.extractLsb' (16 * k.val) 16

variable {v w : Word} {f : BitVec 16} {j k : Fin 4}

theorem eq_of_lanes (same : ∀ k, lane v k = lane w k) : v = w := by
  apply BitVec.eq_of_getLsbD_eq
  intro n inside
  have bit := congrArg (·.getLsbD (n % 16)) (same ⟨n / 16, by omega⟩)
  have place : 16 * (n / 16) + n % 16 = n := Nat.div_add_mod n 16
  have below : n % 16 < 16 := Nat.mod_lt n (by decide)
  simpa [lane, BitVec.getLsbD_extractLsb', below, place] using bit

theorem getLsbD_lane (w : Word) (k : Fin 4) {b : Nat} (inside : b < 16) :
    (lane w k).getLsbD b = w.getLsbD (16 * k.val + b) := by
  rw [lane, BitVec.getLsbD_extractLsb', decide_eq_true inside, Bool.true_and]

theorem lane_shifted (f : BitVec 16) (j k : Fin 4) :
    lane (f.setWidth 64 <<< (16 * j.val)) k = if j = k then f else 0 := by
  apply BitVec.eq_of_getLsbD_eq
  intro b inside
  have word : 16 * k.val + b < 64 := by omega
  rw [getLsbD_lane _ k inside, BitVec.getLsbD_shiftLeft, BitVec.getLsbD_setWidth,
    decide_eq_true word, Bool.true_and]
  rcases Nat.lt_trichotomy j.val k.val with below | same | above
  · have other : j ≠ k := Fin.ne_of_val_ne (Nat.ne_of_lt below)
    have beyond : 16 ≤ 16 * k.val + b - 16 * j.val := by omega
    simp [other, BitVec.getLsbD_of_ge f _ beyond]
  · obtain rfl : j = k := Fin.ext same
    simp [Nat.lt_trans inside]
  · have other : j ≠ k := Fin.ne_of_val_ne (Nat.ne_of_gt above)
    have short : 16 * k.val + b < 16 * j.val := by omega
    simp [other, short]

theorem lane_and (v w : Word) (k : Fin 4) : lane (v &&& w) k = lane v k &&& lane w k :=
  BitVec.extractLsb'_and

theorem lane_or (v w : Word) (k : Fin 4) : lane (v ||| w) k = lane v k ||| lane w k :=
  BitVec.extractLsb'_or

theorem lane_not (w : Word) (k : Fin 4) : lane (~~~w) k = ~~~lane w k := by
  apply BitVec.eq_of_getLsbD_eq
  intro b inside
  have word : 16 * k.val + b < 64 := by omega
  rw [getLsbD_lane _ k inside, BitVec.getLsbD_not, BitVec.getLsbD_not, getLsbD_lane _ k inside,
    decide_eq_true word, decide_eq_true inside]

theorem mask_shifted (n : Nat) :
    ((0xFFFF <<< n : Nat) : Word) = (BitVec.allOnes 16).setWidth 64 <<< n := by
  apply BitVec.eq_of_toNat_eq
  simp [Nat.shiftLeft_eq]

theorem shift_mod (k : Fin 4) : 16 * k.val % 64 = 16 * k.val :=
  Nat.mod_eq_of_lt (by omega)

-- The mask of a lane is all ones there and zero elsewhere, so the other lanes keep their bits.
theorem lane_moveWide (w : Word) (f : BitVec 16) (j k : Fin 4) :
    lane (Machine.moveWide w (f.setWidth 64) (16 * j.val)) k = if j = k then f else lane w k := by
  rw [Machine.moveWide, shift_mod, mask_shifted, lane_or, lane_and, lane_and, lane_not,
    lane_shifted, lane_shifted]
  split
  next =>
    have none : ~~~BitVec.allOnes 16 = 0#16 := BitVec.not_allOnes
    rw [none, BitVec.and_zero, BitVec.and_allOnes, BitVec.zero_or]
  next =>
    have all : ~~~(0 : BitVec 16) = BitVec.allOnes 16 := BitVec.not_zero
    rw [all, BitVec.and_allOnes]
    exact BitVec.or_zero

end Word

namespace Instruction

structure MovesWide (r : Reg) (i : Instruction) : Prop where
  kind : i.mnemonic = .movz ∨ i.mnemonic = .movk
  target : i.number 0 = r.val
  decoded : ∃ m operands line labels, decode m operands line labels = .ok i

def clears (i : Instruction) : Bool :=
  i.mnemonic == .movz

def aimsAt (k : Fin 4) (i : Instruction) : Bool :=
  i.arg 2 == 16 * (k.val : Int)

def field (i : Instruction) : BitVec 16 :=
  BitVec.ofInt 16 (i.arg 1)

-- The moves since the last clearing one, which is among them, from the last move on backwards.
def recent : List Instruction → List Instruction
  | [] => []
  | i :: earlier => if i.clears then [i] else i :: recent earlier

/-- What a lane holds behind a history of wide moves: the field of the last one that was aimed at it
since the last clearing move, else zero behind a clearing move, else what it held before. -/
def laneBehind (old : BitVec 16) (k : Fin 4) (history : List Instruction) : BitVec 16 :=
  match (recent history.reverse).find? (aimsAt k) with
  | some i => i.field
  | none => if history.any clears then 0 else old

def wideMove (m : Mnemonic) (r : Reg) (f : BitVec 16) (k : Fin 4) (line : Nat) : Instruction :=
  ⟨m, [(r.val : Int), (f.toNat : Int), 16 * (k.val : Int)], line⟩

variable {m : Mnemonic} {r : Reg} {f : BitVec 16} {j k : Fin 4} {line : Nat} {i : Instruction}
  {history : List Instruction} {old : BitVec 16}

theorem aimsAt_wideMove : (wideMove m r f j line).aimsAt k = decide (j = k) := by
  have shift : (wideMove m r f j line).arg 2 = 16 * (j.val : Int) := rfl
  rw [aimsAt, shift, Bool.eq_iff_iff, beq_iff_eq, decide_eq_true_eq, Fin.ext_iff]
  omega

theorem field_wideMove : (wideMove m r f k line).field = f := by
  simp [wideMove, field, arg]

theorem allows_wide {v : Int} :
    Permitted.wide.allows v = true ↔ ∃ f : BitVec 16, v = (f.toNat : Int) := by
  have range : Permitted.wide.allows v = true ↔ 0 ≤ v ∧ v ≤ 65535 := by
    simp [Permitted.allows, Permitted.wide]
  rw [range]
  constructor
  · rintro ⟨low, high⟩
    exact ⟨BitVec.ofInt 16 v, by rw [BitVec.toNat_ofInt]; omega⟩
  · rintro ⟨f, rfl⟩
    have bound := f.isLt
    omega

theorem allows_wideShift {s : Int} :
    Permitted.wideShift.allows s = true ↔ ∃ k : Fin 4, s = 16 * (k.val : Int) := by
  simp [Permitted.allows, Permitted.wideShift, Fin.exists_fin_succ]

theorem arguments_wide {args : List Int} : Arguments m .risi args ↔
    ∃ (a : Reg) (f : BitVec 16) (k : Fin 4),
      args = [(a.val : Int), (f.toNat : Int), 16 * (k.val : Int)] := by
  constructor
  · intro arguments
    cases arguments with
    | risi a value shift =>
      obtain ⟨f, rfl⟩ := allows_wide.1 value
      obtain ⟨k, rfl⟩ := allows_wideShift.1 shift
      exact ⟨a, f, k, rfl⟩
  · rintro ⟨a, f, k, rfl⟩
    exact .risi a (allows_wide.2 ⟨f, rfl⟩) (allows_wideShift.2 ⟨k, rfl⟩)

theorem form_wide (kind : m = .movz ∨ m = .movk) : m.form = .risi := by
  rcases kind with rfl | rfl <;> rfl

theorem movesWide_wideMove (kind : m = .movz ∨ m = .movk) (r : Reg) (f : BitVec 16) (k : Fin 4)
    (line : Nat) : (wideMove m r f k line).MovesWide r := by
  have form : m.form = .risi := form_wide kind
  have arguments : Arguments m m.form (wideMove m r f k line).args := by
    rw [form]
    exact arguments_wide.2 ⟨r, f, k, rfl⟩
  have real : m.isPseudo = false := by
    rcases kind with rfl | rfl <;> rfl
  have legible : (wideMove m r f k line).Legible :=
    ⟨real, by rw [wideMove, form]; exact ⟨nofun, nofun⟩, arguments⟩
  exact ⟨kind, number_register rfl, m, _, line, ∅, decode_tokens legible .capitals line ∅⟩

theorem movesWide_iff : i.MovesWide r ↔
    ∃ m, (m = .movz ∨ m = .movk) ∧ ∃ f k line, i = wideMove m r f k line := by
  constructor
  · rintro ⟨kind, target, m, operands, line, labels, decoded⟩
    have arguments := decode_arguments decoded
    rw [form_wide kind, arguments_wide] at arguments
    obtain ⟨a, f, k, args⟩ := arguments
    obtain rfl : a = r := Fin.ext ((number_register (by rw [args]; rfl)).symm.trans target)
    exact ⟨i.mnemonic, kind, f, k, i.line, by rw [wideMove, ← args]⟩
  · rintro ⟨m, kind, f, k, line, rfl⟩
    exact movesWide_wideMove kind r f k line

theorem laneBehind_concat : laneBehind old k (history ++ [i]) =
    if i.aimsAt k then i.field else if i.clears then 0 else laneBehind old k history := by
  rw [laneBehind, List.reverse_concat, recent]
  by_cases clears : i.clears = true <;> by_cases aims : i.aimsAt k = true <;>
    simp [laneBehind, clears, aims]

def constantMoves (r : Reg) (c : Word) : List (Fin 4) → List Instruction
  | [] => []
  | k :: ks =>
      wideMove .movz r (Word.lane c k) k 0 ::
        ks.map fun k => wideMove .movk r (Word.lane c k) k 0

theorem constantMoves_movesWide (r : Reg) (c : Word) (order : List (Fin 4)) :
    ∀ i ∈ constantMoves r c order, i.MovesWide r := by
  cases order with
  | nil => exact fun i member => absurd member List.not_mem_nil
  | cons k ks =>
    rw [constantMoves, List.forall_mem_cons, List.forall_mem_map]
    exact ⟨movesWide_wideMove (.inl rfl) r _ k 0,
      fun j _ => movesWide_wideMove (.inr rfl) r _ j 0⟩

theorem laneBehind_constant {c : Word} {ks : List (Fin 4)} (named : k ∈ j :: ks) :
    laneBehind old k (constantMoves r c (j :: ks)) = Word.lane c k := by
  induction ks using List.reverseRecOn with
  | nil =>
    obtain rfl := List.mem_singleton.1 named
    have single : constantMoves r c [k] = [] ++ [wideMove .movz r (Word.lane c k) k 0] := rfl
    rw [single, laneBehind_concat, aimsAt_wideMove, decide_eq_true rfl, if_pos rfl, field_wideMove]
  | append_singleton ks last ih =>
    have split : constantMoves r c (j :: (ks ++ [last])) =
        constantMoves r c (j :: ks) ++ [wideMove .movk r (Word.lane c last) last 0] := by
      simp [constantMoves]
    have keeps : (wideMove .movk r (Word.lane c last) last 0).clears = false := rfl
    rw [split, laneBehind_concat, aimsAt_wideMove, field_wideMove, keeps]
    by_cases aimed : last = k
    · simp [aimed]
    · have before : k ∈ j :: ks := by
        simpa [Ne.symm aimed] using named
      simp [aimed, ih before]

theorem laneBehind_swap {i' : Instruction} (keeps : i.clears = false) (keeps' : i'.clears = false)
    (apart : i.arg 2 ≠ i'.arg 2) : laneBehind old k [i, i'] = laneBehind old k [i', i] := by
  have pair (a b : Instruction) : [a, b] = [] ++ [a] ++ [b] := rfl
  rw [pair, pair, laneBehind_concat, laneBehind_concat, laneBehind_concat, laneBehind_concat,
    keeps, keeps']
  by_cases first : i.aimsAt k = true <;> by_cases second : i'.aimsAt k = true
  · exact absurd ((beq_iff_eq.1 first).trans (beq_iff_eq.1 second).symm) apart
  all_goals simp [first, second]

end Instruction

namespace Machine

open Instruction Word

variable {m : Machine} {r : Reg} {i : Instruction} {history : List Instruction}

theorem wideMove_operands (mn : Mnemonic) (r : Reg) (f : BitVec 16) (k : Fin 4) (line : Nat) :
    (wideMove mn r f k line).word 1 = f.setWidth 64 ∧
      (wideMove mn r f k line).number 2 = 16 * k.val := by
  have value : (wideMove mn r f k line).arg 1 = (f.toNat : Int) := rfl
  have shift : (wideMove mn r f k line).arg 2 = 16 * (k.val : Int) := rfl
  rw [word, value, BitVec.ofInt_natCast, BitVec.ofNat_toNat, number, word, shift,
    BitVec.toNat_ofInt]
  exact ⟨rfl, by omega⟩

-- A wide move does not fail. It writes its register, and there it leaves in each lane its field,
-- zero, or what the lane held.
theorem executed_wideMove (moves : i.MovesWide r) (m : Machine) :
    (m.execute i).1 = .ok () ∧ ∃ v, (m.execute i).2.registers = m.registers.writeX r v ∧
      ∀ k, lane v k = if i.aimsAt k then i.field
        else if i.clears then 0 else lane (m.registers.readX r) k := by
  have target := moves.target
  obtain ⟨_, _, _, _, decoded⟩ := moves.decoded
  have wellFormed := decode_wellFormed decoded
  obtain ⟨mn, kind, f, j, line, rfl⟩ := movesWide_iff.1 moves
  obtain ⟨value, shift⟩ := wideMove_operands mn r f j line
  simp only [aimsAt_wideMove, field_wideMove, decide_eq_true_eq]
  rcases kind with rfl | rfl
  · have effect : m.effect (wideMove .movz r f j line) = .ok (Effect.assign
        ((wideMove .movz r f j line).number 0) (f.setWidth 64 <<< (16 * j.val))) := by
      rw [← value, ← shift_mod, ← shift]
      rfl
    obtain ⟨done, registers⟩ := execute_assign wellFormed target effect
    exact ⟨done, _, registers, fun k => lane_shifted f j k⟩
  · have effect : m.effect (wideMove .movk r f j line) = .ok (Effect.assign
        ((wideMove .movk r f j line).number 0)
        (moveWide (m.registers.readX r) (f.setWidth 64) (16 * j.val))) := by
      rw [← value, ← shift]
      change m.operationEffect (wideMove .movk r f j line) (.moveWide true) = _
      rw [operationEffect, readX_reg rfl]
      rfl
    obtain ⟨done, registers⟩ := execute_assign wellFormed target effect
    exact ⟨done, _, registers, fun k => lane_moveWide _ f j k⟩

theorem executedAll_wideMoves (nonzero : r ≠ Reg.xzr) (moves : ∀ i ∈ history, i.MovesWide r) :
    ∃ v, (m.executeAll history).registers = m.registers.writeX r v ∧
      ∀ k, lane v k = laneBehind (lane (m.registers.readX r) k) k history := by
  -- The whole of the registers is carried along, since the commuting moves compare all of them.
  induction history using List.reverseRecOn with
  | nil => exact ⟨m.registers.readX r, (RegisterFile.writeX_readX _ r).symm, fun k => rfl⟩
  | append_singleton history i ih =>
    obtain ⟨v, registers, lanes⟩ := ih fun j member => moves j (by simp [member])
    obtain ⟨-, w, written, step⟩ :=
      executed_wideMove (moves i (by simp)) (m.executeAll history)
    refine ⟨w, ?_, fun k => ?_⟩
    · rw [executeAll_concat, written, registers, RegisterFile.writeX_writeX]
    · rw [step, laneBehind_concat, registers, RegisterFile.readX_writeX nonzero, lanes]

/-- Behind any history of wide moves into a register each lane tells the last move that was aimed at
it. So keeping moves into different lanes commute, and a clearing move and three keeping moves build
any constant, whatever the order of the lanes. -/
theorem wide_moves_by_lane (nonzero : r ≠ Reg.xzr) (m : Machine) :
    (∀ history : List Instruction, (∀ i ∈ history, i.MovesWide r) →
      (∀ before i after, history = before ++ i :: after →
        ((m.executeAll before).execute i).1 = .ok ()) ∧
      ∀ k, lane ((m.executeAll history).registers.readX r) k =
        laneBehind (lane (m.registers.readX r) k) k history) ∧
    (∀ i j : Instruction, i.MovesWide r → j.MovesWide r → i.mnemonic = .movk →
      j.mnemonic = .movk → i.arg 2 ≠ j.arg 2 →
        (m.executeAll [i, j]).registers = (m.executeAll [j, i]).registers) ∧
    ∀ (c : Word) (order : List (Fin 4)), order.Perm (List.finRange 4) →
      (∀ i ∈ constantMoves r c order, i.MovesWide r) ∧
        (m.executeAll (constantMoves r c order)).registers.readX r = c := by
  have lanes (history : List Instruction) (moves : ∀ i ∈ history, i.MovesWide r) (k : Fin 4) :
      lane ((m.executeAll history).registers.readX r) k =
        laneBehind (lane (m.registers.readX r) k) k history := by
    obtain ⟨v, registers, behind⟩ := executedAll_wideMoves (m := m) nonzero moves
    rw [registers, RegisterFile.readX_writeX nonzero, behind]
  refine ⟨fun history moves => ⟨?_, lanes history moves⟩, ?_, fun c order perm => ?_⟩
  · rintro before i after rfl
    exact (executed_wideMove (moves i (by simp)) _).1
  · intro i j first second keeps keeps' apart
    have one : ∀ a ∈ [i, j], a.MovesWide r := by simp [first, second]
    have other : ∀ a ∈ [j, i], a.MovesWide r := by simp [first, second]
    obtain ⟨v, registers, behind⟩ := executedAll_wideMoves (m := m) nonzero one
    obtain ⟨w, registers', behind'⟩ := executedAll_wideMoves (m := m) nonzero other
    have same : v = w := eq_of_lanes fun k => by
      rw [behind, behind', laneBehind_swap (by simp [clears, keeps]) (by simp [clears, keeps'])
        apart]
    rw [registers, registers', same]
  · have moves := constantMoves_movesWide r c order
    refine ⟨moves, eq_of_lanes fun k => ?_⟩
    have named : k ∈ order := perm.mem_iff.2 (List.mem_finRange k)
    rw [lanes _ moves]
    cases order with
    | nil => exact absurd named List.not_mem_nil
    | cons j ks => exact laneBehind_constant named

-- The lane below was set before the clearing move, and the lane of that move is set twice.
theorem wide_moves_by_lane_cleared :
    let m : Machine :=
      { memory := .ofConfig {} 4
        registers := RegisterFile.writeX {} 5 0x1111222233334444 }
    let history := [wideMove .movk 5 7 1 0, wideMove .movz 5 9 2 1, wideMove .movk 5 1 0 2,
      wideMove .movk 5 3 2 3]
    let after := (m.executeAll history).registers.readX 5
    (5 : Reg) ≠ Reg.xzr ∧ (∀ i ∈ history, i.MovesWide 5) ∧
      (lane after 0 = 1 ∧ lane after 1 = 0 ∧ lane after 2 = 3 ∧ lane after 3 = 0) ∧
      (m.executeAll (constantMoves 5 0x123456789ABCDEF0 [2, 0, 3, 1])).registers.readX 5 =
        0x123456789ABCDEF0 := by
  intro m history after
  have nonzero : (5 : Reg) ≠ Reg.xzr := by decide
  have moves : ∀ i ∈ history, i.MovesWide 5 := by
    simp only [history, List.forall_mem_cons]
    exact ⟨movesWide_wideMove (.inr rfl) .., movesWide_wideMove (.inl rfl) ..,
      movesWide_wideMove (.inr rfl) .., movesWide_wideMove (.inr rfl) .., nofun⟩
  obtain ⟨behind, -, builds⟩ := wide_moves_by_lane nonzero m
  obtain ⟨-, lanes⟩ := behind history moves
  refine ⟨nonzero, moves, ⟨lanes 0, lanes 1, lanes 2, lanes 3⟩, (builds _ _ ?_).2⟩
  decide

end Machine

end Legv8
