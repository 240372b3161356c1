import Legv8.Instruction.Disassembly
import Legv8.Proofs.Text.ReadBack
import Mathlib.Data.List.Nodup

set_option autoImplicit false

namespace Legv8

inductive Letters where
  | capitals
  | small
  deriving DecidableEq

namespace Letters

def write : Letters → Char → Char
  | .capitals => id
  | .small => Char.toLower

def rewrite (l : Letters) (text : String) : String :=
  String.ofList (text.toList.map l.write)

@[simp] theorem toList_rewrite (l : Letters) (text : String) :
    (l.rewrite text).toList = text.toList.map l.write := by
  simp [rewrite]

theorem rewrite_capitals (text : String) : capitals.rewrite text = text := by
  simp [rewrite, write]

theorem rewrite_small (text : String) : small.rewrite text = text.toLower := by
  rw [← String.toList_inj, toList_rewrite]
  exact String.toList_map.symm

theorem write_numeral (l : Letters) (n : Nat) :
    (Nat.toDigits 10 n).map l.write = Nat.toDigits 10 n := by
  cases l with
  | capitals => exact List.map_id _
  | small =>
    rw [List.map_congr_left (g := id), List.map_id]
    intro c member
    have bounds := Char.isDigit_iff_toNat.1 (Text.isDigit_numeral member)
    simp only [Char.reduceToNat] at bounds
    have not_capital : ¬('A'.val ≤ c.val ∧ c.val ≤ 'Z'.val) := by
      simp only [UInt32.le_iff_toNat_le, Char.toNat_val, Char.reduceToNat]
      omega
    exact dif_neg not_capital

theorem rewrite_append (l : Letters) (s t : String) :
    l.rewrite (s ++ t) = l.rewrite s ++ l.rewrite t := by
  simp [← String.toList_inj]

theorem rewrite_int (l : Letters) (v : Int) : l.rewrite (toString v) = toString v := by
  have minus : (l.rewrite "-").toList = "-".toList := by cases l <;> decide +kernel
  rw [toList_rewrite] at minus
  rw [← String.toList_inj, toList_rewrite, Int.toString_eq_repr, Int.repr_eq_if]
  split
  · rw [Nat.toList_repr, write_numeral]
  · rw [String.toList_append, List.map_append, minus, Nat.toList_repr, write_numeral]

end Letters

namespace Mnemonic

-- What the spelling of mnemonics relies on.
theorem name_letters (m : Mnemonic) : m.name.toList ≠ [] ∧ ∀ c ∈ m.name.toList,
    (Text.isGraphic c = true ∧ Text.isGraphic c.toLower = true) ∧
      c.toUpper = c ∧ c.toLower.toUpper = c := by
  -- the letters are tested by a list, not by a quantifier over all characters
  have table : ∀ m ∈ all, m.name.toList ≠ [] ∧ m.name.toList.all (fun c =>
      (Text.isGraphic c = true ∧ Text.isGraphic c.toLower = true) ∧
        c.toUpper = c ∧ c.toLower.toUpper = c) = true := by
    decide +kernel
  obtain ⟨nonempty, letters⟩ := table m (mem_all m)
  exact ⟨nonempty, fun c member => of_decide_eq_true (List.all_eq_true.1 letters c member)⟩

theorem name_graphic (l : Letters) (m : Mnemonic) :
    ∀ c ∈ (l.rewrite m.name).toList, Text.isGraphic c = true := by
  intro c member
  rw [Letters.toList_rewrite] at member
  obtain ⟨d, present, rfl⟩ := List.mem_map.1 member
  obtain ⟨graphic, -⟩ := m.name_letters.2 d present
  cases l with
  | capitals => exact graphic.1
  | small => exact graphic.2

theorem name_head (l : Letters) (m : Mnemonic) :
    ∃ a cs, (l.rewrite m.name).toList = a :: cs := by
  rw [Letters.toList_rewrite]
  obtain ⟨a, cs, shape⟩ := List.exists_cons_of_ne_nil m.name_letters.1
  exact ⟨l.write a, cs.map l.write, by rw [shape, List.map_cons]⟩

theorem name_capitals (l : Letters) (m : Mnemonic) :
    (l.rewrite m.name).toList.map Char.toUpper = m.name.toList := by
  rw [Letters.toList_rewrite, List.map_map, List.map_congr_left (g := id), List.map_id]
  intro c member
  obtain ⟨-, capital, restored⟩ := m.name_letters.2 c member
  cases l with
  | capitals => exact capital
  | small => exact restored

theorem spells_iff {m : Mnemonic} {text : String} :
    m.spells text = true ↔ ∃ l : Letters, text = l.rewrite m.name := by
  rw [spells, Bool.or_eq_true, beq_iff_eq, beq_iff_eq, ← Letters.rewrite_small]
  constructor
  · rintro (same | same)
    · exact ⟨.capitals, by rw [same, Letters.rewrite_capitals]⟩
    · exact ⟨.small, same⟩
  · rintro ⟨l, rfl⟩
    cases l with
    | capitals => exact .inl (Letters.rewrite_capitals _)
    | small => exact .inr rfl

theorem spelling_unique {m m' : Mnemonic} {l : Letters}
    (spelled : m'.spells (l.rewrite m.name) = true) : m' = m := by
  have distinct : (all.map name).Nodup := by decide +kernel
  obtain ⟨l', same⟩ := spells_iff.1 spelled
  -- In capitals the two spellings are the names, and these are all different.
  have names : m'.name = m.name := by
    rw [← String.toList_inj, ← name_capitals l m, ← name_capitals l' m', same]
  exact List.inj_on_of_nodup_map distinct (mem_all m') (mem_all m) names

theorem ofName?_rewrite (m : Mnemonic) (l : Letters) : ofName? (l.rewrite m.name) = some m := by
  cases found : ofName? (l.rewrite m.name) with
  | none =>
    have missing := List.find?_eq_none.1 found m (mem_all m)
    exact absurd (spells_iff.2 ⟨l, rfl⟩) missing
  | some m' =>
    rw [ofName?] at found
    have spelled := List.find?_some found
    rw [spelling_unique spelled]

end Mnemonic

namespace RegisterClass

theorem rewrite_registerName (l : Letters) {c : RegisterClass} {n : Nat}
    (unnamed : ¬(c = .x ∧ n = 31)) :
    (l.rewrite (c.registerName n)).toList = l.write c.letter :: Nat.toDigits 10 n := by
  have number : registerName c n = c.letter.toString ++ toString n := by
    rw [registerName, if_neg]
    exact unnamed
  rw [Letters.toList_rewrite, number, String.toList_append, Char.toString_eq_singleton,
    String.toList_singleton]
  simp [Letters.write_numeral]

-- A register is written with the letter of its class and its number, but for the zero register,
-- which has a name.
theorem registerName_cases (l : Letters) (c : RegisterClass) (r : Reg) :
    (c = .x ∧ r = 31 ∧ (l.rewrite (c.registerName r)).toList = "XZR".toList.map l.write) ∨
      (¬(c = .x ∧ r.val = 31) ∧
        (l.rewrite (c.registerName r)).toList = l.write c.letter :: Nat.toDigits 10 r) := by
  by_cases named : c = .x ∧ r.val = 31
  · obtain ⟨rfl, zero⟩ := named
    obtain rfl : r = 31 := Fin.ext zero
    exact .inl ⟨rfl, rfl, Letters.toList_rewrite l _⟩
  · exact .inr ⟨named, rewrite_registerName l named⟩

theorem registerName_letter (l : Letters) (c : RegisterClass) (r : Reg) :
    ∃ a cs, (l.rewrite (c.registerName r)).toList = a :: cs ∧ a.isAlpha = true := by
  rcases registerName_cases l c r with ⟨-, -, text⟩ | ⟨-, text⟩
  · refine ⟨l.write 'X', ['Z', 'R'].map l.write, text, ?_⟩
    cases l <;> decide
  · refine ⟨_, _, text, ?_⟩
    cases l <;> cases c <;> decide

theorem registerName_graphic (l : Letters) (c : RegisterClass) (r : Reg) :
    ∀ d ∈ (l.rewrite (c.registerName r)).toList, Text.isGraphic d = true := by
  rcases registerName_cases l c r with ⟨-, -, text⟩ | ⟨-, text⟩
  · rw [text, ← List.all_eq_true]
    cases l <;> decide
  · rw [text]
    intro d member
    rcases List.mem_cons.1 member with rfl | digit
    · cases l <;> cases c <;> decide
    · exact Text.isGraphic_of_isDigit (Text.isDigit_numeral digit)

end RegisterClass

end Legv8
