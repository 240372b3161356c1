import Legv8.Proofs.Line.Mnemonic
import Legv8.Proofs.Text.Numeral

set_option autoImplicit false

namespace Legv8

namespace Scan

variable {c : Char} {cs : List Char} {n : Nat}

section Characters

theorem isWord_ascii (word : isWord c = true) : c.toNat < 128 := by
  have spelled : c.isAlphanum = (decide ('A'.val ≤ c.val ∧ c.val ≤ 'Z'.val) ||
      (decide ('a'.val ≤ c.val) && decide (c.val ≤ 'z'.val)) || c.isDigit) := rfl
  rw [isWord, Bool.or_eq_true, beq_iff_eq] at word
  rcases word with letter | rfl
  · simp only [spelled, Bool.or_eq_true, Bool.and_eq_true, decide_eq_true_eq,
      Char.isDigit_iff_toNat, UInt32.le_iff_toNat_le, Char.toNat_val, Char.reduceToNat] at letter
    omega
  · decide

theorem isWord_visible (word : isWord c = true) :
    Text.isGraphic c = true ∧ c ≠ '#' ∧ c ≠ '+' ∧ c ≠ '-' := by
  have table : ∀ c : Char, c.toNat < 128 → isWord c = true →
      Text.isGraphic c = true ∧ c ≠ '#' ∧ c ≠ '+' ∧ c ≠ '-' :=
    Text.ascii_forall (by decide +kernel)
  exact table c (isWord_ascii word) word

theorem isWord_of_isDigit (digit : c.isDigit = true) : isWord c = true := by
  simp [isWord, Char.isAlphanum, digit]

theorem isWord_of_isHexDigit (digit : isHexDigit c = true) : isWord c = true := by
  have table : ∀ c : Char, c.toNat < 128 → isHexDigit c = true → isWord c = true :=
    Text.ascii_forall (by decide +kernel)
  have ascii : c.toNat < 128 := by
    have bounds := digit
    simp only [isHexDigit, Bool.or_eq_true, Bool.and_eq_true, decide_eq_true_eq, Char.le_def,
      Char.isDigit_iff_toNat, UInt32.le_iff_toNat_le, Char.toNat_val, Char.reduceToNat] at bounds
    omega
  exact table c ascii digit

end Characters

section Immediates

theorem hexNumber_word (read : hexNumber cs = some n) : IsRun isWord (cs.take n) := by
  unfold hexNumber at read
  split at read
  next x rest =>
    split at read
    next mark =>
      obtain ⟨k, counted, rfl⟩ := Option.map_eq_some_iff.1 read
      have marked : isWord '0' = true ∧ isWord x = true := by
        rcases mark with rfl | rfl <;> decide
      have digits : ∀ c ∈ rest.take k, isWord c = true := fun c member =>
        isWord_of_isHexDigit ((nonempty_run counted).2 c member)
      exact ⟨List.cons_ne_nil _ _,
        List.forall_mem_cons.2 ⟨marked.1, List.forall_mem_cons.2 ⟨marked.2, digits⟩⟩⟩
    next => cases read
  next => cases read

theorem number_word (read : number cs = some n) : IsRun isWord (cs.take n) := by
  rw [number, Option.orElse_eq_orElse, Option.orElse_eq_or, Option.or_eq_some_iff] at read
  rcases read with hexadecimal | ⟨-, decimal⟩
  · exact hexNumber_word hexadecimal
  · obtain ⟨nonempty, digits⟩ := nonempty_run decimal
    exact ⟨nonempty, fun c member => isWord_of_isDigit (digits c member)⟩

theorem take_optionalChar (c : Char) (cs : List Char) :
    cs.take (optionalChar c cs) ∈ [[], [c]] := by
  unfold optionalChar
  split
  next first =>
    obtain ⟨rest, rfl⟩ := List.head?_eq_some_iff.1 first
    simp
  next => simp

theorem immediate_eq_some (read : immediate cs = some n) :
    ∃ hash ∈ [[], ['#']], ∃ sign ∈ [[], ['-']], ∃ word,
      cs.take n = hash ++ sign ++ word ∧ IsRun isWord word := by
  obtain ⟨k, counted, rfl⟩ := Option.map_eq_some_iff.1 read
  exact ⟨_, take_optionalChar '#' cs, _, take_optionalChar '-' _, _,
    by rw [List.take_add, List.take_add], number_word counted⟩

end Immediates

section Registers

theorem twoDigits_number (read : twoDigits cs = some n) : IsRun Char.isDigit (cs.take n) := by
  unfold twoDigits at read
  split at read
  next a b rest =>
    split at read
    next digits =>
      obtain rfl := Option.some.inj read
      have both : a.isDigit = true ∧ b.isDigit = true := by
        rcases digits with ⟨rfl | rfl, digit⟩ | ⟨rfl, rfl⟩
        · exact ⟨rfl, digit⟩
        · exact ⟨rfl, digit⟩
        · exact ⟨rfl, rfl⟩
      exact ⟨List.cons_ne_nil _ _, by simpa using both⟩
    next => cases read
  next => cases read

theorem shortNumber_number (read : shortNumber cs = some n) : IsRun Char.isDigit (cs.take n) := by
  rw [shortNumber, Option.orElse_eq_orElse, Option.orElse_eq_or, Option.or_eq_some_iff] at read
  rcases read with two | ⟨-, one⟩
  · exact twoDigits_number two
  · split at one
    next digit =>
      obtain rfl := Option.some.inj one
      cases cs with
      | nil => cases digit
      | cons d ds => exact ⟨List.cons_ne_nil _ _, by simpa using digit⟩
    next => cases one

theorem longNumber_number (read : longNumber cs = some n) : IsRun Char.isDigit (cs.take n) := by
  rw [longNumber, Option.orElse_eq_orElse, Option.orElse_eq_or, Option.or_eq_some_iff] at read
  rcases read with two | ⟨-, many⟩
  · exact twoDigits_number two
  · exact nonempty_run many

theorem lettered_eq_some {letter : Char} {rest : List Char → Option Nat}
    (digits : ∀ {cs n}, rest cs = some n → IsRun Char.isDigit (cs.take n))
    (read : lettered letter rest cs = some n) :
    ∃ a ds, cs.take n = a :: ds ∧ (a = letter ∨ a = letter.toLower) ∧ IsRun Char.isDigit ds := by
  unfold lettered at read
  split at read
  next a cs =>
    split at read
    next same =>
      obtain ⟨k, counted, rfl⟩ := Option.map_eq_some_iff.1 read
      exact ⟨a, cs.take k, rfl, same, digits counted⟩
    next => cases read
  next => cases read

theorem literal_take {text : String} (begins : literal text cs = some n) :
    String.ofList (cs.take n) = text := by
  obtain ⟨rest, rfl, rfl⟩ := literal_eq_some begins
  rw [List.take_left, String.ofList_toList]

theorem register_eq_some {c : RegisterClass} (read : register c cs = some n) :
    String.ofList (cs.take n) ∈ aliases ∨
      ∃ a ds, cs.take n = a :: ds ∧ (a = c.letter ∨ a = c.letter.toLower) ∧
        IsRun Char.isDigit ds := by
  cases c with
  | s => exact .inr (lettered_eq_some longNumber_number read)
  | d => exact .inr (lettered_eq_some longNumber_number read)
  | x =>
    rw [register, Option.orElse_eq_orElse, Option.orElse_eq_or, Option.or_eq_some_iff] at read
    rcases read with letter | ⟨-, named⟩
    · exact .inr (lettered_eq_some shortNumber_number letter)
    · obtain ⟨text, member, begins⟩ := List.exists_of_findSome?_eq_some named
      rw [literal_take begins]
      exact .inl member

end Registers

end Scan

namespace Token

variable {t : Token} {cs : List Char}

theorem text_ne (member : t ∈ scan cs) : t.text ≠ "" := by
  fun_induction scan cs with
  | case1 => cases member
  | case2 c cs n first rest ih => exact ih member
  | case3 c cs k n first rest kept ih =>
    rcases List.mem_cons.1 member with rfl | later
    · simp [← String.toList_inj]
    · exact ih later
  | case4 c cs other ih => exact ih member

theorem immediate_text (member : t ∈ scan cs) (kind : t.kind = .immediate) :
    ∃ hash ∈ [[], ['#']], ∃ sign ∈ [[], ['-']], ∃ word,
      t.text.toList = hash ++ sign ++ word ∧ Scan.IsRun Scan.isWord word := by
  obtain ⟨rest, n, measured, text⟩ := mem_scan member
  rw [kind] at measured
  rw [text, String.toList_ofList]
  exact Scan.immediate_eq_some measured

theorem register_text {c : RegisterClass} (member : t ∈ scan cs) (kind : t.kind = .register c) :
    t.text ∈ Scan.aliases ∨ ∃ a ds, t.text.toList = a :: ds ∧
      (a = c.letter ∨ a = c.letter.toLower) ∧ Scan.IsRun Char.isDigit ds := by
  obtain ⟨rest, n, measured, text⟩ := mem_scan member
  rw [kind] at measured
  rw [text, String.toList_ofList]
  exact Scan.register_eq_some measured

theorem identifier_text (member : t ∈ scan cs) (kind : t.kind = .identifier) :
    Scan.IsRun Scan.isWord t.text.toList := by
  obtain ⟨rest, n, measured, text⟩ := mem_scan member
  rw [kind] at measured
  rw [text, String.toList_ofList]
  exact Scan.nonempty_run measured

theorem trim_immediate (member : t ∈ scan cs) (kind : t.kind = .immediate) :
    Text.trim t.text = t.text := by
  have table : ∀ hash ∈ [[], ['#']], ∀ sign ∈ [[], ['-']],
      (hash ++ sign).all Text.isGraphic = true := by
    decide +kernel
  obtain ⟨hash, marked, sign, signed, word, text, -, letters⟩ := immediate_text member kind
  refine Text.trim_word ?_
  rw [text, List.forall_mem_append]
  exact ⟨List.all_eq_true.1 (table hash marked sign signed),
    fun c present => (Scan.isWord_visible (letters c present)).1⟩

theorem trim_register {c : RegisterClass} (member : t ∈ scan cs) (kind : t.kind = .register c) :
    Text.trim t.text = t.text := by
  refine Text.trim_word ?_
  rcases register_text member kind with named | ⟨a, ds, text, letter, -, digits⟩
  · have table : ∀ name ∈ Scan.aliases, name.toList.all Text.isGraphic = true := by decide +kernel
    exact List.all_eq_true.1 (table _ named)
  · rw [text, List.forall_mem_cons]
    refine ⟨?_, fun d present => Text.isGraphic_of_isDigit (digits d present)⟩
    rcases letter with rfl | rfl <;> cases c <;> decide +kernel

theorem trim_identifier (member : t ∈ scan cs) (kind : t.kind = .identifier) :
    Text.trim t.text = t.text :=
  Text.trim_word fun c present =>
    (Scan.isWord_visible ((identifier_text member kind).2 c present)).1

end Token

end Legv8
