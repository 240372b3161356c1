import Legv8.Instruction.Operand
import Legv8.Text.Blank
import Legv8.Text.Lines
import Mathlib.Data.List.TakeWhile

set_option autoImplicit false

namespace Legv8

namespace Text

def isGraphic (c : Char) : Bool :=
  '!' ≤ c && c ≤ '~'

theorem isGraphic_iff {c : Char} : isGraphic c = true ↔ 33 ≤ c.toNat ∧ c.toNat ≤ 126 := by
  simp [isGraphic, Char.le_def, UInt32.le_iff_toNat_le, ← Char.toNat_val]

theorem isGraphic_of_isDigit {c : Char} (digit : c.isDigit = true) : isGraphic c = true := by
  have bounds := Char.isDigit_iff_toNat.1 digit
  simp only [Char.reduceToNat] at bounds
  rw [isGraphic_iff]
  omega

theorem not_isWhiteSpace {c : Char} (graphic : isGraphic c = true) : isWhiteSpace c = false := by
  obtain ⟨low, high⟩ := isGraphic_iff.1 graphic
  simp only [isWhiteSpace, isSpace, isBlank, Bool.or_eq_false_iff, Bool.and_eq_false_imp,
    beq_eq_false_iff_ne, decide_eq_true_eq, decide_eq_false_iff_not, Char.le_def,
    UInt32.le_iff_toNat_le, Char.toNat_val, ne_eq, ← Char.toNat_inj]
  simp only [Char.reduceToNat]
  omega

theorem not_isBlank {c : Char} (graphic : isGraphic c = true) : isBlank c = false := by
  rw [Bool.eq_false_iff]
  intro blank
  have white := isWhiteSpace_of_isSpace (isSpace_of_isBlank blank)
  simp [not_isWhiteSpace graphic] at white

theorem dropWhile_isWhiteSpace {cs : List Char} (graphic : ∀ c ∈ cs, isGraphic c = true) :
    cs.dropWhile isWhiteSpace = cs := by
  cases cs with
  | nil => rfl
  | cons c cs =>
    rw [List.dropWhile_cons_of_neg]
    simp [not_isWhiteSpace (graphic c List.mem_cons_self)]

theorem trimChars_word {word white : List Char} (graphic : ∀ c ∈ word, isGraphic c = true)
    (blank : ∀ c ∈ white, isWhiteSpace c = true) : trimChars (word ++ white) = word := by
  cases word with
  | nil => simp [trimChars, List.dropWhile_eq_nil_iff.2 blank]
  | cons c cs =>
    have front : (c :: cs ++ white).dropWhile isWhiteSpace = c :: cs ++ white := by
      rw [List.cons_append, List.dropWhile_cons_of_neg]
      simp [not_isWhiteSpace (graphic c List.mem_cons_self)]
    have back : (c :: cs).reverse.dropWhile isWhiteSpace = (c :: cs).reverse :=
      dropWhile_isWhiteSpace fun d member => graphic d (List.mem_reverse.1 member)
    rw [trimChars, front, List.reverse_append, List.dropWhile_append_of_pos, back,
      List.reverse_reverse]
    intro d member
    exact blank d (List.mem_reverse.1 member)

theorem trim_word {word : String} (graphic : ∀ c ∈ word.toList, isGraphic c = true) :
    trim word = word := by
  have none : ∀ c ∈ ([] : List Char), isWhiteSpace c = true := by simp
  have trimmed := trimChars_word graphic none
  rw [List.append_nil] at trimmed
  rw [trim, trimmed, String.ofList_toList]

theorem trim_word_blank {word : String} (graphic : ∀ c ∈ word.toList, isGraphic c = true) :
    trim (word ++ " ") = word := by
  have one : ∀ c ∈ [' '], isWhiteSpace c = true := List.forall_mem_singleton.2 rfl
  have trimmed := trimChars_word graphic one
  rw [trim, String.toList_append, show " ".toList = [' '] from rfl, trimmed, String.ofList_toList]

section Numerals

theorem digit?_decimal {c : Char} (digit : c.isDigit = true) :
    digit? 10 c = some (c.toNat - '0'.toNat) := by
  have bounds := Char.isDigit_iff_toNat.1 digit
  have decimal : '0' ≤ c ∧ c ≤ '9' := by
    simpa [Char.le_def, UInt32.le_iff_toNat_le, ← Char.toNat_val] using bounds
  simp only [Char.reduceToNat] at bounds
  simp only [digit?, decimal, and_self, if_true, Option.filter_some, Char.reduceToNat]
  rw [if_pos (by simp; omega)]

theorem digitsFrom?_decimal {cs : List Char} (digits : ∀ c ∈ cs, c.isDigit = true) (n : Nat) :
    digitsFrom? 10 n cs = some (Nat.ofDigitChars 10 cs n) := by
  induction cs generalizing n with
  | nil => simp [digitsFrom?]
  | cons c cs ih =>
    have rest := ih (fun d member => digits d (List.mem_cons_of_mem c member))
    simp [digitsFrom?, digit?_decimal (digits c List.mem_cons_self), rest, Nat.ofDigitChars_cons,
      Nat.mul_comm]

theorem isDigit_numeral {n : Nat} {c : Char} (member : c ∈ Nat.toDigits 10 n) :
    c.isDigit = true :=
  Nat.isDigit_of_mem_toDigits (by decide) (by decide) member

theorem not_mem_numeral {c : Char} (other : c.isDigit = false) (n : Nat) :
    c ∉ Nat.toDigits 10 n := by
  intro member
  simp [isDigit_numeral member] at other

theorem natural?_numeral (n : Nat) : natural? 10 (Nat.toDigits 10 n) = some n := by
  rw [natural?, digitsFrom?_decimal fun c member => isDigit_numeral member,
    Nat.ofDigitChars_ten_toDigits]
  exact Nat.toDigits_ne_nil

theorem head_numeral {n : Nat} (positive : 0 < n) :
    ∃ c cs, Nat.toDigits 10 n = c :: cs ∧ c ≠ '0' := by
  induction n using Nat.strongRecOn with
  | ind n ih =>
    by_cases single : n < 10
    · refine ⟨_, _, Nat.toDigits_of_lt_base single, ?_⟩
      rw [Ne, Nat.digitChar_eq_zero]
      omega
    · obtain ⟨c, cs, shape, nonzero⟩ := ih (n / 10) (by omega) (by omega)
      refine ⟨c, cs ++ [(n % 10).digitChar], ?_, nonzero⟩
      rw [Nat.toDigits_of_base_le (by decide) (by omega), shape, List.cons_append]

theorem unsigned?_numeral (n : Nat) : unsigned? 10 (Nat.toDigits 10 n) = some n := by
  unfold unsigned?
  split
  next shape => exact absurd (by simp [shape]) (not_mem_numeral (c := '+') rfl n)
  next => exact natural?_numeral n

theorem int64?_numeral {n : Nat} (small : n < 0x8000000000000000) :
    int64? 10 (Nat.toDigits 10 n) = some (n : Int) := by
  have value : int64? 10 (Nat.toDigits 10 n) =
      (some (n : Int)).filter fun v => -0x8000000000000000 ≤ v ∧ v < 0x8000000000000000 := by
    unfold int64?
    split
    next shape => exact absurd (by simp [shape]) (not_mem_numeral (c := '-') rfl n)
    next => simp [unsigned?_numeral]
  rw [value, Option.filter_some, if_pos]
  simp
  omega

end Numerals

section Lines

variable {line rest : List Char} {texts : List (List Char)}

-- A text that stands on a line of its own.
structure IsLine (cs : List Char) : Prop where
  nonempty : cs ≠ []
  feed : '\n' ∉ cs
  carriage : '\r' ∉ cs

theorem dropCarriageReturn_eq (carriage : '\r' ∉ line) : dropCarriageReturn line = line := by
  rw [dropCarriageReturn, if_neg]
  intro last
  exact carriage (List.mem_of_getLast? last)

theorem linesAux_append (read : List Char) (feed : '\n' ∉ line) :
    linesAux read (line ++ rest) = linesAux (line.reverse ++ read) rest := by
  induction line generalizing read with
  | nil => rfl
  | cons c cs ih =>
    have other : c ≠ '\n' := fun same => feed (same ▸ List.mem_cons_self)
    rw [List.cons_append, linesAux, if_neg other,
      ih (c :: read) fun member => feed (List.mem_cons_of_mem c member)]
    simp

theorem linesAux_end (feed : '\n' ∉ line) :
    linesAux [] line = if line.isEmpty then [] else [line] := by
  have gathered : linesAux [] (line ++ []) = linesAux (line.reverse ++ []) [] :=
    linesAux_append [] feed
  rw [List.append_nil, List.append_nil] at gathered
  rw [gathered, linesAux, List.isEmpty_reverse, List.reverse_reverse]

theorem linesAux_feed (feed : '\n' ∉ line) :
    linesAux [] (line ++ '\n' :: rest) = dropCarriageReturn line :: linesAux [] rest := by
  rw [linesAux_append [] feed, linesAux, if_pos rfl, List.append_nil, List.reverse_reverse]

theorem linesAux_intercalate (own : ∀ line ∈ texts, IsLine line) :
    linesAux [] (['\n'].intercalate texts) = texts := by
  induction texts with
  | nil => rfl
  | cons line texts ih =>
    have here := own line List.mem_cons_self
    cases texts with
    | nil => simpa [here.nonempty] using linesAux_end here.feed
    | cons next texts =>
      have later := ih fun line member => own line (List.mem_cons_of_mem _ member)
      rw [List.intercalate_cons_cons, List.append_assoc, List.singleton_append,
        linesAux_feed here.feed, dropCarriageReturn_eq here.carriage, later]

theorem lines_intercalate {texts : List String} (own : ∀ text ∈ texts, IsLine text.toList) :
    lines ("\n".intercalate texts) = texts := by
  have lists : ∀ line ∈ texts.map String.toList, IsLine line := by
    simpa using own
  rw [lines, String.toList_intercalate, show "\n".toList = ['\n'] from rfl,
    linesAux_intercalate lists, List.map_map]
  simp [Function.comp_def]

end Lines

end Text

namespace Operand

theorem magnitude?_numeral {n : Nat} (small : n < 0x8000000000000000) :
    magnitude? (Nat.toDigits 10 n) = some (n : Int) := by
  unfold magnitude?
  -- A numeral has no sign and no mark, and none but that of zero starts with a zero.
  split
  next shape => exact absurd (by simp [shape]) (Text.not_mem_numeral (c := '+') rfl n)
  next shape => exact absurd (by simp [shape]) (Text.not_mem_numeral (c := '-') rfl n)
  next shape => exact absurd (by simp [shape]) (Text.not_mem_numeral (c := 'x') rfl n)
  next shape => exact absurd (by simp [shape]) (Text.not_mem_numeral (c := 'X') rfl n)
  next c cs _ _ shape =>
    cases n with
    | zero => simp at shape
    | succ n =>
      obtain ⟨d, ds, other, nonzero⟩ := Text.head_numeral n.succ_pos
      rw [shape] at other
      exact absurd (List.cons.inj other).1.symm nonzero
  next => exact Text.int64?_numeral small

theorem immediate?_printed {v : Int} (small : v.natAbs < 0x8000000000000000) :
    immediate? ("#" ++ toString v) = some v := by
  have hash : "#".toList = ['#'] := rfl
  rw [immediate?, String.toList_append, hash, List.singleton_append, withoutHash,
    Int.toString_eq_repr, Int.repr_eq_if]
  by_cases sign : 0 ≤ v
  · rw [if_pos sign, Nat.toList_repr]
    split
    next shape =>
      exact absurd (by simp [shape]) (Text.not_mem_numeral (c := '-') rfl v.toNat)
    next =>
      rw [magnitude?_numeral (by omega)]
      congr
      omega
  · have minus : "-".toList = ['-'] := rfl
    rw [if_neg sign, String.toList_append, minus, List.singleton_append, Nat.toList_repr]
    change (magnitude? (Nat.toDigits 10 (-v).toNat)).map negate = some v
    rw [magnitude?_numeral (by omega), Option.map_some, negate, if_neg (by omega)]
    congr
    omega

theorem immediate_graphic (v : Int) :
    ∀ c ∈ ("#" ++ toString v).toList, Text.isGraphic c = true := by
  have marks : Text.isGraphic '#' = true ∧ Text.isGraphic '-' = true := by decide
  have digits (n : Nat) : ∀ c ∈ n.repr.toList, Text.isGraphic c = true := by
    intro c member
    rw [Nat.toList_repr] at member
    exact Text.isGraphic_of_isDigit (Text.isDigit_numeral member)
  intro c member
  rw [String.toList_append, Int.toString_eq_repr, Int.repr_eq_if, List.mem_append] at member
  rcases member with hash | member
  · obtain rfl : c = '#' := by simpa using hash
    exact marks.1
  · split at member
    next => exact digits _ c member
    next =>
      rw [String.toList_append, List.mem_append] at member
      rcases member with minus | member
      · obtain rfl : c = '-' := by simpa using minus
        exact marks.2
      · exact digits _ c member

end Operand

end Legv8
