import Legv8.Proofs.Token.Spelling
import Legv8.Token.Scan

set_option autoImplicit false

namespace Legv8

namespace Scan

variable {rest : List Char}

theorem run_append {p : Char → Bool} {cs : List Char} (all : ∀ c ∈ cs, p c = true)
    (stop : ∀ c ∈ rest.head?, p c = false) : run p (cs ++ rest) = cs.length := by
  rw [run, List.takeWhile_append_of_pos all]
  cases rest with
  | nil => simp
  | cons c rest => simp [stop c rfl]

-- Blanks, and behind them a text that does not go on with them.
structure Gap (gap rest : List Char) : Prop where
  nonempty : gap ≠ []
  blank : ∀ c ∈ gap, Text.isBlank c = true
  apart : ∀ c ∈ rest.head?, Text.isBlank c = false

theorem Gap.single (apart : ∀ c ∈ rest.head?, Text.isBlank c = false) : Gap [' '] rest :=
  ⟨List.cons_ne_nil _ _, List.forall_mem_singleton.2 rfl, apart⟩

theorem nonempty_gap {gap : List Char} (between : Gap gap rest) :
    nonempty (run Text.isBlank (gap ++ rest)) = some gap.length := by
  rw [run_append between.blank between.apart, nonempty, if_neg]
  exact fun empty => between.nonempty (List.length_eq_zero_iff.1 empty)

def Closed (rest : List Char) : Prop :=
  ∀ c ∈ rest.head?, c = ',' ∨ c = ']'

theorem Closed.not_isDigit (closed : Closed rest) : ∀ c ∈ rest.head?, c.isDigit = false := by
  intro c first
  rcases closed c first with rfl | rfl <;> rfl

theorem run_numeral (closed : Closed rest) (n : Nat) :
    run Char.isDigit (Nat.toDigits 10 n ++ rest) = (Nat.toDigits 10 n).length :=
  run_append (fun _ => Text.isDigit_numeral) closed.not_isDigit

theorem nonempty_numeral (n : Nat) :
    nonempty (Nat.toDigits 10 n).length = some (Nat.toDigits 10 n).length := by
  rw [nonempty, if_neg]
  simp

theorem hexNumber_numeral (closed : Closed rest) (n : Nat) :
    hexNumber (Nat.toDigits 10 n ++ rest) = none := by
  -- Only zero starts with the digit zero, and what stands behind it is no mark.
  unfold hexNumber
  split
  next x cs shape =>
    rcases Nat.eq_zero_or_pos n with rfl | positive
    · obtain rfl : rest = x :: cs := by simpa using shape
      rcases closed x rfl with rfl | rfl <;> rfl
    · obtain ⟨d, ds, other, nonzero⟩ := Text.head_numeral positive
      rw [other] at shape
      exact absurd (List.cons.inj shape).1 nonzero
  next => rfl

theorem number_numeral (closed : Closed rest) (n : Nat) :
    number (Nat.toDigits 10 n ++ rest) = some (Nat.toDigits 10 n).length := by
  simp [number, hexNumber_numeral closed, run_numeral closed, nonempty_numeral]

theorem optionalChar_numeral {c : Char} (other : c.isDigit = false) (n : Nat) :
    optionalChar c (Nat.toDigits 10 n ++ rest) = 0 := by
  rw [optionalChar, if_neg]
  cases shape : Nat.toDigits 10 n with
  | nil => exact absurd shape Nat.toDigits_ne_nil
  | cons d ds =>
    rintro ⟨⟩
    exact Text.not_mem_numeral other n (by simp [shape])

theorem immediate_printed (closed : Closed rest) (v : Int) :
    immediate (("#" ++ toString v).toList ++ rest) = some ("#" ++ toString v).toList.length := by
  have hash : "#".toList = ['#'] := rfl
  have minus : "-".toList = ['-'] := rfl
  have marked : ∀ cs, optionalChar '#' ('#' :: cs) = 1 := fun cs => rfl
  have signed : ∀ cs, optionalChar '-' ('-' :: cs) = 1 := fun cs => rfl
  have unsigned : ∀ n, optionalChar '-' (Nat.toDigits 10 n ++ rest) = 0 :=
    optionalChar_numeral rfl
  rw [String.toList_append, hash, Int.toString_eq_repr, Int.repr_eq_if]
  by_cases sign : 0 ≤ v
  · rw [if_pos sign, Nat.toList_repr]
    simp [immediate, marked, unsigned, number_numeral closed, Nat.add_comm]
  · rw [if_neg sign, String.toList_append, minus, Nat.toList_repr]
    simp [immediate, marked, signed, number_numeral closed]
    omega

theorem immediate_eq_none {c : Char} (cs : List Char) (hash : c ≠ '#') (minus : c ≠ '-')
    (text : c.isDigit = false) : immediate (c :: cs) = none := by
  have decimal : hexNumber (c :: cs) = none := by
    unfold hexNumber
    split
    next shape =>
      obtain ⟨rfl, -⟩ := List.cons.inj shape
      cases text
    next => rfl
  simp [immediate, optionalChar, number, hash, minus, decimal, run, nonempty, text]

section Registers

variable {n : Nat}

theorem twoDigits_single (closed : Closed rest) (small : n < 10) :
    twoDigits (Nat.toDigits 10 n ++ rest) = none := by
  rw [Nat.toDigits_of_lt_base small]
  cases rest with
  | nil => rfl
  | cons b rest => rcases closed b rfl with rfl | rfl <;> simp [twoDigits]

theorem numeral_two (large : 10 ≤ n) (small : n < 100) :
    Nat.toDigits 10 n = [(n / 10).digitChar, (n % 10).digitChar] := by
  rw [Nat.toDigits_of_base_le (by decide) large, Nat.toDigits_of_lt_base (by omega)]
  rfl

theorem shortNumber_numeral (closed : Closed rest) (small : n ≤ 30) :
    shortNumber (Nat.toDigits 10 n ++ rest) = some (Nat.toDigits 10 n).length := by
  by_cases single : n < 10
  · rw [shortNumber, twoDigits_single closed single, Nat.toDigits_of_lt_base single]
    simp [single]
  · rw [numeral_two (by omega) (by omega), shortNumber, List.cons_append, List.cons_append,
      twoDigits, if_pos]
    · rfl
    · simp only [Nat.digitChar_eq_one, Nat.digitChar_eq_two, Nat.digitChar_eq_three,
        Nat.digitChar_eq_zero, Nat.isDigit_digitChar, decide_eq_true_eq]
      omega

theorem longNumber_numeral (closed : Closed rest) (small : n < 100) :
    longNumber (Nat.toDigits 10 n ++ rest) = some (Nat.toDigits 10 n).length := by
  have counted := run_numeral closed n
  rw [longNumber, counted, nonempty_numeral]
  by_cases single : n < 10
  · rw [twoDigits_single closed single]
    rfl
  · rw [numeral_two (by omega) small, List.cons_append, List.cons_append, twoDigits]
    split <;> rfl

theorem lettered_write (l : Letters) {letter : Char} {rest : List Char → Option Nat}
    {cs : List Char} : lettered letter rest (l.write letter :: cs) = (rest cs).map (· + 1) := by
  cases l <;> simp [lettered, Letters.write]

def aliasStarts : List (Char × Char) :=
  [('X', 'Z'), ('x', 'z'), ('S', 'P'), ('s', 'p'), ('L', 'R'), ('l', 'r'), ('F', 'P'), ('f', 'p'),
    ('I', 'P'), ('i', 'p')]

def opensRegister : RegisterClass → Char → Char → Bool
  | .x, a, b => (a == 'X' || a == 'x') && b.isDigit || aliasStarts.contains (a, b)
  | .s, a, b => (a == 'S' || a == 's') && b.isDigit
  | .d, a, b => (a == 'D' || a == 'd') && b.isDigit

theorem lettered_eq_none {letter a b : Char} {cs : List Char} {rest : List Char → Option Nat}
    (digits : ∀ b cs, b.isDigit = false → rest (b :: cs) = none)
    (other : ((a == letter || a == letter.toLower) && b.isDigit) = false) :
    lettered letter rest (a :: b :: cs) = none := by
  rw [lettered]
  split
  next same =>
    have text : b.isDigit = false := by simpa [same] using other
    rw [digits b cs text, Option.map_none]
  next => rfl

theorem twoDigits_eq_none (b : Char) (cs : List Char) (text : b.isDigit = false) :
    twoDigits (b :: cs) = none := by
  unfold twoDigits
  split
  next a c cs shape =>
    rw [if_neg]
    rintro (⟨rfl | rfl, -⟩ | ⟨rfl, -⟩) <;> simp_all
  next => rfl

theorem shortNumber_eq_none (b : Char) (cs : List Char) (text : b.isDigit = false) :
    shortNumber (b :: cs) = none := by
  simp [shortNumber, twoDigits_eq_none b cs text, text]

theorem longNumber_eq_none (b : Char) (cs : List Char) (text : b.isDigit = false) :
    longNumber (b :: cs) = none := by
  simp [longNumber, twoDigits_eq_none b cs text, run, nonempty, text]

theorem literal_alias {name : String} {a b : Char} {cs : List Char} (member : name ∈ aliases)
    (other : (a, b) ∉ aliasStarts) : literal name (a :: b :: cs) = none := by
  have table : ∀ name ∈ aliases, ∃ start ∈ aliasStarts,
      name.toList.take 2 = [start.1, start.2] := by
    decide +kernel
  obtain ⟨start, known, two⟩ := table name member
  rw [literal, if_neg]
  intro begins
  obtain ⟨rest, shape⟩ := List.isPrefixOf_iff_prefix.1 begins
  have long : 2 ≤ name.toList.length := by
    have taken := congrArg List.length two
    simp only [List.length_take, List.length_cons, List.length_nil] at taken
    omega
  have first := congrArg (List.take 2) shape
  rw [List.take_append_of_le_length long, two] at first
  obtain ⟨rfl, tail⟩ := List.cons.inj first
  obtain ⟨rfl, -⟩ := List.cons.inj tail
  exact other known

theorem register_eq_none {c : RegisterClass} {a b : Char} (cs : List Char)
    (other : opensRegister c a b = false) : register c (a :: b :: cs) = none := by
  cases c with
  | x =>
    simp only [opensRegister, Bool.or_eq_false_iff] at other
    have unnamed : ∀ name ∈ aliases, literal name (a :: b :: cs) = none := by
      intro name member
      exact literal_alias member (by simpa using other.2)
    rw [register, lettered_eq_none shortNumber_eq_none other.1,
      List.findSome?_eq_none_iff.2 unnamed]
    rfl
  | s => exact lettered_eq_none longNumber_eq_none other
  | d => exact lettered_eq_none longNumber_eq_none other

theorem opensRegister_other {c c' : RegisterClass} (l : Letters) {d : Char}
    (digit : d.isDigit = true) (other : c ≠ c') :
    opensRegister c' (l.write c.letter) d = false := by
  have named : ∀ start ∈ aliasStarts, start.2.isDigit = false := by decide
  have unnamed : aliasStarts.contains (l.write c.letter, d) = false := by
    rw [Bool.eq_false_iff]
    intro same
    have second := named _ (List.contains_iff_mem.1 same)
    simp [digit] at second
  have letters :
      (l.write c.letter == c'.letter || l.write c.letter == c'.letter.toLower) = false := by
    revert other
    cases l <;> cases c <;> cases c' <;> decide
  cases c' with
  | x => exact Bool.or_eq_false_iff.2 ⟨Bool.and_eq_false_iff.2 (.inl letters), unnamed⟩
  | s => exact Bool.and_eq_false_iff.2 (.inl letters)
  | d => exact Bool.and_eq_false_iff.2 (.inl letters)

theorem register_printed (l : Letters) (c : RegisterClass) (r : Reg) (closed : Closed rest) :
    register c ((l.rewrite (c.registerName r)).toList ++ rest) =
      some (l.rewrite (c.registerName r)).toList.length := by
  have bound := r.isLt
  rcases RegisterClass.registerName_cases l c r with ⟨rfl, rfl, text⟩ | ⟨unnamed, text⟩
  · rw [text]
    cases l <;> rfl
  · rw [text, List.cons_append, List.length_cons]
    cases c with
    | x =>
      have small : r.val ≤ 30 := by
        have other : r.val ≠ 31 := fun same => unnamed ⟨rfl, same⟩
        omega
      rw [register, RegisterClass.letter, lettered_write, shortNumber_numeral closed small]
      rfl
    | s =>
      rw [register, RegisterClass.letter, lettered_write, longNumber_numeral closed (by omega)]
      rfl
    | d =>
      rw [register, RegisterClass.letter, lettered_write, longNumber_numeral closed (by omega)]
      rfl

end Registers

theorem literal_eq_some {text : String} {cs : List Char} {n : Nat}
    (begins : literal text cs = some n) :
    ∃ rest, cs = text.toList ++ rest ∧ n = text.toList.length := by
  rw [literal] at begins
  split at begins
  next starts =>
    obtain ⟨rest, shape⟩ := List.isPrefixOf_iff_prefix.1 starts
    exact ⟨rest, shape.symm, (Option.some.inj begins).symm⟩
  next => cases begins

section Mnemonics

variable {cs word gap : List Char}

def firstWord (cs : List Char) : List Char :=
  cs.takeWhile fun c => !Text.isBlank c

def separated (cs : List Char) : Option Nat :=
  (nonempty (run Text.isBlank (cs.drop (firstWord cs).length))).map ((firstWord cs).length + ·)

def Bare (name : String) : Prop :=
  ∀ c ∈ name.toList, Text.isBlank c = false

theorem bare_rewrite (l : Letters) (m : Mnemonic) : Bare (l.rewrite m.name) := fun c member =>
  Text.not_isBlank (Mnemonic.name_graphic l m c member)

-- Blanks stand behind a name only where it is the whole first word.
theorem blanks_eq {name : String} (cs : List Char) (visible : Bare name) :
    ((literal name cs).bind fun n =>
      (nonempty (run Text.isBlank (cs.drop n))).map (n + ·)) =
      if firstWord cs = name.toList then separated cs else none := by
  have inside : ∀ c ∈ name.toList, (!Text.isBlank c) = true := by
    intro c member
    simp [visible c member]
  rw [literal]
  by_cases begins : name.toList <+: cs
  · obtain ⟨rest, rfl⟩ := begins
    have word : firstWord (name.toList ++ rest) =
        name.toList ++ rest.takeWhile fun c => !Text.isBlank c :=
      List.takeWhile_append_of_pos inside
    simp only [List.isPrefixOf_iff_prefix, List.prefix_append, if_true, Option.bind_some,
      List.drop_left]
    split
    next whole => rw [separated, whole, List.drop_left]
    next longer =>
      have apart : run Text.isBlank rest = 0 := by
        cases rest with
        | nil => rfl
        | cons c rest =>
          have visible : Text.isBlank c = false := by
            by_contra blank
            exact longer (by simp [word, blank])
          simp [run, visible]
      rw [apart]
      rfl
  · have other : firstWord cs ≠ name.toList := fun same =>
      begins (same ▸ List.takeWhile_prefix _)
    rw [← List.isPrefixOf_iff_prefix] at begins
    rw [if_neg begins, if_neg other, Option.bind_none]

theorem mnemonic_eq (m : Mnemonic) : mnemonic m cs =
    if m.spells (String.ofList (firstWord cs)) then separated cs else none := by
  have capitals := blanks_eq cs (bare_rewrite .capitals m)
  have small := blanks_eq cs (bare_rewrite .small m)
  have spelled : m.spells (String.ofList (firstWord cs)) = true ↔
      ∃ l : Letters, firstWord cs = (l.rewrite m.name).toList := by
    simp only [Mnemonic.spells_iff, ← String.toList_inj, String.toList_ofList]
  have attempts : mnemonic m cs =
      ((literal (Letters.capitals.rewrite m.name) cs).or
        (literal (Letters.small.rewrite m.name) cs)).bind fun n =>
          (nonempty (run Text.isBlank (cs.drop n))).map (n + ·) := by
    rw [Letters.rewrite_capitals, Letters.rewrite_small, mnemonic, Option.orElse_eq_orElse,
      Option.orElse_eq_or]
    rfl
  rw [attempts]
  cases begins : literal (Letters.capitals.rewrite m.name) cs with
  | none =>
    have other : firstWord cs ≠ (Letters.capitals.rewrite m.name).toList := by
      intro same
      have starts : (Letters.capitals.rewrite m.name).toList <+: cs :=
        same ▸ List.takeWhile_prefix _
      rw [literal, if_pos (List.isPrefixOf_iff_prefix.2 starts)] at begins
      cases begins
    have whole : m.spells (String.ofList (firstWord cs)) = true ↔
        firstWord cs = (Letters.small.rewrite m.name).toList := by
      rw [spelled]
      constructor
      · rintro ⟨_ | _, same⟩
        · exact absurd same other
        · exact same
      · exact fun same => ⟨_, same⟩
    simp only [whole, Option.none_or]
    exact small
  | some n =>
    have whole : m.spells (String.ofList (firstWord cs)) = true ↔
        firstWord cs = (Letters.capitals.rewrite m.name).toList := by
      rw [spelled]
      constructor
      · rintro ⟨l, same⟩
        -- Both spellings begin the text and have one length.
        obtain ⟨rest, shape, -⟩ := literal_eq_some begins
        have starts : (Letters.capitals.rewrite m.name).toList <+: cs := ⟨rest, shape.symm⟩
        have also : (l.rewrite m.name).toList <+: cs := same ▸ List.takeWhile_prefix _
        have length : (l.rewrite m.name).toList.length =
            (Letters.capitals.rewrite m.name).toList.length := by
          simp
        rw [same]
        exact (List.prefix_of_prefix_length_le also starts length.le).eq_of_length length
      · exact fun same => ⟨_, same⟩
    rw [begins] at capitals
    simp only [whole, Option.some_or]
    exact capitals

theorem firstWord_gap (whole : ∀ c ∈ word, Text.isBlank c = false) (between : Gap gap rest) :
    firstWord (word ++ (gap ++ rest)) = word := by
  have visible : ∀ c ∈ word, (!Text.isBlank c) = true := by
    intro c member
    simp [whole c member]
  obtain ⟨b, blanks, rfl⟩ := List.exists_cons_of_ne_nil between.nonempty
  have stop := between.blank b List.mem_cons_self
  rw [firstWord, List.takeWhile_append_of_pos visible, List.cons_append,
    List.takeWhile_cons_of_neg (by simp [stop]), List.append_nil]

theorem mnemonic_gap {m : Mnemonic} (whole : ∀ c ∈ word, Text.isBlank c = false)
    (between : Gap gap rest) : mnemonic m (word ++ (gap ++ rest)) =
      if m.spells (String.ofList word) then some (word.length + gap.length) else none := by
  rw [mnemonic_eq, separated, firstWord_gap whole between, List.drop_left, nonempty_gap between,
    Option.map_some]

theorem mnemonic_name (m m' : Mnemonic) (l : Letters) (between : Gap gap rest) :
    mnemonic m' ((l.rewrite m.name).toList ++ (gap ++ rest)) =
      if m' = m then some ((l.rewrite m.name).toList.length + gap.length) else none := by
  have spelled : m'.spells (l.rewrite m.name) = true ↔ m' = m := by
    constructor
    · exact Mnemonic.spelling_unique
    · rintro rfl
      exact Mnemonic.spells_iff.2 ⟨l, rfl⟩
  rw [mnemonic_gap (bare_rewrite l m) between, String.ofList_toList, if_congr spelled rfl rfl]

end Mnemonics

end Scan

namespace TokenKind

def earlier (k : TokenKind) : List TokenKind :=
  all.takeWhile (· != k)

theorem findSome?_earlier {k : TokenKind} {kinds : List TokenKind} {α : Type}
    {f : TokenKind → Option α} {a : α} (present : k ∈ kinds) (own : f k = some a)
    (silent : ∀ other ∈ kinds.takeWhile (· != k), f other = none) :
    kinds.findSome? f = some a := by
  induction kinds with
  | nil => cases present
  | cons head kinds ih =>
    by_cases same : head = k
    · rw [same, List.findSome?_cons, own]
    · have before := silent
      rw [List.takeWhile_cons_of_pos (by simpa using same)] at before
      rw [List.findSome?_cons, before head List.mem_cons_self]
      have later : k ∈ kinds := (List.mem_cons.1 present).resolve_left (Ne.symm same)
      exact ih later fun other member => before other (List.mem_cons_of_mem head member)

theorem first?_eq {k : TokenKind} {cs : List Char} {n : Nat} (own : k.measure cs = some n)
    (silent : ∀ other ∈ k.earlier, other.measure cs = none) : first? cs = some (k, n) := by
  refine findSome?_earlier (mem_all k) (by rw [own, Option.map_some]) fun other member => ?_
  rw [silent other member, Option.map_none]

theorem mem_earlier {k other : TokenKind} (member : other ∈ k.earlier) : other ≠ k := by
  simpa using List.mem_takeWhile_imp member

theorem measure_letter {k : TokenKind} {a : Char} {cs : List Char} (letter : a.isAlpha = true)
    (early : k ∈ [leftBracket, rightBracket, comma, immediate]) : k.measure (a :: cs) = none := by
  have other (c : Char) (odd : c.isAlpha = false) : a ≠ c := by
    rintro rfl
    simp [letter] at odd
  have digit : a.isDigit = false := by
    rw [Bool.eq_false_iff]
    intro digit
    have bounds := Char.isDigit_iff_toNat.1 digit
    have beyond : 'A'.toNat ≤ a.toNat := by
      rcases Bool.or_eq_true_iff.1 letter with capital | small
      · exact UInt32.le_iff_toNat_le.1 (of_decide_eq_true capital).1
      · have low := of_decide_eq_true (Bool.and_eq_true_iff.1 small).1
        exact Nat.le_trans (by decide) (UInt32.le_iff_toNat_le.1 low)
    simp only [Char.reduceToNat] at bounds beyond
    omega
  simp only [List.mem_cons, List.not_mem_nil, or_false] at early
  rcases early with rfl | rfl | rfl | rfl
  · simp [measure, Scan.literal, (other '[' rfl).symm]
  · simp [measure, Scan.literal, (other ']' rfl).symm]
  · simp [measure, Scan.literal, (other ',' rfl).symm]
  · exact Scan.immediate_eq_none cs (other '#' rfl) (other '-' rfl) digit

section Words

variable {gap rest : List Char}

theorem measure_mnemonic (m : Mnemonic) (l : Letters) (between : Scan.Gap gap rest) (f : Form) :
    (mnemonic f).measure ((l.rewrite m.name).toList ++ (gap ++ rest)) =
      if f = m.form then some ((l.rewrite m.name).toList.length + gap.length) else none := by
  have member : m ∈ Mnemonic.ofForm f ↔ f = m.form := by
    rw [Mnemonic.ofForm, List.mem_filter, beq_iff_eq]
    exact ⟨fun own => own.2.symm, fun own => ⟨m.mem_all, own.symm⟩⟩
  rw [measure]
  simp only [Scan.mnemonic_name _ _ _ between, ← member]
  by_cases present : m ∈ Mnemonic.ofForm f
  · rw [if_pos present]
    cases found : (Mnemonic.ofForm f).findSome? fun m' =>
        if m' = m then some ((l.rewrite m.name).toList.length + gap.length) else none with
    | none =>
      have missing := List.findSome?_eq_none_iff.1 found m present
      rw [if_pos rfl] at missing
      cases missing
    | some n =>
      obtain ⟨m', -, read⟩ := List.exists_of_findSome?_eq_some found
      split at read
      · exact read.symm
      · cases read
  · rw [if_neg present, List.findSome?_eq_none_iff]
    intro m' other
    rw [if_neg]
    rintro rfl
    exact present other

def plainStart : List Char → Bool
  | a :: b :: _ => a.isAlpha && [RegisterClass.x, .s, .d].all fun c => !Scan.opensRegister c a b
  | _ => false

theorem exists_of_plainStart {cs : List Char} (plain : plainStart cs = true) :
    ∃ a b rest, cs = a :: b :: rest ∧ a.isAlpha = true ∧
      ∀ c, Scan.opensRegister c a b = false := by
  unfold plainStart at plain
  split at plain
  next a b rest =>
    simp only [List.all_cons, List.all_nil, Bool.and_true, Bool.and_eq_true,
      Bool.not_eq_true'] at plain
    obtain ⟨letter, x, s, d⟩ := plain
    refine ⟨a, b, rest, rfl, letter, fun c => ?_⟩
    cases c with
    | x => exact x
    | s => exact s
    | d => exact d
  next => cases plain

theorem first?_mnemonic (m : Mnemonic) (l : Letters) (between : Scan.Gap gap rest) :
    first? ((l.rewrite m.name).toList ++ (gap ++ rest)) =
      some (.mnemonic m.form, (l.rewrite m.name).toList.length + gap.length) := by
  have table : ∀ m ∈ Mnemonic.all, ∀ l ∈ [Letters.capitals, .small],
      ([' ', '\t'].all fun b => plainStart (m.name.toList.map l.write ++ [b])) = true := by
    decide +kernel
  have late : ∀ f ∈ Form.all, ∀ k ∈ [TokenKind.label, .identifier, .blanks, .stray],
      k ∉ (TokenKind.mnemonic f).earlier := by
    decide +kernel
  obtain ⟨b, blanks, rfl⟩ := List.exists_cons_of_ne_nil between.nonempty
  have blank : b ∈ [' ', '\t'] := by
    simpa [Text.isBlank] using between.blank b List.mem_cons_self
  have plain := List.all_eq_true.1 (table m (Mnemonic.mem_all m) l (by cases l <;> decide)) b blank
  rw [← Letters.toList_rewrite] at plain
  obtain ⟨a, c, cs, shape, letter, unregistered⟩ := exists_of_plainStart plain
  have text : (l.rewrite m.name).toList ++ (b :: blanks ++ rest) =
      a :: c :: (cs ++ (blanks ++ rest)) := by
    rw [List.cons_append, ← List.singleton_append, ← List.append_assoc, shape]
    rfl
  -- The first letter silences punctuation and numbers, the first two characters the registers.
  refine first?_eq ?_ fun k member => ?_
  · rw [measure_mnemonic m l between, if_pos rfl]
  · cases k with
    | mnemonic f =>
      rw [measure_mnemonic m l between, if_neg]
      rintro rfl
      exact mem_earlier member rfl
    | register c =>
      rw [text]
      exact Scan.register_eq_none (cs ++ (blanks ++ rest)) (unregistered c)
    | leftBracket | rightBracket | comma | immediate =>
      rw [text]
      exact measure_letter letter (by decide)
    | label | identifier | blanks | stray =>
      exact absurd member (late _ (Form.mem_all _) _ (by decide))

theorem first?_register (l : Letters) (c : RegisterClass) (r : Reg) (closed : Scan.Closed rest) :
    first? ((l.rewrite (c.registerName r)).toList ++ rest) =
      some (.register c, (l.rewrite (c.registerName r)).toList.length) := by
  have table : ∀ c ∈ [RegisterClass.x, .s, .d], ∀ k ∈ (TokenKind.register c).earlier,
      k ∈ [leftBracket, rightBracket, comma, immediate] ∨
        c ≠ .x ∧ ∃ c' ∈ [RegisterClass.x, .s, .d], c ≠ c' ∧ k = .register c' := by
    decide +kernel
  refine first?_eq (Scan.register_printed l c r closed) fun k member => ?_
  rcases table c (by cases c <;> decide) k member with early | ⟨float, c', -, other, rfl⟩
  · obtain ⟨a, cs, shape, letter⟩ := RegisterClass.registerName_letter l c r
    rw [shape]
    exact measure_letter letter early
  · rw [RegisterClass.rewrite_registerName l fun named => float named.1]
    cases shape : Nat.toDigits 10 r with
    | nil => exact absurd shape Nat.toDigits_ne_nil
    | cons d ds =>
      have digit : d.isDigit = true := Text.isDigit_numeral (n := r) (by simp [shape])
      exact Scan.register_eq_none (ds ++ rest) (Scan.opensRegister_other l digit other)

theorem first?_immediate (v : Int) (closed : Scan.Closed rest) :
    first? (("#" ++ toString v).toList ++ rest) =
      some (.immediate, ("#" ++ toString v).toList.length) := by
  have table : TokenKind.immediate.earlier = [leftBracket, rightBracket, comma] := by
    decide +kernel
  have hash : "#".toList = ['#'] := rfl
  refine first?_eq (Scan.immediate_printed closed v) fun k member => ?_
  rw [String.toList_append, hash]
  rw [table] at member
  simp only [List.mem_cons, List.not_mem_nil, or_false] at member
  rcases member with rfl | rfl | rfl <;> rfl

theorem first?_leftBracket : first? ('[' :: rest) = some (.leftBracket, 1) := rfl

theorem first?_rightBracket : first? (']' :: rest) = some (.rightBracket, 1) := rfl

theorem first?_comma : first? (',' :: rest) = some (.comma, 1) := rfl

theorem first?_blanks (between : Scan.Gap gap rest) :
    first? (gap ++ rest) = some (.blanks, gap.length) := by
  have last : TokenKind.stray ∉ TokenKind.blanks.earlier := by decide +kernel
  refine first?_eq (Scan.nonempty_gap between) fun k member => ?_
  obtain ⟨b, blanks, rfl⟩ := List.exists_cons_of_ne_nil between.nonempty
  have blank : b = ' ' ∨ b = '\t' := by
    simpa [Text.isBlank] using between.blank b List.mem_cons_self
  cases k with
  | leftBracket | rightBracket | comma | label | identifier => rcases blank with rfl | rfl <;> rfl
  | immediate =>
    have mark : b ≠ '#' ∧ b ≠ '-' ∧ b.isDigit = false := by rcases blank with rfl | rfl <;> decide
    exact Scan.immediate_eq_none (blanks ++ rest) mark.1 mark.2.1 mark.2.2
  | register c => rcases blank with rfl | rfl <;> cases c <;> rfl
  | mnemonic f =>
    rw [measure, List.findSome?_eq_none_iff]
    intro m present
    have none : ∀ c ∈ ([] : List Char), Text.isBlank c = false := by simp
    have read := Scan.mnemonic_gap (m := m) none between
    rw [List.nil_append] at read
    rw [read, if_neg]
    intro spelled
    obtain ⟨l, empty⟩ := Mnemonic.spells_iff.1 spelled
    obtain ⟨a, cs, shape⟩ := Mnemonic.name_head l m
    simp [← empty] at shape
  | blanks => exact absurd rfl (mem_earlier member)
  | stray => exact absurd member last

end Words

end TokenKind

end Legv8
