import Legv8.Proofs.Token.Append

set_option autoImplicit false

namespace Legv8

/-- The text starts with a number or a register. -/
inductive OpensOperand : List Char → Prop where
  | number {d : Char} (cs : List Char) : d.isDigit = true → OpensOperand (d :: cs)
  | register {letter d : Char} (cs : List Char) : letter ∈ ['X', 'x', 'S', 's', 'D', 'd'] →
      d.isDigit = true → OpensOperand (letter :: d :: cs)
  | named {name : String} (cs : List Char) :
      name ∈ ["XZR", "xzr", "SP", "sp", "LR", "lr", "FP", "fp", "IP0", "IP1", "ip0", "ip1"] →
      OpensOperand (name.toList ++ cs)

namespace Scan

variable {a letter : Char} {cs : List Char}

theorem shortNumber_isSome (cs : List Char) :
    (shortNumber cs).isSome = cs.head?.any Char.isDigit := by
  cases cs with
  | nil => rfl
  | cons d cs =>
    cases digit : d.isDigit with
    | false => simp [shortNumber_eq_none d cs digit, digit]
    | true => simp [shortNumber, digit]

theorem longNumber_isSome (cs : List Char) :
    (longNumber cs).isSome = cs.head?.any Char.isDigit := by
  cases cs with
  | nil => rfl
  | cons d cs =>
    cases digit : d.isDigit with
    | false => simp [longNumber_eq_none d cs digit, digit]
    | true => simp [longNumber, run, nonempty, digit]

theorem immediate_isSome (hash : a ≠ '#') (minus : a ≠ '-') (cs : List Char) :
    (immediate (a :: cs)).isSome = a.isDigit := by
  cases digit : a.isDigit with
  | false => rw [immediate_eq_none cs hash minus digit, Option.isSome_none]
  | true => simp [immediate, optionalChar, hash, minus, number, run, nonempty, digit]

theorem lettered_isSome {number : List Char → Option Nat}
    (digits : ∀ cs, (number cs).isSome = cs.head?.any Char.isDigit) :
    (lettered letter number cs).isSome = true ↔
      ∃ a d ds, cs = a :: d :: ds ∧ (a = letter ∨ a = letter.toLower) ∧ d.isDigit = true := by
  unfold lettered
  split
  next a cs =>
    cases cs with
    | nil => split <;> simp [digits]
    | cons d ds => split <;> simp_all
  next => simp

theorem aliases_isSome : (aliases.findSome? (literal · cs)).isSome = true ↔
    ∃ name ∈ aliases, ∃ rest, cs = name.toList ++ rest := by
  rw [List.findSome?_isSome_iff]
  refine exists_congr fun name => and_congr_right fun _ => ?_
  constructor
  · intro read
    obtain ⟨n, begins⟩ := Option.isSome_iff_exists.1 read
    obtain ⟨rest, shape, -⟩ := literal_eq_some begins
    exact ⟨rest, shape⟩
  · rintro ⟨rest, rfl⟩
    simp [literal]

theorem register_isSome (c : RegisterClass) : (register c cs).isSome = true ↔
    (∃ a d ds, cs = a :: d :: ds ∧ (a = c.letter ∨ a = c.letter.toLower) ∧ d.isDigit = true) ∨
      c = .x ∧ ∃ name ∈ aliases, ∃ rest, cs = name.toList ++ rest := by
  cases c with
  | s => exact (lettered_isSome longNumber_isSome).trans (or_iff_left (by simp)).symm
  | d => exact (lettered_isSome longNumber_isSome).trans (or_iff_left (by simp)).symm
  | x =>
    rw [register, Option.orElse_eq_orElse, Option.orElse_eq_or, Option.isSome_or, Bool.or_eq_true,
      lettered_isSome shortNumber_isSome, aliases_isSome, and_iff_right rfl]
    rfl

end Scan

namespace TokenKind

def operands : List TokenKind :=
  [.immediate, .register .x, .register .s, .register .d]

variable {cs : List Char}

theorem registerLetters :
    ['X', 'x', 'S', 's', 'D', 'd'] =
      [RegisterClass.x, .s, .d].flatMap fun c => [c.letter, c.letter.toLower] := by
  decide

theorem opensOperand_iff (word : ∀ a ∈ cs.head?, Scan.isWord a = true) :
    OpensOperand cs ↔ ∃ k ∈ operands, (k.measure cs).isSome = true := by
  have plain {a : Char} (word : Scan.isWord a = true) : a ≠ '#' ∧ a ≠ '-' :=
    ⟨(Scan.isWord_visible word).2.1, (Scan.isWord_visible word).2.2.2⟩
  have member (c : RegisterClass) : .register c ∈ operands := by cases c <;> simp [operands]
  constructor
  · rintro (⟨cs, digit⟩ | ⟨cs, letter, digit⟩ | ⟨cs, known⟩)
    · have other := plain (Scan.isWord_of_isDigit digit)
      refine ⟨.immediate, List.mem_cons_self, ?_⟩
      rw [measure, Scan.immediate_isSome other.1 other.2, digit]
    · rw [registerLetters, List.mem_flatMap] at letter
      obtain ⟨c, -, own⟩ := letter
      exact ⟨.register c, member c,
        (Scan.register_isSome c).2 (.inl ⟨_, _, cs, rfl, List.mem_pair.1 own, digit⟩)⟩
    · exact ⟨.register .x, member .x,
        (Scan.register_isSome .x).2 (.inr ⟨rfl, _, known, cs, rfl⟩)⟩
  · rintro ⟨k, own, read⟩
    have kinds : k = .immediate ∨ ∃ c, k = .register c := by
      simp only [operands, List.mem_cons, List.not_mem_nil, or_false] at own
      rcases own with rfl | rfl | rfl | rfl <;> simp
    rcases kinds with rfl | ⟨c, rfl⟩
    · cases cs with
      | nil => cases read
      | cons a cs =>
        have other := plain (word a rfl)
        rw [measure, Scan.immediate_isSome other.1 other.2] at read
        exact .number cs read
    · rcases (Scan.register_isSome c).1 read with ⟨a, d, ds, rfl, own, digit⟩ |
        ⟨-, name, known, rest, rfl⟩
      · refine .register ds ?_ digit
        rw [registerLetters, List.mem_flatMap]
        exact ⟨c, by cases c <;> decide, List.mem_pair.2 own⟩
      · exact .named rest known

theorem punctuation_silent {k : TokenKind} (mark : k ∈ [leftBracket, rightBracket, comma])
    (word : ∀ a ∈ cs.head?, Scan.isWord a = true) : k.measure cs = none := by
  cases cs with
  | nil =>
    simp only [List.mem_cons, List.not_mem_nil, or_false] at mark
    rcases mark with rfl | rfl | rfl <;> rfl
  | cons a cs =>
    have letter := word a rfl
    have other (c : Char) (odd : Scan.isWord c = false) : c ≠ a := by
      rintro rfl
      simp [letter] at odd
    simp only [List.mem_cons, List.not_mem_nil, or_false] at mark
    rcases mark with rfl | rfl | rfl
    · simp [measure, Scan.literal, other '[' rfl]
    · simp [measure, Scan.literal, other ']' rfl]
    · simp [measure, Scan.literal, other ',' rfl]

theorem mnemonic_silent (solid : ∀ c ∈ cs, Text.isBlank c = false) (f : Form) :
    (mnemonic f).measure cs = none := by
  rw [Option.eq_none_iff_forall_ne_some]
  intro n measured
  obtain ⟨m, l, blanks, -, taken, nonempty, blank⟩ := mnemonic_eq_some measured
  obtain ⟨b, rest, rfl⟩ := List.exists_cons_of_ne_nil nonempty
  have inside : b ∈ cs := List.mem_of_mem_take (i := n) (by simp [taken])
  simp [solid b inside] at blank

theorem undotted {k : TokenKind} (other : k.form? = none) (known : k ≠ .stray) :
    ∀ s ∈ k.pattern.sets, s.contains '.' = false := by
  cases k with
  | mnemonic f => cases other
  | stray => exact absurd rfl known
  | register c => cases c <;> decide
  | _ => decide

theorem first?_operand (word : ∀ a ∈ cs.head?, Scan.isWord a = true) (opens : OpensOperand cs) :
    ∃ k ∈ operands, ∃ n, first? cs = some (k, n) := by
  have parts : all = [leftBracket, rightBracket, comma] ++ (operands ++
      (Form.all.map .mnemonic ++ [.label, .identifier, .blanks, .stray])) := rfl
  have front : [leftBracket, rightBracket, comma].findSome?
      (fun k => (k.measure cs).map (k, ·)) = none := by
    refine List.findSome?_eq_none_iff.2 fun k mark => ?_
    rw [punctuation_silent mark word, Option.map_none]
  have found : (operands.findSome? fun k => (k.measure cs).map (k, ·)).isSome = true := by
    simpa [List.findSome?_isSome_iff] using (opensOperand_iff word).1 opens
  obtain ⟨m, read⟩ := Option.isSome_iff_exists.1 found
  obtain ⟨k, own, same⟩ := List.exists_of_findSome?_eq_some read
  obtain ⟨n, -, rfl⟩ := Option.map_eq_some_iff.1 same
  refine ⟨k, own, n, ?_⟩
  rw [first?, parts, List.findSome?_append, List.findSome?_append, front, read, Option.none_or,
    Option.some_or]

section Words

variable {w : List Char}

theorem earlier_silent {k : TokenKind} (word : ∀ a ∈ cs.head?, Scan.isWord a = true)
    (solid : ∀ c ∈ cs, Text.isBlank c = false) (plain : ¬ OpensOperand cs)
    (early : k ∈ TokenKind.label.earlier) : k.measure cs = none := by
  have table : ∀ k ∈ TokenKind.label.earlier, k ∈ [leftBracket, rightBracket, comma] ∨
      k ∈ operands ∨ ∃ f ∈ Form.all, k = .mnemonic f := by
    decide
  rcases table k early with mark | own | ⟨f, -, rfl⟩
  · exact punctuation_silent mark word
  · rw [opensOperand_iff word] at plain
    by_contra read
    exact plain ⟨k, own, Option.isSome_iff_ne_none.2 read⟩
  · exact mnemonic_silent solid f

theorem head_word (run : Scan.IsRun Scan.isWord w) : ∀ a ∈ w.head?, Scan.isWord a = true :=
  fun a first => run.2 a (List.mem_of_mem_head? first)

theorem head_word_append (run : Scan.IsRun Scan.isWord w) (rest : List Char) :
    ∀ a ∈ (w ++ rest).head?, Scan.isWord a = true := by
  rw [List.head?_append_of_ne_nil w run.1]
  exact head_word run

theorem opensOperand_colon (run : Scan.IsRun Scan.isWord w) :
    OpensOperand (w ++ [':']) ↔ OpensOperand w := by
  have outside : ∀ k ∈ operands, ∀ s ∈ k.pattern.sets, s.contains ':' = false := by
    decide
  rw [opensOperand_iff (head_word run), opensOperand_iff (head_word_append run [':'])]
  refine exists_congr fun k => and_congr_right fun own => ?_
  rw [measure_apart (outside k own)]

theorem solid_word (run : Scan.IsRun Scan.isWord w) : ∀ c ∈ w, Text.isBlank c = false :=
  fun c member => Text.not_isBlank (Scan.isWord_visible (run.2 c member)).1

theorem first?_label (run : Scan.IsRun Scan.isWord w) (plain : ¬ OpensOperand w) :
    first? (w ++ [':']) = some (.label, w.length + 1) := by
  have length : Scan.run Scan.isWord (w ++ [':']) = w.length :=
    Scan.run_append run.2 (by rintro c ⟨⟩; rfl)
  have positive : w.length ≠ 0 := mt List.length_eq_zero_iff.1 run.1
  refine first?_eq ?_ fun k early => earlier_silent (head_word_append run _) ?_ ?_ early
  · rw [measure, Scan.label, length, List.drop_left, if_pos ⟨positive, rfl⟩]
  · exact List.forall_mem_append.2 ⟨solid_word run, List.forall_mem_singleton.2 rfl⟩
  · rwa [opensOperand_colon run]

theorem first?_identifier (run : Scan.IsRun Scan.isWord w) (plain : ¬ OpensOperand w) :
    first? w = some (.identifier, w.length) := by
  have table : ∀ k ∈ TokenKind.identifier.earlier, k = .label ∨ k ∈ TokenKind.label.earlier := by
    decide
  have length : Scan.run Scan.isWord (w ++ []) = w.length :=
    Scan.run_append run.2 (by simp)
  rw [List.append_nil] at length
  have positive : w.length ≠ 0 := mt List.length_eq_zero_iff.1 run.1
  refine first?_eq ?_ fun k early => ?_
  · rw [measure, length, Scan.nonempty, if_neg positive]
  · rcases table k early with rfl | early
    · rw [measure, Scan.label, length, List.drop_length, if_neg (by simp)]
    · exact earlier_silent (head_word run) (solid_word run) plain early

end Words

end TokenKind

namespace Token

variable {cs w : List Char}

-- Dots are in no class of their own, so one that is not in a mnemonic is left over.
theorem scan_dotted (solid : ∀ c ∈ cs, Text.isBlank c = false) (dotted : '.' ∈ cs) :
    ∃ t ∈ scan cs, t.kind = .stray := by
  induction cs using scan_induction with
  | nil => cases dotted
  | stuck c cs stuck ih =>
    rw [scan_stuck stuck]
    rcases List.mem_cons.1 dotted with rfl | later
    · exact absurd (TokenKind.isSpace_of_first? stuck) (by decide)
    · exact ih (fun d member => solid d (List.mem_cons_of_mem c member)) later
  | token cs k n first ih =>
    rw [scan_first first]
    rw [← List.take_append_drop n cs, List.mem_append] at dotted
    rcases dotted with here | later
    · have measured := (TokenKind.first?_bounds first).1
      have stray : k = .stray := by
        by_contra known
        cases form : k.form? with
        | some f =>
          rw [TokenKind.form?_eq_some.1 form, TokenKind.mnemonic_silent solid f] at measured
          cases measured
        | none =>
          obtain ⟨s, own, inside⟩ := TokenKind.measure_contained measured here
          rw [TokenKind.undotted form known s own] at inside
          cases inside
      exact ⟨⟨k, String.ofList (cs.take n)⟩, by simp [stray], stray⟩
    · obtain ⟨t, member, stray⟩ :=
        ih (fun c member => solid c (List.mem_of_mem_drop member)) later
      exact ⟨t, List.mem_append_right _ member, stray⟩

theorem scan_whole {k : TokenKind} (kept : k ≠ .blanks)
    (first : TokenKind.first? cs = some (k, cs.length)) : scan cs = [⟨k, String.ofList cs⟩] := by
  rw [scan_first first, if_neg kept, List.take_length, List.drop_length, scan_nil, List.append_nil]

theorem scan_label (run : Scan.IsRun Scan.isWord w) (plain : ¬ OpensOperand w) :
    scan (w ++ [':']) = [⟨.label, String.ofList (w ++ [':'])⟩] := by
  refine scan_whole (by simp) ?_
  rw [TokenKind.first?_label run plain, List.length_append, List.length_singleton]

theorem scan_identifier (run : Scan.IsRun Scan.isWord w) (plain : ¬ OpensOperand w) :
    scan w = [⟨.identifier, String.ofList w⟩] :=
  scan_whole (by simp) (TokenKind.first?_identifier run plain)

theorem scan_branch (run : Scan.IsRun Scan.isWord w) (plain : ¬ OpensOperand w) :
    scan ('B' :: ' ' :: w) = [⟨.mnemonic .l, "B "⟩, ⟨.identifier, String.ofList w⟩] := by
  have apart : ∀ c ∈ w.head?, Text.isBlank c = false := fun c first =>
    TokenKind.solid_word run c (List.mem_of_mem_head? first)
  have text : (Letters.capitals.rewrite Mnemonic.b.name).toList ++ ([' '] ++ w) = 'B' :: ' ' :: w :=
    rfl
  rw [← text, scan_mnemonic .b .capitals (Scan.Gap.single apart), scan_identifier run plain]
  rfl

theorem scan_operand (word : ∀ a ∈ cs.head?, Scan.isWord a = true) (opens : OpensOperand cs) :
    ∃ t ts, scan cs = t :: ts ∧ t.kind ∈ TokenKind.operands := by
  obtain ⟨k, own, n, first⟩ := TokenKind.first?_operand word opens
  have kept : k ≠ .blanks := by
    rintro rfl
    simp [TokenKind.operands] at own
  rw [scan_first first, if_neg kept]
  exact ⟨_, _, rfl, own⟩

end Token

end Legv8
