import Legv8.Proofs.Token.Pattern

set_option autoImplicit false

namespace Legv8

def Form.words : Form → List String
  | .r => ["BR"]
  | .risi => ["MOVZ", "MOVK"]
  | .ri => ["CMPI"]
  | .rr .x => ["CMP", "MOV"]
  | .rr .s => ["FCMPS"]
  | .rr .d => ["FCMPD"]
  | .rri => ["ADDI", "ADDIS", "SUBI", "SUBIS", "ANDI", "ANDIS", "ORRI", "EORI", "LSL", "LSR"]
  | .rrr .x => ["ADD", "ADDS", "SUB", "SUBS", "AND", "ANDS", "MUL", "SMULH", "UMULH", "SDIV",
      "UDIV", "ORR", "EOR"]
  | .rrr .s => ["FADDS", "FSUBS", "FDIVS", "FMULS"]
  | .rrr .d => ["FADDD", "FSUBD", "FDIVD", "FMULD"]
  | .rm .x => ["LDURSW", "LDUR", "LDURH", "LDURB", "LDXR", "STUR", "STURW", "STURH", "STURB"]
  | .rm .s => ["LDURS", "STURS"]
  | .rm .d => ["LDURD", "STURD"]
  | .rrm => ["STXR"]
  | .l => ["B.EQ", "B.NE", "B.HS", "B.LO", "B.HI", "B.LS", "B.GE", "B.LT", "B.GT", "B.LE", "B.MI",
      "B.PL", "B.VS", "B.VC", "B", "BL"]
  | .rl => ["CBZ", "CBNZ", "LDA"]

def Form.spellings (f : Form) : List String :=
  f.words.flatMap fun name => [name, name.toLower]

namespace Pattern

-- `#?-?` in front of digits
def signed (p : Pattern) : Pattern :=
  seq (optional (char '#')) (seq (optional (char '-')) p)

-- A letter in either case and digits behind it.
def lettered (letter : Char) (number : Pattern) : Pattern :=
  seq (one (.among (String.ofList [letter, letter.toLower]))) number

-- `[12][0-9]`
def belowThirty : Pattern :=
  seq (one (.among "12")) (one .digit)

-- `[Ss][12][0-9]|[Ss]30|[Ss][0-9]+`, with the letter of the class
def floating (letter : Char) : Pattern :=
  oneOf [lettered letter belowThirty, lettered letter (text "30"), lettered letter (many .digit)]

end Pattern

namespace TokenKind

open Pattern in
def pattern : TokenKind → Pattern
  | .leftBracket => text "["
  | .rightBracket => text "]"
  | .comma => text ","
  | .immediate =>
      -- `#?-?0[xX][0-9a-fA-F]+|#?-?[0-9]+`
      either (signed (seq (char '0') (seq (one (.among "xX")) (many .hexDigit))))
        (signed (many .digit))
  | .register .x =>
      -- `[Xx][12][0-9]|[Xx]30|[Xx][0-9]|XZR|xzr|SP|sp|LR|lr|FP|fp|IP[01]|ip[01]`
      oneOf ([lettered 'X' belowThirty, lettered 'X' (text "30"), lettered 'X' (one .digit)]
        ++ ["XZR", "xzr", "SP", "sp", "LR", "lr", "FP", "fp"].map text
        ++ ["IP", "ip"].map fun name => seq (text name) (one (.among "01")))
  | .register .s => floating 'S'
  | .register .d => floating 'D'
  | .mnemonic f => seq (oneOf (f.spellings.map text)) (many .blank)
  | .label => seq (many .word) (char ':')
  | .identifier => many .word
  | .blanks => many .blank
  | .stray => many .visible

end TokenKind

namespace Pattern

variable {p q : Pattern} {s : CharSet} {c : Char} {cs : List Char} {n : Nat}

section Numbers

theorem lengths_char_other {d : Char} (other : c ≠ d) : (char d).lengths (c :: cs) = [] := by
  simp [lengths_char, other]

-- An option gives nothing back to what cannot begin like it.
theorem length?_optional_seq (apart : ∀ cs, q.lengths (c :: cs) = []) :
    (seq (optional (char c)) q).length? cs =
      (q.length? (cs.drop (Scan.optionalChar c cs))).map (Scan.optionalChar c cs + ·) := by
  rw [length?_seq, optional, lengths, lengths_char, Scan.optionalChar, lengths]
  by_cases first : cs.head? = some c
  · obtain ⟨rest, rfl⟩ := List.head?_eq_some_iff.1 first
    have kept : q.length? (c :: rest) = none := by rw [length?, apart, List.head?_nil]
    cases behind : q.length? rest <;> simp [kept, behind]
  · simp [first]

theorem length?_signed (hash : ∀ cs, p.lengths ('#' :: cs) = [])
    (minus : ∀ cs, p.lengths ('-' :: cs) = []) :
    let mark := Scan.optionalChar '#' cs
    let sign := Scan.optionalChar '-' (cs.drop mark)
    (signed p).length? cs = (p.length? (cs.drop (mark + sign))).map (mark + sign + ·) := by
  intro mark sign
  have behind (cs : List Char) :
      (seq (optional (char '-')) p).lengths ('#' :: cs) = [] := by
    simp [lengths, optional, lengths_char, hash]
  rw [signed, length?_optional_seq behind, length?_optional_seq minus, Option.map_map,
    List.drop_drop]
  congr 1
  funext n
  simp [mark, sign, Nat.add_assoc]

theorem length?_hexadecimal :
    (seq (char '0') (seq (one (.among "xX")) (many .hexDigit))).length? cs =
      Scan.hexNumber cs := by
  have marks (x : Char) : (CharSet.among "xX").contains x = decide (x = 'x' ∨ x = 'X') := by simp
  unfold Scan.hexNumber
  split
  next x rest =>
    rw [char, length?_one_seq_cons, if_pos (by simp), length?_one_seq_cons, marks, length?_many,
      CharSet.contains_hexDigit]
    simp only [decide_eq_true_eq]
    split
    · rw [Option.map_map]
      rfl
    · rfl
  next other =>
    cases cs with
    | nil => rfl
    | cons a cs =>
      rw [char, length?_one_seq_cons]
      cases cs with
      | nil => split <;> rfl
      | cons x rest =>
        have nonzero : a ≠ '0' := fun same => other x rest (by rw [same])
        rw [if_neg (by simpa using nonzero)]

theorem length?_immediate : (TokenKind.pattern .immediate).length? cs = Scan.immediate cs := by
  have word {c : Char} (other : c ≠ '0') (cs : List Char) :
      (seq (char '0') (seq (one (.among "xX")) (many .hexDigit))).lengths (c :: cs) = [] := by
    rw [lengths, lengths_char_other other, List.flatMap_nil]
  have decimal {c : Char} (other : c.isDigit = false) (cs : List Char) :
      (many .digit).lengths (c :: cs) = [] := by
    simp [lengths, repeats, other]
  rw [TokenKind.pattern, length?_either, length?_signed (word (by decide)) (word (by decide)),
    length?_signed (decimal rfl) (decimal rfl), length?_hexadecimal, length?_many, ← Option.map_or,
    CharSet.contains_digit]
  simp only [Scan.immediate, Scan.number, Option.orElse_eq_orElse, Option.orElse_eq_or]

end Numbers

section Registers

variable {letter : Char}

theorem length?_lettered : (lettered letter p).length? cs = Scan.lettered letter p.length? cs := by
  cases cs with
  | nil => rfl
  | cons c cs =>
    have either : (CharSet.among (String.ofList [letter, letter.toLower])).contains c =
        decide (c = letter ∨ c = letter.toLower) := by
      simp
    rw [lettered, length?_one_seq_cons, either, Scan.lettered]
    simp only [decide_eq_true_eq]

theorem lettered_or (f g : List Char → Option Nat) :
    (Scan.lettered letter f cs).or (Scan.lettered letter g cs) =
      Scan.lettered letter (fun cs => (f cs).or (g cs)) cs := by
  cases cs with
  | nil => rfl
  | cons c cs =>
    simp only [Scan.lettered]
    split
    · rw [Option.map_or]
    · rfl

theorem length?_twoDigits :
    (belowThirty.length? cs).or ((text "30").length? cs) = Scan.twoDigits cs := by
  have low (a : Char) : (CharSet.among "12").contains a = decide (a = '1' ∨ a = '2') := by simp
  rw [belowThirty, length?_text]
  cases cs with
  | nil => rfl
  | cons a cs =>
    rw [length?_one_seq_cons, low, length?_one]
    cases cs with
    | nil => simp [Scan.literal, Scan.twoDigits]
    | cons b rest =>
      have thirty : Scan.literal "30" (a :: b :: rest) =
          if a = '3' ∧ b = '0' then some 2 else none := by
        simp [Scan.literal, @eq_comm _ '3', @eq_comm _ '0']
      simp only [thirty, Scan.twoDigits, decide_eq_true_eq, List.head?_cons, Option.any_some,
        CharSet.contains_digit]
      by_cases small : a = '1' ∨ a = '2' <;> by_cases digit : b.isDigit = true <;>
        by_cases high : a = '3' ∧ b = '0' <;> simp [small, digit, high]

theorem length?_floating (letter : Char) :
    (floating letter).length? cs = Scan.lettered letter Scan.longNumber cs := by
  rw [floating, length?_oneOf_cons, length?_oneOf_cons, length?_oneOf_cons,
    length?_oneOf_nil, Option.or_none, length?_lettered, length?_lettered, length?_lettered,
    lettered_or, lettered_or]
  simp only [← Option.or_assoc, length?_twoDigits, length?_many,
    CharSet.contains_digit]
  congr 1
  funext cs
  rw [Scan.longNumber, Option.orElse_eq_orElse, Option.orElse_eq_or]

theorem literal_push (t : String) (c : Char) :
    Scan.literal (t.push c) cs = (Scan.literal t cs).bind fun n =>
      if (cs.drop n).head? = some c then some (n + 1) else none := by
  simp only [Scan.literal, String.toList_push, List.length_append, List.length_singleton]
  by_cases begins : t.toList <+: cs
  · obtain ⟨rest, rfl⟩ := begins
    simp only [List.isPrefixOf_iff_prefix, List.prefix_append_right_inj, List.prefix_append,
      if_true, Option.bind_some, List.drop_left]
    cases rest with
    | nil => simp
    | cons d rest => simp [@eq_comm _ c]
  · have longer : ¬ t.toList ++ [c] <+: cs := fun both =>
      begins ((List.prefix_append ..).trans both)
    rw [← List.isPrefixOf_iff_prefix] at begins longer
    rw [if_neg begins, if_neg longer, Option.bind_none]

theorem lengths_numbered (t : String) : (seq (text t) (one (.among "01"))).lengths cs =
    [t.push '0', t.push '1'].flatMap fun name => (Scan.literal name cs).toList := by
  simp only [lengths, lengths_text, List.flatMap_cons, List.flatMap_nil, List.append_nil,
    literal_push]
  cases Scan.literal t cs with
  | none => rfl
  | some n =>
    simp only [Option.toList_some, List.flatMap_singleton, Option.bind_some]
    generalize cs.drop n = rest
    cases rest with
    | nil => rfl
    | cons d rest =>
      have digit : (CharSet.among "01").contains d = decide (d = '0' ∨ d = '1') := by simp
      simp only [List.head?_cons, Option.any_some, digit, Option.some_inj, decide_eq_true_eq]
      by_cases zero : d = '0'
      · subst zero
        simp
      · by_cases one : d = '1' <;> simp [zero, one]

theorem length?_aliases :
    (oneOf (["XZR", "xzr", "SP", "sp", "LR", "lr", "FP", "fp"].map text
      ++ ["IP", "ip"].map fun name => seq (text name) (one (.among "01")))).length? cs =
      Scan.aliases.findSome? (Scan.literal · cs) := by
  have aliases_eq : Scan.aliases = ["XZR", "xzr", "SP", "sp", "LR", "lr", "FP", "fp"]
      ++ ["IP", "ip"].flatMap fun name => [name.push '0', name.push '1'] := by
    decide +kernel
  have first : Scan.aliases.findSome? (Scan.literal · cs) =
      (Scan.aliases.flatMap fun name => (Scan.literal name cs).toList).head? := by
    rw [List.head?_flatMap]
    simp only [Option.head?_toList]
  rw [length?, lengths_oneOf, first, aliases_eq, List.flatMap_append, List.flatMap_append,
    List.flatMap_map, List.flatMap_map, List.flatMap_assoc]
  simp only [lengths_text, lengths_numbered]

theorem length?_register (c : RegisterClass) :
    (TokenKind.pattern (.register c)).length? cs = Scan.register c cs := by
  cases c with
  | s => exact length?_floating 'S'
  | d => exact length?_floating 'D'
  | x =>
    rw [TokenKind.pattern, List.append_assoc, length?_oneOf_append, length?_oneOf_cons,
      length?_oneOf_cons, length?_oneOf_cons, length?_oneOf_nil, Option.or_none, length?_lettered,
      length?_lettered, length?_lettered, lettered_or, lettered_or, Scan.register,
      Option.orElse_eq_orElse, Option.orElse_eq_or]
    congr 1
    · congr 1
      funext cs
      rw [← Option.or_assoc, length?_twoDigits, length?_one, Scan.shortNumber,
        Option.orElse_eq_orElse, Option.orElse_eq_or, CharSet.contains_digit]
    · exact length?_aliases

end Registers

theorem length?_label : (TokenKind.pattern .label).length? cs = Scan.label cs := by
  have apart : ∀ c cs, CharSet.word.contains c = true → (char ':').length? (c :: cs) = none := by
    intro c cs word
    have other : c ≠ ':' := by
      rintro rfl
      cases word
    rw [length?, lengths_char_other other, List.head?_nil]
  rw [TokenKind.pattern, length?_many_seq apart, CharSet.contains_word, Scan.label, Scan.nonempty]
  simp only [length?, lengths_char, Option.head?_toList]
  by_cases begun : Scan.run Scan.isWord cs = 0
  · simp [begun]
  · rw [if_neg begun, Option.bind_some]
    by_cases colon : (cs.drop (Scan.run Scan.isWord cs)).head? = some ':'
    · rw [if_pos colon, if_pos ⟨begun, colon⟩, Option.map_some]
    · rw [if_neg colon, if_neg fun both => colon both.2, Option.map_none]

section Mnemonics

theorem findSome?_ite {α : Type} {P : α → Prop} [DecidablePred P] (xs : List α) (v : Option Nat) :
    (xs.findSome? fun x => if P x then v else none) = if ∃ x ∈ xs, P x then v else none := by
  induction xs with
  | nil => simp
  | cons x xs ih =>
    by_cases first : P x
    · cases v <;> simp [first]
    · simp [first, ih]

theorem findSome?_congr {α : Type} {f g : α → Option Nat} {xs : List α}
    (same : ∀ x ∈ xs, f x = g x) : xs.findSome? f = xs.findSome? g := by
  rw [← Function.id_comp f, ← Function.id_comp g, ← List.findSome?_map, ← List.findSome?_map,
    List.map_congr_left same]

theorem lengths_seq_oneOf (ps : List Pattern) :
    (seq (oneOf ps) q).lengths cs = ps.flatMap fun p => (seq p q).lengths cs := by
  simp only [lengths, lengths_oneOf, List.flatMap_assoc]

theorem length?_spelled (names : List String) (visible : ∀ name ∈ names, Scan.Bare name) :
    (seq (oneOf (names.map text)) (many .blank)).length? cs =
      if ∃ name ∈ names, Scan.firstWord cs = name.toList then Scan.separated cs else none := by
  have each : ∀ name ∈ names, (seq (text name) (many .blank)).length? cs =
      if Scan.firstWord cs = name.toList then Scan.separated cs else none := by
    intro name member
    rw [length?_seq_of_lengths (lengths_text name), ← Scan.blanks_eq cs (visible name member)]
    simp only [length?_many, CharSet.contains_blank]
  rw [← findSome?_ite, length?, lengths_seq_oneOf, List.flatMap_map, List.head?_flatMap]
  exact findSome?_congr each

theorem words_perm (f : Form) : f.words.Perm ((Mnemonic.ofForm f).map Mnemonic.name) := by
  have table : ∀ f ∈ Form.all, f.words.Perm ((Mnemonic.ofForm f).map Mnemonic.name) := by
    decide +kernel
  exact table f (Form.mem_all f)

theorem mem_spellings {f : Form} {text : String} :
    text ∈ f.spellings ↔ ∃ m ∈ Mnemonic.ofForm f, m.spells text = true := by
  simp only [Form.spellings, List.mem_flatMap, (words_perm f).mem_iff, List.mem_map,
    Mnemonic.spells, Bool.or_eq_true, beq_iff_eq, ← List.mem_pair]
  constructor
  · rintro ⟨_, ⟨m, own, rfl⟩, spelled⟩
    exact ⟨m, own, spelled⟩
  · rintro ⟨m, own, spelled⟩
    exact ⟨m.name, ⟨m, own, rfl⟩, spelled⟩

theorem spelling_eq {f : Form} {text : String} (spelled : text ∈ f.spellings) :
    ∃ (l : Letters) (m : Mnemonic), text = l.rewrite m.name := by
  obtain ⟨m, -, spells⟩ := mem_spellings.1 spelled
  obtain ⟨l, same⟩ := Mnemonic.spells_iff.1 spells
  exact ⟨l, m, same⟩

theorem length?_mnemonic (f : Form) : (TokenKind.pattern (.mnemonic f)).length? cs =
    (Mnemonic.ofForm f).findSome? (Scan.mnemonic · cs) := by
  have visible : ∀ name ∈ f.spellings, Scan.Bare name := by
    intro name member
    obtain ⟨l, m, rfl⟩ := spelling_eq member
    exact Scan.bare_rewrite l m
  simp only [TokenKind.pattern, length?_spelled f.spellings visible, Scan.mnemonic_eq,
    findSome?_ite]
  refine if_congr ?_ rfl rfl
  constructor
  · rintro ⟨name, member, whole⟩
    rw [whole, String.ofList_toList]
    exact mem_spellings.1 member
  · intro spelled
    exact ⟨_, mem_spellings.2 spelled, String.toList_ofList.symm⟩

end Mnemonics

end Pattern

namespace TokenKind

theorem length?_pattern (k : TokenKind) (cs : List Char) :
    k.pattern.length? cs = k.measure cs := by
  cases k with
  | leftBracket => exact Pattern.length?_text "["
  | rightBracket => exact Pattern.length?_text "]"
  | comma => exact Pattern.length?_text ","
  | immediate => exact Pattern.length?_immediate
  | register c => exact Pattern.length?_register c
  | mnemonic f => exact Pattern.length?_mnemonic f
  | label => exact Pattern.length?_label
  | identifier => rw [pattern, Pattern.length?_many, CharSet.contains_word, measure]
  | blanks => rw [pattern, Pattern.length?_many, CharSet.contains_blank, measure]
  | stray => rw [pattern, Pattern.length?_many, CharSet.contains_visible, measure]

/-- What a class measures at the start of a string of bytes, each read as the character of its
number. -/
def measureBytes (k : TokenKind) (bytes : List UInt8) : Option Nat :=
  k.measure (bytes.map Char.ofUInt8)

theorem measureBytes_exact (k : TokenKind) (bytes : List UInt8) :
    let text := bytes.map Char.ofUInt8
    k.measureBytes bytes = k.pattern.length? text ∧
      (∀ n, k.measureBytes bytes = some n → n ≤ bytes.length ∧ k.pattern.Matches (text.take n)) ∧
      (k.measureBytes bytes = none ↔ ∀ n ≤ bytes.length, ¬ k.pattern.Matches (text.take n)) := by
  intro text
  have same : k.measureBytes bytes = k.pattern.length? text := (length?_pattern k text).symm
  have length : text.length = bytes.length := List.length_map _
  rw [same, ← length]
  exact ⟨rfl, fun n found => Pattern.length?_matches found, Pattern.length?_eq_none⟩

-- A hexadecimal mark without digits behind it gives way to the zero in front of it.
example : (pattern .immediate).length? "-0xg".toList = some 2 := by decide

end TokenKind

end Legv8
