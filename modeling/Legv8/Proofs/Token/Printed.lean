import Legv8.Proofs.Token.Scan

set_option autoImplicit false

namespace Legv8

namespace Token

inductive Printed (l : Letters) : Token → Prop
  | leftBracket : Printed l ⟨.leftBracket, "["⟩
  | rightBracket : Printed l ⟨.rightBracket, "]"⟩
  | comma : Printed l ⟨.comma, ","⟩
  | immediate (v : Int) : Printed l ⟨.immediate, "#" ++ toString v⟩
  | register (c : RegisterClass) (r : Reg) : Printed l ⟨.register c, l.rewrite (c.registerName r)⟩
  | mnemonic (m : Mnemonic) : Printed l ⟨.mnemonic m.form, l.rewrite m.name ++ " "⟩

def written (t : Token) : String :=
  if t.kind = .comma then t.text ++ " " else t.text

def isOperand (t : Token) : Bool :=
  match t.kind with
  | .immediate | .register _ => true
  | _ => false

def Separated (t u : Token) : Prop :=
  t.isOperand = true → u.kind = .comma ∨ u.kind = .rightBracket

structure Apart (t : Token) (rest : List Char) : Prop where
  visible : ∀ c ∈ rest.head?, Text.isBlank c = false
  closed : t.isOperand = true → Scan.Closed rest

variable {l : Letters} {t u : Token} {rest : List Char}

theorem scan_kept {k : TokenKind} {text : String} (kept : k ≠ .blanks) (nonempty : text ≠ "")
    (first : TokenKind.first? (text.toList ++ rest) = some (k, text.toList.length)) :
    scan (text.toList ++ rest) = ⟨k, text⟩ :: scan rest := by
  cases shape : text.toList with
  | nil => exact absurd (String.toList_inj.1 shape) nonempty
  | cons c cs =>
    rw [shape, List.cons_append, List.length_cons] at first
    have whole : String.ofList (c :: cs) = text := by rw [← shape, String.ofList_toList]
    rw [List.cons_append, scan, first]
    simp [kept, whole]

theorem scan_blank (apart : ∀ c ∈ rest.head?, Text.isBlank c = false) :
    scan (' ' :: rest) = scan rest := by
  have first := TokenKind.first?_blanks (Scan.Gap.single apart)
  rw [List.singleton_append, List.length_singleton] at first
  rw [scan, first]
  simp

-- A printed token is a visible word, and only a mnemonic has a blank behind it.
theorem Printed.word (printed : Printed l t) :
    ∃ word, (∀ c ∈ word.toList, Text.isGraphic c = true) ∧
      (t.text = word ∨ ∃ f, t.kind = .mnemonic f ∧ t.text = word ++ " ") := by
  cases printed with
  | leftBracket => exact ⟨"[", List.forall_mem_singleton.2 rfl, .inl rfl⟩
  | rightBracket => exact ⟨"]", List.forall_mem_singleton.2 rfl, .inl rfl⟩
  | comma => exact ⟨",", List.forall_mem_singleton.2 rfl, .inl rfl⟩
  | immediate v => exact ⟨_, Operand.immediate_graphic v, .inl rfl⟩
  | register c r => exact ⟨_, RegisterClass.registerName_graphic l c r, .inl rfl⟩
  | mnemonic m => exact ⟨_, Mnemonic.name_graphic l m, .inr ⟨m.form, rfl, rfl⟩⟩

theorem Printed.head (printed : Printed l t) :
    ∃ c cs, t.text.toList = c :: cs ∧ Text.isBlank c = false ∧
      (t.kind = .comma ∨ t.kind = .rightBracket → c = ',' ∨ c = ']') := by
  cases printed with
  | leftBracket => exact ⟨'[', [], rfl, rfl, by simp⟩
  | rightBracket => exact ⟨']', [], rfl, rfl, fun _ => .inr rfl⟩
  | comma => exact ⟨',', [], rfl, rfl, fun _ => .inl rfl⟩
  | immediate v =>
    refine ⟨'#', (toString v).toList, ?_, rfl, by simp⟩
    rw [String.toList_append]
    rfl
  | register c r =>
    obtain ⟨a, cs, shape, -⟩ := RegisterClass.registerName_letter l c r
    have visible := RegisterClass.registerName_graphic l c r a (by simp [shape])
    exact ⟨a, cs, shape, Text.not_isBlank visible, by simp⟩
  | mnemonic m =>
    obtain ⟨a, cs, shape⟩ := Mnemonic.name_head l m
    have visible := Mnemonic.name_graphic l m a (by simp [shape])
    refine ⟨a, cs ++ [' '], ?_, Text.not_isBlank visible, by simp⟩
    rw [String.toList_append, shape]
    rfl

theorem Printed.visible (printed : Printed l t) :
    ∀ c ∈ t.written.toList, Text.isGraphic c = true ∨ c = ' ' := by
  obtain ⟨word, graphic, text⟩ := printed.word
  have shown : ∀ c ∈ t.text.toList, Text.isGraphic c = true ∨ c = ' ' := by
    intro c member
    rcases text with same | ⟨f, -, same⟩
    · exact .inl (graphic c (same ▸ member))
    · rw [same, String.toList_append, List.mem_append] at member
      exact member.imp (graphic c) (by simp)
  intro c member
  unfold written at member
  split at member
  · rw [String.toList_append, List.mem_append] at member
    rcases member with member | gap
    · exact shown c member
    · exact .inr (by simpa using gap)
  · exact shown c member

theorem scan_written (printed : Printed l t) (apart : t.Apart rest) :
    scan (t.written.toList ++ rest) = t :: scan rest := by
  have nonempty : t.text ≠ "" := by
    obtain ⟨c, cs, shape, -⟩ := printed.head
    rintro empty
    simp [empty] at shape
  cases printed with
  | leftBracket => exact scan_kept (by decide) nonempty TokenKind.first?_leftBracket
  | rightBracket => exact scan_kept (by decide) nonempty TokenKind.first?_rightBracket
  | comma =>
    have text : (written ⟨.comma, ","⟩).toList ++ rest = ",".toList ++ ' ' :: rest := rfl
    rw [text, scan_kept (by decide) nonempty TokenKind.first?_comma, scan_blank apart.visible]
  | immediate v =>
    exact scan_kept (by decide) nonempty (TokenKind.first?_immediate v (apart.closed rfl))
  | register c r =>
    exact scan_kept (by simp) nonempty (TokenKind.first?_register l c r (apart.closed rfl))
  | mnemonic m =>
    have text : (written ⟨.mnemonic m.form, l.rewrite m.name ++ " "⟩) =
        l.rewrite m.name ++ " " := rfl
    rw [text]
    refine scan_kept (by simp) nonempty ?_
    have gap : (l.rewrite m.name ++ " ").toList = (l.rewrite m.name).toList ++ [' '] := by
      rw [String.toList_append]
      rfl
    rw [gap, List.append_assoc, List.length_append]
    exact TokenKind.first?_mnemonic m l (Scan.Gap.single apart.visible)

theorem toList_written (t : Token) : ∃ gap, t.written.toList = t.text.toList ++ gap := by
  unfold written
  split
  · exact ⟨[' '], by rw [String.toList_append]; rfl⟩
  · exact ⟨[], by rw [List.append_nil]⟩

theorem Printed.apart (printed : Printed l u) (separated : t.Separated u) :
    t.Apart (u.written.toList ++ rest) := by
  obtain ⟨c, cs, shape, visible, ends⟩ := printed.head
  obtain ⟨gap, text⟩ := toList_written u
  have first : (u.written.toList ++ rest).head? = some c := by
    rw [text, shape]
    rfl
  constructor
  · rw [first]
    rintro d ⟨⟩
    exact visible
  · intro operand
    rw [Scan.Closed, first]
    rintro d ⟨⟩
    exact ends (separated operand)

theorem scan_line (tokens : List Token) (printed : ∀ t ∈ tokens, Printed l t)
    (separated : tokens.IsChain Separated) :
    scan (tokens.flatMap fun t => t.written.toList) = tokens := by
  -- By induction on the tokens: the next token starts the rest of the text and keeps it apart.
  induction tokens with
  | nil => simp [scan]
  | cons t tokens ih =>
    have rest := ih (fun u member => printed u (List.mem_cons_of_mem t member)) separated.of_cons
    have apart : t.Apart (tokens.flatMap fun t => t.written.toList) := by
      cases tokens with
      | nil => exact ⟨by simp, by simp [Scan.Closed]⟩
      | cons u tokens =>
        rw [List.flatMap_cons]
        exact (printed u (by simp)).apart (List.isChain_cons_cons.1 separated).1
    rw [List.flatMap_cons, scan_written (printed t List.mem_cons_self) apart, rest]

end Token

end Legv8
