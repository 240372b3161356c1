import Legv8.Proofs.Line.Grammar
import Legv8.Proofs.Token.Word

set_option autoImplicit false

namespace Legv8

theorem forall₂_getLast? {α β : Type} {R : α → β → Prop} {xs : List α} {ys : List β}
    (pairs : List.Forall₂ R xs ys) {x : α} (last : x ∈ xs.getLast?) :
    ∃ y ∈ ys.getLast?, R x y := by
  have reversed := List.forall₂_reverse_iff.2 pairs
  rw [← List.head?_reverse] at last
  obtain ⟨rest, shape⟩ := List.head?_eq_some_iff.1 last
  rw [shape] at reversed
  obtain ⟨y, ys', related, -, behind⟩ := List.forall₂_cons_left_iff.1 reversed
  refine ⟨y, ?_, related⟩
  rw [← List.head?_reverse, behind]
  rfl

theorem Slot.Fits.not_stray {c : RegisterClass} {slot : Slot} {t : Token} (fits : slot.Fits c t) :
    t.kind ≠ .stray := by
  intro stray
  cases slot <;> simp [Fits, stray] at fits

theorem Form.Operands.not_stray {f : Form} {tokens : List Token} (operands : f.Operands tokens) :
    ∀ t ∈ tokens, t.kind ≠ .stray := by
  obtain ⟨slots, -, fits⟩ := operands
  induction fits with
  | nil => exact List.forall_mem_nil _
  | cons fit _ ih => exact List.forall_mem_cons.2 ⟨fit.not_stray, ih⟩

theorem Form.Operands.last {f : Form} {tokens : List Token} (operands : f.Operands tokens) :
    ∃ t ∈ tokens.getLast?, t.kind.form? = none := by
  have table : ∀ f ∈ Form.all, ∀ slots ∈ f.sequences,
      ∃ slot ∈ slots.getLast?, slot ≠ Slot.shift := by
    decide
  obtain ⟨slots, present, fits⟩ := operands
  obtain ⟨slot, last, other⟩ := table f f.mem_all slots present
  obtain ⟨t, final, fit⟩ := forall₂_getLast? fits last
  refine ⟨t, final, ?_⟩
  cases slot with
  | shift => exact absurd rfl other
  | _ =>
    rw [show t.kind = _ from fit]
    rfl

namespace Grammatical

variable {tokens : List Token}

theorem not_stray (grammatical : Grammatical tokens) : ∀ t ∈ tokens, t.kind ≠ .stray := by
  cases grammatical with
  | label label => simp [label]
  | instruction kind operands => simpa [kind] using operands.not_stray
  | labelled label kind operands => simpa [label, kind] using operands.not_stray

theorem last (grammatical : Grammatical tokens) : ∃ t ∈ tokens.getLast?, t.kind.form? = none := by
  have longer {t u : Token} {ts : List Token} (final : t ∈ ts.getLast?) :
      t ∈ (u :: ts).getLast? := by
    rw [Option.mem_def] at final
    rw [Option.mem_def, List.getLast?_cons, final, Option.getD_some]
  cases grammatical with
  | @label l label =>
    refine ⟨l, rfl, ?_⟩
    rw [label]
    rfl
  | instruction kind operands =>
    obtain ⟨t, final, plain⟩ := operands.last
    exact ⟨t, longer final, plain⟩
  | labelled label kind operands =>
    obtain ⟨t, final, plain⟩ := operands.last
    exact ⟨t, longer (longer final), plain⟩

end Grammatical

open TokenKind (Lone)

namespace Token

variable {cs gap word : List Char} {front : List Token}

def Accepted (tokens : List Token) : Prop :=
  tokens = [] ∨ Grammatical tokens

theorem Accepted.last {tokens : List Token} (accepted : Accepted tokens) {t : Token}
    (final : tokens.getLast? = some t) : t.kind.form? = none := by
  rcases accepted with rfl | grammatical
  · cases final
  · obtain ⟨u, same, plain⟩ := grammatical.last
    obtain rfl : t = u := Option.some.inj (final.symm.trans same)
    exact plain

theorem not_accepted_mnemonic (m : Mnemonic) (text : String) :
    ¬ Accepted (front ++ [⟨.mnemonic m.form, text⟩]) := by
  intro accepted
  have plain := accepted.last List.getLast?_concat
  cases plain

theorem scan_name (m : Mnemonic) (l : Letters) :
    scan (l.rewrite m.name).toList = [⟨.identifier, l.rewrite m.name⟩] ∨
      ∃ t ∈ scan (l.rewrite m.name).toList, t.kind = .stray := by
  -- The names of the conditional branches have dots in them; the others are words.
  have table : ∀ m ∈ Mnemonic.all, ∀ l ∈ [Letters.capitals, .small],
      ((m.name.toList.map l.write).all Scan.isWord = true ∧
        ∀ k ∈ TokenKind.operands, k.measure (m.name.toList.map l.write) = none) ∨
      '.' ∈ m.name.toList.map l.write := by
    decide +kernel
  have cases := table m m.mem_all l (by cases l <;> decide)
  rw [← Letters.toList_rewrite] at cases
  rcases cases with ⟨letters, silent⟩ | dotted
  · left
    obtain ⟨a, cs, name⟩ := Mnemonic.name_head l m
    have run : Scan.IsRun Scan.isWord (l.rewrite m.name).toList :=
      ⟨by simp [name], List.all_eq_true.1 letters⟩
    have plain : ¬ OpensOperand (l.rewrite m.name).toList := by
      rw [TokenKind.opensOperand_iff (TokenKind.head_word run)]
      rintro ⟨k, own, read⟩
      rw [silent k own] at read
      cases read
    rw [scan_identifier run plain, String.ofList_toList]
  · right
    refine scan_dotted (fun c member => ?_) dotted
    exact Text.not_isBlank (Mnemonic.name_graphic l m c member)

-- At the end of an accepted line a mnemonic can only be an operand.
theorem scan_lone (alone : Lone word) (accepted : Accepted (front ++ scan word)) :
    ∃ (m : Mnemonic) (l : Letters), word = (l.rewrite m.name).toList ∧
      scan word = [⟨.identifier, l.rewrite m.name⟩] := by
  obtain @⟨m, l, blanks, blank⟩ := alone
  by_cases bare : blanks = []
  · subst bare
    rw [List.append_nil] at accepted ⊢
    refine ⟨m, l, rfl, (scan_name m l).resolve_right ?_⟩
    rintro ⟨t, member, stray⟩
    rcases accepted with empty | grammatical
    · rw [(List.append_eq_nil_iff.1 empty).2] at member
      cases member
    · exact grammatical.not_stray t (List.mem_append_right front member) stray
  · rw [scan_mnemonic_end m l ⟨bare, blank, by simp⟩] at accepted
    exact absurd accepted (not_accepted_mnemonic m _)

theorem takeWhile_behind {before white : List Char} (nonempty : word ≠ [])
    (graphic : ∀ c ∈ word, Text.isGraphic c = true) (space : ∀ c ∈ white, Text.isSpace c = true) :
    (before ++ word ++ white).reverse.takeWhile Text.isSpace = white.reverse := by
  have reversed : word.reverse ≠ [] := mt List.reverse_eq_nil_iff.1 nonempty
  obtain ⟨d, rest, shape⟩ := List.exists_cons_of_ne_nil reversed
  have member : d ∈ word := List.mem_reverse.1 (by simp [shape])
  have visible := Text.not_isSpace (graphic d member)
  rw [List.reverse_append, List.reverse_append, shape, List.takeWhile_append_of_pos,
    List.cons_append, List.takeWhile_cons_of_neg (by simp [visible]), List.append_nil]
  exact fun c member => space c (List.mem_reverse.1 member)

-- Blanks make a mnemonic of a name that is spelled like one.
theorem scan_spelled {m : Mnemonic} {l : Letters} (between : Scan.Gap gap [])
    (last : (scan cs).getLast? = some ⟨.identifier, l.rewrite m.name⟩)
    (ends : (l.rewrite m.name).toList <:+ cs) : scan (cs ++ gap) ≠ scan cs := by
  intro same
  rw [← same] at last
  obtain ⟨front, behind, shape, first, white⟩ := scan_getLast? last
  obtain ⟨before, rfl⟩ := ends
  -- The name ends in a visible character, so the blanks are all that stands behind it.
  obtain rfl : behind = gap := by
    obtain ⟨a, letters, name⟩ := Mnemonic.name_head l m
    have nonempty : (l.rewrite m.name).toList ≠ [] := by simp [name]
    have graphic := Mnemonic.name_graphic l m
    have blank : ∀ c ∈ gap, Text.isSpace c = true := fun c member =>
      Text.isSpace_of_isBlank (between.blank c member)
    rw [← List.append_assoc] at shape
    rw [← List.reverse_inj, ← takeWhile_behind nonempty graphic white, ← shape,
      takeWhile_behind nonempty graphic blank]
  have other := TokenKind.first?_mnemonic m l between
  rw [List.append_nil] at other
  cases other.symm.trans first

theorem accepted_gap_iff (accepted : Accepted (scan cs))
    (blank : ∀ c ∈ gap, Text.isBlank c = true) :
    Accepted (scan (cs ++ gap)) ↔ scan (cs ++ gap) = scan cs := by
  constructor
  · intro longer
    rcases scan_gap blank cs with same | ⟨front, word, -, alone, cut, whole⟩
    · exact same
    · by_cases empty : gap = []
      · rw [empty, List.append_nil]
      · rw [cut] at accepted
        obtain ⟨m, l, rfl, -⟩ := scan_lone alone accepted
        rw [whole, scan_mnemonic_end m l ⟨empty, blank, by simp⟩] at longer
        exact absurd longer (not_accepted_mnemonic m _)
  · intro same
    rwa [same]

theorem scan_gap_ne_iff (accepted : Accepted (scan cs))
    (blank : ∀ c ∈ gap, Text.isBlank c = true) :
    scan (cs ++ gap) ≠ scan cs ↔ gap ≠ [] ∧ ∃ (m : Mnemonic) (l : Letters),
      (scan cs).getLast? = some ⟨.identifier, l.rewrite m.name⟩ ∧
        (l.rewrite m.name).toList <:+ cs := by
  constructor
  · intro changed
    rcases scan_gap blank cs with same | ⟨front, word, ends, alone, cut, -⟩
    · exact absurd same changed
    · rw [cut] at accepted
      obtain ⟨m, l, rfl, name⟩ := scan_lone alone accepted
      refine ⟨?_, m, l, ?_, ends⟩
      · rintro rfl
        exact changed (by rw [List.append_nil])
      · rw [cut, name, List.getLast?_concat]
  · rintro ⟨nonempty, m, l, last, ends⟩
    exact scan_spelled ⟨nonempty, blank, by simp⟩ last ends

end Token

namespace SourceLine

variable {text blanks : String} {line : SourceLine} {tokens : List Token}

-- The last word of the line is its label operand and is spelled like a mnemonic.
def EndsInMnemonic (line : SourceLine) : Prop :=
  ∃ (m : Mnemonic) (name : String), m.spells name = true ∧
    line.tokens.getLast? = some ⟨.identifier, name⟩ ∧ name.toList <:+ line.text.toList

theorem analyse_eq_ok_iff : analyse text = .ok line ↔
    Token.Accepted (Token.ofLine text) ∧ line = ofTokens text (Token.ofLine text) := by
  unfold analyse Token.Accepted
  split
  next empty =>
    rw [empty]
    constructor
    · intro accepted
      exact ⟨.inl rfl, (Except.ok.inj accepted).symm⟩
    · rintro ⟨-, rfl⟩
      rfl
  next t ts tokens =>
    rw [tokens, ← LineState.accepts_start, ← LineState.checkLine_eq_ok]
    simp only [bind_eq_ok, pure_eq_ok]
    constructor
    · rintro ⟨_, passes, rfl⟩
      exact ⟨.inr passes, rfl⟩
    · rintro ⟨none | passes, rfl⟩
      · cases none
      · exact ⟨(), passes, rfl⟩

theorem endsInMnemonic_iff : (ofTokens text tokens).EndsInMnemonic ↔
    ∃ (m : Mnemonic) (l : Letters), tokens.getLast? = some ⟨.identifier, l.rewrite m.name⟩ ∧
      (l.rewrite m.name).toList <:+ text.toList := by
  have own : (ofTokens text tokens).text = text := by
    unfold ofTokens
    split <;> rfl
  rw [EndsInMnemonic, ofTokens_tokens_eq, own]
  constructor
  · rintro ⟨m, name, spelled, last, ends⟩
    obtain ⟨l, rfl⟩ := Mnemonic.spells_iff.1 spelled
    exact ⟨m, l, last, ends⟩
  · rintro ⟨m, l, last, ends⟩
    exact ⟨m, _, Mnemonic.spells_iff.2 ⟨l, rfl⟩, last, ends⟩

/-- Blanks behind an accepted line change nothing but its text, or the line is rejected with them:
it is where its last word is a label operand that is spelled like a mnemonic. -/
theorem trailing_blanks (accepted : analyse text = .ok line)
    (blank : ∀ c ∈ blanks.toList, Text.isBlank c = true) :
    (∀ extended, analyse (text ++ blanks) = .ok extended →
      extended = { line with text := text ++ blanks }) ∧
    ((∃ extended, analyse (text ++ blanks) = .ok extended) ↔
      blanks = "" ∨ ¬ line.EndsInMnemonic) := by
  obtain ⟨well, rfl⟩ := analyse_eq_ok_iff.1 accepted
  have both : Token.ofLine (text ++ blanks) = Token.scan (text.toList ++ blanks.toList) := by
    rw [Token.ofLine, String.toList_append]
  have kept := Token.accepted_gap_iff well blank
  have changed := Token.scan_gap_ne_iff well blank
  rw [← both, ← Token.ofLine] at kept changed
  have same : Token.ofLine (text ++ blanks) = Token.ofLine text ↔
      blanks = "" ∨ ¬ (ofTokens text (Token.ofLine text)).EndsInMnemonic := by
    rw [endsInMnemonic_iff, ← String.toList_inj, String.toList_empty, ← not_iff_not, ← ne_eq,
      changed, not_or, not_not]
  constructor
  · intro extended longer
    obtain ⟨accepts, rfl⟩ := analyse_eq_ok_iff.1 longer
    rw [kept.1 accepts, ofTokens_text text]
  · rw [← same, ← kept]
    constructor
    · rintro ⟨extended, longer⟩
      exact (analyse_eq_ok_iff.1 longer).1
    · intro accepts
      exact ⟨_, analyse_eq_ok_iff.2 ⟨accepts, rfl⟩⟩

-- A carriage return keeps a label operand apart from the blanks.
theorem trailing_blanks_carriage_return :
    let text := "loop: CBNZ X1, sub\r"
    let blanks := " \t"
    ∃ line, analyse text = .ok line ∧ (∀ c ∈ blanks.toList, Text.isBlank c = true) ∧
      (∀ extended, analyse (text ++ blanks) = .ok extended →
        extended = { line with text := text ++ blanks }) ∧
      ((∃ extended, analyse (text ++ blanks) = .ok extended) ↔
        blanks = "" ∨ ¬ line.EndsInMnemonic) := by
  intro text blanks
  have accepted : analyse text = .ok (ofTokens text (Token.ofLine text)) := by decide +kernel
  have blank : ∀ c ∈ blanks.toList, Text.isBlank c = true := List.all_eq_true.1 (by decide)
  exact ⟨_, accepted, blank, trailing_blanks accepted blank⟩

theorem blanks_make_mnemonic :
    analyse "B add" = .ok ⟨"B add", [⟨.mnemonic .l, "B "⟩, ⟨.identifier, "add"⟩], none,
        some .b, ["add"]⟩ ∧
      (∀ c ∈ " ".toList, Text.isBlank c = true) ∧
      analyse ("B add" ++ " ") = .error (.invalidToken "IDENTIFIER" "add ") :=
  and_left_comm.1 ⟨List.all_eq_true.1 (by decide), by decide +kernel⟩

end SourceLine

end Legv8
