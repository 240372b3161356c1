import Legv8.Line
import Legv8.Proofs.Outcome
import Legv8.Proofs.Token.Scan

set_option autoImplicit false

namespace Legv8

namespace Scan

variable {cs : List Char} {n : Nat}

theorem nonempty_eq_some {k : Nat} : nonempty n = some k ↔ n ≠ 0 ∧ k = n := by
  unfold nonempty
  split
  next zero => simp [zero]
  next positive => simp [positive, eq_comm]

theorem take_run {p : Char → Bool} : ∀ c ∈ cs.take (run p cs), p c = true := by
  have whole : cs.take (run p cs) = cs.takeWhile p :=
    (List.prefix_iff_eq_take.1 (List.takeWhile_prefix p)).symm
  rw [whole]
  exact fun c member => List.mem_takeWhile_imp member

def IsRun (p : Char → Bool) (cs : List Char) : Prop :=
  cs ≠ [] ∧ ∀ c ∈ cs, p c = true

theorem nonempty_run {p : Char → Bool} (read : nonempty (run p cs) = some n) :
    IsRun p (cs.take n) := by
  obtain ⟨positive, rfl⟩ := nonempty_eq_some.1 read
  refine ⟨fun empty => positive ?_, take_run⟩
  have length : (cs.take (run p cs)).length = run p cs :=
    List.length_take_of_le (List.takeWhile_prefix p).length_le
  rw [← length, empty, List.length_nil]

theorem mnemonic_eq_some {m : Mnemonic} (read : mnemonic m cs = some n) :
    ∃ (l : Letters) (blanks : List Char), cs.take n = (l.rewrite m.name).toList ++ blanks ∧
      IsRun Text.isBlank blanks := by
  rw [mnemonic_eq] at read
  split at read
  next spelled =>
    obtain ⟨l, same⟩ := Mnemonic.spells_iff.1 spelled
    obtain ⟨k, counted, rfl⟩ := Option.map_eq_some_iff.1 read
    have word : cs.take (firstWord cs).length = (l.rewrite m.name).toList := by
      rw [← same, String.toList_ofList]
      exact (List.prefix_iff_eq_take.1 (List.takeWhile_prefix _)).symm
    exact ⟨l, _, by rw [List.take_add, word], nonempty_run counted⟩
  next => cases read

end Scan

namespace TokenKind

theorem form?_eq_some {k : TokenKind} {f : Form} : k.form? = some f ↔ k = .mnemonic f := by
  cases k <;> simp [form?]

theorem mnemonic_eq_some {f : Form} {cs : List Char} {n : Nat}
    (measured : (mnemonic f).measure cs = some n) :
    ∃ (m : Mnemonic) (l : Letters) (blanks : List Char), m.form = f ∧
      cs.take n = (l.rewrite m.name).toList ++ blanks ∧ Scan.IsRun Text.isBlank blanks := by
  obtain ⟨m, own, read⟩ := List.exists_of_findSome?_eq_some measured
  obtain ⟨l, blanks, taken, run⟩ := Scan.mnemonic_eq_some read
  exact ⟨m, l, blanks, by simpa using (List.mem_filter.1 own).2, taken, run⟩

end TokenKind

namespace Token

variable {cs : List Char} {t : Token}

theorem mem_scan (member : t ∈ scan cs) :
    ∃ rest n, t.kind.measure rest = some n ∧ t.text = String.ofList (rest.take n) := by
  fun_induction scan cs with
  | case1 => cases member
  | case2 c cs n first rest ih => exact ih member
  | case3 c cs k n first rest kept ih =>
    rcases List.mem_cons.1 member with rfl | later
    · obtain ⟨k', -, own⟩ := List.exists_of_findSome?_eq_some first
      obtain ⟨length, measured, same⟩ := Option.map_eq_some_iff.1 own
      cases same
      exact ⟨c :: cs, n + 1, measured, rfl⟩
    · exact ih later
  | case4 c cs other ih => exact ih member

theorem ofName?_trim {f : Form} (member : t ∈ scan cs) (kind : t.kind = .mnemonic f) :
    ∃ m, Mnemonic.ofName? (Text.trim t.text) = some m ∧ m.form = f := by
  obtain ⟨rest, n, measured, text⟩ := mem_scan member
  rw [kind] at measured
  -- The token ends in the blanks that kept it from being a word; trimming takes them off again.
  obtain ⟨m, l, blanks, form, shape, -, blank⟩ := TokenKind.mnemonic_eq_some measured
  have white : ∀ c ∈ blanks, Text.isWhiteSpace c = true := fun c member =>
    Text.isWhiteSpace_of_isSpace (Text.isSpace_of_isBlank (blank c member))
  refine ⟨m, ?_, form⟩
  rw [text, shape, Text.trim, String.toList_ofList,
    Text.trimChars_word (Mnemonic.name_graphic l m) white, String.ofList_toList,
    Mnemonic.ofName?_rewrite]

end Token

namespace SourceLine

def form? (line : SourceLine) : Option Form :=
  line.tokens.findSome? fun t => t.kind.form?

variable {text : String} {line : SourceLine}

theorem analyse_eq_ok (analysed : analyse text = .ok line) :
    line = ofTokens text (Token.ofLine text) := by
  unfold analyse at analysed
  split at analysed
  next empty =>
    rw [empty]
    exact (Except.ok.inj analysed).symm
  next t ts tokens =>
    simp only [bind_eq_ok, pure_eq_ok] at analysed
    obtain ⟨_, -, rfl⟩ := analysed
    rw [tokens]

theorem ofTokens_tokens_eq (text : String) (tokens : List Token) :
    (ofTokens text tokens).tokens = tokens := by
  unfold ofTokens
  split <;> rfl

theorem ofTokens_text (text text' : String) (tokens : List Token) :
    ofTokens text' tokens = { ofTokens text tokens with text := text' } := by
  unfold ofTokens
  split <;> rfl

-- Nothing but the text of a line is taken from anything else than its tokens.
theorem analyse_congr {text' : String} (same : Token.ofLine text' = Token.ofLine text) :
    analyse text' = (analyse text).map fun line => { line with text := text' } := by
  unfold analyse
  rw [same]
  split
  next => rfl
  next t ts _ =>
    cases checkLine (t :: ts) with
    | error e => rfl
    | ok _ => exact congrArg Except.ok (ofTokens_text text text' (t :: ts))

theorem instructionTokens_head? (tokens : List Token) :
    ((instructionTokens tokens).head?.bind fun t => t.kind.form?) =
      tokens.findSome? fun t => t.kind.form? := by
  induction tokens with
  | nil => rfl
  | cons t ts ih =>
    rw [instructionTokens, List.dropWhile_cons, List.findSome?_cons]
    cases form : t.kind.form? with
    | none => simpa [form, instructionTokens] using ih
    | some f => simp [form]

theorem mnemonic_form (analysed : analyse text = .ok line) :
    line.mnemonic.map Mnemonic.form = line.form? := by
  obtain rfl := analyse_eq_ok analysed
  rw [form?, ofTokens_tokens_eq, ← instructionTokens_head?, ofTokens]
  cases tokens : instructionTokens (Token.ofLine text) with
  | nil => rfl
  | cons t ts =>
    have member : t ∈ Token.ofLine text := by
      apply (List.dropWhile_suffix fun t => t.kind.form?.isNone).subset
      rw [← instructionTokens, tokens]
      exact List.mem_cons_self
    have opens : t.kind.form?.isNone = false := by
      have head := List.head?_dropWhile_not (fun t => t.kind.form?.isNone) (Token.ofLine text)
      rw [← instructionTokens, tokens] at head
      simpa using head
    obtain ⟨f, form⟩ := Option.isSome_iff_exists.1 (Option.isNone_eq_false_iff.1 opens)
    obtain ⟨m, read, same⟩ := Token.ofName?_trim member (TokenKind.form?_eq_some.1 form)
    simp [read, same, form]

end SourceLine

end Legv8
