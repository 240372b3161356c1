import Legv8.Proofs.Token.Bytes
import Legv8.Proofs.Token.Shape

set_option autoImplicit false

namespace Legv8

open Text

namespace TokenKind

variable {k : TokenKind} {c : Char} {cs : List Char} {n : Nat}

theorem not_nullable (k : TokenKind) : k.pattern.nullable = false := by
  cases k with
  | mnemonic f => exact Bool.and_false _
  | register c => cases c <;> rfl
  | _ => rfl

theorem measure_bounds (measured : k.measure cs = some n) : 0 < n ∧ n ≤ cs.length := by
  rw [← length?_pattern] at measured
  obtain ⟨short, whole⟩ := Pattern.length?_matches measured
  refine ⟨Nat.pos_of_ne_zero ?_, short⟩
  rintro rfl
  have empty := Pattern.matches_nil.1 whole
  rw [not_nullable k] at empty
  cases empty

theorem measure_contained (measured : k.measure cs = some n) (member : c ∈ cs.take n) :
    ∃ s ∈ k.pattern.sets, s.contains c = true := by
  rw [← length?_pattern] at measured
  exact (Pattern.length?_matches measured).2.contained c member

def firstBytes? (bytes : List UInt8) : Option (TokenKind × Nat) :=
  all.findSome? fun k => (k.measureBytes bytes).map (k, ·)

theorem firstBytes?_utf8 (cs : List Char) :
    firstBytes? (utf8 cs) = (first? cs).map fun m => (m.1, (utf8 (cs.take m.2)).length) := by
  rw [firstBytes?, first?, List.map_findSome?]
  congr 1
  funext k
  have same : k.measureBytes (utf8 cs) = k.measure (byteChars cs) := rfl
  rw [same, measure_byteChars, Function.comp_apply, Option.map_map, Option.map_map]
  rfl

theorem first?_bounds (first : first? cs = some (k, n)) :
    k.measure cs = some n ∧ 0 < n ∧ n ≤ cs.length := by
  obtain ⟨k', -, own⟩ := List.exists_of_findSome?_eq_some first
  obtain ⟨length, measured, same⟩ := Option.map_eq_some_iff.1 own
  cases same
  exact ⟨measured, measure_bounds measured⟩

theorem take_ne (first : first? cs = some (k, n)) : cs.take n ≠ [] := by
  obtain ⟨-, positive, short⟩ := first?_bounds first
  intro empty
  have length := List.length_take_of_le short
  rw [empty, List.length_nil] at length
  omega

theorem isSpace_of_first? (stuck : first? (c :: cs) = none) : isSpace c = true := by
  have silent := List.findSome?_eq_none_iff.1 stuck .stray (mem_all .stray)
  by_contra visible
  simp [measure, Scan.run, visible, Scan.nonempty] at silent

end TokenKind

namespace Token

variable {k : TokenKind} {c : Char} {cs : List Char} {n : Nat}

theorem scan_first (first : TokenKind.first? cs = some (k, n)) :
    scan cs = (if k = .blanks then [] else [⟨k, String.ofList (cs.take n)⟩]) ++
      scan (cs.drop n) := by
  obtain ⟨-, positive, short⟩ := TokenKind.first?_bounds first
  obtain ⟨n, rfl⟩ := Nat.exists_eq_succ_of_ne_zero positive.ne'
  cases cs with
  | nil => cases short
  | cons c cs =>
    rw [scan, first]
    dsimp only
    split <;> rfl

theorem scan_stuck (stuck : TokenKind.first? (c :: cs) = none) : scan (c :: cs) = scan cs := by
  rw [scan, stuck]

theorem scan_induction {motive : List Char → Prop} (nil : motive [])
    (stuck : ∀ c cs, TokenKind.first? (c :: cs) = none → motive cs → motive (c :: cs))
    (token : ∀ cs k n, TokenKind.first? cs = some (k, n) → motive (cs.drop n) → motive cs)
    (cs : List Char) : motive cs := by
  induction length : cs.length using Nat.strongRecOn generalizing cs with
  | ind length ih =>
    cases cs with
    | nil => exact nil
    | cons c cs =>
      subst length
      cases first : TokenKind.first? (c :: cs) with
      | none => exact stuck c cs first (ih _ (Nat.lt_succ_self _) cs rfl)
      | some m =>
        obtain ⟨-, positive, -⟩ := TokenKind.first?_bounds first
        refine token _ m.1 m.2 first (ih _ ?_ _ rfl)
        rw [List.length_drop, List.length_cons]
        omega

end Token

structure Span where
  kind : TokenKind
  start : Nat
  stop : Nat

namespace Span

/-- Cutting a string of bytes into tokens; a byte where no class begins is passed over. -/
def scan (start : Nat) : List UInt8 → List Span
  | [] => []
  | b :: bytes =>
      match TokenKind.firstBytes? (b :: bytes) with
      | some (k, n + 1) =>
          let rest := scan (start + (n + 1)) (bytes.drop n)
          if k = .blanks then rest else ⟨k, start, start + (n + 1)⟩ :: rest
      | _ => scan (start + 1) bytes
termination_by bytes => bytes.length

def ofLine (line : String) : List Span :=
  scan 0 (bytes line)

-- Both ways to cut a text, with the place among the bytes that they have reached together.
inductive Cuts : Nat → List Char → List Span → List Token → Prop where
  | done {start : Nat} : Cuts start [] [] []
  | skip {start : Nat} {word cs : List Char} {spans : List Span} {tokens : List Token} :
      (∀ c ∈ word, isSpace c = true) → Cuts (start + (utf8 word).length) cs spans tokens →
      Cuts start (word ++ cs) spans tokens
  | token {start : Nat} {k : TokenKind} {word cs : List Char} {spans : List Span}
      {tokens : List Token} :
      k ≠ .blanks → word ≠ [] → Cuts (start + (utf8 word).length) cs spans tokens →
      Cuts start (word ++ cs) (⟨k, start, start + (utf8 word).length⟩ :: spans)
        (⟨k, String.ofList word⟩ :: tokens)

section Steps

variable {start n : Nat} {k : TokenKind} {c : Char} {cs : List Char}

theorem scan_first (first : TokenKind.first? cs = some (k, n)) :
    scan start (utf8 cs) =
      let stop := start + (utf8 (cs.take n)).length
      let rest := scan stop (utf8 (cs.drop n))
      if k = .blanks then rest else ⟨k, start, stop⟩ :: rest := by
  obtain ⟨b, front, shape⟩ := List.exists_cons_of_ne_nil (utf8_ne (TokenKind.take_ne first))
  have whole : utf8 cs = b :: (front ++ utf8 (cs.drop n)) := by
    rw [← List.cons_append, ← shape, ← utf8_append, List.take_append_drop]
  have found := TokenKind.firstBytes?_utf8 cs
  rw [first, Option.map_some, whole, shape, List.length_cons] at found
  rw [whole, scan, found, shape]
  simp only [List.drop_left, List.length_cons]

theorem scan_stuck (stuck : TokenKind.first? (c :: cs) = none) :
    scan start (utf8 (c :: cs)) = scan (start + (utf8 [c]).length) (utf8 cs) := by
  -- What no class begins with is white space, and so it is a single byte.
  have space := TokenKind.isSpace_of_first? stuck
  obtain ⟨b, single, -⟩ := utf8EncodeChar_ascii (isSpace_ascii space)
  have whole : utf8 (c :: cs) = b :: utf8 cs := by rw [utf8, List.flatMap_cons, single]; rfl
  have one : (utf8 [c]).length = 1 := by rw [utf8, List.flatMap_cons, single]; rfl
  have found := TokenKind.firstBytes?_utf8 (c :: cs)
  rw [stuck, Option.map_none, whole] at found
  rw [whole, scan, found, one]

end Steps

theorem cuts (start : Nat) (cs : List Char) :
    Cuts start cs (scan start (utf8 cs)) (Token.scan cs) := by
  -- By induction on the cuts between characters, from any place among the bytes on.
  induction cs using Token.scan_induction generalizing start with
  | nil =>
    rw [utf8, List.flatMap_nil, scan, Token.scan]
    exact .done
  | stuck c cs stuck ih =>
    have space : ∀ d ∈ [c], isSpace d = true :=
      List.forall_mem_singleton.2 (TokenKind.isSpace_of_first? stuck)
    rw [scan_stuck stuck, Token.scan_stuck stuck]
    exact .skip space (ih _)
  | token cs k n first ih =>
    rw [scan_first first, Token.scan_first first]
    by_cases gap : k = .blanks
    · subst gap
      have blank := (Scan.nonempty_run (TokenKind.first?_bounds first).1).2
      have white : ∀ d ∈ cs.take n, isSpace d = true := fun d member =>
        isSpace_of_isBlank (blank d member)
      have step := Cuts.skip white (ih (start + (utf8 (cs.take n)).length))
      rw [List.take_append_drop] at step
      exact step
    · have step := Cuts.token gap (TokenKind.take_ne first)
        (ih (start + (utf8 (cs.take n)).length))
      rw [List.take_append_drop] at step
      simp only [if_neg gap]
      exact step

/-- A token stands in a line where its span says, and there the line can be divided. -/
structure Covers (line : String) (s : Span) (t : Token) : Prop where
  kind : t.kind = s.kind
  place : ∃ before behind : String, line = before ++ t.text ++ behind ∧
    before.utf8ByteSize = s.start ∧ (before ++ t.text).utf8ByteSize = s.stop

variable {start : Nat} {cs : List Char} {spans : List Span} {tokens : List Token}

namespace Cuts

theorem covers (both : Cuts start cs spans tokens) {before : List Char}
    (place : (utf8 before).length = start) :
    List.Forall₂ (Covers (String.ofList (before ++ cs))) spans tokens := by
  induction both generalizing before with
  | done => exact .nil
  | @skip start word cs spans tokens _ _ ih =>
    have next := @ih (before ++ word) (by rw [utf8_append, List.length_append, place])
    rwa [List.append_assoc] at next
  | @token start k word cs spans tokens _ _ _ ih =>
    have next := @ih (before ++ word) (by rw [utf8_append, List.length_append, place])
    rw [List.append_assoc] at next
    refine .cons ⟨rfl, String.ofList before, String.ofList cs, ?_, ?_, ?_⟩ next
    · rw [← String.ofList_append, ← String.ofList_append, List.append_assoc]
    · rw [← utf8_length, String.toList_ofList, place]
    · rw [← utf8_length, ← String.ofList_append, String.toList_ofList, utf8_append,
        List.length_append, place]

theorem start_le (both : Cuts start cs spans tokens) : ∀ s ∈ spans, start ≤ s.start := by
  induction both with
  | done => exact List.forall_mem_nil _
  | skip _ _ ih => exact fun s member => (Nat.le_add_right _ _).trans (ih s member)
  | token _ _ _ ih =>
    exact List.forall_mem_cons.2
      ⟨Nat.le_refl _, fun s member => (Nat.le_add_right _ _).trans (ih s member)⟩

theorem disjoint (both : Cuts start cs spans tokens) :
    spans.Pairwise fun s t => s.stop ≤ t.start := by
  induction both with
  | done => exact .nil
  | skip _ _ ih => exact ih
  | token _ _ rest ih => exact List.pairwise_cons.2 ⟨rest.start_le, ih⟩

theorem nonempty (both : Cuts start cs spans tokens) : ∀ s ∈ spans, s.start < s.stop := by
  induction both with
  | done => exact List.forall_mem_nil _
  | skip _ _ ih => exact ih
  | token _ word _ ih =>
    exact List.forall_mem_cons.2
      ⟨Nat.lt_add_of_pos_right (List.length_pos_iff.2 (utf8_ne word)), ih⟩

theorem not_blanks (both : Cuts start cs spans tokens) : ∀ t ∈ tokens, t.kind ≠ .blanks := by
  induction both with
  | done => exact List.forall_mem_nil _
  | skip _ _ ih => exact ih
  | token kept _ _ ih => exact List.forall_mem_cons.2 ⟨kept, ih⟩

-- What no span covers is white space.
theorem uncovered (both : Cuts start cs spans tokens) {i : Nat} {b : UInt8}
    (present : (utf8 cs)[i]? = some b)
    (outside : ∀ s ∈ spans, start + i < s.start ∨ s.stop ≤ start + i) : b ∈ spaces := by
  induction both generalizing i with
  | done => cases present
  | @skip start word cs spans tokens white _ ih =>
    rw [utf8_append] at present
    by_cases inside : i < (utf8 word).length
    · rw [List.getElem?_append_left inside] at present
      obtain ⟨c, own, encoded⟩ := List.mem_flatMap.1 (List.mem_of_getElem? present)
      exact (mem_spaces_utf8 encoded).2 (white c own)
    · rw [List.getElem?_append_right (Nat.le_of_not_lt inside)] at present
      refine ih present ?_
      rwa [Nat.add_assoc, Nat.add_sub_cancel' (Nat.le_of_not_lt inside)]
  | @token start k word cs spans tokens _ _ _ ih =>
    rw [List.forall_mem_cons] at outside
    rw [utf8_append] at present
    by_cases inside : i < (utf8 word).length
    · have apart : start + i < start ∨ start + (utf8 word).length ≤ start + i := outside.1
      omega
    · rw [List.getElem?_append_right (Nat.le_of_not_lt inside)] at present
      refine ih present ?_
      rw [Nat.add_assoc, Nat.add_sub_cancel' (Nat.le_of_not_lt inside)]
      exact outside.2

end Cuts

end Span

namespace Token

variable {t : Token} {cs : List Char}

theorem sets_visible {k : TokenKind} (other : k.form? = none) (kept : k ≠ .blanks) :
    ∀ s ∈ k.pattern.sets, ∀ c, s.contains c = true → isSpace c = false := by
  have table : ∀ s ∈ k.pattern.sets,
      ([' ', '\t', '\n', '\x0b', '\x0c', '\r'].any s.contains) = false := by
    cases k with
    | mnemonic f => cases other
    | blanks => exact absurd rfl kept
    | register c => cases c <;> decide +kernel
    | _ => decide +kernel
  intro s own c inside
  refine Bool.eq_false_iff.2 fun space => ?_
  have outside := List.any_eq_false.1 (table s own) c
    (by simpa [isSpace, isBlank, or_assoc] using space)
  exact outside inside

theorem text_visible (member : t ∈ scan cs) (kept : t.kind ≠ .blanks) :
    ∃ word blanks : String, t.text = word ++ blanks ∧
      (∀ c ∈ word.toList, isSpace c = false) ∧ (∀ c ∈ blanks.toList, isBlank c = true) ∧
      (blanks ≠ "" → ∃ f, t.kind = .mnemonic f) := by
  obtain ⟨rest, n, measured, text⟩ := mem_scan member
  cases form : t.kind.form? with
  | some f =>
    have kind := TokenKind.form?_eq_some.1 form
    rw [kind] at measured
    obtain ⟨m, l, blanks, -, taken, -, blank⟩ := TokenKind.mnemonic_eq_some measured
    refine ⟨l.rewrite m.name, String.ofList blanks, ?_, fun c present => ?_, ?_, fun _ => ⟨f, kind⟩⟩
    · rw [text, taken, String.ofList_append, String.ofList_toList]
    · exact not_isSpace (Mnemonic.name_graphic l m c present)
    · rwa [String.toList_ofList]
  | none =>
    refine ⟨t.text, "", String.append_empty.symm, fun c present => ?_, by simp,
      fun nonempty => absurd rfl nonempty⟩
    rw [text, String.toList_ofList] at present
    obtain ⟨s, own, inside⟩ := TokenKind.measure_contained measured present
    exact sets_visible form kept s own c inside

/-- The tokens of a line are the texts of disjoint spans of its bytes in order, between which there
is only white space. -/
theorem ofLine_lossless (line : String) :
    List.Forall₂ (Span.Covers line) (Span.ofLine line) (ofLine line) ∧
      (∀ s ∈ Span.ofLine line, s.start < s.stop) ∧
      (Span.ofLine line).Pairwise (fun s t => s.stop ≤ t.start) ∧
      (∀ i b, (bytes line)[i]? = some b →
        (∀ s ∈ Span.ofLine line, i < s.start ∨ s.stop ≤ i) → b ∈ spaces) ∧
      (∀ (k : TokenKind) i n, k.measureBytes ((bytes line).drop i) = some n →
        0 < n ∧ i + n ≤ (bytes line).length) ∧
      ∀ t ∈ ofLine line, t.kind ≠ .blanks ∧ ∃ word blanks : String, t.text = word ++ blanks ∧
        (∀ b ∈ bytes word, b ∉ spaces) ∧ (∀ c ∈ blanks.toList, isBlank c = true) ∧
        (blanks ≠ "" → ∃ f, t.kind = .mnemonic f) := by
  have both : Span.Cuts 0 line.toList (Span.ofLine line) (ofLine line) := by
    rw [Span.ofLine, bytes_eq]
    exact Span.cuts 0 line.toList
  refine ⟨?_, both.nonempty, both.disjoint, fun i b present outside => ?_, fun k i n measured => ?_,
    fun t member => ?_⟩
  · have placed : List.Forall₂ (Span.Covers (String.ofList ([] ++ line.toList)))
        (Span.ofLine line) (ofLine line) := both.covers rfl
    rwa [List.nil_append, String.ofList_toList] at placed
  · rw [bytes_eq] at present
    exact both.uncovered present (by simpa using outside)
  · obtain ⟨positive, short⟩ := TokenKind.measure_bounds measured
    rw [List.length_map, List.length_drop] at short
    omega
  · obtain ⟨word, blanks, text, visible, blank, marked⟩ :=
      text_visible member (both.not_blanks t member)
    refine ⟨both.not_blanks t member, word, blanks, text, fun b own space => ?_, blank, marked⟩
    rw [bytes_eq] at own
    obtain ⟨c, present, encoded⟩ := List.mem_flatMap.1 own
    have white := (mem_spaces_utf8 encoded).1 space
    rw [visible c present] at white
    cases white

end Token

end Legv8
