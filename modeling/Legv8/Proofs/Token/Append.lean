import Legv8.Proofs.Token.Span

/-!
Texts that go on. What an expression matches at the start of a text is what it matches at the start
of a longer one, as far as that ends within the text. So something behind a text changes its tokens
only where a token reaches into it: a line break is in no token, and blanks are taken only by other
blanks and by the name of a mnemonic in front of them.
-/

set_option autoImplicit false

namespace Legv8

open Text

namespace Pattern

theorem flatMap_filter {α β : Type} {P : α → Bool} {Q : β → Bool} {f g : α → List β}
    (inside : ∀ a, P a = true → f a = (g a).filter Q)
    (outside : ∀ a, P a = false → (g a).filter Q = []) (xs : List α) :
    (xs.filter P).flatMap f = (xs.flatMap g).filter Q := by
  induction xs with
  | nil => rfl
  | cons x xs ih =>
    rw [List.flatMap_cons, List.filter_append, ← ih]
    cases first : P x with
    | true => rw [List.filter_cons_of_pos first, List.flatMap_cons, inside x first]
    | false =>
      rw [List.filter_cons_of_neg (by simp [first]), outside x first, List.nil_append]

theorem repeats_eq_filter (s : CharSet) (cs ds : List Char) :
    repeats s cs = (repeats s (cs ++ ds)).filter (· ≤ cs.length) := by
  induction cs with
  | nil =>
    refine (List.filter_eq_nil_iff.2 fun n member => ?_).symm
    obtain ⟨-, taken, -⟩ := mem_repeats.1 member
    rw [List.length_nil, decide_eq_true_eq, Nat.le_zero]
    rintro rfl
    exact taken List.take_zero
  | cons c cs ih =>
    rw [List.cons_append, repeats, repeats]
    split
    next inside =>
      rw [ih, List.filter_append, List.filter_map]
      simp [Function.comp_def]
    next => rfl

theorem lengths_eq_filter (p : Pattern) (cs ds : List Char) :
    p.lengths cs = (p.lengths (cs ++ ds)).filter (· ≤ cs.length) := by
  induction p generalizing cs with
  | empty => simp [lengths]
  | one s =>
    cases cs with
    | nil =>
      cases ds with
      | nil => rfl
      | cons d ds =>
        rw [lengths, lengths, List.nil_append, List.head?_nil, List.head?_cons, Option.any_some]
        cases s.contains d <;> rfl
    | cons c cs =>
      rw [lengths, lengths, List.cons_append, List.head?_cons, List.head?_cons]
      split <;> simp
  | many s => exact repeats_eq_filter s cs ds
  | seq p q ihp ihq =>
    rw [lengths, lengths, ihp cs]
    refine flatMap_filter (fun n short => ?_) (fun n long => ?_) _
    · have short : n ≤ cs.length := of_decide_eq_true short
      rw [ihq (cs.drop n), List.filter_map, List.drop_append_of_le_length short]
      congr 2
      funext k
      rw [Function.comp_apply, List.length_drop, decide_eq_decide]
      omega
    · have long : ¬ n ≤ cs.length := of_decide_eq_false long
      refine List.filter_eq_nil_iff.2 fun k member => ?_
      obtain ⟨k, -, rfl⟩ := List.mem_map.1 member
      rw [decide_eq_true_eq]
      omega
  | either p q ihp ihq => rw [lengths, lengths, List.filter_append, ← ihp, ← ihq]

theorem length?_append {p : Pattern} {cs ds : List Char}
    (within : ∀ n, p.length? (cs ++ ds) = some n → n ≤ cs.length) :
    p.length? (cs ++ ds) = p.length? cs := by
  rw [length?] at within
  rw [length?, length?, lengths_eq_filter p cs ds]
  cases found : p.lengths (cs ++ ds) with
  | nil => rfl
  | cons n ns =>
    have short : n ≤ cs.length := within n (by rw [found, List.head?_cons])
    rw [List.filter_cons, if_pos (decide_eq_true short), List.head?_cons, List.head?_cons]

end Pattern

namespace TokenKind

variable {k : TokenKind} {c : Char} {cs ds : List Char} {n : Nat}

theorem measure_append (within : ∀ n, k.measure (cs ++ ds) = some n → n ≤ cs.length) :
    k.measure (cs ++ ds) = k.measure cs := by
  simp only [← length?_pattern] at within ⊢
  exact Pattern.length?_append within

theorem first?_append (within : ∀ k n, measure k (cs ++ ds) = some n → n ≤ cs.length) :
    first? (cs ++ ds) = first? cs := by
  simp only [first?, measure_append (within _)]

-- The only white space in tokens are blanks, of which a mnemonic keeps those behind it.
theorem blank_of_measure (measured : k.measure cs = some n) (member : c ∈ cs.take n)
    (space : isSpace c = true) : isBlank c = true ∧ (k = .blanks ∨ ∃ f, k = .mnemonic f) := by
  by_cases gap : k = .blanks
  · subst gap
    exact ⟨(Scan.nonempty_run measured).2 c member, .inl rfl⟩
  · cases form : k.form? with
    | some f =>
      obtain rfl := form?_eq_some.1 form
      obtain ⟨m, l, blanks, -, taken, -, blank⟩ := mnemonic_eq_some measured
      rw [taken, List.mem_append] at member
      rcases member with letter | behind
      · simp [not_isSpace (Mnemonic.name_graphic l m c letter)] at space
      · exact ⟨blank c behind, .inr ⟨f, rfl⟩⟩
    | none =>
      obtain ⟨s, own, inside⟩ := measure_contained measured member
      simp [Token.sets_visible form gap s own c inside] at space

theorem visible_of_first? (first : first? cs = some (k, n)) (kept : k ≠ .blanks) :
    ∃ c ∈ cs.take n, isSpace c = false := by
  have measured := (first?_bounds first).1
  obtain ⟨c, rest, taken⟩ := List.exists_cons_of_ne_nil (take_ne first)
  have member : c ∈ cs.take n := by simp [taken]
  refine ⟨c, member, Bool.eq_false_iff.2 fun space => ?_⟩
  rcases (blank_of_measure measured member space).2 with gap | ⟨f, rfl⟩
  · exact kept gap
  · obtain ⟨m, l, blanks, -, shape, -⟩ := mnemonic_eq_some measured
    obtain ⟨a, letters, name⟩ := Mnemonic.name_head l m
    rw [taken, name, List.cons_append] at shape
    obtain ⟨rfl, -⟩ := List.cons.inj shape
    simp [not_isSpace (Mnemonic.name_graphic l m c (by simp [name]))] at space

theorem mem_take_of_lt (beyond : cs.length < n) : c ∈ (cs ++ c :: ds).take n := by
  obtain ⟨k, rfl⟩ := Nat.exists_eq_add_of_lt beyond
  rw [Nat.add_assoc, List.take_length_add_append, List.take_succ_cons]
  exact List.mem_append_right cs List.mem_cons_self

theorem measure_apart (outside : ∀ s ∈ k.pattern.sets, s.contains c = false) (cs ds : List Char) :
    k.measure (cs ++ c :: ds) = k.measure cs := by
  refine measure_append fun n measured => ?_
  by_contra beyond
  obtain ⟨s, own, inside⟩ :=
    measure_contained measured (mem_take_of_lt (Nat.lt_of_not_le beyond))
  simp [outside s own] at inside

theorem first?_break (space : isSpace c = true) (solid : isBlank c = false) (cs ds : List Char) :
    first? (cs ++ c :: ds) = first? cs := by
  refine first?_append fun k n measured => ?_
  by_contra beyond
  have blank := (blank_of_measure measured (mem_take_of_lt (Nat.lt_of_not_le beyond)) space).1
  simp [solid] at blank

theorem first?_nil : first? [] = none := by
  cases first : first? [] with
  | none => rfl
  | some found => exact absurd List.take_nil (take_ne first)

-- A text of one mnemonic and the blanks behind it, if there are any.
inductive Lone : List Char → Prop where
  | intro (m : Mnemonic) (l : Letters) {blanks : List Char} :
      (∀ c ∈ blanks, isBlank c = true) → Lone ((l.rewrite m.name).toList ++ blanks)

theorem first?_gap {gap : List Char} (blank : ∀ c ∈ gap, isBlank c = true)
    (visible : ∃ c ∈ cs, isBlank c = false) (other : ¬ Lone cs) :
    first? (cs ++ gap) = first? cs := by
  refine first?_append fun k n measured => ?_
  by_contra beyond
  cases gap with
  | nil =>
    have short := (measure_bounds measured).2
    rw [List.append_nil] at short
    exact beyond short
  | cons b gap =>
    have space := isSpace_of_isBlank (blank b List.mem_cons_self)
    obtain ⟨i, rfl⟩ := Nat.exists_eq_add_of_lt (Nat.lt_of_not_le beyond)
    have taken : (cs ++ b :: gap).take (cs.length + i + 1) = cs ++ b :: gap.take i := by
      rw [Nat.add_assoc, List.take_length_add_append, List.take_succ_cons]
    -- Only blanks and mnemonics take one of the blanks, and they take all of the text with it.
    obtain ⟨-, rfl | ⟨f, rfl⟩⟩ := blank_of_measure measured (c := b) (by simp [taken]) space
    · obtain ⟨c, member, solid⟩ := visible
      have inside := (Scan.nonempty_run measured).2 c (by simp [taken, member])
      simp [solid] at inside
    · obtain ⟨m, l, blanks, -, shape, -, behind⟩ := mnemonic_eq_some measured
      rw [taken] at shape
      rcases List.append_eq_append_iff.1 shape with ⟨more, name, rest⟩ | ⟨more, rfl, rfl⟩
      · cases more with
        | nil =>
          have alone : Lone ((l.rewrite m.name).toList ++ []) := .intro m l (List.forall_mem_nil _)
          rw [name, List.append_nil, List.append_nil] at alone
          exact other alone
        | cons d more =>
          obtain ⟨rfl, -⟩ := List.cons.inj rest
          have graphic := Mnemonic.name_graphic l m b (by simp [name])
          simp [not_isSpace graphic] at space
      · exact other (.intro m l fun c member => behind c (List.mem_append_left _ member))

end TokenKind

namespace Token

variable {cs gap : List Char}

theorem scan_nil : scan [] = [] := by
  rw [scan]

theorem scan_break {c : Char} (space : isSpace c = true) (solid : isBlank c = false)
    (cs ds : List Char) : scan (cs ++ c :: ds) = scan cs ++ scan ds := by
  induction cs using scan_induction with
  | nil =>
    have stuck : TokenKind.first? (c :: ds) = none :=
      (TokenKind.first?_break space solid [] ds).trans TokenKind.first?_nil
    rw [List.nil_append, scan_stuck stuck, scan_nil, List.nil_append]
  | stuck b cs stuck ih =>
    have behind : TokenKind.first? (b :: (cs ++ c :: ds)) = none :=
      (TokenKind.first?_break space solid (b :: cs) ds).trans stuck
    rw [List.cons_append, scan_stuck behind, scan_stuck stuck, ih]
  | token cs k n first ih =>
    have short := (TokenKind.first?_bounds first).2.2
    have whole := (TokenKind.first?_break space solid cs ds).trans first
    rw [scan_first whole, scan_first first, List.take_append_of_le_length short,
      List.drop_append_of_le_length short, ih, List.append_assoc]

theorem scan_eq_nil_iff : scan cs = [] ↔ ∀ c ∈ cs, isSpace c = true := by
  induction cs using scan_induction with
  | nil => simp [scan_nil]
  | stuck c cs stuck ih =>
    rw [scan_stuck stuck, ih, List.forall_mem_cons]
    exact (and_iff_right (TokenKind.isSpace_of_first? stuck)).symm
  | token cs k n first ih =>
    have parts : (∀ c ∈ cs, isSpace c = true) ↔
        (∀ c ∈ cs.take n, isSpace c = true) ∧ ∀ c ∈ cs.drop n, isSpace c = true := by
      rw [← List.forall_mem_append, List.take_append_drop]
    rw [scan_first first, List.append_eq_nil_iff, ih, parts]
    refine and_congr_left fun _ => ?_
    by_cases gap : k = .blanks
    · subst gap
      have blank := (Scan.nonempty_run (TokenKind.first?_bounds first).1).2
      rw [if_pos rfl]
      exact iff_of_true rfl fun c member => isSpace_of_isBlank (blank c member)
    · obtain ⟨c, member, visible⟩ := TokenKind.visible_of_first? first gap
      rw [if_neg gap]
      refine iff_of_false (List.cons_ne_nil _ _) fun white => ?_
      simp [white c member] at visible

theorem scan_blanks (blank : ∀ c ∈ cs, isBlank c = true) : scan cs = [] :=
  scan_eq_nil_iff.2 fun c member => isSpace_of_isBlank (blank c member)

theorem scan_mnemonic (m : Mnemonic) (l : Letters) {gap rest : List Char}
    (between : Scan.Gap gap rest) :
    scan ((l.rewrite m.name).toList ++ (gap ++ rest)) =
      ⟨.mnemonic m.form, String.ofList ((l.rewrite m.name).toList ++ gap)⟩ :: scan rest := by
  have first := TokenKind.first?_mnemonic m l between
  rw [← List.append_assoc, ← List.length_append] at first
  rw [← List.append_assoc, scan_first first, if_neg (by simp), List.take_left, List.drop_left,
    List.singleton_append]

theorem scan_mnemonic_end (m : Mnemonic) (l : Letters) {gap : List Char}
    (between : Scan.Gap gap []) :
    scan ((l.rewrite m.name).toList ++ gap) =
      [⟨.mnemonic m.form, String.ofList ((l.rewrite m.name).toList ++ gap)⟩] := by
  have cut := scan_mnemonic m l between
  rwa [List.append_nil, scan_nil] at cut

-- Blanks behind a text change nothing, unless it ends in a mnemonic, which takes them.
theorem scan_gap (blank : ∀ c ∈ gap, isBlank c = true) (cs : List Char) :
    scan (cs ++ gap) = scan cs ∨ ∃ tokens word, word <:+ cs ∧ TokenKind.Lone word ∧
      scan cs = tokens ++ scan word ∧ scan (cs ++ gap) = tokens ++ scan (word ++ gap) := by
  have cases (cs : List Char) : scan (cs ++ gap) = scan cs ∨ TokenKind.Lone cs ∨
      TokenKind.first? (cs ++ gap) = TokenKind.first? cs := by
    by_cases white : ∀ c ∈ cs, isBlank c = true
    · left
      rw [scan_blanks white, scan_blanks (List.forall_mem_append.2 ⟨white, blank⟩)]
    · by_cases alone : TokenKind.Lone cs
      · exact .inr (.inl alone)
      · simp only [not_forall, Bool.not_eq_true] at white
        obtain ⟨c, member, visible⟩ := white
        exact .inr (.inr (TokenKind.first?_gap blank ⟨c, member, visible⟩ alone))
  -- By induction on the cuts: the text in front of the blanks is cut as if it stood alone until
  -- nothing but a mnemonic is left of it.
  induction cs using scan_induction with
  | nil =>
    rw [List.nil_append, scan_nil]
    exact .inl (scan_blanks blank)
  | stuck c cs stuck ih =>
    rcases cases (c :: cs) with same | alone | first
    · exact .inl same
    · exact .inr ⟨[], _, List.suffix_refl _, alone, rfl, rfl⟩
    · rw [stuck] at first
      rw [List.cons_append] at first ⊢
      rw [scan_stuck first, scan_stuck stuck]
      refine ih.imp_right ?_
      rintro ⟨tokens, word, suffix, alone, front, whole⟩
      exact ⟨tokens, word, suffix.trans (List.suffix_cons c cs), alone, front, whole⟩
  | token cs k n found ih =>
    rcases cases cs with same | alone | first
    · exact .inl same
    · exact .inr ⟨[], cs, List.suffix_refl cs, alone, rfl, rfl⟩
    · have short := (TokenKind.first?_bounds found).2.2
      rw [scan_first (first.trans found), scan_first found, List.take_append_of_le_length short,
        List.drop_append_of_le_length short]
      generalize (if k = .blanks then [] else [Token.mk k (String.ofList (cs.take n))]) = cut
      rcases ih with same | ⟨tokens, word, suffix, alone, front, whole⟩
      · exact .inl (by rw [same])
      · refine .inr ⟨cut ++ tokens, word, suffix.trans (List.drop_suffix n cs), alone, ?_, ?_⟩
        · rw [front, List.append_assoc]
        · rw [whole, List.append_assoc]

-- Behind the last token of a text there is nothing but white space.
theorem scan_getLast? {t : Token} (last : (scan cs).getLast? = some t) :
    ∃ front behind, cs = front ++ (t.text.toList ++ behind) ∧
      TokenKind.first? (t.text.toList ++ behind) = some (t.kind, t.text.toList.length) ∧
      ∀ c ∈ behind, isSpace c = true := by
  induction cs using scan_induction with
  | nil => simp [scan_nil] at last
  | stuck c cs stuck ih =>
    rw [scan_stuck stuck] at last
    obtain ⟨front, behind, rfl, first, white⟩ := ih last
    exact ⟨c :: front, behind, rfl, first, white⟩
  | token cs k n first ih =>
    rw [scan_first first] at last
    cases rest : scan (cs.drop n) with
    | nil =>
      rw [rest, List.append_nil] at last
      split at last
      · cases last
      · rw [List.getLast?_singleton, Option.some_inj] at last
        have text : t.text.toList = cs.take n := by rw [← last, String.toList_ofList]
        have length : (cs.take n).length = n :=
          List.length_take_of_le (TokenKind.first?_bounds first).2.2
        refine ⟨[], cs.drop n, ?_, ?_, scan_eq_nil_iff.1 rest⟩
        · rw [text, List.take_append_drop, List.nil_append]
        · rw [text, List.take_append_drop, first, length, ← last]
    | cons u us =>
      rw [rest, List.getLast?_append_of_ne_nil _ (List.cons_ne_nil u us), ← rest] at last
      obtain ⟨front, behind, shape, found, white⟩ := ih last
      refine ⟨cs.take n ++ front, behind, ?_, found, white⟩
      rw [List.append_assoc, ← shape, List.take_append_drop]

end Token

end Legv8
