import Legv8.Proofs.Line.Mnemonic

/-!
Regular expressions over sets of characters. Alternatives are tried from left to right, and an
option or a repetition takes as much as it can, but gives back what the rest of the expression
needs. The lengths of all matches are listed in the order in which they are tried, so that the
match that is found is the first of them. In whatever order they are tried, they are the lengths
of the beginnings that an expression matches.
-/

set_option autoImplicit false

namespace Legv8

structure CharSet where
  ranges : List (Char × Char)
  negated : Bool := false

namespace CharSet

def contains (s : CharSet) (c : Char) : Bool :=
  (s.ranges.any fun r => r.1 ≤ c && c ≤ r.2) != s.negated

def only (c : Char) : CharSet where
  ranges := [(c, c)]

def among (text : String) : CharSet where
  ranges := text.toList.map fun c => (c, c)

def digit : CharSet where
  ranges := [('0', '9')]

def hexDigit : CharSet where
  ranges := [('0', '9'), ('a', 'f'), ('A', 'F')]

def word : CharSet where
  ranges := [('A', 'Z'), ('a', 'z'), ('0', '9'), ('_', '_')]

def blank : CharSet where
  ranges := [(' ', ' '), ('\t', '\t')]

def visible : CharSet where
  ranges := [(' ', ' '), ('\t', '\t'), ('\n', '\n'), ('\x0b', '\x0b'), ('\x0c', '\x0c'),
    ('\r', '\r')]
  negated := true

theorem between_self (c d : Char) : (decide (d ≤ c) && decide (c ≤ d)) = (c == d) := by
  rw [Bool.eq_iff_iff, Bool.and_eq_true, decide_eq_true_eq, decide_eq_true_eq, beq_iff_eq]
  constructor
  · exact fun both => Char.le_antisymm both.2 both.1
  · rintro rfl
    exact ⟨Char.le_refl c, Char.le_refl c⟩

@[simp] theorem contains_only (c d : Char) : (only c).contains d = (d == c) := by
  simp [contains, only, between_self]

@[simp] theorem contains_among (text : String) (c : Char) :
    (among text).contains c = text.toList.contains c := by
  simp [contains, among, List.any_map, Function.comp_def, between_self, List.any_beq]

@[simp] theorem contains_digit : digit.contains = Char.isDigit := by
  funext c
  simp [contains, digit, Char.isDigit, Char.le_def]

@[simp] theorem contains_hexDigit : hexDigit.contains = Scan.isHexDigit := by
  funext c
  simp [contains, hexDigit, Scan.isHexDigit, Char.isDigit, Char.le_def, Bool.or_assoc]

@[simp] theorem contains_word : word.contains = Scan.isWord := by
  funext c
  have upper : c.isUpper = ('A' ≤ c && c ≤ 'Z') := Bool.decide_and ..
  have letters : c.isAlphanum =
      (('A' ≤ c && c ≤ 'Z') || ('a' ≤ c && c ≤ 'z') || ('0' ≤ c && c ≤ '9')) := by
    rw [← upper]
    rfl
  simp [contains, word, Scan.isWord, letters, between_self, Bool.or_assoc]

@[simp] theorem contains_blank : blank.contains = Text.isBlank := by
  funext c
  simp [contains, blank, between_self, Text.isBlank]

@[simp] theorem contains_visible : visible.contains = fun c => !Text.isSpace c := by
  funext c
  simp [contains, visible, between_self, Text.isBlank, Text.isSpace, Bool.or_assoc]

end CharSet

inductive Pattern where
  | empty
  | one (s : CharSet)
  -- One or more characters of a set.
  | many (s : CharSet)
  | seq (p q : Pattern)
  | either (p q : Pattern)

namespace Pattern

-- The lengths that a repetition may take, the longest first.
def repeats (s : CharSet) : List Char → List Nat
  | [] => []
  | c :: cs => if s.contains c then (repeats s cs).map (· + 1) ++ [1] else []

/-- The lengths of all matches at the start of a text, in the order in which they are tried. -/
def lengths : Pattern → List Char → List Nat
  | .empty, _ => [0]
  | .one s, cs => if cs.head?.any s.contains then [1] else []
  | .many s, cs => repeats s cs
  | .seq p q, cs => (p.lengths cs).flatMap fun n => (q.lengths (cs.drop n)).map (n + ·)
  | .either p q, cs => p.lengths cs ++ q.lengths cs

-- The length of the match that is found first.
def length? (p : Pattern) (cs : List Char) : Option Nat :=
  (p.lengths cs).head?

def char (c : Char) : Pattern :=
  one (.only c)

def optional (p : Pattern) : Pattern :=
  either p empty

def text (t : String) : Pattern :=
  t.toList.foldr (fun c p => seq (char c) p) empty

def oneOf (ps : List Pattern) : Pattern :=
  ps.foldr either (one (.among ""))

def sets : Pattern → List CharSet
  | .empty => []
  | .one s | .many s => [s]
  | .seq p q | .either p q => p.sets ++ q.sets

def nullable : Pattern → Bool
  | .empty => true
  | .one _ | .many _ => false
  | .seq p q => p.nullable && q.nullable
  | .either p q => p.nullable || q.nullable

inductive Matches : Pattern → List Char → Prop where
  | empty : Matches .empty []
  | one {s : CharSet} {c : Char} : s.contains c = true → Matches (.one s) [c]
  | many {s : CharSet} {cs : List Char} :
      cs ≠ [] → (∀ c ∈ cs, s.contains c = true) → Matches (.many s) cs
  | seq {p q : Pattern} {cs ds : List Char} :
      Matches p cs → Matches q ds → Matches (.seq p q) (cs ++ ds)
  | left {p q : Pattern} {cs : List Char} : Matches p cs → Matches (.either p q) cs
  | right {p q : Pattern} {cs : List Char} : Matches q cs → Matches (.either p q) cs

variable {p q : Pattern} {s : CharSet} {c : Char} {cs : List Char} {n : Nat}

section Language

theorem mem_repeats : n ∈ repeats s cs ↔
    n ≤ cs.length ∧ cs.take n ≠ [] ∧ ∀ c ∈ cs.take n, s.contains c = true := by
  induction cs generalizing n with
  | nil => simp [repeats]
  | cons c cs ih =>
    rw [repeats]
    cases n with
    | zero => split <;> simp
    | succ n =>
      by_cases inside : s.contains c = true
      · cases n with
        | zero => simp [inside]
        | succ n =>
          have nonempty (short : n + 1 ≤ cs.length) : cs ≠ [] := by
            rintro rfl
            cases short
          simpa [inside, ih] using fun short _ => nonempty short
      · simp [inside]

theorem matches_seq {text : List Char} :
    (seq p q).Matches text ↔ ∃ cs ds, text = cs ++ ds ∧ p.Matches cs ∧ q.Matches ds := by
  constructor
  · intro whole
    cases whole with
    | seq front behind => exact ⟨_, _, rfl, front, behind⟩
  · rintro ⟨cs, ds, rfl, front, behind⟩
    exact .seq front behind

theorem matches_either : (either p q).Matches cs ↔ p.Matches cs ∨ q.Matches cs := by
  constructor
  · intro whole
    cases whole with
    | left first => exact .inl first
    | right second => exact .inr second
  · rintro (first | second)
    · exact .left first
    · exact .right second

theorem matches_many : (many s).Matches cs ↔ cs ≠ [] ∧ ∀ c ∈ cs, s.contains c = true := by
  constructor
  · intro whole
    cases whole with
    | many nonempty inside => exact ⟨nonempty, inside⟩
  · rintro ⟨nonempty, inside⟩
    exact .many nonempty inside

theorem matches_one : (one s).Matches cs ↔ ∃ c, cs = [c] ∧ s.contains c = true := by
  constructor
  · intro whole
    cases whole with
    | one inside => exact ⟨_, rfl, inside⟩
  · rintro ⟨c, rfl, inside⟩
    exact .one inside

theorem matches_empty : empty.Matches cs ↔ cs = [] := by
  constructor
  · intro whole
    cases whole
    rfl
  · rintro rfl
    exact .empty

-- Whatever is tried is a match, and no match is left out.
theorem mem_lengths : n ∈ p.lengths cs ↔ n ≤ cs.length ∧ p.Matches (cs.take n) := by
  induction p generalizing cs n with
  | empty =>
    rw [lengths, List.mem_singleton, matches_empty]
    constructor
    · rintro rfl
      exact ⟨Nat.zero_le _, List.take_zero⟩
    · rintro ⟨short, taken⟩
      have length := congrArg List.length taken
      rw [List.length_take_of_le short] at length
      exact length
  | one s =>
    rw [lengths, matches_one]
    cases cs with
    | nil => simp
    | cons c cs =>
      rw [List.head?_cons, Option.any_some]
      constructor
      · intro single
        split at single
        next inside =>
          obtain rfl := List.mem_singleton.1 single
          exact ⟨by simp, c, rfl, inside⟩
        next => cases single
      · rintro ⟨short, d, taken, inside⟩
        obtain rfl : n = 1 := by
          rw [← List.length_take_of_le short, taken, List.length_singleton]
        obtain ⟨rfl, -⟩ := List.cons.inj taken
        rw [if_pos inside, List.mem_singleton]
  | many s => rw [lengths, mem_repeats, matches_many]
  | seq p q ihp ihq =>
    simp only [lengths, List.mem_flatMap, List.mem_map, ihp, ihq, matches_seq]
    constructor
    · rintro ⟨m, ⟨short, front⟩, k, ⟨rest, behind⟩, rfl⟩
      rw [List.length_drop] at rest
      exact ⟨by omega, _, _, List.take_add, front, behind⟩
    · rintro ⟨short, as, bs, taken, front, behind⟩
      -- The text falls apart into the match of each half and a rest.
      obtain rfl : n = as.length + bs.length := by
        rw [← List.length_append, ← taken, List.length_take_of_le short]
      obtain ⟨rest, rfl⟩ : ∃ rest, cs = as ++ (bs ++ rest) :=
        ⟨cs.drop (as.length + bs.length), by
          rw [← List.append_assoc, ← taken, List.take_append_drop]⟩
      refine ⟨as.length, ⟨by omega, ?_⟩, bs.length, ⟨?_, ?_⟩, rfl⟩
      · rwa [List.take_left]
      · rw [List.drop_left]
        simp
      · rwa [List.drop_left, List.take_left]
  | either p q ihp ihq =>
    rw [lengths, List.mem_append, ihp, ihq, matches_either]
    tauto

theorem Matches.contained (whole : p.Matches cs) :
    ∀ c ∈ cs, ∃ s ∈ p.sets, s.contains c = true := by
  induction whole with
  | empty => exact fun c member => absurd member List.not_mem_nil
  | one inside => exact List.forall_mem_singleton.2 ⟨_, List.mem_singleton_self _, inside⟩
  | many _ inside => exact fun c member => ⟨_, List.mem_singleton_self _, inside c member⟩
  | seq _ _ front behind =>
    refine List.forall_mem_append.2 ⟨fun c member => ?_, fun c member => ?_⟩
    · obtain ⟨s, own, inside⟩ := front c member
      exact ⟨s, List.mem_append_left _ own, inside⟩
    · obtain ⟨s, own, inside⟩ := behind c member
      exact ⟨s, List.mem_append_right _ own, inside⟩
  | left _ ih =>
    intro c member
    obtain ⟨s, own, inside⟩ := ih c member
    exact ⟨s, List.mem_append_left _ own, inside⟩
  | right _ ih =>
    intro c member
    obtain ⟨s, own, inside⟩ := ih c member
    exact ⟨s, List.mem_append_right _ own, inside⟩

theorem matches_nil : p.Matches [] ↔ p.nullable = true := by
  induction p with
  | empty => simp [matches_empty, nullable]
  | one s => simp [matches_one, nullable]
  | many s => simp [matches_many, nullable]
  | seq p q ihp ihq =>
    rw [matches_seq, nullable, Bool.and_eq_true, ← ihp, ← ihq]
    constructor
    · rintro ⟨cs, ds, empty, front, behind⟩
      obtain ⟨rfl, rfl⟩ := List.append_eq_nil_iff.1 empty.symm
      exact ⟨front, behind⟩
    · rintro ⟨front, behind⟩
      exact ⟨[], [], rfl, front, behind⟩
  | either p q ihp ihq => rw [matches_either, nullable, Bool.or_eq_true, ihp, ihq]

theorem length?_eq_none : p.length? cs = none ↔ ∀ n ≤ cs.length, ¬ p.Matches (cs.take n) := by
  simp only [length?, List.head?_eq_none_iff, List.eq_nil_iff_forall_not_mem, mem_lengths, not_and]

theorem length?_matches (found : p.length? cs = some n) :
    n ≤ cs.length ∧ p.Matches (cs.take n) :=
  mem_lengths.1 (List.mem_of_head? found)

end Language

theorem length?_either : (either p q).length? cs = (p.length? cs).or (q.length? cs) :=
  List.head?_append

theorem lengths_oneOf (ps : List Pattern) :
    (oneOf ps).lengths cs = ps.flatMap fun p => p.lengths cs := by
  induction ps with
  | nil => cases cs <;> simp [oneOf, lengths]
  | cons p ps ih => rw [List.flatMap_cons, oneOf, List.foldr_cons, ← oneOf, lengths, ih]

theorem length?_oneOf (ps : List Pattern) :
    (oneOf ps).length? cs = ps.findSome? fun p => p.length? cs := by
  simp only [length?, lengths_oneOf, List.head?_flatMap]

theorem length?_oneOf_nil : (oneOf []).length? cs = none := by
  rw [length?_oneOf, List.findSome?_nil]

theorem length?_oneOf_cons (ps : List Pattern) :
    (oneOf (p :: ps)).length? cs = (p.length? cs).or ((oneOf ps).length? cs) :=
  length?_either

theorem length?_oneOf_append (ps qs : List Pattern) :
    (oneOf (ps ++ qs)).length? cs = ((oneOf ps).length? cs).or ((oneOf qs).length? cs) := by
  rw [length?_oneOf, List.findSome?_append, length?_oneOf, length?_oneOf]

theorem length?_seq : (seq p q).length? cs =
    (p.lengths cs).findSome? fun n => (q.length? (cs.drop n)).map (n + ·) := by
  simp only [length?, lengths, List.head?_flatMap, List.head?_map]

-- Where a pattern matches in one way at most, nothing can be given back.
theorem length?_seq_of_lengths {o : Option Nat} (only : p.lengths cs = o.toList) :
    (seq p q).length? cs = o.bind fun n => (q.length? (cs.drop n)).map (n + ·) := by
  rw [length?_seq, only]
  cases o with
  | none => rfl
  | some n => simp [List.findSome?_singleton]

theorem lengths_one :
    (one s).lengths cs = (if cs.head?.any s.contains then some 1 else none).toList := by
  rw [lengths]
  split <;> rfl

theorem length?_one : (one s).length? cs = if cs.head?.any s.contains then some 1 else none := by
  rw [length?, lengths_one]
  split <;> rfl

@[simp] theorem length?_one_seq_cons : (seq (one s) q).length? (c :: cs) =
    if s.contains c then (q.length? cs).map (· + 1) else none := by
  rw [length?_seq_of_lengths lengths_one, List.head?_cons, Option.any_some]
  split
  · simp [Nat.add_comm]
  · rfl

theorem lengths_char :
    (char c).lengths cs = (if cs.head? = some c then some 1 else none).toList := by
  rw [char, lengths_one]
  cases cs <;> simp

theorem lengths_text (t : String) : (text t).lengths cs = (Scan.literal t cs).toList := by
  have generalized (letters cs : List Char) :
      (letters.foldr (fun c p => seq (char c) p) empty).lengths cs =
        (if letters.isPrefixOf cs then some letters.length else none).toList := by
    induction letters generalizing cs with
    | nil => simp [lengths]
    | cons c letters ih =>
      rw [List.foldr_cons, lengths, lengths_char]
      cases cs with
      | nil => simp
      | cons d cs =>
        by_cases same : d = c
        · subst same
          simp only [List.head?_cons, if_true, Option.toList_some, List.flatMap_singleton,
            List.drop_one, List.tail_cons, ih, List.isPrefixOf_cons_cons_self, List.length_cons]
          split <;> simp [Nat.add_comm]
        · simp [same, Ne.symm same]
  exact generalized t.toList cs

theorem length?_text (t : String) : (text t).length? cs = Scan.literal t cs := by
  rw [length?, lengths_text, Option.head?_toList]

theorem run_cons (inside : s.contains c = true) :
    Scan.run s.contains (c :: cs) = Scan.run s.contains cs + 1 := by
  simp [Scan.run, inside]

theorem length?_many : (many s).length? cs = Scan.nonempty (Scan.run s.contains cs) := by
  rw [length?, lengths]
  induction cs with
  | nil => rfl
  | cons c cs ih =>
    rw [repeats]
    by_cases inside : s.contains c = true
    · rw [if_pos inside, List.head?_append, List.head?_map, ih, run_cons inside]
      by_cases last : Scan.run s.contains cs = 0 <;> simp [Scan.nonempty, last]
    · simp [Scan.nonempty, Scan.run, inside]

theorem length?_many_seq (apart : ∀ c cs, s.contains c = true → q.length? (c :: cs) = none) :
    (seq (many s) q).length? cs = (Scan.nonempty (Scan.run s.contains cs)).bind fun n =>
      (q.length? (cs.drop n)).map (n + ·) := by
  rw [length?_seq, lengths]
  induction cs with
  | nil => rfl
  | cons c cs ih =>
    rw [repeats]
    by_cases inside : s.contains c = true
    · have shifted : ((repeats s cs).findSome? fun n =>
            (q.length? ((c :: cs).drop (n + 1))).map (n + 1 + ·)) =
          ((Scan.nonempty (Scan.run s.contains cs)).bind fun n =>
            (q.length? (cs.drop n)).map (n + ·)).map (· + 1) := by
        rw [← ih, List.map_findSome?]
        congr 1
        funext n
        simp [Function.comp_def, Nat.add_right_comm]
      rw [if_pos inside, List.findSome?_append, List.findSome?_map, run_cons inside,
        Function.comp_def, shifted]
      cases more : Scan.run s.contains cs with
      | zero => simp [Scan.nonempty]
      | succ k =>
        cases cs with
        | nil => cases more
        | cons d ds =>
          -- A repetition gives nothing back to what cannot begin inside of it.
          have begins : s.contains d = true := by
            by_contra other
            simp [Scan.run, other] at more
          simp [apart d ds begins, Scan.nonempty, Function.comp_def, Nat.add_right_comm]
    · simp [Scan.nonempty, Scan.run, inside]

end Pattern

end Legv8
