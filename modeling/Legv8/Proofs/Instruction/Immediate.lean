import Legv8.Proofs.Instruction.Operand

set_option autoImplicit false

namespace Legv8

namespace Scan

variable {hash sign ds cs : List Char} {c : Char}

theorem isHexDigit_of_digitValue (digit : Text.digitValue c < 16) : isHexDigit c = true := by
  have table : ∀ c : Char, c.toNat < 128 → Text.digitValue c < 16 → isHexDigit c = true :=
    Text.ascii_forall (by decide +kernel)
  refine table c ?_ digit
  by_contra other
  rw [Text.digitValue_of_not_ascii other] at digit
  exact Nat.lt_irrefl 16 digit

theorem nonempty_whole {p : Char → Bool} (present : cs ≠ []) (all : ∀ c ∈ cs, p c = true) :
    nonempty (run p cs) = some cs.length := by
  rw [run, List.takeWhile_eq_self_iff.2 all, nonempty, if_neg]
  exact fun empty => present (List.length_eq_zero_iff.1 empty)

theorem hexNumber_second (mark : c ≠ 'x' ∧ c ≠ 'X') : hexNumber ('0' :: c :: cs) = none := by
  rw [hexNumber, if_neg (not_or.2 mark)]

theorem number_digits (present : ds ≠ []) (digits : ∀ d ∈ ds, d.isDigit = true) :
    number ds = some ds.length := by
  have unmarked : hexNumber ds = none := by
    unfold hexNumber
    split
    next x cs =>
      have digit : x.isDigit = true := digits x (by simp)
      apply hexNumber_second
      constructor <;> rintro rfl <;> cases digit
    next => rfl
  rw [number, unmarked, nonempty_whole present digits]
  rfl

theorem immediate_number (mark : hash ∈ [[], ['#']]) (signs : sign ∈ [[], ['-']])
    (starts : ∀ c ∈ ds.head?, c.isDigit = true) :
    immediate (hash ++ sign ++ ds) = (number ds).map (hash.length + sign.length + ·) := by
  have other (c : Char) (mark : c.isDigit = false) : ds.head? ≠ some c := by
    intro first
    cases (starts c first).symm.trans mark
  have hashless := other '#' rfl
  have signless := other '-' rfl
  simp only [List.mem_cons, List.not_mem_nil, or_false] at mark signs
  rcases mark with rfl | rfl <;> rcases signs with rfl | rfl <;>
    simp [immediate, optionalChar, hashless, signless]

end Scan

namespace Operand

open Scan (IsRun isWord)

variable {hash sign cs ds : List Char} {n : Nat} {v : Int}

theorem Magnitude.number (magnitude : Magnitude ds n) : Scan.number ds = some ds.length := by
  cases magnitude with
  | @hexadecimal x ds n mark numeral =>
    have digits : ∀ d ∈ ds, Scan.isHexDigit d = true := fun d member =>
      Scan.isHexDigit_of_digitValue (numeral.digits d member)
    have marked : Scan.hexNumber ('0' :: x :: ds) = some (ds.length + 2) := by
      rw [Scan.hexNumber, if_pos mark, Scan.nonempty_whole numeral.nonempty digits]
      rfl
    rw [Scan.number, marked]
    rfl
  | octal numeral =>
    refine Scan.number_digits (List.cons_ne_nil _ _) (List.forall_mem_cons.2 ⟨rfl, ?_⟩)
    intro d member
    exact (Text.digitValue_lt_ten_iff d).1 (Nat.lt_trans (numeral.digits d member) (by decide))
  | decimal _ numeral =>
    refine Scan.number_digits numeral.nonempty fun d member => ?_
    exact (Text.digitValue_lt_ten_iff d).1 (numeral.digits d member)

theorem Magnitude.letters (magnitude : Magnitude ds n) : IsRun isWord ds := by
  simpa using Scan.number_word magnitude.number

theorem Magnitude.head (magnitude : Magnitude ds n) : ∀ c ∈ ds.head?, c.isDigit = true := by
  intro c first
  obtain ⟨rest, rfl⟩ := List.head?_eq_some_iff.1 first
  exact (Text.digitValue_lt_ten_iff c).1 magnitude.starts

theorem InnerSign.number (inner : InnerSign ds v) : Scan.number ds = some 1 := by
  cases inner with
  | @hexadecimal x ds v mark signed =>
    -- No digit stands behind the mark, so the matcher falls back to decimal digits.
    have undone : Scan.hexNumber ('0' :: x :: ds) = none := by
      rw [Scan.hexNumber, if_pos mark]
      cases signed <;> rfl
    rw [Scan.number, undone]
    rcases mark with rfl | rfl <;> rfl
  | octal signed => cases signed <;> rfl

theorem Denotes.shape (denotes : Denotes cs v) :
    ∃ hash ∈ [[], ['#']], ∃ sign ∈ [[], ['-']], ∃ ds n,
      Magnitude ds n ∧ cs = hash ++ sign ++ ds := by
  have signed := denotes_iff.1 denotes
  obtain ⟨hash, mark, written⟩ := exists_hash cs
  generalize withoutHash cs = body at signed written
  cases signed with
  | positive magnitude => exact ⟨hash, mark, [], by simp, _, _, magnitude, by simpa using written⟩
  | negative magnitude =>
    exact ⟨hash, mark, ['-'], by simp, _, _, magnitude, by simpa using written⟩

theorem Denotes.matched (denotes : Denotes cs v) : Scan.immediate cs = some cs.length := by
  obtain ⟨hash, mark, sign, signs, ds, n, magnitude, rfl⟩ := denotes.shape
  rw [Scan.immediate_number mark signs magnitude.head, magnitude.number]
  simp [Nat.add_assoc]

theorem Denotes.signs (denotes : Denotes cs v) : '+' ∉ cs ∧ '-' ∉ (withoutHash cs).tail := by
  obtain ⟨hash, mark, sign, signs, ds, n, magnitude, rfl⟩ := denotes.shape
  exact word_signs mark signs magnitude.letters.2

-- A text is read as the integer that is written in it, or it is not read.
structure Faithful (text : String) : Prop where
  -- The sign in front is applied without overflow.
  completes : ∀ cs v, withoutHash text.toList = '-' :: cs → magnitude? cs = some v → negate v = -v
  matched : ∀ v, immediate? text = some v →
    Scan.immediate text.toList = some text.toList.length
  signs : ∀ v, immediate? text = some v →
    '+' ∉ text.toList ∧ '-' ∉ (withoutHash text.toList).tail
  value : ∀ v, immediate? text = some v → Denotes text.toList v

variable {text : String}

-- The sign in front overflows for the least number that 64 bits hold, and only an inner sign gives
-- that one.
theorem negate_overflows_iff :
    (∃ v, magnitude? cs = some v ∧ negate v ≠ -v) ↔ InnerSign cs (-0x8000000000000000) := by
  constructor
  · rintro ⟨v, read, overflow⟩
    have least : v = -0x8000000000000000 := by
      by_contra other
      exact overflow (if_neg other)
    rcases magnitude?_eq_some.1 read with ⟨n, -, -, rfl⟩ | inner
    · omega
    · rwa [least] at inner
  · exact fun inner => ⟨_, magnitude?_eq_some.2 (.inr inner), by decide⟩

theorem HasInnerSign.misread (inner : HasInnerSign text.toList) :
    (∃ v, immediate? text = some v) ∧
      ∃ n < text.toList.length, Scan.immediate text.toList = some n := by
  obtain ⟨hash, mark, sign, signs, ds, v, number, written⟩ := inner
  have read : magnitude? ds = some v := magnitude?_eq_some.2 (.inr number)
  constructor
  · rw [immediate?, written, withoutHash_number mark signs (number.head rfl)]
    simp only [List.mem_cons, List.not_mem_nil, or_false] at signs
    rcases signs with rfl | rfl
    · rw [List.nil_append]
      split
      next => cases number
      next => exact ⟨v, read⟩
    · exact ⟨negate v, congrArg (Option.map negate) read⟩
  · have long : 1 < ds.length := by
      cases number with
      | hexadecimal => simp
      | octal signed => cases signed <;> simp
    refine ⟨hash.length + sign.length + 1, ?_, ?_⟩
    · simp only [written, List.length_append]
      omega
    · rw [written, Scan.immediate_number mark signs (number.head rfl), number.number]
      rfl

/-- For every text the reader keeps to the integers that are written as one, and to the texts that
the matcher matches whole, unless a sign stands behind the mark of a radix. -/
theorem immediate_faithful_iff (text : String) : Faithful text ↔ ¬HasInnerSign text.toList := by
  constructor
  · intro faithful inner
    obtain ⟨⟨v, read⟩, n, short, stopped⟩ := inner.misread
    obtain rfl := Option.some.inj (stopped.symm.trans (faithful.matched v read))
    exact Nat.lt_irrefl _ short
  · intro outer
    have denotes {v : Int} (read : immediate? text = some v) : Denotes text.toList v :=
      ((immediate?_eq_some outer).1 read).1
    refine ⟨?_, ?_, ?_, ?_⟩
    · intro cs v body read
      have minus : ['-'] ∈ [[], ['-']] := by simp
      obtain ⟨n, small, -, rfl⟩ := (magnitude?_outer outer minus body).1 read
      exact negate_eq small
    · exact fun v read => (denotes read).matched
    · exact fun v read => (denotes read).signs
    · exact fun v read => denotes read

theorem immediate_unfaithful :
    (immediate? "0x+5" = some 5 ∧ Scan.immediate "0x+5".toList = some 1 ∧ ¬Faithful "0x+5") ∧
      ¬Faithful "-0x-8000000000000000" := by
  refine ⟨⟨by decide +kernel, by decide +kernel, ?_⟩, ?_⟩
  · intro faithful
    exact (faithful.signs 5 (by decide +kernel)).1 (by decide +kernel)
  · intro faithful
    have overflow := faithful.completes "0x-8000000000000000".toList (-0x8000000000000000)
      (by decide +kernel) (by decide +kernel)
    exact absurd overflow (by decide)

end Operand

end Legv8
