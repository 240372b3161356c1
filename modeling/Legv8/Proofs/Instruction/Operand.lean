import Legv8.Proofs.Instruction.Disassembly
import Legv8.Proofs.Token.Shape

set_option autoImplicit false

namespace Legv8

theorem NamedRegister.ofName?_eq_some {text : String} {r : NamedRegister} :
    ofName? text = some r ↔ text = r.name ∨ text = r.name.toLower := by
  constructor
  · intro found
    simpa [spells] using List.find?_some found
  · have table : ∀ r ∈ all, ofName? r.name = some r ∧ ofName? r.name.toLower = some r := by
      decide +kernel
    obtain ⟨capitals, small⟩ := table r r.mem_all
    rintro (rfl | rfl)
    · exact capitals
    · exact small

namespace Operand

open Text (Numeral SignedNumeral digitValue)

/-- A number without a sign: hexadecimal behind `0x` or `0X`, octal behind a zero that more digits
follow, decimal otherwise. -/
inductive Magnitude : List Char → Nat → Prop
  | hexadecimal {x : Char} {ds : List Char} {n : Nat} :
      x = 'x' ∨ x = 'X' → Numeral 16 ds n → Magnitude ('0' :: x :: ds) n
  | octal {ds : List Char} {n : Nat} : Numeral 8 ds n → Magnitude ('0' :: ds) n
  | decimal {ds : List Char} {n : Nat} :
      (ds.head? = some '0' → ds = ['0']) → Numeral 10 ds n → Magnitude ds n

/-- A number with a sign behind the mark of its radix, and its value. It is no integer as it is
written, but it is read as one. -/
inductive InnerSign : List Char → Int → Prop
  | hexadecimal {x : Char} {ds : List Char} {v : Int} :
      x = 'x' ∨ x = 'X' → SignedNumeral 16 ds v → InnerSign ('0' :: x :: ds) v
  | octal {ds : List Char} {v : Int} : SignedNumeral 8 ds v → InnerSign ('0' :: ds) v

inductive Signed : List Char → Int → Prop
  | positive {ds : List Char} {n : Nat} : Magnitude ds n → Signed ds n
  | negative {ds : List Char} {n : Nat} : Magnitude ds n → Signed ('-' :: ds) (-n)

inductive Denotes : List Char → Int → Prop
  | plain {cs : List Char} {v : Int} : Signed cs v → Denotes cs v
  | marked {cs : List Char} {v : Int} : Signed cs v → Denotes ('#' :: cs) v

-- An optional mark and an optional sign, and behind them a number with a sign behind the mark of
-- its radix.
def HasInnerSign (cs : List Char) : Prop :=
  ∃ hash ∈ [[], ['#']], ∃ sign ∈ [[], ['-']], ∃ ds v, InnerSign ds v ∧ cs = hash ++ sign ++ ds

variable {hash sign cs ds word : List Char} {c : Char} {n : Nat} {v : Int}

theorem Magnitude.starts (magnitude : Magnitude (c :: cs) n) : digitValue c < 10 := by
  cases magnitude with
  | hexadecimal => decide
  | octal => decide
  | decimal _ numeral => exact numeral.digits c List.mem_cons_self

theorem Signed.starts (signed : Signed (c :: cs) v) : c = '-' ∨ digitValue c < 10 := by
  cases signed with
  | positive magnitude => exact .inr magnitude.starts
  | negative => exact .inl rfl

theorem magnitude_hexadecimal {x : Char} (mark : x = 'x' ∨ x = 'X') :
    Magnitude ('0' :: x :: ds) n ↔ Numeral 16 ds n := by
  constructor
  · intro magnitude
    cases magnitude with
    | hexadecimal _ numeral => exact numeral
    | octal numeral =>
      have digit := numeral.digits x List.mem_cons_self
      rcases mark with rfl | rfl <;> exact absurd digit (by decide)
    | decimal leading => exact absurd (leading rfl) (by simp)
  · exact .hexadecimal mark

theorem magnitude_octal (unmarked : ¬(c = 'x' ∨ c = 'X')) :
    Magnitude ('0' :: c :: ds) n ↔ Numeral 8 (c :: ds) n := by
  constructor
  · intro magnitude
    cases magnitude with
    | hexadecimal mark => exact absurd mark unmarked
    | octal numeral => exact numeral
    | decimal leading => exact absurd (leading rfl) (by simp)
  · exact .octal

theorem magnitude_decimal (short : ∀ c ds, cs ≠ '0' :: c :: ds) :
    Magnitude cs n ↔ Numeral 10 cs n := by
  constructor
  · intro magnitude
    cases magnitude with
    | hexadecimal => exact absurd rfl (short _ _)
    | @octal ds _ numeral =>
      cases ds with
      | nil => exact absurd rfl numeral.nonempty
      | cons => exact absurd rfl (short _ _)
    | decimal _ numeral => exact numeral
  · refine .decimal fun leading => ?_
    obtain ⟨ds, rfl⟩ := List.head?_eq_some_iff.1 leading
    cases ds with
    | nil => rfl
    | cons => exact absurd rfl (short _ _)

theorem innerSign_hexadecimal {x : Char} (mark : x = 'x' ∨ x = 'X') :
    InnerSign ('0' :: x :: ds) v ↔ SignedNumeral 16 ds v := by
  constructor
  · intro inner
    cases inner with
    | hexadecimal _ signed => exact signed
    | octal signed => rcases mark with rfl | rfl <;> cases signed
  · exact .hexadecimal mark

theorem innerSign_octal (unmarked : ¬(c = 'x' ∨ c = 'X')) :
    InnerSign ('0' :: c :: ds) v ↔ SignedNumeral 8 (c :: ds) v := by
  constructor
  · intro inner
    cases inner with
    | hexadecimal mark => exact absurd mark unmarked
    | octal signed => exact signed
  · exact .octal

theorem not_innerSign (short : ∀ c ds, cs ≠ '0' :: c :: ds) : ¬InnerSign cs v := by
  intro inner
  cases inner with
  | hexadecimal => exact short _ _ rfl
  | octal signed => cases signed <;> exact short _ _ rfl

theorem magnitude?_eq_some :
    magnitude? cs = some v ↔
      (∃ n < 0x8000000000000000, Magnitude cs n ∧ v = n) ∨ InnerSign cs v := by
  have starts (ds : List Char) (n : Nat) : ¬Magnitude ('+' :: ds) n ∧ ¬Magnitude ('-' :: ds) n :=
    ⟨fun magnitude => absurd magnitude.starts (by decide),
      fun magnitude => absurd magnitude.starts (by decide)⟩
  unfold magnitude?
  split
  next ds => simp [(starts ds _).1, not_innerSign]
  next ds => simp [(starts ds _).2, not_innerSign]
  next ds =>
    simp only [Text.int64?_eq_some (Nat.le_refl 16), magnitude_hexadecimal (.inl rfl),
      innerSign_hexadecimal (.inl rfl)]
  next ds =>
    simp only [Text.int64?_eq_some (Nat.le_refl 16), magnitude_hexadecimal (.inr rfl),
      innerSign_hexadecimal (.inr rfl)]
  next c ds small capital =>
    have unmarked := not_or.2 ⟨small, capital⟩
    simp only [Text.int64?_eq_some (by decide : 8 ≤ 16), magnitude_octal unmarked,
      innerSign_octal unmarked]
  next plus minus _ _ short =>
    have single : ∀ c ds, cs ≠ '0' :: c :: ds := fun c ds shape => short c ds shape
    have unsigned : ¬SignedNumeral 10 cs v := by
      intro signed
      cases signed with
      | plus => exact plus _ rfl
      | minus => exact minus _ rfl
    simp only [Text.int64?_eq_some (by decide : 10 ≤ 16), magnitude_decimal single, unsigned,
      not_innerSign single]

theorem negate_eq (small : n < 0x8000000000000000) : negate (n : Int) = -(n : Int) := by
  rw [negate, if_neg (by omega)]

theorem signed_minus : Signed ('-' :: cs) v ↔ ∃ n, Magnitude cs n ∧ v = -(n : Int) := by
  constructor
  · intro signed
    cases signed with
    | positive magnitude => exact absurd magnitude.starts (by decide)
    | negative magnitude => exact ⟨_, magnitude, rfl⟩
  · rintro ⟨n, magnitude, rfl⟩
    exact .negative magnitude

theorem signed_unsigned (unsigned : ∀ ds, cs ≠ '-' :: ds) :
    Signed cs v ↔ ∃ n, Magnitude cs n ∧ v = n := by
  constructor
  · intro signed
    cases signed with
    | positive magnitude => exact ⟨_, magnitude, rfl⟩
    | negative => exact absurd rfl (unsigned _)
  · rintro ⟨n, magnitude, rfl⟩
    exact .positive magnitude

theorem denotes_iff : Denotes cs v ↔ Signed (withoutHash cs) v := by
  constructor
  · intro denotes
    cases denotes with
    | marked signed => exact signed
    | plain signed =>
      unfold withoutHash
      split
      next => exact absurd signed.starts (by decide)
      next => exact signed
  · unfold withoutHash
    split
    next => exact .marked
    next => exact .plain

theorem exists_hash (cs : List Char) : ∃ hash ∈ [[], ['#']], cs = hash ++ withoutHash cs := by
  unfold withoutHash
  split
  next => exact ⟨['#'], by simp, rfl⟩
  next => exact ⟨[], by simp, rfl⟩

theorem withoutHash_append (mark : hash ∈ [[], ['#']]) (unmarked : cs.head? ≠ some '#') :
    withoutHash (hash ++ cs) = cs := by
  simp only [List.mem_cons, List.not_mem_nil, or_false] at mark
  rcases mark with rfl | rfl
  · rw [List.nil_append]
    unfold withoutHash
    split
    next => exact absurd rfl unmarked
    next => rfl
  · rfl

theorem withoutHash_number (mark : hash ∈ [[], ['#']]) (signs : sign ∈ [[], ['-']])
    (letters : ∀ c ∈ ds.head?, Scan.isWord c = true) :
    withoutHash (hash ++ sign ++ ds) = sign ++ ds := by
  rw [List.append_assoc]
  apply withoutHash_append mark
  simp only [List.mem_cons, List.not_mem_nil, or_false] at signs
  rcases signs with rfl | rfl
  · intro first
    cases letters '#' first
  · simp

theorem InnerSign.head {p : Char → Bool} (inner : InnerSign cs v) (zero : p '0' = true) :
    ∀ c ∈ cs.head?, p c = true := by
  cases inner <;> simpa using zero

theorem InnerSign.sign_mem (inner : InnerSign cs v) : '+' ∈ cs.tail ∨ '-' ∈ cs.tail := by
  cases inner with
  | hexadecimal _ signed => cases signed <;> simp
  | octal signed => cases signed <;> simp

theorem HasInnerSign.sign_mem (inner : HasInnerSign cs) :
    '+' ∈ cs ∨ '-' ∈ (withoutHash cs).tail := by
  obtain ⟨hash, mark, sign, signs, ds, v, number, rfl⟩ := inner
  rw [withoutHash_number mark signs (number.head rfl)]
  rcases number.sign_mem with plus | minus
  · exact .inl (List.mem_append_right _ (List.mem_of_mem_tail plus))
  · right
    simp only [List.mem_cons, List.not_mem_nil, or_false] at signs
    rcases signs with rfl | rfl
    · exact minus
    · exact List.mem_of_mem_tail minus

theorem word_signs (mark : hash ∈ [[], ['#']]) (signs : sign ∈ [[], ['-']])
    (letters : ∀ c ∈ word, Scan.isWord c = true) :
    '+' ∉ hash ++ sign ++ word ∧ '-' ∉ (withoutHash (hash ++ sign ++ word)).tail := by
  have plus : '+' ∉ word := fun member => absurd (letters '+' member) (by decide)
  have minus : '-' ∉ word := fun member => absurd (letters '-' member) (by decide)
  rw [withoutHash_number mark signs fun c first => letters c (List.mem_of_mem_head? first)]
  simp only [List.mem_cons, List.not_mem_nil, or_false] at mark signs
  constructor
  · rcases mark with rfl | rfl <;> rcases signs with rfl | rfl <;> simpa using plus
  · rcases signs with rfl | rfl
    · exact fun member => minus (List.mem_of_mem_tail member)
    · exact minus

section Reading

variable {text : String}

theorem magnitude?_outer (outer : ¬HasInnerSign cs) (signs : sign ∈ [[], ['-']])
    (body : withoutHash cs = sign ++ ds) :
    magnitude? ds = some v ↔ ∃ n < 0x8000000000000000, Magnitude ds n ∧ v = n := by
  rw [magnitude?_eq_some, or_iff_left]
  intro inner
  obtain ⟨hash, mark, written⟩ := exists_hash cs
  rw [body, ← List.append_assoc] at written
  exact outer ⟨hash, mark, sign, signs, ds, v, inner, written⟩

-- A text without an inner sign is read as the integer that it denotes, if 64 bits hold that and its
-- negative.
theorem immediate?_eq_some (outer : ¬HasInnerSign text.toList) :
    immediate? text = some v ↔ Denotes text.toList v ∧ v.natAbs < 0x8000000000000000 := by
  rw [denotes_iff]
  unfold immediate?
  split
  next cs body =>
    have minus : ['-'] ∈ [[], ['-']] := by simp
    rw [body, Option.map_eq_some_iff, signed_minus]
    simp only [magnitude?_outer outer minus body]
    constructor
    · rintro ⟨_, ⟨n, small, magnitude, rfl⟩, rfl⟩
      rw [negate_eq small]
      exact ⟨⟨n, magnitude, rfl⟩, by omega⟩
    · rintro ⟨⟨n, magnitude, rfl⟩, small⟩
      have small : n < 0x8000000000000000 := by omega
      exact ⟨n, ⟨n, small, magnitude, rfl⟩, negate_eq small⟩
  next unsigned =>
    have none : [] ∈ [[], ['-']] := List.mem_cons_self
    rw [magnitude?_outer outer none (List.nil_append _).symm, signed_unsigned unsigned]
    constructor
    · rintro ⟨n, small, magnitude, rfl⟩
      exact ⟨⟨n, magnitude, rfl⟩, small⟩
    · rintro ⟨⟨n, magnitude, rfl⟩, small⟩
      exact ⟨n, small, magnitude, rfl⟩

theorem immediate?_word (mark : hash ∈ [[], ['#']]) (signs : sign ∈ [[], ['-']])
    (written : text.toList = hash ++ sign ++ word) (letters : ∀ c ∈ word, Scan.isWord c = true) :
    immediate? text = some v ↔ Denotes text.toList v ∧ v.natAbs < 0x8000000000000000 := by
  apply immediate?_eq_some
  intro inner
  obtain ⟨plus, minus⟩ := word_signs mark signs letters
  rw [← written] at plus minus
  exact inner.sign_mem.elim plus minus

end Reading

theorem immediate_iff {text : String} {p : Permitted} :
    immediate text p = .ok v ↔ immediate? text = some v ∧ p.allows v = true := by
  rw [← Option.filter_eq_some_iff, immediate]
  cases (immediate? text).filter p.allows <;> simp

theorem wideShift_iff {text : String} (present : text ≠ "") :
    wideShift text = .ok v ↔ immediate text .wideShift = .ok v := by
  rw [wideShift, if_neg present]
  cases value : immediate? text with
  | none => simp [immediate_iff, value]
  | some => rfl

section Registers

/-- The number of a register: an alias has that of its register, and any other name is a letter and
the number. -/
inductive Names : String → Nat → Prop
  | named {r : NamedRegister} {text : String} :
      text = r.name ∨ text = r.name.toLower → Names text r.reg.val
  | numbered {a : Char} {ds : List Char} {n : Nat} {text : String} :
      text.toList = a :: ds → a.isAlpha = true → Numeral 10 ds n → Names text n

variable {text : String} {r : NamedRegister} {a : Char}

theorem ofName?_number (shape : text.toList = a :: ds) (numeral : Numeral 10 ds n) :
    NamedRegister.ofName? text = none := by
  cases ds with
  | nil => exact absurd rfl numeral.nonempty
  | cons d ds =>
    have digit := (Text.digitValue_lt_ten_iff d).1 (numeral.digits d List.mem_cons_self)
    exact NamedRegister.ofName?_eq_none shape digit

theorem register_alias (named : NamedRegister.ofName? text = some r) :
    register text = .ok v ↔ ∃ n ≤ 31, Names text n ∧ v = n := by
  have read : register text = .ok r.reg.val := by
    rw [register, register?, named]
  rw [read, Except.ok.injEq]
  constructor
  · rintro rfl
    exact ⟨r.reg.val, by omega, .named (NamedRegister.ofName?_eq_some.1 named), rfl⟩
  · rintro ⟨n, -, names, rfl⟩
    cases names with
    | named spelled =>
      obtain rfl := Option.some.inj ((NamedRegister.ofName?_eq_some.2 spelled).symm.trans named)
      rfl
    | numbered shape _ numeral =>
      rw [ofName?_number shape numeral] at named
      cases named

theorem names_number (shape : text.toList = a :: ds) (letter : a.isAlpha = true)
    (unnamed : NamedRegister.ofName? text = none) : Names text n ↔ Numeral 10 ds n := by
  constructor
  · intro names
    cases names with
    | named spelled => cases unnamed.symm.trans (NamedRegister.ofName?_eq_some.2 spelled)
    | numbered other _ numeral =>
      obtain ⟨-, rfl⟩ := List.cons.inj (shape.symm.trans other)
      exact numeral
  · exact .numbered shape letter

theorem register_number (shape : text.toList = a :: ds) (letter : a.isAlpha = true)
    (number : Scan.IsRun Char.isDigit ds) :
    register text = .ok v ↔ ∃ n ≤ 31, Names text n ∧ v = n := by
  obtain ⟨nonempty, digits⟩ := number
  have unnamed : NamedRegister.ofName? text = none := by
    cases ds with
    | nil => exact absurd rfl nonempty
    | cons d ds => exact NamedRegister.ofName?_eq_none shape (digits d List.mem_cons_self)
  have ascii : a.toNat < 128 := Scan.isWord_ascii (by simp [Scan.isWord, Char.isAlphanum, letter])
  have unsigned : '+' ∉ ds := fun member => absurd (digits '+' member) (by decide)
  have read : register? text = (Text.unsigned? 10 ds).bind Reg.ofNat? := by
    rw [register?, unnamed, shape]
    exact if_pos ascii
  rw [register, read]
  simp only [names_number shape letter unnamed,
    ← Text.unsigned?_eq_some (by decide : 10 ≤ 16) unsigned]
  cases Text.unsigned? 10 ds with
  | none => simp
  | some n =>
    by_cases inside : n < 32
    · simp [Reg.ofNat?, inside, Nat.le_of_lt_succ inside, eq_comm]
    · have beyond : ¬n ≤ 31 := by omega
      simp [Reg.ofNat?, inside, beyond]

end Registers

end Operand

end Legv8
