import Legv8.Text.Numeral
import Mathlib.Data.Nat.Digits.Defs

set_option autoImplicit false

namespace Legv8.Text

theorem ascii_forall {P : Char → Prop} (table : ∀ n < 128, P (Char.ofNat n)) (c : Char)
    (ascii : c.toNat < 128) : P c := by
  simpa using table c.toNat ascii

-- The value of a hexadecimal digit, in either case. Other characters have none below sixteen.
def digitValue (c : Char) : Nat :=
  "0123456789abcdef".toList.idxOf c.toLower

/-- Digits of a radix and the number that they denote, the last digit counting ones. -/
structure Numeral (radix : Nat) (ds : List Char) (n : Nat) : Prop where
  nonempty : ds ≠ []
  digits : ∀ d ∈ ds, digitValue d < radix
  value : n = Nat.ofDigits radix (ds.map digitValue).reverse

variable {radix n v : Nat} {c : Char} {cs ds : List Char}

theorem toLower_of_not_ascii (other : ¬c.toNat < 128) : c.toLower = c := by
  have beyond : ¬('A'.val ≤ c.val ∧ c.val ≤ 'Z'.val) := by
    simp only [UInt32.le_iff_toNat_le, Char.toNat_val, Char.reduceToNat]
    omega
  exact dif_neg beyond

theorem digitValue_of_not_ascii (other : ¬c.toNat < 128) : digitValue c = 16 := by
  have listed : ∀ d ∈ "0123456789abcdef".toList, d.toNat < 128 := by simp
  rw [digitValue, toLower_of_not_ascii other,
    List.idxOf_eq_length fun member => other (listed c member)]
  rfl

theorem digit?_sixteen (c : Char) :
    digit? 16 c = if digitValue c < 16 then some (digitValue c) else none := by
  by_cases ascii : c.toNat < 128
  · revert c
    exact ascii_forall (by decide +kernel)
  · have beyond (d : Char) (small : d.toNat < 128) : ¬c ≤ d := by
      rw [Char.le_def, UInt32.le_iff_toNat_le, Char.toNat_val, Char.toNat_val]
      omega
    simp [digit?, digitValue_of_not_ascii ascii, beyond]

theorem digitValue_lt_ten_iff (c : Char) : digitValue c < 10 ↔ c.isDigit = true := by
  by_cases ascii : c.toNat < 128
  · revert c
    exact ascii_forall (by decide +kernel)
  · have bounds := Char.isDigit_iff_toNat (c := c)
    simp only [Char.reduceToNat] at bounds
    rw [digitValue_of_not_ascii ascii, bounds]
    omega

theorem digit?_eq_some (small : radix ≤ 16) :
    digit? radix c = some v ↔ digitValue c < radix ∧ v = digitValue c := by
  have narrowed : digit? radix c = (digit? 16 c).filter (· < radix) := by
    rw [digit?, digit?, Option.filter_filter]
    congr 1
    funext k
    have room : k < radix → k < 16 := fun below => Nat.lt_of_lt_of_le below small
    simpa using room
  rw [narrowed, digit?_sixteen]
  by_cases below : digitValue c < 16
  · rw [if_pos below, Option.filter_some]
    by_cases digit : digitValue c < radix <;> simp [digit, eq_comm]
  · have none : ¬digitValue c < radix := by omega
    simp [below, none]

theorem digitsFrom?_eq_some (small : radix ≤ 16) :
    digitsFrom? radix n cs = some v ↔ (∀ d ∈ cs, digitValue d < radix) ∧
      v = n * radix ^ cs.length + Nat.ofDigits radix (cs.map digitValue).reverse := by
  induction cs generalizing n with
  | nil => simp [digitsFrom?, eq_comm]
  | cons c cs ih =>
    have shifted : n * radix ^ (cs.length + 1) +
          (Nat.ofDigits radix (cs.map digitValue).reverse + radix ^ cs.length * digitValue c) =
        (n * radix + digitValue c) * radix ^ cs.length +
          Nat.ofDigits radix (cs.map digitValue).reverse := by
      ring
    simp only [digitsFrom?, Option.bind_eq_bind, Option.bind_eq_some_iff, digit?_eq_some small, ih]
    rw [List.forall_mem_cons, List.length_cons, List.map_cons, Nat.ofDigits_reverse_cons,
      List.length_map, shifted]
    constructor
    · rintro ⟨_, ⟨digit, rfl⟩, digits, value⟩
      exact ⟨⟨digit, digits⟩, value⟩
    · rintro ⟨⟨digit, digits⟩, value⟩
      exact ⟨_, ⟨digit, rfl⟩, digits, value⟩

theorem natural?_eq_some (small : radix ≤ 16) :
    natural? radix cs = some n ↔ Numeral radix cs n := by
  cases cs with
  | nil =>
    constructor
    · rintro ⟨⟩
    · exact fun numeral => absurd rfl numeral.nonempty
  | cons c cs =>
    rw [natural?, digitsFrom?_eq_some small, Nat.zero_mul, Nat.zero_add]
    · exact ⟨fun ⟨digits, value⟩ => ⟨List.cons_ne_nil c cs, digits, value⟩,
        fun numeral => ⟨numeral.digits, numeral.value⟩⟩
    · simp

theorem unsigned?_eq_some (small : radix ≤ 16) (unsigned : '+' ∉ cs) :
    unsigned? radix cs = some n ↔ Numeral radix cs n := by
  unfold unsigned?
  split
  next => exact absurd List.mem_cons_self unsigned
  next => exact natural?_eq_some small

inductive SignedNumeral (radix : Nat) : List Char → Int → Prop
  | plus {ds : List Char} {n : Nat} :
      Numeral radix ds n → n < 0x8000000000000000 → SignedNumeral radix ('+' :: ds) n
  | minus {ds : List Char} {n : Nat} :
      Numeral radix ds n → n ≤ 0x8000000000000000 → SignedNumeral radix ('-' :: ds) (-n)

theorem Numeral.starts (numeral : Numeral radix (c :: cs) n) (small : radix ≤ 16) :
    c ≠ '+' ∧ c ≠ '-' := by
  have digit := numeral.digits c List.mem_cons_self
  constructor
  · rintro rfl
    exact absurd (Nat.lt_of_lt_of_le digit small) (by decide)
  · rintro rfl
    exact absurd (Nat.lt_of_lt_of_le digit small) (by decide)

theorem signedNumeral_plus {v : Int} :
    SignedNumeral radix ('+' :: ds) v ↔ ∃ n < 0x8000000000000000, Numeral radix ds n ∧ v = n := by
  constructor
  · rintro ⟨numeral, below⟩
    exact ⟨_, below, numeral, rfl⟩
  · rintro ⟨n, below, numeral, rfl⟩
    exact .plus numeral below

theorem signedNumeral_minus {v : Int} :
    SignedNumeral radix ('-' :: ds) v ↔
      ∃ n ≤ 0x8000000000000000, Numeral radix ds n ∧ v = -(n : Int) := by
  constructor
  · intro signed
    cases signed with
    | minus numeral room => exact ⟨_, room, numeral, rfl⟩
  · rintro ⟨n, room, numeral, rfl⟩
    exact .minus numeral room

theorem natural?_int64 {v : Int} (small : radix ≤ 16) :
    ((natural? radix ds).map Int.ofNat).filter
        (fun v => -0x8000000000000000 ≤ v ∧ v < 0x8000000000000000) = some v ↔
      ∃ n < 0x8000000000000000, Numeral radix ds n ∧ v = n := by
  simp only [Option.filter_eq_some_iff, Option.map_eq_some_iff, natural?_eq_some small,
    decide_eq_true_eq]
  constructor
  · rintro ⟨⟨n, numeral, rfl⟩, -, below⟩
    exact ⟨n, by simpa using below, numeral, rfl⟩
  · rintro ⟨n, below, numeral, rfl⟩
    exact ⟨⟨n, numeral, rfl⟩, by omega, by omega⟩

theorem int64?_eq_some {v : Int} (small : radix ≤ 16) :
    int64? radix cs = some v ↔
      (∃ n < 0x8000000000000000, Numeral radix cs n ∧ v = n) ∨ SignedNumeral radix cs v := by
  have unsigned (ds : List Char) (n : Nat) : ¬Numeral radix ('+' :: ds) n ∧
      ¬Numeral radix ('-' :: ds) n :=
    ⟨fun numeral => (numeral.starts small).1 rfl, fun numeral => (numeral.starts small).2 rfl⟩
  unfold int64? unsigned?
  split
  next ds =>
    simp only [(unsigned ds _).2, false_and, and_false, exists_false, false_or,
      signedNumeral_minus, Option.filter_eq_some_iff, Option.map_eq_some_iff,
      Option.bind_eq_bind, Option.bind_eq_some_iff, Option.pure_def, Option.some.injEq,
      natural?_eq_some small, decide_eq_true_eq]
    constructor
    · rintro ⟨⟨_, ⟨n, numeral, rfl⟩, rfl⟩, room, -⟩
      exact ⟨n, by omega, numeral, rfl⟩
    · rintro ⟨n, room, numeral, rfl⟩
      exact ⟨⟨n, ⟨n, numeral, rfl⟩, rfl⟩, by omega, by omega⟩
  next positive =>
    split
    next ds =>
      simp only [natural?_int64 small, (unsigned ds _).1, false_and, and_false, exists_false,
        false_or, signedNumeral_plus]
    next negative =>
      rw [natural?_int64 small, or_iff_left]
      intro signed
      cases signed with
      | plus => exact negative _ rfl
      | minus => exact positive _ rfl

end Legv8.Text
