import Legv8.Proofs.Line.Grammar

set_option autoImplicit false

namespace Legv8

namespace Slot

variable {c : RegisterClass} {slot slot' : Slot} {t : Token}

def all : List Slot :=
  [.data, .base, .comma, .leftBracket, .rightBracket, .immediate, .target, .shift]

theorem mem_all (slot : Slot) : slot ∈ all := by
  cases slot <;> simp [all]

-- A token goes by the name of a place: it may stand in some place of that name.
def Named (c : RegisterClass) (name : String) (t : Token) : Prop :=
  ∃ slot : Slot, slot.name c = name ∧ slot.Fits c t

theorem fits_of_name (same : slot.name c = slot'.name c) : slot.Fits c t ↔ slot'.Fits c t := by
  -- Places of one name may differ as integer data and base registers do, but not in their tokens.
  have table : ∀ c ∈ [RegisterClass.x, .s, .d], ∀ slot ∈ all, ∀ slot' ∈ all,
      slot.name c = slot'.name c →
        slot.kind c = slot'.kind c ∧ (slot != .shift) = (slot' != .shift) := by
    decide +kernel
  have member : c ∈ [RegisterClass.x, .s, .d] := by cases c <;> simp
  obtain ⟨kind, shift⟩ := table c member slot slot.mem_all slot' slot'.mem_all same
  rw [← accepts_iff, ← accepts_iff, accepts, accepts, kind, shift]

theorem named_iff : Named c (slot.name c) t ↔ slot.Fits c t := by
  constructor
  · rintro ⟨other, same, fits⟩
    exact (fits_of_name same).1 fits
  · exact fun fits => ⟨slot, rfl, fits⟩

end Slot

namespace LineState

variable {s s' : LineState} {f : Form} {position : Nat} {tokens more : List Token}

theorem run_eq_ok : s.run tokens = .ok s' ↔ s.follow tokens = .ok s' := by
  induction tokens generalizing s with
  | nil => rw [run, follow, List.foldlM_nil, pure_eq_ok, Except.ok.injEq]
  | cons t tokens ih =>
    rw [run, follow_cons]
    cases s.next t with
    | ok between => simp [ih]
    | error r => simp

theorem accepts_iff_follow :
    s.Accepts tokens ↔ ∃ s', s.follow tokens = .ok s' ∧ s'.isAccepting = true := by
  simp only [Accepts, run_eq_ok]

theorem checkLine_follow (read : start.follow tokens = .ok s) :
    checkLine tokens = if s.isAccepting then .ok () else .error (s.missing 0) := by
  rw [checkLine, run_eq_ok.2 read]
  rfl

theorem named_expected :
    List.Forall₂ (Slot.Named s.registerClass) s.expected more ↔
      List.Forall₂ (Slot.Fits s.registerClass) s.remaining more := by
  rw [expected, List.forall₂_map_left_iff]
  simp only [Slot.named_iff]

theorem accepts_remaining (within : s.Inside) (begun : s ≠ start)
    (fits : List.Forall₂ (Slot.Fits s.registerClass) s.remaining more) : s.Accepts more := by
  cases s with
  | start => exact absurd rfl begun
  | labelled =>
    obtain rfl := List.forall₂_nil_left_iff.1 fits
    exact accepts_nil.2 rfl
  | operands f position =>
    exact (accepts_operands within).2 ⟨_, layout_continues f position, fits⟩

theorem checkLine_missing {names : List String} {plural : Bool}
    (read : start.follow tokens = .ok s) :
    checkLine tokens = .error (.missingTokens names plural) ↔
      s.isAccepting = false ∧ names = s.expected ∧ (plural = true ↔ names.length ≠ 1) := by
  rw [checkLine_follow read]
  cases accepting : s.isAccepting with
  | true => simp
  | false =>
    have reported : s.missing 0 = .missingTokens s.expected (s.expected.length != 1) := rfl
    rw [reported]
    constructor
    · rintro ⟨⟩
      simp
    · rintro ⟨-, rfl, count⟩
      have counted : plural = (s.expected.length != 1) := by
        rw [Bool.eq_iff_iff, count, bne_iff_ne]
      rw [counted]
      rfl

end LineState

open LineState

/-- Where a line ended behind its first token, tokens that go by the expected names complete it. If
a line may not end where it did, the check fails with exactly the expected names, and in the
singular only if there is one of them. -/
theorem missing_tokens_suffice {tokens : List Token} {s : LineState}
    (read : start.follow tokens = .ok s) :
    (s ≠ start → ∀ more, List.Forall₂ (Slot.Named s.registerClass) s.expected more →
      (∃ s', start.follow (tokens ++ more) = .ok s' ∧ s'.isAccepting = true) ∧
        checkLine (tokens ++ more) = .ok ()) ∧
    ∀ names plural, checkLine tokens = .error (.missingTokens names plural) ↔
      s.isAccepting = false ∧ names = s.expected ∧ (plural = true ↔ names.length ≠ 1) := by
  refine ⟨fun begun more named => ?_, fun names plural => checkLine_missing read⟩
  have within : s.Inside := follow_inside (s := start) trivial read
  have accepts : start.Accepts (tokens ++ more) :=
    (accepts_append read).2 (accepts_remaining within begun (named_expected.1 named))
  exact ⟨accepts_iff_follow.1 accepts, checkLine_eq_ok.2 accepts⟩

-- A wide move that ended behind its second comma still wants its shift.
theorem missing_tokens_suffice_shift :
    let tokens : List Token :=
      [⟨.mnemonic .risi, "MOVZ "⟩, ⟨.register .x, "X1"⟩, ⟨.comma, ","⟩, ⟨.immediate, "#5"⟩,
        ⟨.comma, ","⟩]
    let more : List Token := [⟨.mnemonic .rri, "lsl "⟩, ⟨.immediate, "#16"⟩]
    start.follow tokens = .ok (operands .risi 4) ∧ operands .risi 4 ≠ start ∧
      List.Forall₂ (Slot.Named .x) (operands .risi 4).expected more ∧
      checkLine (tokens ++ more) = .ok () ∧
      checkLine tokens = .error (.missingTokens ["LSL", "IMMEDIATE"] true) := by
  intro tokens more
  have read : start.follow tokens = .ok (operands .risi 4) := rfl
  have keyword : (Text.trim "lsl ").toUpper = "LSL" := by decide +kernel
  have named : List.Forall₂ (Slot.Named .x) (operands .risi 4).expected more :=
    .cons ⟨.shift, rfl, rfl, keyword⟩ (.cons ⟨.immediate, rfl, rfl⟩ .nil)
  obtain ⟨completes, reports⟩ := missing_tokens_suffice read
  exact ⟨read, nofun, named, (completes nofun more named).2,
    (reports _ _).2 ⟨rfl, rfl, by decide⟩⟩

end Legv8
