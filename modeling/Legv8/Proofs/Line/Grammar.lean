import Legv8.Line.Grammar
import Legv8.Proofs.Outcome
import Mathlib.Data.List.Forall2

/-!
The grammar of a line, written down apart from the machine that reads it. The machine accepts the
lines of the grammar and no others, and it rejects a token as soon as no line of the grammar goes on
with it.
-/

set_option autoImplicit false

namespace Legv8

def Slot.Fits (c : RegisterClass) : Slot → Token → Prop
  | .data, t => t.kind = .register c
  | .base, t => t.kind = .register .x
  | .comma, t => t.kind = .comma
  | .leftBracket, t => t.kind = .leftBracket
  | .rightBracket, t => t.kind = .rightBracket
  | .immediate, t => t.kind = .immediate
  | .target, t => t.kind = .identifier
  | .shift, t => t.kind = .mnemonic .rri ∧ (Text.trim t.text).toUpper = "LSL"

theorem Slot.accepts_iff {c : RegisterClass} {slot : Slot} {t : Token} :
    slot.accepts c t = true ↔ slot.Fits c t := by
  cases slot <;> simp [accepts, kind, Fits, Mnemonic.name, Mnemonic.entry]

def Slot.sample (c : RegisterClass) (slot : Slot) : Token :=
  ⟨slot.kind c, "LSL "⟩

theorem Slot.sample_fits (c : RegisterClass) (slot : Slot) : slot.Fits c (slot.sample c) := by
  have keyword : (Text.trim "LSL ").toUpper = "LSL" := by decide +kernel
  cases slot with
  | shift => exact ⟨rfl, keyword⟩
  | _ => rfl

namespace Form

def addresses : List (List Slot) :=
  [[.leftBracket, .base, .rightBracket],
    [.leftBracket, .base, .comma, .immediate, .rightBracket]]

def sequences : Form → List (List Slot)
  | .r => [[.data]]
  | .rr _ => [[.data, .comma, .data]]
  | .rrr _ => [[.data, .comma, .data, .comma, .data]]
  | .ri => [[.data, .comma, .immediate]]
  | .rri => [[.data, .comma, .data, .comma, .immediate]]
  | .rm _ => addresses.map ([.data, .comma] ++ ·)
  | .rrm => addresses.map ([.data, .comma, .data, .comma] ++ ·)
  | .risi => [[.data, .comma, .immediate], [.data, .comma, .immediate, .comma, .shift, .immediate]]
  | .l => [[.target]]
  | .rl => [[.data, .comma, .target]]

theorem layout_mem (f : Form) : f.layout ∈ f.sequences := by
  cases f <;> simp [layout, sequences, addresses]

def Operands (f : Form) (tokens : List Token) : Prop :=
  ∃ slots ∈ f.sequences, List.Forall₂ (Slot.Fits f.registerClass) slots tokens

def continuations (f : Form) (position : Nat) : List (List Slot) :=
  (f.sequences.filter fun slots => slots.take position == f.layout.take position).map
    (·.drop position)

-- What may follow a position, told from what may follow the next one: the instruction may end, an
-- address may be closed, or the next place is filled.
def unfolded (f : Form) (position : Nat) (slot : Slot) : List (List Slot) :=
  (if f.shortEnd? = some position then [[]] else [])
    ++ (if LineState.closesAddress f position then [[.rightBracket]] else [])
    ++ (f.continuations (position + 1)).map (slot :: ·)

theorem continuations_start (f : Form) : f.continuations 0 = f.sequences := by
  simp [continuations]

theorem continuations_end (f : Form) : f.continuations f.layout.length = [[]] := by
  cases f <;> rfl

theorem layout_bound {f : Form} {position : Nat} {slot : Slot}
    (place : f.layout[position]? = some slot) : f ∈ all ∧ position < 9 := by
  have bound : ∀ f ∈ all, f.layout.length ≤ 9 := by decide
  obtain ⟨inside, -⟩ := List.getElem?_eq_some_iff.1 place
  exact ⟨mem_all f, Nat.lt_of_lt_of_le inside (bound f (mem_all f))⟩

theorem comma_behind_base {f : Form} {position : Nat} {slot : Slot}
    (place : f.layout[position]? = some slot)
    (closes : LineState.closesAddress f position = true) : slot = .comma := by
  have table : ∀ f ∈ all, ∀ position < 9, LineState.closesAddress f position = true →
      f.layout[position]? = some Slot.comma := by
    decide +kernel
  obtain ⟨member, inside⟩ := layout_bound place
  exact Option.some.inj (place.symm.trans (table f member position inside closes))

theorem continuations_perm {f : Form} {position : Nat} {slot : Slot}
    (place : f.layout[position]? = some slot) :
    (f.continuations position).Perm (f.unfolded position slot) := by
  have table : ∀ f ∈ all, ∀ position < 9, ∀ slot ∈ f.layout[position]?,
      (f.continuations position).Perm (f.unfolded position slot) := by
    decide +kernel
  obtain ⟨member, inside⟩ := layout_bound place
  exact table f member position inside slot place

theorem mem_continuations {f : Form} {position : Nat} {slot : Slot} {slots : List Slot}
    (place : f.layout[position]? = some slot) :
    slots ∈ f.continuations position ↔
      (f.shortEnd? = some position ∧ slots = []) ∨
        (LineState.closesAddress f position = true ∧ slots = [.rightBracket]) ∨
          ∃ rest ∈ f.continuations (position + 1), slot :: rest = slots := by
  rw [(continuations_perm place).mem_iff]
  simp [unfolded]

end Form

/-- The lines of the grammar: a label, an instruction, or an instruction behind a label. -/
inductive Grammatical : List Token → Prop
  | label {l : Token} : l.kind = .label → Grammatical [l]
  | instruction {m : Token} {f : Form} {operands : List Token} :
      m.kind = .mnemonic f → f.Operands operands → Grammatical (m :: operands)
  | labelled {l m : Token} {f : Form} {operands : List Token} :
      l.kind = .label → m.kind = .mnemonic f → f.Operands operands →
        Grammatical (l :: m :: operands)

namespace LineState

variable {s s' : LineState} {f : Form} {position : Nat} {t : Token} {tokens : List Token}

def Accepts (s : LineState) (tokens : List Token) : Prop :=
  ∃ s', s.run tokens = .ok s' ∧ s'.isAccepting = true

theorem accepts_nil : s.Accepts [] ↔ s.isAccepting = true := by
  simp [Accepts, run]

theorem accepts_cons : s.Accepts (t :: tokens) ↔ ∃ s', s.next t = .ok s' ∧ s'.Accepts tokens := by
  unfold Accepts
  rw [run]
  cases s.next t <;> simp

theorem checkLine_eq_ok : checkLine tokens = .ok () ↔ start.Accepts tokens := by
  simp only [checkLine, bind_eq_ok, Accepts]
  refine exists_congr fun s => and_congr_right fun _ => ?_
  by_cases accepting : s.isAccepting = true
  · simp [accepting, pure, Except.pure]
  · simp [accepting, throw, throwThe, MonadExceptOf.throw]

theorem begin_eq_ok : begin t = .ok s ↔ ∃ f, t.kind = .mnemonic f ∧ s = .operands f 0 := by
  unfold begin
  cases kind : t.kind <;> simp [TokenKind.form?, eq_comm]

theorem next_start : start.next t = .ok s ↔
    (t.kind = .label ∧ s = labelled) ∨ ∃ f, t.kind = .mnemonic f ∧ s = .operands f 0 := by
  rw [next]
  by_cases label : t.kind = .label
  · rw [if_pos label]
    constructor
    · intro read
      exact .inl ⟨label, (Except.ok.inj read).symm⟩
    · rintro (⟨-, rfl⟩ | ⟨f, kind, -⟩)
      · rfl
      · simp [label] at kind
  · rw [if_neg label, begin_eq_ok]
    exact ⟨.inr, fun read => read.resolve_left fun labelled => label labelled.1⟩

theorem next_operands {slot : Slot} (place : f.layout[position]? = some slot) :
    (operands f position).next t = .ok s ↔
      (t.kind = .rightBracket ∧ closesAddress f position = true ∧
        s = .operands f f.layout.length) ∨
      (slot.Fits f.registerClass t ∧ s = .operands f (position + 1)) := by
  rw [next, place]
  dsimp only
  by_cases closing : t.kind = .rightBracket ∧ closesAddress f position = true
  · rw [if_pos closing]
    constructor
    · intro read
      exact .inl ⟨closing.1, closing.2, (Except.ok.inj read).symm⟩
    · rintro (⟨-, -, rfl⟩ | ⟨fits, -⟩)
      · rfl
      · -- A bracket does not fit where an address may be closed: the layout has a comma there.
        obtain rfl := Form.comma_behind_base place closing.2
        simp [closing.1, Slot.Fits] at fits
  · rw [if_neg closing]
    by_cases fits : slot.accepts f.registerClass t = true
    · rw [if_pos fits]
      constructor
      · intro read
        exact .inr ⟨Slot.accepts_iff.1 fits, (Except.ok.inj read).symm⟩
      · rintro (⟨bracket, closes, -⟩ | ⟨-, rfl⟩)
        · exact absurd ⟨bracket, closes⟩ closing
        · rfl
    · rw [if_neg fits]
      constructor
      · intro read
        cases read
      · rintro (⟨bracket, closes, -⟩ | ⟨others, -⟩)
        · exact absurd ⟨bracket, closes⟩ closing
        · exact absurd (Slot.accepts_iff.2 others) fits

theorem next_full (full : f.layout[position]? = none) :
    (operands f position).next t = .error .unexpected := by
  rw [next, full]

theorem accepts_operands (inside : position ≤ f.layout.length) :
    (operands f position).Accepts tokens ↔
      ∃ slots ∈ f.continuations position,
        List.Forall₂ (Slot.Fits f.registerClass) slots tokens := by
  -- By induction on the tokens, since closing an address skips places of the layout.
  induction tokens generalizing position with
  | nil =>
    rw [accepts_nil, isAccepting]
    cases place : f.layout[position]? with
    | none =>
      obtain rfl : position = f.layout.length :=
        Nat.le_antisymm inside (List.getElem?_eq_none_iff.1 place)
      simp [Form.continuations_end]
    | some slot =>
      obtain ⟨before, -⟩ := List.getElem?_eq_some_iff.1 place
      simp [Form.mem_continuations place, Nat.ne_of_lt before]
  | cons t tokens ih =>
    rw [accepts_cons]
    cases place : f.layout[position]? with
    | none =>
      obtain rfl : position = f.layout.length :=
        Nat.le_antisymm inside (List.getElem?_eq_none_iff.1 place)
      simp [next_full place, Form.continuations_end]
    | some slot =>
      obtain ⟨before, -⟩ := List.getElem?_eq_some_iff.1 place
      have closed : (operands f f.layout.length).Accepts tokens ↔ tokens = [] := by
        rw [ih (Nat.le_refl _)]
        simp [Form.continuations_end]
      have filled : (operands f (position + 1)).Accepts tokens ↔ _ := ih before
      constructor
      · rintro ⟨s, read, accepts⟩
        rcases (next_operands place).1 read with ⟨bracket, closes, rfl⟩ | ⟨fits, rfl⟩
        · refine ⟨[.rightBracket], (Form.mem_continuations place).2 (.inr (.inl ⟨closes, rfl⟩)), ?_⟩
          rw [closed.1 accepts]
          exact .cons bracket .nil
        · obtain ⟨slots, present, rest⟩ := filled.1 accepts
          exact ⟨slot :: slots,
            (Form.mem_continuations place).2 (.inr (.inr ⟨slots, present, rfl⟩)), .cons fits rest⟩
      · rintro ⟨slots, present, rest⟩
        rcases (Form.mem_continuations place).1 present with
          ⟨-, rfl⟩ | ⟨closes, rfl⟩ | ⟨others, follows, rfl⟩
        · cases rest
        · obtain ⟨bracket, none⟩ := List.forall₂_cons.1 rest
          refine ⟨_, (next_operands place).2 (.inl ⟨bracket, closes, rfl⟩), closed.2 ?_⟩
          simpa using none
        · obtain ⟨fits, rest⟩ := List.forall₂_cons.1 rest
          exact ⟨_, (next_operands place).2 (.inr ⟨fits, rfl⟩), filled.2 ⟨others, follows, rest⟩⟩

theorem accepts_mnemonic : (operands f 0).Accepts tokens ↔ f.Operands tokens := by
  rw [accepts_operands (Nat.zero_le _), Form.continuations_start]
  rfl

theorem accepts_labelled :
    labelled.Accepts tokens ↔
      tokens = [] ∨ ∃ m f rest, m.kind = .mnemonic f ∧ f.Operands rest ∧ tokens = m :: rest := by
  cases tokens with
  | nil => simp [accepts_nil, isAccepting]
  | cons m rest =>
    rw [accepts_cons]
    constructor
    · rintro ⟨s, read, accepts⟩
      obtain ⟨f, kind, rfl⟩ := begin_eq_ok.1 read
      exact .inr ⟨m, f, rest, kind, accepts_mnemonic.1 accepts, rfl⟩
    · rintro (none | ⟨m, f, rest, kind, operands, ⟨⟩⟩)
      · cases none
      · exact ⟨_, begin_eq_ok.2 ⟨f, kind, rfl⟩, accepts_mnemonic.2 operands⟩

theorem accepts_start : start.Accepts tokens ↔ Grammatical tokens := by
  constructor
  · intro accepts
    cases tokens with
    | nil => simp [accepts_nil, isAccepting] at accepts
    | cons t tokens =>
      obtain ⟨s, read, accepts⟩ := accepts_cons.1 accepts
      rcases next_start.1 read with ⟨label, rfl⟩ | ⟨f, kind, rfl⟩
      · rcases accepts_labelled.1 accepts with rfl | ⟨m, f, rest, kind, operands, rfl⟩
        · exact .label label
        · exact .labelled label kind operands
      · exact .instruction kind (accepts_mnemonic.1 accepts)
  · intro grammatical
    cases grammatical with
    | label label =>
      exact accepts_cons.2 ⟨_, next_start.2 (.inl ⟨label, rfl⟩), accepts_nil.2 rfl⟩
    | instruction kind operands =>
      exact accepts_cons.2
        ⟨_, next_start.2 (.inr ⟨_, kind, rfl⟩), accepts_mnemonic.2 operands⟩
    | labelled label kind operands =>
      exact accepts_cons.2 ⟨_, next_start.2 (.inl ⟨label, rfl⟩),
        accepts_labelled.2 (.inr ⟨_, _, _, kind, operands, rfl⟩)⟩

def follow (s : LineState) (tokens : List Token) : Except Rejection LineState :=
  tokens.foldlM next s

def Inside : LineState → Prop
  | .operands f position => position ≤ f.layout.length
  | _ => True

theorem next_inside (within : s.Inside) (read : s.next t = .ok s') : s'.Inside := by
  cases s with
  | start =>
    rcases next_start.1 read with ⟨-, rfl⟩ | ⟨f, -, rfl⟩
    · trivial
    · exact Nat.zero_le _
  | labelled =>
    obtain ⟨f, -, rfl⟩ := begin_eq_ok.1 read
    exact Nat.zero_le _
  | operands f position =>
    cases place : f.layout[position]? with
    | none => simp [next_full place] at read
    | some slot =>
      obtain ⟨before, -⟩ := List.getElem?_eq_some_iff.1 place
      rcases (next_operands place).1 read with ⟨-, -, rfl⟩ | ⟨-, rfl⟩
      · exact Nat.le_refl _
      · exact before

theorem follow_cons : s.follow (t :: tokens) = .ok s' ↔
    ∃ between, s.next t = .ok between ∧ between.follow tokens = .ok s' := by
  simp only [follow, List.foldlM_cons, bind_eq_ok]

theorem follow_inside (within : s.Inside) (read : s.follow tokens = .ok s') : s'.Inside := by
  induction tokens generalizing s with
  | nil =>
    obtain rfl : s = s' := pure_eq_ok.1 read
    exact within
  | cons t tokens ih =>
    obtain ⟨between, first, read⟩ := follow_cons.1 read
    exact ih (next_inside within first) read

theorem accepts_append (read : s.follow tokens = .ok s') {rest : List Token} :
    s.Accepts (tokens ++ rest) ↔ s'.Accepts rest := by
  induction tokens generalizing s with
  | nil =>
    obtain rfl : s = s' := pure_eq_ok.1 read
    rfl
  | cons t tokens ih =>
    obtain ⟨between, first, read⟩ := follow_cons.1 read
    simp [accepts_cons, first, ih read]

theorem sample_continuation (c : RegisterClass) (slots : List Slot) :
    List.Forall₂ (Slot.Fits c) slots (slots.map (Slot.sample c)) := by
  induction slots with
  | nil => exact .nil
  | cons slot slots ih => exact .cons (slot.sample_fits c) ih

theorem layout_continues (f : Form) (position : Nat) :
    f.layout.drop position ∈ f.continuations position :=
  List.mem_map_of_mem (List.mem_filter.2 ⟨f.layout_mem, beq_self_eq_true _⟩)

theorem exists_accepts (within : s.Inside) : ∃ tokens, s.Accepts tokens := by
  cases s with
  | start =>
    exact ⟨_, accepts_start.2 (.label (l := ⟨.label, "end:"⟩) rfl)⟩
  | labelled => exact ⟨[], accepts_nil.2 rfl⟩
  | operands f position =>
    exact ⟨_, (accepts_operands within).2
      ⟨_, layout_continues f position, sample_continuation f.registerClass _⟩⟩

end LineState

open LineState

/-- A line passes the check if and only if it is one of the grammar. If a token is rejected, the
tokens in front of it begin some line that passes, but together with it they begin none. -/
theorem checkLine_decides_grammar (tokens : List Token) :
    (checkLine tokens = .ok () ↔ Grammatical tokens) ∧
      ∀ i (inside : i < tokens.length) s r, start.follow (tokens.take i) = .ok s →
        s.next tokens[i] = .error r →
          (∃ rest, checkLine (tokens.take i ++ rest) = .ok ()) ∧
            ∀ rest, checkLine (tokens.take (i + 1) ++ rest) ≠ .ok () := by
  refine ⟨checkLine_eq_ok.trans accepts_start, fun i inside s r read rejected => ⟨?_, ?_⟩⟩
  · obtain ⟨rest, accepts⟩ := exists_accepts (follow_inside (s := start) trivial read)
    exact ⟨rest, checkLine_eq_ok.2 ((accepts_append read).2 accepts)⟩
  · intro rest passes
    rw [List.take_succ_eq_append_getElem inside, List.append_assoc, List.singleton_append,
      checkLine_eq_ok, accepts_append read, accepts_cons, rejected] at passes
    obtain ⟨_, nothing, -⟩ := passes
    cases nothing

theorem checkLine_decides_grammar_unclosed :
    let tokens : List Token :=
      [⟨.mnemonic (.rm .x), "LDUR "⟩, ⟨.register .x, "X1"⟩, ⟨.comma, ","⟩, ⟨.leftBracket, "["⟩,
        ⟨.register .x, "X2"⟩, ⟨.immediate, "8"⟩]
    start.follow (tokens.take 5) = .ok (.operands (.rm .x) 4) ∧
      (operands (.rm .x) 4).next tokens[5] = .error (.invalid .comma) ∧
      (∃ rest, checkLine (tokens.take 5 ++ rest) = .ok ()) ∧
      ∀ rest, checkLine (tokens.take 6 ++ rest) ≠ .ok () := by
  intro tokens
  have read : start.follow (tokens.take 5) = .ok (.operands (.rm .x) 4) := rfl
  have rejected : (operands (.rm .x) 4).next tokens[5] = .error (.invalid .comma) := rfl
  exact ⟨read, rejected, (checkLine_decides_grammar tokens).2 5 (by decide) _ _ read rejected⟩

end Legv8
