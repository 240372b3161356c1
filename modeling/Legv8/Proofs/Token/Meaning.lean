import Legv8.Proofs.Instruction.Operand

set_option autoImplicit false

namespace Legv8

def Token.isArgument (t : Token) : Bool :=
  match t.kind with
  | .register _ | .immediate | .identifier => true
  | _ => false

def SourceLine.argumentTokens (line : SourceLine) : List Token :=
  line.tokens.filter Token.isArgument

-- The integers that an immediate may be. A wide move has two immediates, and the second one is its
-- shift.
def Mnemonic.Permits (m : Mnemonic) (place : Nat) (v : Int) : Prop :=
  match m with
  | .lsl | .lsr => 0 ≤ v ∧ v ≤ 63
  | .ldxr | .stxr => v = 0
  | .movz | .movk =>
      if place = 1 then 0 ≤ v ∧ v ≤ 65535 else v ∈ ([0, 16, 32, 48] : List Int)
  | .ldur | .stur | .ldursw | .sturw | .ldurh | .sturh | .ldurb | .sturb
  | .ldurs | .sturs | .ldurd | .sturd => -256 ≤ v ∧ v ≤ 255
  | _ => 0 ≤ v ∧ v ≤ 4095

/-- A token stands for an argument in its place among the argument tokens of a line. -/
def Token.Means (m : Mnemonic) (labels : LabelTable) (place : Nat) (t : Token) (v : Int) : Prop :=
  match t.kind with
  | .register _ => ∃ n ≤ 31, Operand.Names t.text n ∧ v = n
  | .immediate => Operand.Denotes t.text.toList v ∧ m.Permits place v
  | .identifier => ∃ index, labels[t.text]? = some index ∧ v = (index : Int)
  | _ => False

variable {m : Mnemonic} {labels : LabelTable} {place : Nat} {v : Int}

namespace Instruction

def permitted (m : Mnemonic) (place : Nat) : Permitted :=
  match m.form with
  | .rri => permittedImmediate m
  | .rm _ => permittedOffset m
  | .rrm => .exclusiveOffset
  | .risi => if place = 1 then .wide else .wideShift
  | _ => .alu

theorem permitted_mem (m : Mnemonic) (place : Nat) : permitted m place ∈ Permitted.all := by
  unfold permitted
  split
  next => exact Permitted.permittedImmediate_mem m
  next => exact Permitted.permittedOffset_mem m
  next => simp [Permitted.all]
  next => split <;> simp [Permitted.all]
  next => simp [Permitted.all]

theorem permitted_allows : (permitted m place).allows v = true ↔ m.Permits place v := by
  cases m with
  | movz | movk =>
    by_cases first : place = 1 <;>
      simp [permitted, Mnemonic.form, Mnemonic.entry, Mnemonic.Permits, first, Permitted.allows,
        Permitted.wide, Permitted.wideShift]
  | _ =>
    simp [permitted, Mnemonic.form, Mnemonic.entry, Mnemonic.Permits, permittedImmediate,
      permittedOffset, Permitted.allows, Permitted.alu, Permitted.offset,
      Permitted.exclusiveOffset, Permitted.shiftAmount]

instance (m : Mnemonic) (place : Nat) (v : Int) : Decidable (m.Permits place v) :=
  decidable_of_iff _ permitted_allows

end Instruction

def Slot.read (m : Mnemonic) (labels : LabelTable) (place : Nat) :
    Slot → String → Except DecodeError Int
  | .immediate, text => Operand.immediate text (Instruction.permitted m place)
  | .target, text => Instruction.decodeLabel labels text
  | _, text => Operand.register text

namespace Token

variable {t : Token} {cs : List Char}

theorem register_means {c : RegisterClass} (kind : t.kind = .register c) (scanned : t ∈ scan cs) :
    t.Means m labels place v ↔ Operand.register (Text.trim t.text) = .ok v := by
  rw [Means, kind, trim_register scanned kind]
  rcases register_text scanned kind with listed | ⟨a, ds, shape, letter, number⟩
  · have table : ∀ name ∈ Scan.aliases, (NamedRegister.ofName? name).isSome = true := by
      decide +kernel
    obtain ⟨r, named⟩ := Option.isSome_iff_exists.1 (table _ listed)
    exact (Operand.register_alias named).symm
  · have alpha : a.isAlpha = true := by
      rcases letter with rfl | rfl <;> cases c <;> rfl
    exact (Operand.register_number shape alpha number).symm

theorem immediate_means (kind : t.kind = .immediate) (scanned : t ∈ scan cs) :
    t.Means m labels place v ↔
      Operand.immediate (Text.trim t.text) (Instruction.permitted m place) = .ok v := by
  obtain ⟨hash, mark, sign, signs, word, text, -, letters⟩ := immediate_text scanned kind
  rw [Means, kind, trim_immediate scanned kind, Operand.immediate_iff,
    Operand.immediate?_word mark signs text letters, Instruction.permitted_allows]
  constructor
  · rintro ⟨denotes, permits⟩
    have small := Permitted.allows_small (Instruction.permitted_mem m place)
      (Instruction.permitted_allows.2 permits)
    exact ⟨⟨denotes, small⟩, permits⟩
  · rintro ⟨⟨denotes, -⟩, permits⟩
    exact ⟨denotes, permits⟩

theorem target_means (kind : t.kind = .identifier) (scanned : t ∈ scan cs) :
    t.Means m labels place v ↔
      Instruction.decodeLabel labels (Text.trim t.text) = .ok v := by
  rw [Means, kind, trim_identifier scanned kind, Instruction.decodeLabel]
  cases labels[t.text]? <;> simp [eq_comm]

structure ReadsAs (m : Mnemonic) (labels : LabelTable) (slot : Slot) (t : Token) : Prop where
  present : Text.trim t.text ≠ ""
  means (place : Nat) (v : Int) :
    t.Means m labels place v ↔ slot.read m labels place (Text.trim t.text) = .ok v

theorem readsAs {c : RegisterClass} {slot : Slot} (fits : slot.Fits c t)
    (argument : slot.takesOperand = true) (scanned : t ∈ scan cs) : t.ReadsAs m labels slot := by
  have present := text_ne scanned
  cases slot with
  | data | base =>
    exact ⟨by rwa [trim_register scanned fits], fun _ _ => register_means fits scanned⟩
  | immediate =>
    exact ⟨by rwa [trim_immediate scanned fits], fun _ _ => immediate_means fits scanned⟩
  | target =>
    exact ⟨by rwa [trim_identifier scanned fits], fun _ _ => target_means fits scanned⟩
  | comma | leftBracket | rightBracket | shift => cases argument

end Token

section Arguments

variable {c : RegisterClass} {slot : Slot} {slots : List Slot} {t : Token} {ts : List Token}
  {cs : List Char}

theorem Slot.Fits.isArgument (fits : slot.Fits c t) : t.isArgument = slot.takesOperand := by
  cases slot with
  | shift =>
    obtain ⟨kind, -⟩ := fits
    rw [Token.isArgument, kind]
    rfl
  | _ =>
    rw [Token.isArgument, show t.kind = _ from fits]
    rfl

theorem Slot.Fits.isPunctuation (fits : slot.Fits c t) (other : slot ≠ .shift) :
    t.kind.isPunctuation = !slot.takesOperand := by
  cases slot with
  | shift => exact absurd rfl other
  | _ =>
    rw [show t.kind = _ from fits]
    rfl

theorem arguments_readAs (m : Mnemonic) (labels : LabelTable)
    (fits : List.Forall₂ (Slot.Fits c) slots ts) (scanned : ∀ t ∈ ts, t ∈ Token.scan cs) :
    List.Forall₂ (Token.ReadsAs m labels) (slots.filter Slot.takesOperand)
      (ts.filter Token.isArgument) := by
  induction fits with
  | nil => exact .nil
  | @cons slot t slots ts fit _ ih =>
    rw [List.forall_mem_cons] at scanned
    rw [List.filter_cons, List.filter_cons, fit.isArgument]
    split
    next argument => exact .cons (Token.readsAs fit argument scanned.1) (ih scanned.2)
    next => exact ih scanned.2

theorem operandTexts_shifted (fits : List.Forall₂ (Slot.Fits c) Form.risi.layout ts) :
    ∃ a v k s, ts.filter Token.isArgument = [a, v, s] ∧ SourceLine.operandTexts ts =
      [Text.trim a.text, Text.trim v.text, k, Text.trim s.text] := by
  simp only [Form.layout, List.forall₂_cons_left_iff, List.forall₂_nil_left_iff, Slot.Fits] at fits
  obtain ⟨a, _, ha, ⟨p, _, hp, ⟨v, _, hv, ⟨q, _, hq, ⟨k, _, ⟨hk, -⟩, ⟨s, _, hs, rfl, rfl⟩, rfl⟩,
    rfl⟩, rfl⟩, rfl⟩, rfl⟩ := fits
  refine ⟨a, v, Text.trim k.text, s, ?_, ?_⟩
  · simp [Token.isArgument, ha, hp, hv, hq, hk, hs]
  · simp [SourceLine.operandTexts, TokenKind.isPunctuation, ha, hp, hv, hq, hk, hs]

theorem operandTexts_arguments (fits : List.Forall₂ (Slot.Fits c) slots ts)
    (unshifted : .shift ∉ slots) :
    SourceLine.operandTexts ts =
      (ts.filter Token.isArgument).map fun t => Text.trim t.text := by
  induction fits with
  | nil => rfl
  | @cons slot t slots ts fit _ ih =>
    rw [List.mem_cons, not_or] at unshifted
    rw [List.filter_cons, fit.isArgument, SourceLine.operandTexts, List.filter_cons,
      fit.isPunctuation (Ne.symm unshifted.1), Bool.not_not]
    split
    · exact congrArg (Text.trim t.text :: ·) (ih unshifted.2)
    · exact ih unshifted.2

end Arguments

end Legv8
