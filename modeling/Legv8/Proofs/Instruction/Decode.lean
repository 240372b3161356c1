import Legv8.Proofs.Line.Mnemonic
import Legv8.Proofs.Token.Meaning

set_option autoImplicit false

namespace Legv8

namespace Form

def arguments (f : Form) : List Slot :=
  f.layout.filter Slot.takesOperand

-- Whether the last argument may be left out: the offset of an address or the shift of a wide move.
def omits : Form → Bool
  | .rm _ | .rrm | .risi => true
  | _ => false

def complete (f : Form) (values : List Int) : List Int :=
  values ++ List.replicate (f.arguments.length - values.length) 0

theorem sequences_cases {f : Form} {slots : List Slot} (present : slots ∈ f.sequences) :
    slots = f.layout ∨
      (f.omits = true ∧ .shift ∉ slots ∧
        slots.filter Slot.takesOperand = f.arguments.dropLast) := by
  have table : ∀ f ∈ all, ∀ slots ∈ f.sequences, slots = f.layout ∨
      (f.omits = true ∧ .shift ∉ slots ∧
        slots.filter Slot.takesOperand = f.arguments.dropLast) := by
    decide +kernel
  exact table f f.mem_all slots present

theorem layout_unshifted {f : Form} (other : f ≠ .risi) : .shift ∉ f.layout := by
  cases f <;> simp [layout] at other ⊢

end Form

def Mnemonic.instruction (m : Mnemonic) (values : List Int) (number : Nat) : Instruction :=
  match m, values with
  | .cmp, [a, c] => ⟨.subs, [31, a, c], number⟩
  | .cmpi, [a, v] => ⟨.subis, [31, a, v], number⟩
  | .mov, [d, s] => ⟨.orr, [d, 31, s], number⟩
  | m, values => ⟨m, m.form.complete values, number⟩

variable {m : Mnemonic} {labels : LabelTable} {place : Nat}

def Stand (m : Mnemonic) (labels : LabelTable) (place : Nat) (ts : List Token)
    (values : List Int) : Prop :=
  List.Forall₂ (fun (t : Token × Nat) v => t.1.Means m labels t.2 v) (ts.zipIdx place) values

section Stand

variable {t : Token} {ts : List Token} {P : List Int → Prop}

theorem exists_stand_nil : (∃ values, Stand m labels place [] values ∧ P values) ↔ P [] := by
  simp [Stand]

theorem exists_stand_cons :
    (∃ values, Stand m labels place (t :: ts) values ∧ P values) ↔
      ∃ v, t.Means m labels place v ∧
        ∃ values, Stand m labels (place + 1) ts values ∧ P (v :: values) := by
  simp only [Stand, List.zipIdx_cons, List.forall₂_cons_left_iff]
  constructor
  · rintro ⟨_, ⟨v, values, means, rest, rfl⟩, holds⟩
    exact ⟨v, means, values, rest, holds⟩
  · rintro ⟨v, means, values, rest, holds⟩
    exact ⟨_, ⟨v, values, means, rest, rfl⟩, holds⟩

end Stand

namespace Instruction

variable {cs : List Char} {ts : List Token} {args : List Int}

theorem decodeArgs_full (plain : m.form ≠ .risi)
    (arguments : List.Forall₂ (Token.ReadsAs m labels) m.form.arguments ts) :
    decodeArgs m (ts.map fun t => Text.trim t.text) labels = .ok args ↔
      ∃ values, Stand m labels 0 ts values ∧ m.form.complete values = args := by
  unfold decodeArgs
  cases form : m.form
  case risi => exact absurd form plain
  -- Form by form both sides are the same chain of readings.
  all_goals
    rw [form] at arguments
    obtain _ | ⟨⟨_, _⟩, _ | ⟨⟨_, _⟩, _ | ⟨⟨_, _⟩, _ | ⟨⟨_, _⟩, ⟨⟩⟩⟩⟩⟩ := arguments
    simp only [exists_stand_cons, exists_stand_nil, Slot.read, permitted, bind_eq_ok,
      pure_eq_ok, List.map_cons, List.map_nil, List.getElem?_cons_zero, List.getElem?_cons_succ,
      Option.getD_some, Operand.optionalImmediate, if_false, *]
    rfl

theorem decodeArgs_omitted (optional : m.form.omits = true)
    (arguments : List.Forall₂ (Token.ReadsAs m labels) m.form.arguments.dropLast ts) :
    decodeArgs m (ts.map fun t => Text.trim t.text) labels = .ok args ↔
      ∃ values, Stand m labels 0 ts values ∧ m.form.complete values = args := by
  unfold decodeArgs
  cases form : m.form
  -- The argument that is left out is read off an empty text.
  case rm | rrm | risi =>
    rw [form] at arguments
    obtain _ | ⟨⟨_, _⟩, _ | ⟨⟨_, _⟩, _ | ⟨⟨_, _⟩, ⟨⟩⟩⟩⟩ := arguments
    simp only [exists_stand_cons, exists_stand_nil, Slot.read, permitted, bind_eq_ok,
      pure_eq_ok, List.map_cons, List.map_nil, List.getElem?_cons_zero, List.getElem?_cons_succ,
      List.getElem?_nil, Option.getD_some, Option.getD_none, Operand.optionalImmediate,
      Operand.wideShift, if_true, Except.ok.injEq, exists_eq_left', *]
    rfl
  all_goals
    rw [form] at optional
    cases optional

theorem decodeArgs_shifted {a v s : Token} (form : m.form = .risi)
    (arguments : List.Forall₂ (Token.ReadsAs m labels) m.form.arguments [a, v, s]) (k : String) :
    decodeArgs m [Text.trim a.text, Text.trim v.text, k, Text.trim s.text] labels = .ok args ↔
      ∃ values, Stand m labels 0 [a, v, s] values ∧ m.form.complete values = args := by
  unfold decodeArgs
  rw [form] at arguments ⊢
  obtain _ | ⟨⟨_, _⟩, _ | ⟨⟨_, _⟩, _ | ⟨⟨present, _⟩, ⟨⟩⟩⟩⟩ := arguments
  simp only [exists_stand_cons, exists_stand_nil, Slot.read, permitted, bind_eq_ok, pure_eq_ok,
    List.getElem?_cons_zero, List.getElem?_cons_succ, Option.getD_some,
    Operand.wideShift_iff present, if_true, *]
  -- The decoder looks at the shift first, but gives it the last place.
  constructor
  · rintro ⟨s, rs, a, ra, v, rv, done⟩
    exact ⟨a, ra, v, rv, s, rs, done⟩
  · rintro ⟨a, ra, v, rv, s, rs, done⟩
    exact ⟨s, rs, a, ra, v, rv, done⟩

theorem decodeArgs_eq_ok (operands : m.form.Operands ts) (scanned : ∀ t ∈ ts, t ∈ Token.scan cs) :
    decodeArgs m (SourceLine.operandTexts ts) labels = .ok args ↔
      ∃ values, Stand m labels 0 (ts.filter Token.isArgument) values ∧
        m.form.complete values = args := by
  obtain ⟨slots, present, fits⟩ := operands
  have arguments := arguments_readAs m labels fits scanned
  rcases Form.sequences_cases present with rfl | ⟨optional, unshifted, short⟩
  · by_cases form : m.form = .risi
    · have layout : m.form.layout = Form.risi.layout := by rw [form]
      obtain ⟨a, v, k, s, shape, texts⟩ := operandTexts_shifted (layout ▸ fits)
      rw [shape] at arguments ⊢
      rw [texts]
      exact decodeArgs_shifted form arguments k
    · rw [operandTexts_arguments fits (Form.layout_unshifted form)]
      exact decodeArgs_full form arguments
  · rw [short] at arguments
    rw [operandTexts_arguments fits unshifted]
    exact decodeArgs_omitted optional arguments

theorem instruction_eq {values : List Int} (number : Nat)
    (count : m.form.omits = false → values.length = m.form.arguments.length) :
    m.instruction values number =
      ⟨m.expansion?.getD m, expandArgs m (m.form.complete values), number⟩ := by
  cases m with
  | cmp | cmpi | mov =>
    obtain ⟨a, c, rfl⟩ := List.length_eq_two.1 (count rfl)
    rfl
  | _ => rfl

theorem stand_count {values : List Int} (operands : m.form.Operands ts)
    (scanned : ∀ t ∈ ts, t ∈ Token.scan cs)
    (stand : Stand m labels 0 (ts.filter Token.isArgument) values) (full : m.form.omits = false) :
    values.length = m.form.arguments.length := by
  obtain ⟨slots, present, fits⟩ := operands
  rcases Form.sequences_cases present with rfl | ⟨optional, -⟩
  · have tokens := (arguments_readAs m labels fits scanned).length_eq
    have count := stand.length_eq
    rw [List.length_zipIdx] at count
    exact count.symm.trans tokens.symm
  · rw [full] at optional
    cases optional

theorem decode_eq_ok {number : Nat} {i : Instruction} (operands : m.form.Operands ts)
    (scanned : ∀ t ∈ ts, t ∈ Token.scan cs) :
    decode m (SourceLine.operandTexts ts) number labels = .ok i ↔
      ∃ values, Stand m labels 0 (ts.filter Token.isArgument) values ∧
        i = m.instruction values number := by
  simp only [decode, bind_eq_ok, pure_eq_ok, decodeArgs_eq_ok operands scanned]
  constructor
  · rintro ⟨_, ⟨values, stand, rfl⟩, rfl⟩
    exact ⟨values, stand, (instruction_eq number (stand_count operands scanned stand)).symm⟩
  · rintro ⟨values, stand, rfl⟩
    exact ⟨_, ⟨values, stand, rfl⟩,
      (instruction_eq number (stand_count operands scanned stand)).symm⟩

end Instruction

namespace SourceLine

variable {text : String} {line : SourceLine} {tokens : List Token}

theorem analyse_grammatical (accepted : analyse text = .ok line) (named : line.mnemonic = some m) :
    Grammatical (Token.ofLine text) := by
  rw [← LineState.accepts_start, ← LineState.checkLine_eq_ok]
  unfold analyse at accepted
  split at accepted
  next =>
    obtain rfl := Except.ok.inj accepted
    cases named
  next t ts tokens =>
    simp only [bind_eq_ok] at accepted
    obtain ⟨_, passes, -⟩ := accepted
    rw [tokens]
    exact passes

theorem ofTokens_operands (grammatical : Grammatical tokens)
    (named : (ofTokens text tokens).mnemonic = some m) :
    ∃ f ts, (tokens.findSome? fun t => t.kind.form?) = some f ∧ f.Operands ts ∧
      (ofTokens text tokens).operands = operandTexts ts ∧
      tokens.filter Token.isArgument = ts.filter Token.isArgument ∧ ∀ t ∈ ts, t ∈ tokens := by
  cases grammatical with
  | @label l label =>
    have none : instructionTokens [l] = [] := by simp [instructionTokens, label, TokenKind.form?]
    simp [ofTokens, none] at named
  | @instruction t f ts kind operands =>
    refine ⟨f, ts, by simp [kind, TokenKind.form?], operands, ?_, ?_,
      fun u member => List.mem_cons_of_mem t member⟩
    · simp [ofTokens, instructionTokens, kind, TokenKind.form?]
    · simp [Token.isArgument, kind]
  | @labelled l t f ts label kind operands =>
    refine ⟨f, ts, by simp [label, kind, TokenKind.form?], operands, ?_, ?_,
      fun u member => List.mem_cons_of_mem l (List.mem_cons_of_mem t member)⟩
    · simp [ofTokens, instructionTokens, label, kind, TokenKind.form?]
    · simp [Token.isArgument, label, kind]

theorem analyse_operands (accepted : analyse text = .ok line) (named : line.mnemonic = some m) :
    ∃ ts, m.form.Operands ts ∧ line.operands = operandTexts ts ∧
      line.argumentTokens = ts.filter Token.isArgument ∧ ∀ t ∈ ts, t ∈ Token.ofLine text := by
  have grammatical := analyse_grammatical accepted named
  have form := mnemonic_form accepted
  obtain rfl := analyse_eq_ok accepted
  obtain ⟨f, ts, first, operands, texts, arguments, within⟩ := ofTokens_operands grammatical named
  rw [named, SourceLine.form?, ofTokens_tokens_eq, first] at form
  obtain rfl : m.form = f := Option.some.inj form
  rw [argumentTokens, ofTokens_tokens_eq]
  exact ⟨ts, operands, texts, arguments, within⟩

end SourceLine

theorem exists_stand {ts : List Token} :
    (∃ values, Stand m labels place ts values) ↔
      ∀ k (t : Token), ts[k]? = some t → ∃ v, t.Means m labels (place + k) v := by
  induction ts generalizing place with
  | nil => simp [Stand]
  | cons t ts ih =>
    have split : (∃ values, Stand m labels place (t :: ts) values) ↔
        (∃ v, t.Means m labels place v) ∧ ∃ values, Stand m labels (place + 1) ts values := by
      simpa using exists_stand_cons (P := fun _ => True)
    have shift (k : Nat) : place + 1 + k = place + (k + 1) := by omega
    rw [split, ih]
    simp only [shift]
    constructor
    · rintro ⟨first, rest⟩ k u found
      cases k with
      | zero =>
        obtain rfl := Option.some.inj found
        exact first
      | succ k => exact rest k u found
    · exact fun every => ⟨every 0 t rfl, fun k u found => every (k + 1) u found⟩

structure SourceLine.Decodable (m : Mnemonic) (labels : LabelTable) (line : SourceLine) : Prop where
  registers : ∀ t ∈ line.tokens, ∀ c, t.kind = .register c → ∃ n ≤ 31, Operand.Names t.text n
  immediates : ∀ place t, line.argumentTokens[place]? = some t → t.kind = .immediate →
    ∃ v, Operand.Denotes t.text.toList v ∧ m.Permits place v
  targets : ∀ t ∈ line.tokens, t.kind = .identifier → ∃ index, labels[t.text]? = some index

theorem SourceLine.decodable_iff {line : SourceLine} :
    line.Decodable m labels ↔
      ∀ place (t : Token), line.argumentTokens[place]? = some t →
        ∃ v, t.Means m labels place v := by
  have placed {t : Token} (member : t ∈ line.tokens) (argument : t.isArgument = true) :
      ∃ place, line.argumentTokens[place]? = some t :=
    List.getElem?_of_mem (List.mem_filter.2 ⟨member, argument⟩)
  constructor
  · rintro ⟨registers, immediates, targets⟩ place t found
    obtain ⟨member, argument⟩ := List.mem_filter.1 (List.mem_of_getElem? found)
    unfold Token.Means
    cases kind : t.kind with
    | register c =>
      obtain ⟨n, small, names⟩ := registers t member c kind
      exact ⟨n, n, small, names, rfl⟩
    | immediate => exact immediates place t found kind
    | identifier =>
      obtain ⟨index, bound⟩ := targets t member kind
      exact ⟨index, index, bound, rfl⟩
    | _ => simp [Token.isArgument, kind] at argument
  · intro means
    refine ⟨fun t member c kind => ?_, fun place t found kind => ?_, fun t member kind => ?_⟩
    · obtain ⟨place, found⟩ := placed member (by simp [Token.isArgument, kind])
      obtain ⟨v, meant⟩ := means place t found
      rw [Token.Means, kind] at meant
      obtain ⟨n, small, names, -⟩ := meant
      exact ⟨n, small, names⟩
    · obtain ⟨v, meant⟩ := means place t found
      rw [Token.Means, kind] at meant
      exact ⟨v, meant⟩
    · obtain ⟨place, found⟩ := placed member (by simp [Token.isArgument, kind])
      obtain ⟨v, meant⟩ := means place t found
      rw [Token.Means, kind] at meant
      obtain ⟨index, bound, -⟩ := meant
      exact ⟨index, bound⟩

namespace Instruction

/-- A line that passes the structural check decodes if and only if its operands are right one by
one, and then to the instruction that they stand for. -/
theorem decode_exact {text : String} {line : SourceLine}
    (accepted : SourceLine.analyse text = .ok line) (named : line.mnemonic = some m)
    (number : Nat) (labels : LabelTable) :
    ((∃ i, decode m line.operands number labels = .ok i) ↔ line.Decodable m labels) ∧
      ∀ i, decode m line.operands number labels = .ok i ↔
        ∃ values, Stand m labels 0 line.argumentTokens values ∧
          i = m.instruction values number := by
  obtain ⟨ts, operands, texts, arguments, scanned⟩ := SourceLine.analyse_operands accepted named
  have decodes (i : Instruction) : decode m line.operands number labels = .ok i ↔
      ∃ values, Stand m labels 0 line.argumentTokens values ∧
        i = m.instruction values number := by
    rw [texts, arguments]
    exact decode_eq_ok operands scanned
  have stands : line.Decodable m labels ↔
      ∃ values, Stand m labels 0 line.argumentTokens values := by
    simp only [SourceLine.decodable_iff, exists_stand, Nat.zero_add]
  refine ⟨?_, decodes⟩
  rw [stands]
  constructor
  · rintro ⟨i, decoded⟩
    obtain ⟨values, stand, -⟩ := (decodes i).1 decoded
    exact ⟨values, stand⟩
  · rintro ⟨values, stand⟩
    exact ⟨_, (decodes _).2 ⟨values, stand, rfl⟩⟩

theorem decode_exact_wide_move :
    let tokens : List Token :=
      [⟨.mnemonic .risi, "movz "⟩, ⟨.register .x, "IP0"⟩, ⟨.comma, ","⟩, ⟨.immediate, "#0x1F"⟩,
        ⟨.comma, ","⟩, ⟨.mnemonic .rri, "LSL "⟩, ⟨.immediate, "020"⟩]
    let line := SourceLine.ofTokens "movz IP0, #0x1F, LSL 020" tokens
    SourceLine.analyse "movz IP0, #0x1F, LSL 020" = .ok line ∧ line.mnemonic = some .movz ∧
      line.Decodable .movz {} ∧ decode .movz line.operands 0 {} = .ok ⟨.movz, [16, 31, 16], 0⟩ := by
  intro tokens line
  have accepted : SourceLine.analyse "movz IP0, #0x1F, LSL 020" = .ok line := by
    have scanned : Token.ofLine "movz IP0, #0x1F, LSL 020" = tokens := by decide +kernel
    have passes : checkLine tokens = .ok () := eq_ok_of_toOption (by decide +kernel)
    rw [SourceLine.analyse, scanned]
    simp only [tokens] at passes ⊢
    rw [passes]
    rfl
  have named : line.mnemonic = some .movz := by decide +kernel
  have hexadecimal : Text.Numeral 16 ['1', 'F'] 31 :=
    ⟨List.cons_ne_nil _ _, List.forall_iff_forall_mem.1 (by decide +kernel), by rfl⟩
  have octal : Text.Numeral 8 ['2', '0'] 16 :=
    ⟨List.cons_ne_nil _ _, List.forall_iff_forall_mem.1 (by decide +kernel), by rfl⟩
  have register : Operand.Names "IP0" 16 := .named (r := .ip0) (.inl rfl)
  have immediate : Operand.Denotes "#0x1F".toList 31 :=
    .marked (.positive (.hexadecimal (.inl rfl) hexadecimal))
  have shift : Operand.Denotes "020".toList 16 := .plain (.positive (.octal octal))
  have stand : Stand .movz {} 0 line.argumentTokens [16, 31, 16] :=
    .cons ⟨16, by decide, register, rfl⟩
      (.cons ⟨immediate, by decide⟩ (.cons ⟨shift, by decide⟩ .nil))
  obtain ⟨succeeds, decodes⟩ := decode_exact accepted named 0 {}
  have decoded : decode .movz line.operands 0 {} = .ok ⟨.movz, [16, 31, 16], 0⟩ :=
    (decodes _).2 ⟨[16, 31, 16], stand, rfl⟩
  exact ⟨accepted, named, succeeds.1 ⟨_, decoded⟩, decoded⟩

end Instruction

end Legv8
