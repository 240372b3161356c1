import Legv8.Line
import Legv8.Proofs.Instruction.Registers
import Legv8.Proofs.Line.Grammar
import Legv8.Proofs.Token.Printed

set_option autoImplicit false

namespace Legv8

def Slot.token (l : Letters) (c : RegisterClass) (v : Int) : Slot → Token
  | .data => ⟨.register c, l.rewrite (c.registerName v.toNat)⟩
  | .base => ⟨.register .x, l.rewrite (RegisterClass.x.registerName v.toNat)⟩
  | .comma => ⟨.comma, ","⟩
  | .leftBracket => ⟨.leftBracket, "["⟩
  | .rightBracket => ⟨.rightBracket, "]"⟩
  | .immediate => ⟨.immediate, "#" ++ toString v⟩
  -- The disassembler shows an address here, which no line of the grammar takes.
  | .target => ⟨.identifier, toString v⟩
  | .shift => ⟨.mnemonic .rri, l.rewrite Mnemonic.lsl.name ++ " "⟩

def Slot.takesOperand : Slot → Bool
  | .data | .base | .immediate | .target => true
  | _ => false

theorem Slot.token_fits (l : Letters) (c : RegisterClass) (v : Int) (slot : Slot) :
    slot.Fits c (slot.token l c v) := by
  cases slot with
  | shift =>
    have keyword : ∀ l ∈ [Letters.capitals, .small],
        (Text.trim (l.rewrite Mnemonic.lsl.name ++ " ")).toUpper = "LSL" := by
      decide +kernel
    exact ⟨rfl, keyword l (by cases l <;> decide)⟩
  | _ => rfl

def fill (l : Letters) (c : RegisterClass) : List Slot → List Int → List Token
  | [], _ => []
  | slot :: slots, values =>
      slot.token l c (values.headD 0) ::
        fill l c slots (if slot.takesOperand then values.tail else values)

theorem fill_fits (l : Letters) (c : RegisterClass) (slots : List Slot) (values : List Int) :
    List.Forall₂ (Slot.Fits c) slots (fill l c slots values) := by
  induction slots generalizing values with
  | nil => exact .nil
  | cons slot slots ih => exact .cons (slot.token_fits l c _) (ih _)

namespace Instruction

structure Legible (i : Instruction) : Prop where
  real : i.mnemonic.isPseudo = false
  unlabelled : i.mnemonic.form ≠ .l ∧ i.mnemonic.form ≠ .rl
  arguments : Arguments i.mnemonic i.mnemonic.form i.args

def tokens (l : Letters) (i : Instruction) : List Token :=
  ⟨.mnemonic i.mnemonic.form, l.rewrite i.mnemonic.name ++ " "⟩ ::
    fill l i.mnemonic.form.registerClass i.mnemonic.form.layout i.args

theorem disassemble_tokens {i : Instruction} (legible : i.Legible) (l : Letters) (o : Word) :
    l.rewrite (i.disassemble o) = String.join ((i.tokens l).map Token.written) := by
  have blank : l.rewrite " " = " " := by cases l <;> decide +kernel
  have comma : l.rewrite ", " = "," ++ " " := by cases l <;> decide +kernel
  have opened : l.rewrite ", [" = "," ++ " " ++ "[" := by cases l <;> decide +kernel
  have closed : l.rewrite "]" = "]" := by cases l <;> decide +kernel
  have hash : l.rewrite "#" = "#" := by cases l <;> decide +kernel
  have shift : l.rewrite ", LSL " = "," ++ " " ++ l.rewrite Mnemonic.lsl.name ++ " " := by
    cases l <;> decide +kernel
  obtain ⟨m, args, line⟩ := i
  obtain ⟨-, unlabelled, arguments⟩ := legible
  dsimp only at unlabelled arguments
  simp only [disassemble, operandTexts, tokens, number, word, arg]
  generalize m.form = f at *
  -- Form by form both sides are the same pieces of text in a row.
  cases arguments
  case l => exact absurd rfl unlabelled.1
  case rl => exact absurd rfl unlabelled.2
  all_goals
    simp only [Form.layout, Form.registerClass, fill, Slot.token, Slot.takesOperand, Token.written,
      toNat_register, Letters.rewrite_append, Letters.rewrite_int, comma, blank, opened, closed,
      hash, shift, List.getElem?_cons_zero, List.getElem?_cons_succ, Option.getD_some,
      List.headD_cons, List.tail_cons, List.map_cons, List.map_nil, String.join_cons,
      String.join_nil, String.append_empty, String.append_assoc, Int.toNat_natCast,
      reduceCtorEq, if_true, if_false, Bool.false_eq_true]

theorem fill_printed {m : Mnemonic} {f : Form} {args : List Int} (arguments : Arguments m f args)
    (unlabelled : f ≠ .l ∧ f ≠ .rl) (l : Letters) :
    ∀ t ∈ fill l f.registerClass f.layout args, t.Printed l := by
  have keyword : Token.Printed l ⟨.mnemonic .rri, l.rewrite Mnemonic.lsl.name ++ " "⟩ :=
    .mnemonic .lsl
  cases arguments
  case l => exact absurd rfl unlabelled.1
  case rl => exact absurd rfl unlabelled.2
  all_goals
    simp only [Form.layout, Form.registerClass, fill, Slot.token, Slot.takesOperand,
      Token.Printed.comma, Token.Printed.register, Token.Printed.immediate,
      Token.Printed.leftBracket, Token.Printed.rightBracket, keyword, List.headD_cons,
      List.tail_cons, List.forall_mem_cons, List.not_mem_nil, Int.toNat_natCast, if_true,
      if_false, Bool.false_eq_true, false_implies, implies_true, and_self]

theorem tokens_printed {i : Instruction} (legible : i.Legible) (l : Letters) :
    ∀ t ∈ i.tokens l, t.Printed l :=
  List.forall_mem_cons.2 ⟨.mnemonic i.mnemonic, fill_printed legible.arguments legible.unlabelled l⟩

theorem tokens_separated (i : Instruction) (l : Letters) :
    (i.tokens l).IsChain Token.Separated := by
  -- In every layout what follows an operand is punctuation.
  rw [tokens]
  cases i.mnemonic.form <;>
    simp [Form.layout, fill, Slot.token, Token.Separated, Token.isOperand]

theorem ofLine_disassemble {i : Instruction} (legible : i.Legible) (l : Letters) (o : Word) :
    Token.ofLine (l.rewrite (i.disassemble o)) = i.tokens l := by
  rw [Token.ofLine, disassemble_tokens legible, String.toList_join, List.flatMap_map]
  exact Token.scan_line _ (tokens_printed legible l) (i.tokens_separated l)

theorem checkLine_tokens (i : Instruction) (l : Letters) : checkLine (i.tokens l) = .ok () := by
  rw [LineState.checkLine_eq_ok, LineState.accepts_start]
  refine .instruction rfl ⟨i.mnemonic.form.layout, ?_, fill_fits l _ _ _⟩
  exact Form.layout_mem _

end Instruction

namespace Permitted

def all : List Permitted :=
  [alu, offset, exclusiveOffset, shiftAmount, wide, wideShift]

theorem permittedImmediate_mem (m : Mnemonic) : Instruction.permittedImmediate m ∈ all := by
  unfold Instruction.permittedImmediate
  split <;> simp [all]

theorem permittedOffset_mem (m : Mnemonic) : Instruction.permittedOffset m ∈ all := by
  unfold Instruction.permittedOffset
  split <;> simp [all]

theorem allows_small {p : Permitted} {v : Int} (member : p ∈ all) (allowed : p.allows v = true) :
    v.natAbs < 0x8000000000000000 := by
  simp only [all, List.mem_cons, List.not_mem_nil, or_false] at member
  rcases member with rfl | rfl | rfl | rfl | rfl | rfl <;>
    simp [allows, alu, offset, exclusiveOffset, shiftAmount, wide, wideShift] at allowed <;>
    omega

end Permitted

theorem NamedRegister.ofName?_eq_none {text : String} {a d : Char} {ds : List Char}
    (shape : text.toList = a :: d :: ds) (digit : d.isDigit = true) : ofName? text = none := by
  -- The second character of a register's own name is no digit.
  have table : ∀ named ∈ all, named.name.toList[1]?.any Char.isDigit = false ∧
      named.name.toLower.toList[1]?.any Char.isDigit = false := by
    decide +kernel
  have second : text.toList[1]?.any Char.isDigit = true := by rw [shape]; exact digit
  rw [ofName?, List.find?_eq_none]
  intro named member spelled
  obtain ⟨capitals, small⟩ := table named member
  rw [spells, Bool.or_eq_true, beq_iff_eq, beq_iff_eq] at spelled
  rcases spelled with rfl | rfl
  · exact absurd second (by rw [capitals]; simp)
  · exact absurd second (by rw [small]; simp)

namespace Operand

variable {v : Int} {p : Permitted}

theorem register?_printed (l : Letters) (c : RegisterClass) (r : Reg) :
    register? (l.rewrite (c.registerName r.val)) = some r := by
  rcases RegisterClass.registerName_cases l c r with ⟨rfl, rfl, -⟩ | ⟨-, text⟩
  · cases l <;> decide +kernel
  · have ascii : (l.write c.letter).toNat < 128 := by
      cases l <;> cases c <;> decide
    cases shape : Nat.toDigits 10 r with
    | nil => exact absurd shape Nat.toDigits_ne_nil
    | cons d ds =>
      have digit : d.isDigit = true := Text.isDigit_numeral (n := r) (by simp [shape])
      have unnamed := NamedRegister.ofName?_eq_none (text.trans (by rw [shape])) digit
      rw [register?, unnamed]
      simp only [text, ascii, if_true, Text.unsigned?_numeral, Option.bind_some, Reg.ofNat?_val]

theorem register_printed (l : Letters) (c : RegisterClass) (r : Reg) :
    register (Text.trim (l.rewrite (c.registerName r.val))) = .ok (r.val : Int) := by
  rw [Text.trim_word (RegisterClass.registerName_graphic l c r), register, register?_printed]

theorem immediate?_trim (member : p ∈ Permitted.all) (allowed : p.allows v = true) :
    immediate? (Text.trim ("#" ++ toString v)) = some v := by
  rw [Text.trim_word (immediate_graphic v),
    immediate?_printed (Permitted.allows_small member allowed)]

theorem immediate_printed (member : p ∈ Permitted.all) (allowed : p.allows v = true) :
    immediate (Text.trim ("#" ++ toString v)) p = .ok v := by
  rw [immediate, immediate?_trim member allowed, Option.filter_some, if_pos allowed]

theorem trim_immediate_ne (v : Int) : Text.trim ("#" ++ toString v) ≠ "" := by
  rw [Text.trim_word (immediate_graphic v), Ne, ← String.toList_inj, String.toList_append]
  simp

theorem optionalImmediate_printed (member : p ∈ Permitted.all) (allowed : p.allows v = true) :
    optionalImmediate (Text.trim ("#" ++ toString v)) p = .ok v := by
  rw [optionalImmediate, if_neg (trim_immediate_ne v), immediate_printed member allowed]

theorem wideShift_printed (allowed : Permitted.wideShift.allows v = true) :
    wideShift (Text.trim ("#" ++ toString v)) = .ok v := by
  have member : Permitted.wideShift ∈ Permitted.all := by simp [Permitted.all]
  rw [wideShift, if_neg (trim_immediate_ne v), immediate?_trim member allowed]
  exact immediate_printed member allowed

end Operand

namespace Instruction

theorem decodeArgs_fill {m : Mnemonic} {f : Form} {args : List Int} (form : m.form = f)
    (arguments : Arguments m f args) (unlabelled : f ≠ .l ∧ f ≠ .rl) (l : Letters)
    (labels : LabelTable) :
    decodeArgs m (SourceLine.operandTexts (fill l f.registerClass f.layout args)) labels =
      .ok args := by
  unfold decodeArgs
  cases arguments
  case l => exact absurd rfl unlabelled.1
  case rl => exact absurd rfl unlabelled.2
  all_goals
    simp only [form, Form.layout, Form.registerClass, fill, Slot.token, Slot.takesOperand,
      List.headD_cons, List.tail_cons, Int.toNat_natCast, SourceLine.operandTexts,
      List.filter_cons, List.filter_nil, TokenKind.isPunctuation, List.map_cons, List.map_nil,
      Bool.not_true, Bool.not_false, Bool.false_eq_true, if_true, if_false,
      List.getElem?_cons_zero, List.getElem?_cons_succ, Option.getD_some,
      Operand.register_printed]
  case r | rr | rrr => rfl
  case ri a v allowed =>
    rw [Operand.immediate_printed (by simp [Permitted.all]) allowed]
    rfl
  case rri a b v allowed =>
    rw [Operand.immediate_printed (Permitted.permittedImmediate_mem m) allowed]
    rfl
  case rm c a b v allowed =>
    rw [Operand.optionalImmediate_printed (Permitted.permittedOffset_mem m) allowed]
    rfl
  case rrm a b d v allowed =>
    rw [Operand.optionalImmediate_printed (by simp [Permitted.all]) allowed]
    rfl
  case risi a v s wide shift =>
    rw [Operand.wideShift_printed shift, Operand.immediate_printed (by simp [Permitted.all]) wide]
    rfl

theorem decode_tokens {i : Instruction} (legible : i.Legible) (l : Letters) (line : Nat)
    (labels : LabelTable) :
    decode i.mnemonic (SourceLine.operandTexts (i.tokens l).tail) line labels =
      .ok { i with line } := by
  have plain : i.mnemonic.expansion? = none := by
    simpa [Mnemonic.isPseudo] using legible.real
  have kept : expandArgs i.mnemonic i.args = i.args := by
    unfold expandArgs
    split
    next same => simp [same, Mnemonic.expansion?] at plain
    next same => simp [same, Mnemonic.expansion?] at plain
    next same _ => simp [same, Mnemonic.expansion?] at plain
    next => rfl
  have read : decodeArgs i.mnemonic (SourceLine.operandTexts (i.tokens l).tail) labels =
      .ok i.args :=
    decodeArgs_fill rfl legible.arguments legible.unlabelled l labels
  rw [decode, read, plain]
  simp only [bind, Except.bind, kept]
  rfl

theorem ofTokens_tokens (i : Instruction) (l : Letters) (text : String) :
    SourceLine.ofTokens text (i.tokens l) =
      { text
        tokens := i.tokens l
        mnemonic := some i.mnemonic
        operands := SourceLine.operandTexts (i.tokens l).tail } := by
  have first : SourceLine.instructionTokens (i.tokens l) = i.tokens l := by
    rw [SourceLine.instructionTokens, tokens, List.dropWhile_cons_of_neg]
    simp [TokenKind.form?]
  have named : Mnemonic.ofName? (Text.trim (l.rewrite i.mnemonic.name ++ " ")) =
      some i.mnemonic := by
    rw [Text.trim_word_blank (i.mnemonic.name_graphic l), Mnemonic.ofName?_rewrite]
  rw [SourceLine.ofTokens, first]
  simp only [tokens, List.head?_cons, Option.bind_some, named, List.tail_cons]
  rfl

theorem isLine_disassemble {i : Instruction} (legible : i.Legible) (l : Letters) (o : Word) :
    Text.IsLine (l.rewrite (i.disassemble o)).toList := by
  have text : (l.rewrite (i.disassemble o)).toList =
      (i.tokens l).flatMap fun t => t.written.toList := by
    rw [disassemble_tokens legible, String.toList_join, List.flatMap_map]
  have visible : ∀ c ∈ (l.rewrite (i.disassemble o)).toList, Text.isGraphic c = true ∨ c = ' ' := by
    intro c member
    rw [text] at member
    obtain ⟨t, present, shown⟩ := List.mem_flatMap.1 member
    exact (tokens_printed legible l t present).visible c shown
  constructor
  · intro empty
    have none := ofLine_disassemble legible l o
    rw [Token.ofLine, empty, Token.scan, tokens] at none
    cases none
  · intro member
    exact absurd (visible _ member) (by decide)
  · intro member
    exact absurd (visible _ member) (by decide)

theorem decode_legible {m : Mnemonic} {operands : List String} {line : Nat} {labels : LabelTable}
    {i : Instruction} (decoded : decode m operands line labels = .ok i)
    (unlabelled : i.mnemonic.form ≠ .l ∧ i.mnemonic.form ≠ .rl) : i.Legible := by
  exact ⟨decode_real decoded, unlabelled, decode_arguments decoded⟩

end Instruction

end Legv8
