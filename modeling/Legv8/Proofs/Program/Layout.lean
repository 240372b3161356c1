import Legv8.Proofs.Program.Errors
import Legv8.Proofs.Token.Append

set_option autoImplicit false

namespace Legv8

namespace Program

structure Agrees (p q : Program) : Prop where
  instructions : p.instructions = q.instructions
  labels : p.labels = q.labels
  errors : p.errors = q.errors

theorem Agrees.trans {p q r : Program} (first : p.Agrees q) (second : q.Agrees r) : p.Agrees r :=
  ⟨first.instructions.trans second.instructions, first.labels.trans second.labels,
    first.errors.trans second.errors⟩

theorem Agrees.symm {p q : Program} (both : p.Agrees q) : q.Agrees p :=
  ⟨both.instructions.symm, both.labels.symm, both.errors.symm⟩

def moved (position number : Nat) : Nat :=
  if position ≤ number then number + 1 else number

structure Widens (position : Nat) (p q : Program) : Prop where
  instructions : q.instructions =
    p.instructions.map fun i => { i with line := moved position i.line }
  labels : q.labels = p.labels
  errors : q.errors = p.errors.map fun e => { e with line := moved position e.line }

variable {texts texts' before behind : List String} {text text' : String} {labels : LabelTable}
  {number position : Nat}

section Tokens

theorem contribution_congr (same : Token.ofLine text' = Token.ofLine text) :
    contribution labels number (SourceLine.analyse text') =
      contribution labels number (SourceLine.analyse text) := by
  rw [SourceLine.analyse_congr same]
  cases SourceLine.analyse text <;> rfl

theorem analysed_congr (same : Token.ofLine text' = Token.ofLine text) :
    analysed text' = { analysed text with text := text' } := by
  rw [analysed, analysed, SourceLine.analyse_congr same]
  cases SourceLine.analyse text <;> rfl

theorem bindLabels_congr {count : Nat}
    (same : List.Forall₂ (fun text' text => Token.ofLine text' = Token.ofLine text) texts' texts) :
    bindLabels labels count (texts'.map analysed) = bindLabels labels count (texts.map analysed) := by
  induction same generalizing labels count with
  | nil => rfl
  | cons first _ ih =>
    rw [List.map_cons, List.map_cons, bindLabels, bindLabels, ih, analysed_congr first]

theorem contributions_congr
    (same : List.Forall₂ (fun text' text => Token.ofLine text' = Token.ofLine text) texts' texts) :
    contributions labels number (texts'.map SourceLine.analyse) =
      contributions labels number (texts.map SourceLine.analyse) := by
  induction same generalizing number with
  | nil => rfl
  | cons first _ ih =>
    rw [List.map_cons, List.map_cons, contributions, contributions, ih, contribution_congr first]

theorem ofLines_congr (same : texts'.map Token.ofLine = texts.map Token.ofLine) :
    (ofLines texts').Agrees (ofLines texts) := by
  have pairs : List.Forall₂ (fun text' text => Token.ofLine text' = Token.ofLine text)
      texts' texts := by
    rw [← List.forall₂_eq_eq_eq, List.forall₂_map_left_iff, List.forall₂_map_right_iff] at same
    exact same
  have labels : (ofLines texts').labels = (ofLines texts).labels := by
    rw [labels_eq, labels_eq, bindLabels_congr pairs]
  have parts : contributions (ofLines texts').labels 0 (texts'.map SourceLine.analyse) =
      contributions (ofLines texts).labels 0 (texts.map SourceLine.analyse) := by
    rw [labels, contributions_congr pairs]
  exact ⟨congrArg (fun parts => (parts.filterMap instruction?).toArray) parts, labels,
    congrArg (fun parts => parts.filterMap error?) parts⟩

end Tokens

section Silent

theorem analyse_silent (blank : Token.ofLine text = []) :
    SourceLine.analyse text = .ok { text } := by
  rw [SourceLine.analyse, blank]

theorem part_silent (blank : Token.ofLine text = []) :
    part labels (text, number) = (number, none) := by
  rw [part, analyse_silent blank, contribution, Option.map_none]

theorem bindLabels_silent (blank : ∀ text ∈ texts, Token.ofLine text = [])
    (before behind : List String) (labels : LabelTable) (count : Nat) :
    bindLabels labels count ((before ++ (texts ++ behind)).map analysed) =
      bindLabels labels count ((before ++ behind).map analysed) := by
  induction before generalizing labels count with
  | nil =>
    induction texts with
    | nil => rfl
    | cons text texts ih =>
      rw [List.forall_mem_cons] at blank
      have nothing : analysed text = { text } := by
        rw [analysed, analyse_silent blank.1, sourceLine]
      rw [← ih blank.2, List.nil_append, List.cons_append, List.map_cons, nothing]
      rfl
  | cons first before ih =>
    rw [List.cons_append, List.cons_append, List.map_cons, List.map_cons, bindLabels, bindLabels,
      ih]

theorem ofLines_silent (blank : ∀ text ∈ behind, Token.ofLine text = []) :
    (ofLines (before ++ behind)).Agrees (ofLines before) := by
  have labels : (ofLines (before ++ behind)).labels = (ofLines before).labels := by
    have bound := bindLabels_silent blank before [] ∅ 0
    rw [List.append_nil, List.append_nil] at bound
    rw [labels_eq, labels_eq, bound]
  have silent {α : Type} {f : Nat × Contribution → Option α} (none : ∀ number, f (number, none) = none) :
      ((behind.zipIdx (0 + before.length)).filterMap fun source =>
        f (part (ofLines before).labels source)) = [] := by
    refine List.filterMap_eq_nil_iff.2 fun source member => ?_
    rw [part_silent (blank source.1 (List.fst_mem_of_mem_zipIdx member)), none]
  refine ⟨?_, labels, ?_⟩
  · rw [← Array.toList_inj, instructions_eq, instructions_eq, labels, List.zipIdx_append,
      List.filterMap_append, silent fun _ => rfl, List.append_nil]
  · rw [errors_eq, errors_eq, labels, List.zipIdx_append, List.filterMap_append,
      silent fun _ => rfl, List.append_nil]

end Silent

section Insertion

theorem decode_renumber (m : Mnemonic) (operands : List String) (labels : LabelTable)
    (number number' : Nat) : Instruction.decode m operands number' labels =
      (Instruction.decode m operands number labels).map fun i => { i with line := number' } := by
  rw [Instruction.decode, Instruction.decode]
  cases Instruction.decodeArgs m operands labels <;> rfl

theorem instruction?_moved (source : String × Nat) :
    instruction? (part labels (source.1, moved position source.2)) =
      (instruction? (part labels source)).map fun i => { i with line := moved position i.line } := by
  rw [part, part]
  cases SourceLine.analyse source.1 with
  | error e => rfl
  | ok line =>
    rw [contribution, contribution]
    cases line.mnemonic with
    | none => rfl
    | some m =>
      rw [Option.map_some, Option.map_some,
        decode_renumber m line.operands labels source.2 (moved position source.2)]
      cases decoded : Instruction.decode m line.operands source.2 labels with
      | error e => rfl
      | ok i =>
        have own : i.line = source.2 := Instruction.decode_line decoded
        exact congrArg (fun number => some { i with line := moved position number }) own.symm

theorem error?_moved (source : String × Nat) :
    error? (part labels (source.1, moved position source.2)) =
      (error? (part labels source)).map fun e => { e with line := moved position e.line } := by
  rw [part, part]
  cases SourceLine.analyse source.1 with
  | error e => rfl
  | ok line =>
    rw [contribution, contribution]
    cases line.mnemonic with
    | none => rfl
    | some m =>
      rw [Option.map_some, Option.map_some,
        decode_renumber m line.operands labels source.2 (moved position source.2)]
      cases Instruction.decode m line.operands source.2 labels <;> rfl

-- What is collected from numbered lines, after a line that adds nothing has been put in.
theorem filterMap_insert {α : Type} {f : String × Nat → Option α} (before behind : List String)
    (text : String) (silent : f (text, before.length) = none) :
    (before ++ text :: behind).zipIdx.filterMap f =
      (before ++ behind).zipIdx.filterMap fun source =>
        f (source.1, moved before.length source.2) := by
  have front : before.zipIdx.filterMap f =
      before.zipIdx.filterMap fun source => f (source.1, moved before.length source.2) := by
    refine List.filterMap_congr fun source member => ?_
    have low := List.snd_lt_add_of_mem_zipIdx member
    rw [moved, if_neg (by omega)]
  have rear : (behind.zipIdx (before.length + 1)).filterMap f =
      (behind.zipIdx before.length).filterMap fun source =>
        f (source.1, moved before.length source.2) := by
    rw [List.zipIdx_succ, List.filterMap_map]
    refine List.filterMap_congr fun source member => ?_
    have high := List.le_snd_of_mem_zipIdx member
    rw [Function.comp_apply, moved, if_pos high]
  rw [List.zipIdx_append, List.zipIdx_append, List.filterMap_append, List.filterMap_append,
    Nat.zero_add, List.zipIdx_cons, List.filterMap_cons_none silent, front, rear]

theorem ofLines_insert (blank : Token.ofLine text = []) (before behind : List String) :
    Widens before.length (ofLines (before ++ behind)) (ofLines (before ++ text :: behind)) := by
  have labels : (ofLines (before ++ text :: behind)).labels =
      (ofLines (before ++ behind)).labels := by
    rw [labels_eq, labels_eq]
    exact bindLabels_silent (List.forall_mem_singleton.2 blank) before behind ∅ 0
  refine ⟨?_, labels, ?_⟩
  · rw [← Array.toList_inj, Array.toList_map, instructions_eq, instructions_eq, labels,
      List.map_filterMap, filterMap_insert before behind text (by rw [part_silent blank]; rfl)]
    simp only [instruction?_moved]
  · rw [errors_eq, errors_eq, labels, List.map_filterMap,
      filterMap_insert before behind text (by rw [part_silent blank]; rfl)]
    simp only [error?_moved]

end Insertion

section Endings

theorem scan_carriageReturn (cs : List Char) : Token.scan (cs ++ ['\r']) = Token.scan cs := by
  rw [Token.scan_break rfl rfl, Token.scan_nil, List.append_nil]

theorem scan_dropCarriageReturn (cs : List Char) :
    Token.scan (Text.dropCarriageReturn cs) = Token.scan cs := by
  unfold Text.dropCarriageReturn
  split
  next last =>
    rw [← scan_carriageReturn, List.dropLast_append_getLast? '\r' last]
  next => rfl

-- Lines that are joined come apart again, but for an empty one at the end, and they keep their
-- tokens.
theorem lines_joined {carriage : List Char} (mark : carriage ∈ [[], ['\r']])
    {texts : List (List Char)} (single : ∀ line ∈ texts, '\n' ∉ line) :
    ∃ kept silent, texts = kept ++ silent ∧ (∀ line ∈ silent, Token.scan line = []) ∧
      (Text.linesAux [] ((carriage ++ ['\n']).intercalate texts)).map Token.scan =
        kept.map Token.scan := by
  induction texts with
  | nil => exact ⟨[], [], rfl, List.forall_mem_nil _, rfl⟩
  | cons line texts ih =>
    rw [List.forall_mem_cons] at single
    cases texts with
    | nil =>
      rw [List.intercalate_singleton, Text.linesAux_end single.1]
      cases line with
      | nil => exact ⟨[], [[]], rfl, List.forall_mem_singleton.2 Token.scan_nil, rfl⟩
      | cons c cs => exact ⟨[c :: cs], [], rfl, List.forall_mem_nil _, rfl⟩
    | cons next texts =>
      obtain ⟨kept, silent, shape, blank, same⟩ := ih single.2
      have feed : '\n' ∉ line ++ carriage := by
        rw [List.mem_append, not_or]
        refine ⟨single.1, ?_⟩
        rcases List.mem_pair.1 mark with rfl | rfl <;> decide
      have own : Token.scan (line ++ carriage) = Token.scan line := by
        rcases List.mem_pair.1 mark with rfl | rfl
        · rw [List.append_nil]
        · exact scan_carriageReturn line
      refine ⟨line :: kept, silent, by rw [shape]; rfl, blank, ?_⟩
      rw [List.intercalate_cons_cons, ← List.append_assoc line, List.append_assoc _ ['\n'],
        List.singleton_append, Text.linesAux_feed feed, List.map_cons, List.map_cons,
        scan_dropCarriageReturn, own, same]

theorem ofSource_joined (single : ∀ text ∈ texts, '\n' ∉ text.toList) {ending : String}
    (ends : ending ∈ ["\n", "\r\n"]) :
    (ofSource (ending.intercalate texts)).Agrees (ofLines texts) := by
  obtain ⟨carriage, mark, shape⟩ : ∃ carriage ∈ [[], ['\r']],
      ending.toList = carriage ++ ['\n'] := by
    rcases List.mem_pair.1 ends with rfl | rfl
    · exact ⟨[], by simp, rfl⟩
    · exact ⟨['\r'], by simp, rfl⟩
  have lists : ∀ line ∈ texts.map String.toList, '\n' ∉ line := by
    simpa using single
  obtain ⟨kept, silent, parts, blank, same⟩ := lines_joined mark lists
  obtain ⟨front, back, rfl, rfl, rfl⟩ := List.map_eq_append_iff.1 parts
  have tokens : (Text.lines (ending.intercalate (front ++ back))).map Token.ofLine =
      front.map Token.ofLine := by
    have cut : Token.ofLine ∘ String.ofList = Token.scan := by
      funext cs
      rw [Function.comp_apply, Token.ofLine, String.toList_ofList]
    rw [Text.lines, String.toList_intercalate, shape, List.map_map, cut, same, List.map_map]
    rfl
  refine (ofLines_congr tokens).trans (ofLines_silent fun text member => ?_).symm
  exact blank text.toList (List.mem_map_of_mem member)

end Endings

/-- Lines that are joined by line feeds, with carriage returns before them or without, assemble to
the same as the lines on their own, and a line without tokens only moves the numbers of the lines
behind it. -/
theorem line_structure :
    (∀ texts : List String, (∀ text ∈ texts, '\n' ∉ text.toList) →
      (ofSource ("\n".intercalate texts)).Agrees (ofLines texts) ∧
        (ofSource ("\r\n".intercalate texts)).Agrees (ofLines texts)) ∧
    ∀ (text : String) (before behind : List String), Token.ofLine text = [] →
      Widens before.length (ofLines (before ++ behind)) (ofLines (before ++ text :: behind)) := by
  constructor
  · intro texts single
    exact ⟨ofSource_joined single (by simp), ofSource_joined single (by simp)⟩
  · intro text before behind blank
    exact ofLines_insert blank before behind

-- Lines that end in carriage returns of their own, the last of them empty, and a form feed put in
-- behind a label.
theorem line_structure_returns :
    let before := ["a: ADDI X1, XZR, #1\r", "B end\r\r"]
    let behind := ["B a", "end:", ""]
    (∀ text ∈ before ++ behind, '\n' ∉ text.toList) ∧
      (ofSource ("\n".intercalate (before ++ behind))).Agrees (ofLines (before ++ behind)) ∧
      (ofSource ("\r\n".intercalate (before ++ behind))).Agrees (ofLines (before ++ behind)) ∧
      Token.ofLine " \x0c" = [] ∧
      Widens before.length (ofLines (before ++ behind))
        (ofLines (before ++ " \x0c" :: behind)) ∧
      (ofLines (before ++ behind)).instructions = #[⟨.addi, [1, 31, 1], 0⟩, ⟨.b, [3], 1⟩,
        ⟨.b, [0], 2⟩] := by
  intro before behind
  have single : ∀ text ∈ before ++ behind, '\n' ∉ text.toList := by decide
  have blank : Token.ofLine " \x0c" = [] := Token.scan_eq_nil_iff.2 (List.all_eq_true.1 (by decide))
  obtain ⟨feed, carriage⟩ := line_structure.1 (before ++ behind) single
  exact ⟨single, feed, carriage, blank, line_structure.2 _ before behind blank, by decide +kernel⟩

end Program

end Legv8
