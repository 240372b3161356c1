import Legv8.Proofs.Line.TrailingBlanks
import Legv8.Proofs.Program.Layout
import Legv8.Proofs.Token.Word

set_option autoImplicit false

namespace Legv8

variable {w : String}

namespace SourceLine

theorem analyse_definition (word : Scan.IsRun Scan.isWord w.toList)
    (plain : ¬ OpensOperand w.toList) : analyse (w ++ ":") =
      .ok { text := w ++ ":", tokens := [⟨.label, w ++ ":"⟩], label := some w } := by
  have tokens : Token.ofLine (w ++ ":") = [⟨.label, w ++ ":"⟩] := by
    rw [Token.ofLine, String.toList_append]
    exact (Token.scan_label word plain).trans (by rw [String.ofList_append, String.ofList_toList])
  have name : labelName ⟨.label, w ++ ":"⟩ = some w := by
    rw [labelName, if_pos rfl, String.toList_append]
    exact congrArg some ((congrArg String.ofList List.dropLast_concat).trans String.ofList_toList)
  rw [analyse_eq_ok_iff, tokens, ← name]
  exact ⟨.inr (.label rfl), rfl⟩

theorem analyse_branch (word : Scan.IsRun Scan.isWord w.toList)
    (plain : ¬ OpensOperand w.toList) : analyse ("B " ++ w) =
      .ok { text := "B " ++ w, tokens := [⟨.mnemonic .l, "B "⟩, ⟨.identifier, w⟩],
            mnemonic := some .b, operands := [w] } := by
  have tokens : Token.ofLine ("B " ++ w) = [⟨.mnemonic .l, "B "⟩, ⟨.identifier, w⟩] := by
    rw [Token.ofLine, String.toList_append]
    exact (Token.scan_branch word plain).trans (by rw [String.ofList_toList])
  have mnemonic : Mnemonic.ofName? (Text.trim "B ") = some .b := by
    have name : "B " = Letters.capitals.rewrite Mnemonic.b.name ++ " " := by decide
    rw [name, Text.trim_word_blank (Mnemonic.b.name_graphic .capitals), Mnemonic.ofName?_rewrite]
  have operand : operandTexts [⟨.identifier, w⟩] = [w] :=
    congrArg (fun text => [text])
      (Text.trim_word fun c member => (Scan.isWord_visible (word.2 c member)).1)
  rw [analyse_eq_ok_iff, tokens, ← mnemonic, ← operand]
  exact ⟨.inr (.instruction rfl ⟨[.target], List.mem_cons_self, .cons rfl .nil⟩), rfl⟩

theorem analyse_operand (word : Scan.IsRun Scan.isWord w.toList) (opens : OpensOperand w.toList) :
    ∃ e, analyse (w ++ ":") = .error e := by
  have tokens : Token.ofLine (w ++ ":") = Token.scan (w.toList ++ [':']) := by
    rw [Token.ofLine, String.toList_append]
    rfl
  have opens := (TokenKind.opensOperand_colon word).2 opens
  obtain ⟨t, ts, cut, kind⟩ := Token.scan_operand (TokenKind.head_word_append word _) opens
  cases analysis : analyse (w ++ ":") with
  | error e => exact ⟨e, rfl⟩
  | ok line =>
    obtain ⟨accepted, -⟩ := analyse_eq_ok_iff.1 analysis
    rw [tokens, cut] at accepted
    rcases accepted with empty | ⟨own⟩ | ⟨own, -⟩ | ⟨own, -, -⟩
    · cases empty
    all_goals simp [own, TokenKind.operands] at kind

end SourceLine

namespace Program

def labelLoop (w : String) : List String :=
  [w ++ ":", "B " ++ w]

theorem labelLoop_label (word : Scan.IsRun Scan.isWord w.toList)
    (plain : ¬ OpensOperand w.toList) : (ofLines (labelLoop w)).labels[w]? = some 0 := by
  rw [labels_eq, labelLoop, List.map_cons, List.map_singleton, analysed, analysed,
    SourceLine.analyse_definition word plain, SourceLine.analyse_branch word plain]
  exact Std.TreeMap.getElem?_insert_self

theorem labelLoop_parts (word : Scan.IsRun Scan.isWord w.toList)
    (plain : ¬ OpensOperand w.toList) :
    (labelLoop w).zipIdx.map (part (ofLines (labelLoop w)).labels) =
      [(0, none), (1, some (.ok ⟨.b, [0], 1⟩))] := by
  have index : Instruction.decodeLabel (ofLines (labelLoop w)).labels w = .ok 0 := by
    rw [Instruction.decodeLabel, labelLoop_label word plain]
    rfl
  have decoded : Instruction.decode .b [w] 1 (ofLines (labelLoop w)).labels =
      .ok ⟨.b, [0], 1⟩ := by
    have args : Instruction.decodeArgs .b [w] (ofLines (labelLoop w)).labels =
        (Instruction.decodeLabel (ofLines (labelLoop w)).labels w >>= fun t => pure [t]) := rfl
    rw [Instruction.decode, args, index]
    rfl
  have first : part (ofLines (labelLoop w)).labels (w ++ ":", 0) = (0, none) := by
    rw [part, SourceLine.analyse_definition word plain]
    rfl
  have second : part (ofLines (labelLoop w)).labels ("B " ++ w, 1) =
      (1, some (.ok ⟨.b, [0], 1⟩)) := by
    rw [part, SourceLine.analyse_branch word plain, contribution, Option.map_some, decoded]
    rfl
  exact congrArg₂ (fun p q => [p, q]) first second

theorem labelLoop_assembles (word : Scan.IsRun Scan.isWord w.toList)
    (plain : ¬ OpensOperand w.toList) : (ofLines (labelLoop w)).errors = [] ∧
      (ofLines (labelLoop w)).instructions = #[⟨.b, [0], 1⟩] := by
  have parts := labelLoop_parts word plain
  constructor
  · rw [errors_eq, ← Function.comp_def error?, ← List.filterMap_map, parts]
    rfl
  · rw [← Array.toList_inj, instructions_eq, ← Function.comp_def instruction?,
      ← List.filterMap_map, parts]
    rfl

theorem labelLoop_rejected (word : Scan.IsRun Scan.isWord w.toList)
    (opens : OpensOperand w.toList) : (ofLines (labelLoop w)).errors ≠ [] := by
  obtain ⟨e, rejected⟩ := SourceLine.analyse_operand word opens
  exact List.ne_nil_of_mem ((mem_errors (e := ⟨0, .parse e⟩) (labelLoop w)).2
    ⟨w ++ ":", rfl, .parse rejected⟩)

theorem labelLoop_single (word : Scan.IsRun Scan.isWord w.toList) :
    ∀ text ∈ labelLoop w, '\n' ∉ text.toList := by
  have inside : '\n' ∉ w.toList := fun member => by
    have letter := word.2 _ member
    revert letter
    decide
  simp [labelLoop, inside]

/-- A word can be a label unless it starts with a number or a register, whatever else it means. -/
theorem label_words (word : Scan.IsRun Scan.isWord w.toList) :
    ∀ p ∈ [ofLines (labelLoop w), ofSource ("\n".intercalate (labelLoop w)),
        ofSource ("\r\n".intercalate (labelLoop w))],
      (p.errors = [] ↔ ¬ OpensOperand w.toList) ∧
      (p.errors = [] → p.instructions = #[⟨.b, [0], 1⟩]) := by
  intro p listed
  have same : p.Agrees (ofLines (labelLoop w)) := by
    have single := labelLoop_single word
    simp only [List.mem_cons, List.not_mem_nil, or_false] at listed
    rcases listed with rfl | rfl | rfl
    · exact ⟨rfl, rfl, rfl⟩
    · exact ofSource_joined single (by simp)
    · exact ofSource_joined single (by simp)
  have named : (ofLines (labelLoop w)).errors = [] ↔ ¬ OpensOperand w.toList :=
    ⟨fun clean opens => labelLoop_rejected word opens clean,
      fun plain => (labelLoop_assembles word plain).1⟩
  rw [same.errors, same.instructions]
  exact ⟨named, fun clean => (labelLoop_assembles word (named.1 clean)).2⟩

-- A word that is spelled like a mnemonic, and one that starts with a register.
theorem label_words_mnemonic_register :
    Scan.IsRun Scan.isWord "addi".toList ∧ ¬ OpensOperand "addi".toList ∧
      (ofLines (labelLoop "addi")).errors = [] ∧
      (ofLines (labelLoop "addi")).instructions = #[⟨.b, [0], 1⟩] ∧
      Scan.IsRun Scan.isWord "spill_2".toList ∧ OpensOperand "spill_2".toList ∧
      (ofSource "spill_2:\r\nB spill_2").errors ≠ [] := by
  have mnemonic : Scan.IsRun Scan.isWord "addi".toList :=
    ⟨by decide, List.all_eq_true.1 (by decide)⟩
  have plain : ¬ OpensOperand "addi".toList := by
    rw [TokenKind.opensOperand_iff (TokenKind.head_word mnemonic)]
    decide
  have register : Scan.IsRun Scan.isWord "spill_2".toList :=
    ⟨by decide, List.all_eq_true.1 (by decide)⟩
  have opens : OpensOperand "spill_2".toList := by
    rw [TokenKind.opensOperand_iff (TokenKind.head_word register)]
    decide
  obtain ⟨named, branch⟩ := label_words mnemonic _ List.mem_cons_self
  have source : "\r\n".intercalate (labelLoop "spill_2") = "spill_2:\r\nB spill_2" := by decide
  obtain ⟨refused, -⟩ := label_words register (ofSource "spill_2:\r\nB spill_2") (by simp [source])
  have clean := named.2 plain
  exact ⟨mnemonic, plain, clean, branch clean, register, opens, fun clean => refused.1 clean opens⟩

end Program

end Legv8
