import Legv8.Proofs.Instruction.Registers
import Legv8.Proofs.Line.Mnemonic
import Legv8.Proofs.Machine.Effect
import Mathlib.Algebra.Group.Nat.Defs

set_option autoImplicit false

namespace Legv8

-- A text that is not there counts as empty.
def SourceLine.target? (line : SourceLine) : Option String :=
  match line.form? with
  | some .l => some (line.operands[0]?.getD "")
  | some .rl => some (line.operands[1]?.getD "")
  | _ => none

namespace Instruction

variable {m : Mnemonic} {operands : List String} {number : Nat} {labels : LabelTable}
  {i : Instruction}

theorem decode_line (decoded : decode m operands number labels = .ok i) : i.line = number := by
  simp only [decode, bind_eq_ok, pure_eq_ok] at decoded
  obtain ⟨args, -, rfl⟩ := decoded
  rfl

theorem expansion_label {m : Mnemonic} (label : (m.expansion?.getD m).form = .l ∨
    (m.expansion?.getD m).form = .rl) (args : List Int) :
    m.expansion?.getD m = m ∧ expandArgs m args = args := by
  cases m
  case cmp | cmpi | mov => exact absurd label (by decide)
  all_goals exact ⟨rfl, rfl⟩

theorem decodeLabel_ok {name : String} {t : Int} (decoded : decodeLabel labels name = .ok t) :
    ∃ index, labels[name]? = some index ∧ t = index := by
  unfold decodeLabel at decoded
  split at decoded
  next index bound => exact ⟨index, bound, (Except.ok.inj decoded).symm⟩
  next => cases decoded

theorem decode_label {t : Int} (decoded : decode m operands number labels = .ok i)
    (named : i.target? = some t) :
    ∃ k index, (m.form = .l ∧ k = 0 ∨ m.form = .rl ∧ k = 1) ∧
      labels[operands[k]?.getD ""]? = some index ∧ t = index := by
  simp only [decode, bind_eq_ok, pure_eq_ok] at decoded
  obtain ⟨args, read, rfl⟩ := decoded
  unfold target? at named
  dsimp only at named
  split at named
  next form =>
    obtain ⟨same, kept⟩ := expansion_label (.inl form) args
    rw [same] at form
    simp only [decodeArgs, form, bind_eq_ok, pure_eq_ok] at read
    obtain ⟨v, label, rfl⟩ := read
    obtain ⟨index, bound, rfl⟩ := decodeLabel_ok label
    exact ⟨0, index, .inl ⟨form, rfl⟩, bound, by simpa [arg, kept, eq_comm] using named⟩
  next form =>
    obtain ⟨same, kept⟩ := expansion_label (.inr form) args
    rw [same] at form
    simp only [decodeArgs, form, bind_eq_ok, pure_eq_ok] at read
    obtain ⟨r, -, v, label, rfl⟩ := read
    obtain ⟨index, bound, rfl⟩ := decodeLabel_ok label
    exact ⟨1, index, .inr ⟨form, rfl⟩, bound, by simpa [arg, kept, eq_comm] using named⟩
  next => cases named

end Instruction

namespace Program

def holdsInstruction (text : String) : Bool :=
  match SourceLine.analyse text with
  | .ok line => line.form?.isSome
  | .error _ => false

def Defines (text name : String) : Prop :=
  ∃ line, SourceLine.analyse text = .ok line ∧ line.label = some name

def DefinedBehind (texts : List String) (name : String) (before : List String) : Prop :=
  ∃ text behind, texts = before ++ text :: behind ∧ Defines text name ∧
    ∀ later ∈ behind, ¬ Defines later name

def instructionLines (texts : List String) : List (String × Nat) :=
  texts.zipIdx.filter fun source => holdsInstruction source.1

def Decodes (labels : LabelTable) (source : String × Nat) (i : Instruction) : Prop :=
  i.line = source.2 ∧ ∃ line m, SourceLine.analyse source.1 = .ok line ∧
    line.mnemonic = some m ∧ Instruction.decode m line.operands source.2 labels = .ok i

def Names (texts : List String) (number : Nat) (name : String) : Prop :=
  ∃ text line, texts[number]? = some text ∧ SourceLine.analyse text = .ok line ∧
    line.target? = some name

/-- An index is that of the first instruction on a line or behind it, or the end of the program if
there is none. -/
structure Lands (p : Program) (number index : Nat) : Prop where
  within : index ≤ p.instructions.size
  first : ∀ k i, p.instructions[k]? = some i → (index ≤ k ↔ number ≤ i.line)

variable {texts before behind : List String} {text name : String} {labels : LabelTable}
  {count number index : Nat}

def analysed (text : String) : SourceLine :=
  sourceLine text (SourceLine.analyse text)

theorem analysed_label : (analysed text).label = some name ↔ Defines text name := by
  unfold analysed Defines
  cases analysis : SourceLine.analyse text with
  | error e => simp [sourceLine]
  | ok line => simp [sourceLine]

theorem analysed_mnemonic : (analysed text).mnemonic.isSome = holdsInstruction text := by
  unfold analysed holdsInstruction
  cases analysis : SourceLine.analyse text with
  | error e => rfl
  | ok line =>
    change line.mnemonic.isSome = line.form?.isSome
    rw [← SourceLine.mnemonic_form analysis, Option.isSome_map]

theorem definedBehind_cons : DefinedBehind (text :: texts) name before ↔
    (before = [] ∧ Defines text name ∧ ∀ later ∈ texts, ¬ Defines later name) ∨
      ∃ rest, before = text :: rest ∧ DefinedBehind texts name rest := by
  unfold DefinedBehind
  cases before with
  | nil => simp
  | cons first rest =>
    simpa [and_assoc] using fun _ _ _ _ _ => eq_comm

theorem bindLabels_cons (line : SourceLine) (rest : List SourceLine) :
    bindLabels labels count (line :: rest) = bindLabels (bindLabels labels count [line])
      (if line.mnemonic.isSome then count + 1 else count) rest :=
  rfl

theorem bindLabels_singleton : (bindLabels labels count [analysed text])[name]? = some index ↔
    Defines text name ∧ index = count ∨ ¬ Defines text name ∧ labels[name]? = some index := by
  rw [← analysed_label, bindLabels, bindLabels]
  cases (analysed text).label with
  | none => simp
  | some own =>
    by_cases same : own = name
    · simp [same, eq_comm]
    · simp [same, Std.TreeMap.getElem?_insert]

theorem bindLabels_eq_some :
    (bindLabels labels count (texts.map analysed))[name]? = some index ↔
      (∃ before, DefinedBehind texts name before ∧
        index = count + before.countP holdsInstruction) ∨
      (∀ text ∈ texts, ¬ Defines text name) ∧ labels[name]? = some index := by
  induction texts generalizing labels count with
  | nil => simp [bindLabels, DefinedBehind]
  | cons text texts ih =>
    have counted (rest : List String) :
        (if holdsInstruction text then count + 1 else count) + rest.countP holdsInstruction =
          count + (text :: rest).countP holdsInstruction := by
      rw [List.countP_cons]
      split <;> omega
    rw [List.map_cons, bindLabels_cons, analysed_mnemonic, ih, bindLabels_singleton]
    simp only [definedBehind_cons, counted, List.forall_mem_cons]
    -- The first line counts only if no later one defines the label again.
    constructor
    · rintro (⟨rest, defined, rfl⟩ | ⟨last, ⟨here, rfl⟩ | ⟨absent, bound⟩⟩)
      · exact .inl ⟨text :: rest, .inr ⟨rest, rfl, defined⟩, rfl⟩
      · exact .inl ⟨[], .inl ⟨rfl, here, last⟩, rfl⟩
      · exact .inr ⟨⟨absent, last⟩, bound⟩
    · rintro (⟨before, ⟨rfl, here, last⟩ | ⟨rest, rfl, defined⟩, rfl⟩ | ⟨⟨absent, last⟩, bound⟩)
      · exact .inr ⟨last, .inl ⟨here, rfl⟩⟩
      · exact .inl ⟨rest, defined, rfl⟩
      · exact .inr ⟨last, .inr ⟨absent, bound⟩⟩

theorem lines_eq (texts : List String) : (ofLines texts).lines = texts.map analysed := by
  have listed : (ofLines texts).lines =
      List.zipWith sourceLine texts (texts.map SourceLine.analyse) := rfl
  rw [listed, List.zipWith_map_right, List.zipWith_self]
  rfl

theorem labels_eq (texts : List String) :
    (ofLines texts).labels = bindLabels ∅ 0 (texts.map analysed) := by
  rw [← lines_eq]
  rfl

theorem label_eq_some : (ofLines texts).labels[name]? = some index ↔
    ∃ before, DefinedBehind texts name before ∧ index = before.countP holdsInstruction := by
  rw [labels_eq, bindLabels_eq_some]
  simp

theorem length_instructionLines (texts : List String) :
    (instructionLines texts).length = texts.countP holdsInstruction := by
  rw [instructionLines, ← List.countP_eq_length_filter]
  conv_rhs => rw [← List.zipIdx_map_fst 0 texts, List.countP_map]
  rfl

theorem instructionLines_at {k : Nat} {source : String × Nat}
    (place : (instructionLines (before ++ behind))[k]? = some source) :
    before.countP holdsInstruction ≤ k ↔ before.length ≤ source.2 := by
  rw [instructionLines, List.zipIdx_append, List.filter_append, ← instructionLines,
    List.getElem?_append, length_instructionLines] at place
  -- The lines in front come first, and they alone have numbers below `before.length`.
  split at place
  next inside =>
    have member := (List.mem_filter.1 (List.mem_of_getElem? place)).1
    have low := List.snd_lt_add_of_mem_zipIdx member
    omega
  next beyond =>
    have member := (List.mem_filter.1 (List.mem_of_getElem? place)).1
    have high := List.le_snd_of_mem_zipIdx member
    omega

theorem contribution_cases {a : Analysis}
    (accepted : error? (number, contribution labels number a) = none) :
    ∃ line, a = .ok line ∧
      (line.mnemonic = none ∧ contribution labels number a = none ∨
        ∃ m i, line.mnemonic = some m ∧ Instruction.decode m line.operands number labels = .ok i ∧
          contribution labels number a = some (.ok i)) := by
  cases a with
  | error e => simp [contribution, error?] at accepted
  | ok line =>
    refine ⟨line, rfl, ?_⟩
    cases mnemonic : line.mnemonic with
    | none => exact .inl ⟨rfl, by rw [contribution, mnemonic, Option.map_none]⟩
    | some m =>
      have made : contribution labels number (.ok line) =
          some ((Instruction.decode m line.operands number labels).mapError .decode) := by
        rw [contribution, mnemonic, Option.map_some]
      cases outcome : Instruction.decode m line.operands number labels with
      | error e => simp [error?, made, outcome, Except.mapError] at accepted
      | ok i => exact .inr ⟨m, i, rfl, outcome, by rw [made, outcome]; rfl⟩

theorem instructions_decode
    (valid : (contributions labels number (texts.map SourceLine.analyse)).filterMap error? = []) :
    List.Forall₂ (Decodes labels) ((texts.zipIdx number).filter fun source =>
        holdsInstruction source.1)
      ((contributions labels number (texts.map SourceLine.analyse)).filterMap instruction?) := by
  induction texts generalizing number with
  | nil => exact .nil
  | cons text texts ih =>
    rw [List.map_cons, contributions, List.filterMap_cons] at valid
    cases accepted : error? (number, contribution labels number (SourceLine.analyse text)) with
    | some e => simp [accepted] at valid
    | none =>
      rw [accepted] at valid
      rw [List.map_cons, contributions, List.filterMap_cons, List.zipIdx_cons]
      -- A line without an error holds nothing to execute, or it is decoded.
      obtain ⟨line, analysis, ⟨mnemonic, part⟩ | ⟨m, i, mnemonic, decoded, part⟩⟩ :=
        contribution_cases accepted
      · have silent : holdsInstruction text = false := by
          rw [← analysed_mnemonic, analysed, analysis, sourceLine, mnemonic, Option.isSome_none]
        rw [part, List.filter_cons_of_neg (by simp [silent])]
        exact ih valid
      · have holds : holdsInstruction text = true := by
          rw [← analysed_mnemonic, analysed, analysis, sourceLine, mnemonic, Option.isSome_some]
        rw [part, List.filter_cons_of_pos (by simp [holds])]
        exact .cons ⟨Instruction.decode_line decoded, line, m, analysis, mnemonic, decoded⟩
          (ih valid)

theorem isValid_iff : (ofLines texts).isValid = true ↔
    (contributions (ofLines texts).labels 0 (texts.map SourceLine.analyse)).filterMap error? =
      [] := by
  simp [isValid, ofLines]

theorem forall₂_decodes (valid : (ofLines texts).isValid = true) :
    List.Forall₂ (Decodes (ofLines texts).labels) (instructionLines texts)
      (ofLines texts).instructions.toList :=
  instructions_decode (isValid_iff.1 valid)

theorem decodes_at {k : Nat} {i : Instruction} (valid : (ofLines texts).isValid = true)
    (fetched : (ofLines texts).instructions[k]? = some i) :
    ∃ source, (instructionLines texts)[k]? = some source ∧
      Decodes (ofLines texts).labels source i := by
  obtain ⟨length, pairs⟩ := List.forall₂_iff_get.1 (forall₂_decodes valid)
  rw [← Array.getElem?_toList, List.getElem?_eq_some_iff] at fetched
  obtain ⟨inside, rfl⟩ := fetched
  have listed := length ▸ inside
  exact ⟨(instructionLines texts)[k], List.getElem?_eq_getElem listed, pairs k listed inside⟩

theorem label_le (valid : (ofLines texts).isValid = true)
    (bound : (ofLines texts).labels[name]? = some index) :
    index ≤ (ofLines texts).instructions.size := by
  obtain ⟨before, ⟨text, behind, rfl, -⟩, rfl⟩ := label_eq_some.1 bound
  rw [← Array.length_toList, ← (forall₂_decodes valid).length_eq, length_instructionLines,
    List.countP_append]
  exact Nat.le_add_right _ _

theorem defined_lands (valid : (ofLines texts).isValid = true)
    (defined : DefinedBehind texts name before) :
    (ofLines texts).Lands before.length (before.countP holdsInstruction) := by
  refine ⟨label_le valid (label_eq_some.2 ⟨before, defined, rfl⟩), fun k i fetched => ?_⟩
  obtain ⟨source, place, line, -⟩ := decodes_at valid fetched
  obtain ⟨text, behind, rfl, -⟩ := defined
  rw [line]
  exact instructionLines_at place

theorem target_named {i : Instruction} {t : Int} (valid : (ofLines texts).isValid = true)
    (member : i ∈ (ofLines texts).instructions) (named : i.target? = some t) :
    ∃ name index, Names texts i.line name ∧ (ofLines texts).labels[name]? = some index ∧
      t = index := by
  obtain ⟨k, fetched⟩ := Array.getElem?_of_mem member
  obtain ⟨⟨text, number⟩, place, rfl, line, m, analysis, mnemonic, decoded⟩ :=
    decodes_at valid fetched
  obtain ⟨k, index, form, bound, rfl⟩ := Instruction.decode_label decoded named
  have present := (List.mem_filter.1 (List.mem_of_getElem? place)).1
  refine ⟨_, index, ⟨text, line, List.mem_zipIdx_iff_getElem?.1 present, analysis, ?_⟩, bound, rfl⟩
  rw [SourceLine.target?, ← SourceLine.mnemonic_form analysis, mnemonic, Option.map_some]
  rcases form with ⟨form, rfl⟩ | ⟨form, rfl⟩ <;> rw [form]

/-- No line with a mnemonic token is without its mnemonic. A label is bound to the count of the
instruction lines in front of its last definition, the instructions of a program without errors are
those of its instruction lines, and a branch to a label goes to the first of them that does not
stand in front of the definition. -/
theorem labels_resolve (texts : List String) :
    (∀ text line, SourceLine.analyse text = .ok line →
      line.mnemonic.map Mnemonic.form = line.form?) ∧
    let p := ofLines texts
    (∀ name index, p.labels[name]? = some index ↔
      ∃ before, DefinedBehind texts name before ∧ index = before.countP holdsInstruction) ∧
    (p.isValid = true →
      List.Forall₂ (Decodes p.labels) (instructionLines texts) p.instructions.toList ∧
      ∀ i ∈ p.instructions, ∀ t, i.target? = some t → ∃ name before index,
        Names texts i.line name ∧ DefinedBehind texts name before ∧ t = Int.ofNat index ∧
        p.Lands before.length index ∧
        -- An operand holds an index as a word.
        ∀ m : Machine, (m.execute i).1 = .ok () →
          (m.execute i).2.next = if m.branches i then index % 2 ^ 64 else m.next) := by
  refine ⟨fun text line => SourceLine.mnemonic_form, fun name index => label_eq_some,
    fun valid => ⟨forall₂_decodes valid, fun i member t target => ?_⟩⟩
  obtain ⟨name, index, named, bound, rfl⟩ := target_named valid member target
  obtain ⟨before, defined, rfl⟩ := label_eq_some.1 bound
  refine ⟨name, before, _, named, defined, rfl, defined_lands valid defined, fun m done => ?_⟩
  rw [Machine.executed_target target done, BitVec.ofInt_natCast, BitVec.toNat_ofNat]

-- A label that is defined twice, the second time on a line of its own, and one behind the last
-- instruction.
theorem labels_resolve_twice :
    let texts := ["a: ADDI X1, XZR, #1", "", "a:", "CBZ X1, end", "B a", "end:"]
    let p := ofLines texts
    let back : Instruction := ⟨.b, [1], 4⟩
    p.isValid = true ∧ p.instructions.toList.map Instruction.line = [0, 3, 4] ∧
      (∃ before, DefinedBehind texts "a" before ∧ 1 = before.countP holdsInstruction) ∧
      (∃ before, DefinedBehind texts "end" before ∧ 3 = before.countP holdsInstruction) ∧
      p.instructions[2]? = some back ∧ ∃ name before index, Names texts 4 name ∧
        DefinedBehind texts name before ∧ 1 = Int.ofNat index ∧ p.Lands before.length index := by
  intro texts p back
  have facts : p.isValid = true ∧ p.instructions.toList.map Instruction.line = [0, 3, 4] ∧
      p.labels["a"]? = some 1 ∧ p.labels["end"]? = some 3 ∧
      p.instructions[2]? = some back := by
    decide +kernel
  obtain ⟨valid, lines, first, last, fetched⟩ := facts
  obtain ⟨-, labels, resolved⟩ := labels_resolve texts
  obtain ⟨-, branches⟩ := resolved valid
  obtain ⟨name, before, index, named, defined, target, lands, -⟩ :=
    branches back (Array.mem_of_getElem? fetched) 1 rfl
  exact ⟨valid, lines, (labels "a" 1).1 first, (labels "end" 3).1 last, fetched,
    name, before, index, named, defined, target, lands⟩

end Program

end Legv8
