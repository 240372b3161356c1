import Legv8.Proofs.Program.Labels

set_option autoImplicit false

namespace Legv8

def SourceError.isDecode : SourceError → Bool
  | .parse _ => false
  | .decode _ => true

namespace Program

inductive Fails (labels : LabelTable) (source : String × Nat) : SourceError → Prop where
  | parse {e : ParseError} :
      SourceLine.analyse source.1 = .error e → Fails labels source (.parse e)
  | decode {line : SourceLine} {m : Mnemonic} {e : DecodeError} :
      SourceLine.analyse source.1 = .ok line → line.mnemonic = some m →
      Instruction.decode m line.operands source.2 labels = .error e →
      Fails labels source (.decode e)

def parseError? (source : String × Nat) : Option LineError :=
  match SourceLine.analyse source.1 with
  | .ok _ => none
  | .error e => some ⟨source.2, .parse e⟩

def decodeError? (labels : LabelTable) (source : SourceLine × Nat) : Option LineError :=
  source.1.mnemonic.bind fun m =>
    match Instruction.decode m source.1.operands source.2 labels with
    | .ok _ => none
    | .error e => some ⟨source.2, .decode e⟩

def part (labels : LabelTable) (source : String × Nat) : Nat × Contribution :=
  (source.2, contribution labels source.2 (SourceLine.analyse source.1))

variable {texts : List String} {labels : LabelTable} {number : Nat} {source : String × Nat}
  {e : LineError} {i : Instruction}

theorem contributions_eq (texts : List String) :
    contributions labels number (texts.map SourceLine.analyse) =
      (texts.zipIdx number).map (part labels) := by
  induction texts generalizing number with
  | nil => rfl
  | cons text texts ih =>
    rw [List.map_cons, contributions, ih, List.zipIdx_cons, List.map_cons, part]

theorem errors_eq (texts : List String) : (ofLines texts).errors =
    texts.zipIdx.filterMap fun source => error? (part (ofLines texts).labels source) := by
  have listed : (ofLines texts).errors = (contributions (ofLines texts).labels 0
      (texts.map SourceLine.analyse)).filterMap error? := rfl
  rw [listed, contributions_eq, List.filterMap_map]
  rfl

theorem instructions_eq (texts : List String) : (ofLines texts).instructions.toList =
    texts.zipIdx.filterMap fun source => instruction? (part (ofLines texts).labels source) := by
  have listed : (ofLines texts).instructions.toList = (contributions (ofLines texts).labels 0
      (texts.map SourceLine.analyse)).filterMap instruction? := rfl
  rw [listed, contributions_eq, List.filterMap_map]
  rfl

inductive Adds (labels : LabelTable) (source : String × Nat) : Contribution → Prop where
  | malformed {e : ParseError} : SourceLine.analyse source.1 = .error e →
      Adds labels source (some (.error (.parse e)))
  | silent {line : SourceLine} : SourceLine.analyse source.1 = .ok line →
      line.mnemonic = none → Adds labels source none
  | decoded {line : SourceLine} {m : Mnemonic} {i : Instruction} :
      SourceLine.analyse source.1 = .ok line → line.mnemonic = some m →
      Instruction.decode m line.operands source.2 labels = .ok i →
      Adds labels source (some (.ok i))
  | undecodable {line : SourceLine} {m : Mnemonic} {e : DecodeError} :
      SourceLine.analyse source.1 = .ok line → line.mnemonic = some m →
      Instruction.decode m line.operands source.2 labels = .error e →
      Adds labels source (some (.error (.decode e)))

theorem adds (labels : LabelTable) (source : String × Nat) :
    Adds labels source (contribution labels source.2 (SourceLine.analyse source.1)) := by
  cases analysis : SourceLine.analyse source.1 with
  | error e => exact .malformed analysis
  | ok line =>
    rw [contribution]
    cases mnemonic : line.mnemonic with
    | none => exact .silent analysis mnemonic
    | some m =>
      rw [Option.map_some]
      cases outcome : Instruction.decode m line.operands source.2 labels with
      | error e => exact .undecodable analysis mnemonic outcome
      | ok i => exact .decoded analysis mnemonic outcome

theorem fails_iff {cause : SourceError} : Fails labels source cause ↔
    contribution labels source.2 (SourceLine.analyse source.1) = some (.error cause) := by
  constructor
  · rintro (analysis | ⟨analysis, mnemonic, outcome⟩)
    · rw [analysis, contribution]
    · rw [analysis, contribution, mnemonic, Option.map_some, outcome, Except.mapError]
  · intro contributed
    have added := adds labels source
    rw [contributed] at added
    cases added with
    | malformed analysis => exact .parse analysis
    | undecodable analysis mnemonic outcome => exact .decode analysis mnemonic outcome

theorem decodes_iff : Decodes labels source i ↔
    contribution labels source.2 (SourceLine.analyse source.1) = some (.ok i) := by
  constructor
  · rintro ⟨-, line, m, analysis, mnemonic, outcome⟩
    rw [analysis, contribution, mnemonic, Option.map_some, outcome, Except.mapError]
  · intro contributed
    have added := adds labels source
    rw [contributed] at added
    cases added with
    | decoded analysis mnemonic outcome =>
      exact ⟨Instruction.decode_line outcome, _, _, analysis, mnemonic, outcome⟩

theorem error?_eq_some {part : Nat × Contribution} :
    error? part = some e ↔ part = (e.line, some (.error e.cause)) := by
  obtain ⟨number, _ | _ | i⟩ := part
  · simp [error?]
  · obtain ⟨line, cause⟩ := e
    simp [error?]
  · simp [error?]

theorem error?_part :
    error? (part labels source) = some e ↔ e.line = source.2 ∧ Fails labels source e.cause := by
  rw [error?_eq_some, part, Prod.mk.injEq, fails_iff, eq_comm]

theorem instruction?_part :
    instruction? (part labels source) = some i ↔ Decodes labels source i := by
  rw [instruction?_eq_some, part, decodes_iff]

theorem mem_errors (texts : List String) : e ∈ (ofLines texts).errors ↔
    ∃ text, texts[e.line]? = some text ∧
      Fails (ofLines texts).labels (text, e.line) e.cause := by
  simp only [errors_eq, List.mem_filterMap, error?_part, List.mem_zipIdx_iff_getElem?]
  constructor
  · rintro ⟨⟨text, number⟩, present, rfl, fails⟩
    exact ⟨text, present, fails⟩
  · rintro ⟨text, present, fails⟩
    exact ⟨(text, e.line), present, rfl, fails⟩

theorem mem_instructions (texts : List String) : i ∈ (ofLines texts).instructions ↔
    ∃ text, texts[i.line]? = some text ∧ Decodes (ofLines texts).labels (text, i.line) i := by
  simp only [← Array.mem_toList_iff, instructions_eq, List.mem_filterMap, instruction?_part,
    List.mem_zipIdx_iff_getElem?]
  constructor
  · rintro ⟨⟨text, number⟩, present, decoded⟩
    obtain rfl : i.line = number := decoded.1
    exact ⟨text, present, decoded⟩
  · rintro ⟨text, present, decoded⟩
    exact ⟨(text, i.line), present, decoded⟩

theorem pairwise_zipIdx (texts : List String) :
    texts.zipIdx.Pairwise fun s t => s.2 < t.2 := by
  rw [← List.pairwise_map (f := Prod.snd), List.zipIdx_map_snd]
  exact List.pairwise_lt_range' 1

theorem errors_pairwise (texts : List String) :
    (ofLines texts).errors.Pairwise fun e f => e.line < f.line := by
  rw [errors_eq]
  refine List.Pairwise.filterMap _ (fun s t before e first f second => ?_) (pairwise_zipIdx texts)
  rw [(error?_part.1 first).1, (error?_part.1 second).1]
  exact before

theorem instructions_pairwise (texts : List String) :
    (ofLines texts).instructions.toList.Pairwise fun i j => i.line < j.line := by
  rw [instructions_eq]
  refine List.Pairwise.filterMap _ (fun s t before i first j second => ?_) (pairwise_zipIdx texts)
  rw [(instruction?_part.1 first).1, (instruction?_part.1 second).1]
  exact before

theorem holdsInstruction_eq {line : SourceLine}
    (analysis : SourceLine.analyse source.1 = .ok line) :
    holdsInstruction source.1 = line.mnemonic.isSome := by
  rw [← analysed_mnemonic, analysed, analysis, sourceLine]

theorem part_counted : (instruction? (part labels source)).isSome.toNat +
    (((error? (part labels source)).map fun e => e.cause.isDecode).getD false).toNat =
      (holdsInstruction source.1).toNat := by
  have added := adds labels source
  rw [part]
  generalize contribution labels source.2 (SourceLine.analyse source.1) = c at added ⊢
  cases added with
  | malformed analysis =>
    have broken : holdsInstruction source.1 = false := by rw [holdsInstruction, analysis]
    rw [broken]
    rfl
  | silent analysis mnemonic =>
    rw [holdsInstruction_eq analysis, mnemonic]
    rfl
  | decoded analysis mnemonic outcome =>
    rw [holdsInstruction_eq analysis, mnemonic]
    rfl
  | undecodable analysis mnemonic outcome =>
    rw [holdsInstruction_eq analysis, mnemonic]
    rfl

theorem countP_add {α : Type} {p q r : α → Bool}
    (each : ∀ a, (p a).toNat + (q a).toNat = (r a).toNat) (xs : List α) :
    xs.countP p + xs.countP q = xs.countP r := by
  induction xs with
  | nil => rfl
  | cons x xs ih =>
    have bit (b : Bool) : (if b = true then 1 else 0) = b.toNat := by cases b <;> rfl
    have here := each x
    simp only [List.countP_cons, bit]
    omega

theorem error?_passes : error? (part labels source) =
    (parseError? source).or (decodeError? labels (analysed source.1, source.2)) := by
  have added := adds labels source
  rw [part, parseError?, decodeError?, analysed]
  generalize contribution labels source.2 (SourceLine.analyse source.1) = c at added ⊢
  cases added with
  | malformed analysis => simp [analysis, error?]
  | silent analysis mnemonic => simp [analysis, sourceLine, mnemonic, error?]
  | decoded analysis mnemonic outcome => simp [analysis, sourceLine, mnemonic, outcome, error?]
  | undecodable analysis mnemonic outcome =>
    simp [analysis, sourceLine, mnemonic, outcome, error?]

theorem decodeError?_eq_none {e : LineError} (first : parseError? source = some e) :
    decodeError? labels (analysed source.1, source.2) = none := by
  rw [parseError?] at first
  rw [decodeError?, analysed]
  cases analysis : SourceLine.analyse source.1 with
  | ok line => simp [analysis] at first
  | error e => rfl

theorem filterMap_or_perm {α β : Type} {f g : α → Option β}
    (apart : ∀ a b, f a = some b → g a = none) (xs : List α) :
    (xs.filterMap fun a => (f a).or (g a)).Perm (xs.filterMap f ++ xs.filterMap g) := by
  induction xs with
  | nil => exact .nil
  | cons x xs ih =>
    cases first : f x with
    | some b =>
      simpa [List.filterMap_cons, first, apart x b first] using ih
    | none =>
      cases second : g x with
      | none => simpa [List.filterMap_cons, first, second] using ih
      | some b =>
        simp only [List.filterMap_cons, first, second, Option.none_or]
        exact (ih.cons b).trans List.perm_middle.symm

theorem errors_sorted (texts : List String) : (ofLines texts).errors =
    (texts.zipIdx.filterMap parseError? ++
      (ofLines texts).lines.zipIdx.filterMap (decodeError? (ofLines texts).labels)).mergeSort
        fun e f => e.line ≤ f.line := by
  have passes : (ofLines texts).errors.Perm (texts.zipIdx.filterMap parseError? ++
      (ofLines texts).lines.zipIdx.filterMap (decodeError? (ofLines texts).labels)) := by
    rw [errors_eq, lines_eq, List.zipIdx_map, List.filterMap_map]
    simp only [error?_passes]
    exact filterMap_or_perm (fun source e first => decodeError?_eq_none first) _
  have increasing := errors_pairwise texts
  have alone : ((ofLines texts).errors.map fun e => e.line).Nodup :=
    List.pairwise_map.2 (increasing.imp Nat.ne_of_lt)
  -- No two errors are of one line, so they can be sorted in one way only.
  refine List.Perm.eq_of_pairwise (fun e f first second low high => ?_)
    (increasing.imp Nat.le_of_lt) ?_ (passes.trans (List.mergeSort_perm _ _).symm)
  · have listed := passes.mem_iff.2 ((List.mergeSort_perm _ _).mem_iff.1 second)
    exact List.inj_on_of_nodup_map alone first listed (Nat.le_antisymm low high)
  · have transitive (e f g : LineError) : decide (e.line ≤ f.line) = true →
        decide (f.line ≤ g.line) = true → decide (e.line ≤ g.line) = true := by
      simpa only [decide_eq_true_eq] using Nat.le_trans
    have total (e f : LineError) :
        (decide (e.line ≤ f.line) || decide (f.line ≤ e.line)) = true := by
      simpa only [Bool.or_eq_true, decide_eq_true_eq] using Nat.le_total ..
    exact (List.pairwise_mergeSort transitive total _).imp of_decide_eq_true

theorem instructions_counted (texts : List String) :
    (ofLines texts).instructions.size +
      (ofLines texts).errors.countP (fun e => e.cause.isDecode) =
        (ofLines texts).lines.countP fun line => line.mnemonic.isSome := by
  have lines : (ofLines texts).lines.countP (fun line => line.mnemonic.isSome) =
      texts.countP holdsInstruction := by
    rw [lines_eq, List.countP_map]
    exact List.countP_congr fun text _ => by rw [Function.comp_apply, analysed_mnemonic]
  rw [lines, ← Array.length_toList, instructions_eq, errors_eq, List.length_filterMap_eq_countP,
    List.countP_filterMap, countP_add fun _ => part_counted, ← length_instructionLines,
    instructionLines, List.countP_eq_length_filter]

/-- Each line at fault has one error, the one that it is at fault with, and the errors are in the
order of the lines, as two passes would list them after sorting. The instructions are those of the
other lines, and each line with an instruction adds an instruction or an error of decoding it. -/
theorem errors_complete (texts : List String) :
    (ofLines texts).errors.Pairwise (fun e f => e.line < f.line) ∧
    (∀ e, e ∈ (ofLines texts).errors ↔ ∃ text, texts[e.line]? = some text ∧
      Fails (ofLines texts).labels (text, e.line) e.cause) ∧
    (ofLines texts).errors = (texts.zipIdx.filterMap parseError? ++
      (ofLines texts).lines.zipIdx.filterMap (decodeError? (ofLines texts).labels)).mergeSort
        (fun e f => e.line ≤ f.line) ∧
    (ofLines texts).instructions.toList.Pairwise (fun i j => i.line < j.line) ∧
    (∀ i, i ∈ (ofLines texts).instructions ↔ ∃ text, texts[i.line]? = some text ∧
      Decodes (ofLines texts).labels (text, i.line) i) ∧
    (ofLines texts).instructions.size +
      (ofLines texts).errors.countP (fun e => e.cause.isDecode) =
        (ofLines texts).lines.countP (fun line => line.mnemonic.isSome) :=
  ⟨errors_pairwise texts, fun _ => mem_errors texts, errors_sorted texts,
    instructions_pairwise texts, fun _ => mem_instructions texts, instructions_counted texts⟩

end Program

end Legv8
