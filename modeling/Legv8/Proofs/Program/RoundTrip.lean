import Legv8.Program
import Legv8.Proofs.Instruction.Disassembly

set_option autoImplicit false

namespace Legv8

namespace Program

variable {is : List Instruction}

theorem contribution_disassemble {i : Instruction} (legible : i.Legible) (l : Letters)
    (textOffset : Word) (labels : LabelTable) (number : Nat) :
    contribution labels number (SourceLine.analyse (l.rewrite (i.disassemble textOffset))) =
      some (.ok { i with line := number }) := by
  have taken : SourceLine.analyse (l.rewrite (i.disassemble textOffset)) =
      .ok (SourceLine.ofTokens (l.rewrite (i.disassemble textOffset)) (i.tokens l)) := by
    have passes := i.checkLine_tokens l
    rw [SourceLine.analyse, Instruction.ofLine_disassemble legible]
    rw [Instruction.tokens] at passes ⊢
    simp only [passes]
    rfl
  rw [taken, Instruction.ofTokens_tokens, contribution, Option.map_some,
    Instruction.decode_tokens legible]
  rfl

theorem contributions_disassemble (legible : ∀ i ∈ is, i.Legible) (l : Letters)
    (textOffset : Word) (labels : LabelTable) (number : Nat) :
    contributions labels number
        ((is.map fun i => l.rewrite (i.disassemble textOffset)).map SourceLine.analyse) =
      (is.zipIdx number).map fun (i, line) => (line, some (.ok { i with line })) := by
  induction is generalizing number with
  | nil => rfl
  | cons i is ih =>
    have later := ih (fun j member => legible j (List.mem_cons_of_mem i member)) (number + 1)
    have here := contribution_disassemble (legible i List.mem_cons_self) l textOffset labels number
    simp only [List.map_cons, contributions, here, later, List.zipIdx_cons]

structure Lists (p : Program) (is : List Instruction) : Prop where
  errors : p.errors = []
  instructions : p.instructions.toList = is.zipIdx.map fun (i, line) => { i with line }

theorem Lists.operands {p : Program} (lists : p.Lists is) :
    p.instructions.toList.map (fun j => (j.mnemonic, j.args)) =
      is.map fun i => (i.mnemonic, i.args) := by
  have numbered (is : List Instruction) (number : Nat) :
      (is.zipIdx number).map (fun p => (p.1.mnemonic, p.1.args)) =
        is.map fun i => (i.mnemonic, i.args) := by
    induction is generalizing number with
    | nil => rfl
    | cons i is ih => rw [List.zipIdx_cons, List.map_cons, ih, List.map_cons]
  rw [lists.instructions, List.map_map]
  exact numbered is 0

theorem ofLines_disassemble (legible : ∀ i ∈ is, i.Legible) (l : Letters) (textOffset : Word) :
    (ofLines (is.map fun i => l.rewrite (i.disassemble textOffset))).Lists is := by
  constructor
  · rw [ofLines]
    dsimp only
    rw [contributions_disassemble legible, List.filterMap_map, List.filterMap_eq_nil_iff]
    exact fun _ _ => rfl
  · rw [ofLines]
    dsimp only
    rw [contributions_disassemble legible, List.filterMap_map, ← List.filterMap_eq_map]
    rfl

theorem ofSource_disassemble (legible : ∀ i ∈ is, i.Legible) (l : Letters) (textOffset : Word) :
    (ofSource
      ("\n".intercalate (is.map fun i => l.rewrite (i.disassemble textOffset)))).Lists is := by
  rw [ofSource, Text.lines_intercalate]
  · exact ofLines_disassemble legible l textOffset
  · intro text member
    obtain ⟨i, present, rfl⟩ := List.mem_map.1 member
    exact Instruction.isLine_disassemble (legible i present) l textOffset

-- An assembled program without labels in its operands is assembled again from its own listing.
theorem listing_reassembles {texts : List String} (textOffset : Word)
    (unlabelled : ∀ i ∈ (ofLines texts).instructions,
      i.mnemonic.form ≠ .l ∧ i.mnemonic.form ≠ .rl) :
    (ofSource ("\n".intercalate ((ofLines texts).instructions.toList.map
      (·.disassemble textOffset)))).Lists (ofLines texts).instructions.toList := by
  have legible : ∀ i ∈ (ofLines texts).instructions.toList, i.Legible := by
    intro i member
    have listed := Array.mem_toList_iff.1 member
    obtain ⟨m, operands, line, read⟩ := decode_of_mem listed
    exact Instruction.decode_legible read (unlabelled i listed)
  have listed := ofSource_disassemble legible .capitals textOffset
  simp only [Letters.rewrite_capitals] at listed
  exact listed

/-- Assembling the disassembly of an instruction, as it is or in small letters, gives the
instruction back, and assembling a listing gives back its instructions line by line. -/
theorem disassembly_round_trip (textOffset : Word) :
    (∀ i : Instruction, i.Legible →
      ∀ source ∈ [i.disassemble textOffset, (i.disassemble textOffset).toLower],
        (ofSource source).errors = [] ∧
          ∃ j, (ofSource source).instructions = #[j] ∧
            j.mnemonic = i.mnemonic ∧ j.args = i.args ∧ j.control = i.control) ∧
      ∀ is : List Instruction, (∀ i ∈ is, i.Legible) →
        ∀ p ∈ [ofLines (is.map (·.disassemble textOffset)),
            ofSource ("\n".intercalate (is.map (·.disassemble textOffset)))],
          p.errors = [] ∧
            p.instructions.toList.map (fun j => (j.mnemonic, j.args)) =
              is.map fun i => (i.mnemonic, i.args) := by
  constructor
  · intro i legible source member
    obtain ⟨l, rfl⟩ : ∃ l : Letters, source = l.rewrite (i.disassemble textOffset) := by
      simp only [List.mem_cons, List.not_mem_nil, or_false] at member
      rcases member with rfl | rfl
      · exact ⟨.capitals, (Letters.rewrite_capitals _).symm⟩
      · exact ⟨.small, (Letters.rewrite_small _).symm⟩
    have alone : ∀ j ∈ [i], j.Legible := by simpa using legible
    have lists := ofSource_disassemble alone l textOffset
    rw [List.map_singleton, String.intercalate_singleton] at lists
    refine ⟨lists.errors, { i with line := 0 }, ?_, rfl, rfl, rfl⟩
    rw [← Array.toList_inj, lists.instructions]
    rfl
  · intro is legible p member
    have lists : p.Lists is := by
      have capitals : (is.map fun i => i.disassemble textOffset) =
          is.map fun i => Letters.capitals.rewrite (i.disassemble textOffset) := by
        simp only [Letters.rewrite_capitals]
      simp only [List.mem_cons, List.not_mem_nil, or_false, capitals] at member
      rcases member with rfl | rfl
      · exact ofLines_disassemble legible .capitals textOffset
      · exact ofSource_disassemble legible .capitals textOffset
    exact ⟨lists.errors, lists.operands⟩

theorem disassembly_round_trip_bounds :
    let load : Instruction := ⟨.ldurd, [31, 28, -256], 0⟩
    let move : Instruction := ⟨.movk, [31, 65535, 48], 1⟩
    (load.Legible ∧ move.Legible) ∧
      ((ofSource "ldurd d31, [x28, #-256]").errors = [] ∧
        ∃ j, (ofSource "ldurd d31, [x28, #-256]").instructions = #[j] ∧
          j.mnemonic = load.mnemonic ∧ j.args = load.args ∧ j.control = load.control) ∧
      (ofSource "LDURD D31, [X28, #-256]\nMOVK XZR, #65535, LSL #48").errors = [] ∧
        (ofSource "LDURD D31, [X28, #-256]\nMOVK XZR, #65535, LSL #48").instructions.toList.map
            (fun j => (j.mnemonic, j.args)) = [(.ldurd, load.args), (.movk, move.args)] := by
  intro load move
  have loads : load.Legible := ⟨rfl, by decide, .rm .d 31 28 rfl⟩
  have moves : move.Legible := ⟨rfl, by decide, .risi 31 rfl rfl⟩
  have small : (load.disassemble 0).toLower = "ldurd d31, [x28, #-256]" := by decide +kernel
  have listing : "\n".intercalate ([load, move].map (·.disassemble 0)) =
      "LDURD D31, [X28, #-256]\nMOVK XZR, #65535, LSL #48" := by
    decide +kernel
  have single := (disassembly_round_trip 0).1 load loads _
    (List.mem_cons_of_mem _ List.mem_cons_self)
  have both := (disassembly_round_trip 0).2 [load, move] (by simp [loads, moves]) _
    (List.mem_cons_of_mem _ List.mem_cons_self)
  rw [small] at single
  rw [listing] at both
  exact ⟨⟨loads, moves⟩, single, both⟩

end Program

end Legv8
