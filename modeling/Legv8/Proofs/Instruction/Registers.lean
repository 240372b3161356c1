import Legv8.Program
import Legv8.Proofs.Outcome

set_option autoImplicit false

namespace Legv8

-- How many registers an instruction of the form names. They stand in front of its other operands.
def Form.registerCount : Form → Nat
  | .l => 0
  | .r | .ri | .risi | .rl => 1
  | .rr _ | .rri | .rm _ => 2
  | .rrr _ | .rrm => 3

/-- Every register that the instruction names exists. -/
def Instruction.WellFormed (i : Instruction) : Prop :=
  ∀ k < i.mnemonic.form.registerCount, i.number k < 32

namespace Operand

variable {text : String} {p : Permitted} {v : Int}

theorem register_ok (read : register text = .ok v) : ∃ r : Reg, v = r.val := by
  unfold register at read
  split at read
  next r _ => exact ⟨r, by simpa using read.symm⟩
  next => simp at read

theorem immediate_ok (read : immediate text p = .ok v) : p.allows v = true := by
  unfold immediate at read
  split at read
  next w present =>
    obtain rfl := Except.ok.inj read
    exact (Option.filter_eq_some_iff.1 present).2
  next => cases read

theorem optionalImmediate_ok (zero : p.allows 0 = true)
    (read : optionalImmediate text p = .ok v) : p.allows v = true := by
  unfold optionalImmediate at read
  split at read
  next =>
    obtain rfl := Except.ok.inj read
    exact zero
  next => exact immediate_ok read

theorem wideShift_ok (read : wideShift text = .ok v) : Permitted.wideShift.allows v = true := by
  unfold wideShift at read
  split at read
  next =>
    obtain rfl := Except.ok.inj read
    rfl
  next =>
    split at read
    next => cases read
    next => exact immediate_ok read

end Operand

namespace Instruction

-- The operands that the decoder permits for a mnemonic, by its form.
inductive Arguments (m : Mnemonic) : Form → List Int → Prop
  | r (a : Reg) : Arguments m .r [(a.val : Int)]
  | rr (c : RegisterClass) (a b : Reg) : Arguments m (.rr c) [(a.val : Int), (b.val : Int)]
  | rrr (c : RegisterClass) (a b d : Reg) :
      Arguments m (.rrr c) [(a.val : Int), (b.val : Int), (d.val : Int)]
  | ri (a : Reg) {v : Int} : Permitted.alu.allows v = true → Arguments m .ri [(a.val : Int), v]
  | rri (a b : Reg) {v : Int} : (permittedImmediate m).allows v = true →
      Arguments m .rri [(a.val : Int), (b.val : Int), v]
  | rm (c : RegisterClass) (a b : Reg) {v : Int} : (permittedOffset m).allows v = true →
      Arguments m (.rm c) [(a.val : Int), (b.val : Int), v]
  | rrm (a b d : Reg) {v : Int} : Permitted.exclusiveOffset.allows v = true →
      Arguments m .rrm [(a.val : Int), (b.val : Int), (d.val : Int), v]
  | risi (a : Reg) {v s : Int} : Permitted.wide.allows v = true →
      Permitted.wideShift.allows s = true → Arguments m .risi [(a.val : Int), v, s]
  | l (t : Int) : Arguments m .l [t]
  | rl (a : Reg) (t : Int) : Arguments m .rl [(a.val : Int), t]

theorem permittedOffset_zero (m : Mnemonic) : (permittedOffset m).allows 0 = true := by
  unfold permittedOffset
  split <;> rfl

theorem decodeArgs_arguments {m : Mnemonic} {operands : List String} {labels : LabelTable}
    {args : List Int} (decoded : decodeArgs m operands labels = .ok args) :
    Arguments m m.form args := by
  unfold decodeArgs at decoded
  cases form : m.form <;> simp only [form, bind_eq_ok, pure_eq_ok] at decoded
  case r =>
    obtain ⟨_, ha, rfl⟩ := decoded
    obtain ⟨a, rfl⟩ := Operand.register_ok ha
    exact .r a
  case rr =>
    obtain ⟨_, ha, _, hb, rfl⟩ := decoded
    obtain ⟨a, rfl⟩ := Operand.register_ok ha
    obtain ⟨b, rfl⟩ := Operand.register_ok hb
    exact .rr _ a b
  case rrr =>
    obtain ⟨_, ha, _, hb, _, hd, rfl⟩ := decoded
    obtain ⟨a, rfl⟩ := Operand.register_ok ha
    obtain ⟨b, rfl⟩ := Operand.register_ok hb
    obtain ⟨d, rfl⟩ := Operand.register_ok hd
    exact .rrr _ a b d
  case ri =>
    obtain ⟨_, ha, v, hv, rfl⟩ := decoded
    obtain ⟨a, rfl⟩ := Operand.register_ok ha
    exact .ri a (Operand.immediate_ok hv)
  case rri =>
    obtain ⟨_, ha, _, hb, v, hv, rfl⟩ := decoded
    obtain ⟨a, rfl⟩ := Operand.register_ok ha
    obtain ⟨b, rfl⟩ := Operand.register_ok hb
    exact .rri a b (Operand.immediate_ok hv)
  case rm =>
    obtain ⟨_, ha, _, hb, v, hv, rfl⟩ := decoded
    obtain ⟨a, rfl⟩ := Operand.register_ok ha
    obtain ⟨b, rfl⟩ := Operand.register_ok hb
    exact .rm _ a b (Operand.optionalImmediate_ok (permittedOffset_zero m) hv)
  case rrm =>
    obtain ⟨_, ha, _, hb, _, hd, v, hv, rfl⟩ := decoded
    obtain ⟨a, rfl⟩ := Operand.register_ok ha
    obtain ⟨b, rfl⟩ := Operand.register_ok hb
    obtain ⟨d, rfl⟩ := Operand.register_ok hd
    exact .rrm a b d (Operand.optionalImmediate_ok rfl hv)
  case risi =>
    obtain ⟨s, hs, _, ha, v, hv, rfl⟩ := decoded
    obtain ⟨a, rfl⟩ := Operand.register_ok ha
    exact .risi a (Operand.immediate_ok hv) (Operand.wideShift_ok hs)
  case l =>
    obtain ⟨t, -, rfl⟩ := decoded
    exact .l t
  case rl =>
    obtain ⟨_, ha, t, -, rfl⟩ := decoded
    obtain ⟨a, rfl⟩ := Operand.register_ok ha
    exact .rl a t

theorem expandArgs_arguments {m : Mnemonic} {args : List Int}
    (arguments : Arguments m m.form args) :
    Arguments (m.expansion?.getD m) (m.expansion?.getD m).form (expandArgs m args) := by
  -- An expansion only adds the zero register to the operands that were permitted.
  cases m
  case cmp =>
    have form : Mnemonic.cmp.form = .rr .x := rfl
    rw [form] at arguments
    cases arguments with
    | rr _ a b => exact .rrr .x Reg.xzr a b
  case cmpi =>
    have form : Mnemonic.cmpi.form = .ri := rfl
    rw [form] at arguments
    cases arguments with
    | ri a allowed => exact .rri Reg.xzr a allowed
  case mov =>
    have form : Mnemonic.mov.form = .rr .x := rfl
    rw [form] at arguments
    cases arguments with
    | rr _ a b => exact .rrr .x a Reg.xzr b
  all_goals exact arguments

theorem expansion_real (m : Mnemonic) : (m.expansion?.getD m).isPseudo = false := by
  cases m <;> rfl

theorem decode_real {m : Mnemonic} {operands : List String} {line : Nat} {labels : LabelTable}
    {i : Instruction} (decoded : decode m operands line labels = .ok i) :
    i.mnemonic.isPseudo = false := by
  simp only [decode, bind_eq_ok, pure_eq_ok] at decoded
  obtain ⟨args, -, rfl⟩ := decoded
  exact expansion_real m

theorem decode_arguments {m : Mnemonic} {operands : List String} {line : Nat}
    {labels : LabelTable} {i : Instruction} (decoded : decode m operands line labels = .ok i) :
    Arguments i.mnemonic i.mnemonic.form i.args := by
  simp only [decode, bind_eq_ok, pure_eq_ok] at decoded
  obtain ⟨args, read, rfl⟩ := decoded
  exact expandArgs_arguments (decodeArgs_arguments read)

theorem toNat_register (r : Reg) : (BitVec.ofInt 64 (r.val : Int)).toNat = r.val := by
  have bound := r.isLt
  rw [BitVec.toNat_ofInt]
  omega

theorem number_register {i : Instruction} {k : Nat} {r : Reg}
    (named : i.args[k]? = some (r.val : Int)) : i.number k = r.val := by
  simp only [number, word, arg, named, Option.getD_some, toNat_register]

def StartsWithRegisters (count : Nat) (args : List Int) : Prop :=
  ∀ k < count, ∃ r : Reg, args[k]? = some (r.val : Int)

theorem startsWithRegisters_zero (args : List Int) : StartsWithRegisters 0 args := by
  intro k inside
  omega

theorem StartsWithRegisters.cons {count : Nat} {args : List Int} {v : Int} {r : Reg}
    (head : v = r.val) (tail : StartsWithRegisters count args) :
    StartsWithRegisters (count + 1) (v :: args) := by
  intro k inside
  cases k with
  | zero => exact ⟨r, by simp [head]⟩
  | succ k => simpa using tail k (by omega)

theorem StartsWithRegisters.wellFormed {i : Instruction}
    (first : StartsWithRegisters i.mnemonic.form.registerCount i.args) : i.WellFormed := by
  intro k inside
  obtain ⟨r, named⟩ := first k inside
  rw [number_register named]
  exact r.isLt

theorem Arguments.startsWithRegisters {m : Mnemonic} {f : Form} {args : List Int}
    (arguments : Arguments m f args) : StartsWithRegisters f.registerCount args := by
  cases arguments with
  | l => exact startsWithRegisters_zero _
  | r | ri | risi | rl => exact .cons rfl (startsWithRegisters_zero _)
  | rr | rri | rm => exact .cons rfl (.cons rfl (startsWithRegisters_zero _))
  | rrr | rrm => exact .cons rfl (.cons rfl (.cons rfl (startsWithRegisters_zero _)))

theorem decode_registers {m : Mnemonic} {operands : List String} {line : Nat}
    {labels : LabelTable} {i : Instruction} (decoded : decode m operands line labels = .ok i) :
    StartsWithRegisters i.mnemonic.form.registerCount i.args :=
  (decode_arguments decoded).startsWithRegisters

theorem decode_wellFormed {m : Mnemonic} {operands : List String} {line : Nat}
    {labels : LabelTable} {i : Instruction} (decoded : decode m operands line labels = .ok i) :
    i.WellFormed :=
  (decode_registers decoded).wellFormed

end Instruction

namespace Program

theorem mem_contributions {labels : LabelTable} {number : Nat} {analyses : List Analysis}
    {part : Nat × Contribution} (member : part ∈ contributions labels number analyses) :
    ∃ line a, part = (line, contribution labels line a) := by
  induction analyses generalizing number with
  | nil => simp [contributions] at member
  | cons a rest ih =>
    simp only [contributions, List.mem_cons] at member
    cases member with
    | inl here => exact ⟨number, a, here⟩
    | inr later => exact ih later

theorem contribution_instruction {labels : LabelTable} {line : Nat} {a : Analysis}
    {i : Instruction} (decoded : contribution labels line a = some (.ok i)) :
    ∃ m operands, Instruction.decode m operands line labels = .ok i := by
  cases a with
  | error e => simp [contribution] at decoded
  | ok source =>
    simp only [contribution, Option.map_eq_some_iff, mapError_eq_ok] at decoded
    obtain ⟨m, _, read⟩ := decoded
    exact ⟨m, source.operands, read⟩

theorem instruction?_eq_some {part : Nat × Contribution} {i : Instruction} :
    instruction? part = some i ↔ part.2 = some (.ok i) := by
  obtain ⟨line, _ | _ | j⟩ := part <;> simp [instruction?]

theorem decode_of_mem {texts : List String} {i : Instruction}
    (member : i ∈ (ofLines texts).instructions) :
    ∃ m operands line, Instruction.decode m operands line (ofLines texts).labels = .ok i := by
  simp only [ofLines, List.mem_toArray, List.mem_filterMap, instruction?_eq_some] at member
  obtain ⟨part, present, chosen⟩ := member
  obtain ⟨line, a, rfl⟩ := mem_contributions present
  obtain ⟨m, operands, read⟩ := contribution_instruction chosen
  exact ⟨m, operands, line, read⟩

theorem instructions_wellFormed {texts : List String} {i : Instruction}
    (member : i ∈ (ofLines texts).instructions) : i.WellFormed := by
  obtain ⟨m, operands, line, read⟩ := decode_of_mem member
  exact Instruction.decode_wellFormed read

end Program

end Legv8
