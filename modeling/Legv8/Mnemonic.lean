import Legv8.Control
import Legv8.Token

set_option autoImplicit false

namespace Legv8

inductive Mnemonic where
  | add
  | adds
  | addi
  | addis
  | mul
  | smulh
  | umulh
  | sdiv
  | udiv
  | sub
  | subs
  | subi
  | subis
  | and
  | ands
  | andi
  | andis
  | orr
  | orri
  | eor
  | eori
  | lsl
  | lsr
  | ldur
  | stur
  | ldursw
  | sturw
  | ldurh
  | sturh
  | ldurb
  | sturb
  | ldxr
  | stxr
  | movz
  | movk
  | cbz
  | cbnz
  | lda
  | bcond (c : Condition)
  | b
  | br
  | bl
  | cmp
  | cmpi
  | mov
  | fadds
  | faddd
  | fcmps
  | fcmpd
  | fdivs
  | fdivd
  | fmuls
  | fmuld
  | fsubs
  | fsubd
  | sturs
  | ldurs
  | sturd
  | ldurd
  deriving DecidableEq, Repr

-- What the catalog records of a mnemonic. Pseudo-instructions have no opcode, and instructions that
-- leave the integer unit alone have no control bits for it.
structure CatalogEntry where
  name : String
  form : Form
  opcode : Option String
  aluControl : Option String
  operation : Operation

namespace Mnemonic

def all : List Mnemonic :=
  [.add, .adds, .addi, .addis, .mul, .smulh, .umulh, .sdiv, .udiv, .sub, .subs, .subi, .subis,
    .and, .ands, .andi, .andis, .orr, .orri, .eor, .eori, .lsl, .lsr, .ldur, .stur, .ldursw,
    .sturw, .ldurh, .sturh, .ldurb, .sturb, .ldxr, .stxr, .movz, .movk, .cbz, .cbnz, .lda]
    ++ Condition.all.map .bcond
    ++ [.b, .br, .bl, .cmp, .cmpi, .mov, .fadds, .faddd, .fcmps, .fcmpd, .fdivs, .fdivd, .fmuls,
      .fmuld, .fsubs, .fsubd, .sturs, .ldurs, .sturd, .ldurd]

theorem mem_all (m : Mnemonic) : m ∈ all := by
  cases m with
  | bcond c => simp [all, Condition.mem_all]
  | _ => simp [all]

-- A pseudo-instruction carries the operation of the instruction that it stands for.
def entry : Mnemonic → CatalogEntry
  | .add => ⟨"ADD", .rrr .x, "10001011000", "0010", .integer .add .register false⟩
  | .adds => ⟨"ADDS", .rrr .x, "10101011000", "0010", .integer .add .register true⟩
  | .addi => ⟨"ADDI", .rri, "1001000100", "0010", .integer .add .immediate false⟩
  | .addis => ⟨"ADDIS", .rri, "1011000111", "0010", .integer .add .immediate true⟩
  | .mul => ⟨"MUL", .rrr .x, "10011011000", "0010", .integer .mul .register false⟩
  | .smulh => ⟨"SMULH", .rrr .x, "10011011010", "0010", .integer .smulh .register false⟩
  | .umulh => ⟨"UMULH", .rrr .x, "10011011110", "0010", .integer .umulh .register false⟩
  | .sdiv => ⟨"SDIV", .rrr .x, "10011010110", "0010", .integer .sdiv .register false⟩
  | .udiv => ⟨"UDIV", .rrr .x, "10011010110", "0010", .integer .udiv .register false⟩
  | .sub => ⟨"SUB", .rrr .x, "11001011000", "0110", .integer .sub .register false⟩
  | .subs => ⟨"SUBS", .rrr .x, "11101011000", "0110", .integer .sub .register true⟩
  | .subi => ⟨"SUBI", .rri, "1101000100", "0110", .integer .sub .immediate false⟩
  | .subis => ⟨"SUBIS", .rri, "1111000100", "0110", .integer .sub .immediate true⟩
  | .and => ⟨"AND", .rrr .x, "10001010000", "0000", .integer .and .register false⟩
  | .ands => ⟨"ANDS", .rrr .x, "11101010000", "0000", .integer .and .register true⟩
  | .andi => ⟨"ANDI", .rri, "1001001000", "0000", .integer .and .immediate false⟩
  | .andis => ⟨"ANDIS", .rri, "1111001000", "0000", .integer .and .immediate true⟩
  | .orr => ⟨"ORR", .rrr .x, "10101010000", "0001", .integer .orr .register false⟩
  | .orri => ⟨"ORRI", .rri, "1011001000", "0001", .integer .orr .immediate false⟩
  | .eor => ⟨"EOR", .rrr .x, "11001010000", "1011", .integer .eor .register false⟩
  | .eori => ⟨"EORI", .rri, "1101001000", "1011", .integer .eor .immediate false⟩
  | .lsl => ⟨"LSL", .rri, "11010011011", "1101", .integer .lsl .immediate false⟩
  | .lsr => ⟨"LSR", .rri, "11010011010", "1110", .integer .lsr .immediate false⟩
  | .ldur => ⟨"LDUR", .rm .x, "11111000010", "0010", .load .double false⟩
  | .stur => ⟨"STUR", .rm .x, "11111000000", "0010", .store .double⟩
  | .ldursw => ⟨"LDURSW", .rm .x, "10111000100", "0010", .load .word true⟩
  | .sturw => ⟨"STURW", .rm .x, "10111000000", "0010", .store .word⟩
  | .ldurh => ⟨"LDURH", .rm .x, "01111000010", "0010", .load .half false⟩
  | .sturh => ⟨"STURH", .rm .x, "01111000000", "0010", .store .half⟩
  | .ldurb => ⟨"LDURB", .rm .x, "00111000010", "0010", .load .byte false⟩
  | .sturb => ⟨"STURB", .rm .x, "00111000000", "0010", .store .byte⟩
  | .ldxr => ⟨"LDXR", .rm .x, "11001000010", "0010", .loadExclusive⟩
  | .stxr => ⟨"STXR", .rrm, "11001000000", "0010", .storeExclusive⟩
  | .movz => ⟨"MOVZ", .risi, "110100101", "0001", .moveWide false⟩
  | .movk => ⟨"MOVK", .risi, "111100101", "0001", .moveWide true⟩
  | .cbz => ⟨"CBZ", .rl, "10110100", "0111", .branchZero true⟩
  | .cbnz => ⟨"CBNZ", .rl, "10110101", "0111", .branchZero false⟩
  | .lda => ⟨"LDA", .rl, none, none, .loadAddress⟩
  | .bcond c => ⟨"B." ++ c.name, .l, "01010100", none, .branchIf c⟩
  | .b => ⟨"B", .l, "000101", none, .branch⟩
  | .br => ⟨"BR", .r, "11010110000", none, .branchRegister⟩
  | .bl => ⟨"BL", .l, "100101", none, .branchLink⟩
  | .cmp => ⟨"CMP", .rr .x, none, none, .integer .sub .register true⟩
  | .cmpi => ⟨"CMPI", .ri, none, none, .integer .sub .immediate true⟩
  | .mov => ⟨"MOV", .rr .x, none, none, .integer .orr .register false⟩
  | .fadds => ⟨"FADDS", .rrr .s, "00011110001", "0110", .float .add .single⟩
  | .faddd => ⟨"FADDD", .rrr .d, "00011110011", "0110", .float .add .double⟩
  | .fcmps => ⟨"FCMPS", .rr .s, "00011110001", "0110", .floatCompare .single⟩
  | .fcmpd => ⟨"FCMPD", .rr .d, "00011110011", "0110", .floatCompare .double⟩
  | .fdivs => ⟨"FDIVS", .rrr .s, "00011110001", "0000", .float .div .single⟩
  | .fdivd => ⟨"FDIVD", .rrr .d, "00011110011", "0000", .float .div .double⟩
  | .fmuls => ⟨"FMULS", .rrr .s, "00011110001", "0000", .float .mul .single⟩
  | .fmuld => ⟨"FMULD", .rrr .d, "00011110011", "0000", .float .mul .double⟩
  | .fsubs => ⟨"FSUBS", .rrr .s, "00011110001", "0001", .float .sub .single⟩
  | .fsubd => ⟨"FSUBD", .rrr .d, "00011110011", "0001", .float .sub .double⟩
  | .sturs => ⟨"STURS", .rm .s, "10111100000", "0010", .floatStore .single⟩
  | .ldurs => ⟨"LDURS", .rm .s, "10111100010", "0010", .floatLoad .single⟩
  | .sturd => ⟨"STURD", .rm .d, "11111100000", "0010", .floatStore .double⟩
  | .ldurd => ⟨"LDURD", .rm .d, "11111100010", "0010", .floatLoad .double⟩

def name (m : Mnemonic) : String := m.entry.name

def form (m : Mnemonic) : Form := m.entry.form

def operation (m : Mnemonic) : Operation := m.entry.operation

def control (m : Mnemonic) : Control := .ofOperation m.operation

def condition? : Mnemonic → Option Condition
  | .bcond c => some c
  | _ => none

def expansion? : Mnemonic → Option Mnemonic
  | .cmp => some .subs
  | .cmpi => some .subis
  | .mov => some .orr
  | _ => none

def isPseudo (m : Mnemonic) : Bool := m.expansion?.isSome

def isFloat (m : Mnemonic) : Bool := m.form.registerClass != .x

-- A mnemonic is written in capitals throughout or in small letters throughout.
def spells (m : Mnemonic) (text : String) : Bool :=
  text == m.name || text == m.name.toLower

def ofName? (text : String) : Option Mnemonic :=
  all.find? (·.spells text)

def unknownMessage (text : String) : String :=
  text ++ " instruction mnemonic does not exist in LEGv8"

def ofForm (f : Form) : List Mnemonic :=
  all.filter (·.form == f)

end Mnemonic

end Legv8
