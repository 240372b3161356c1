import Legv8.Word

set_option autoImplicit false

namespace Legv8

-- The number of a register, good for either file.
abbrev Reg := Fin 32

namespace Reg

def sp : Reg := 28

def lr : Reg := 30

def xzr : Reg := 31

def ofNat? (n : Nat) : Option Reg :=
  if h : n < 32 then some ⟨n, h⟩ else none

@[simp] theorem ofNat?_val (r : Reg) : ofNat? r.val = some r := by
  simp [ofNat?]

end Reg

-- The single precision view is the low half of a floating-point register.
inductive RegisterClass where
  | x
  | s
  | d
  deriving DecidableEq, Repr

def RegisterClass.letter : RegisterClass → Char
  | .x => 'X'
  | .s => 'S'
  | .d => 'D'

inductive NamedRegister where
  | ip0
  | ip1
  | sp
  | fp
  | lr
  | xzr
  deriving DecidableEq, Repr

namespace NamedRegister

def all : List NamedRegister := [.ip0, .ip1, .sp, .fp, .lr, .xzr]

theorem mem_all (r : NamedRegister) : r ∈ all := by
  cases r <;> simp [all]

def reg : NamedRegister → Reg
  | .ip0 => 16
  | .ip1 => 17
  | .sp => Reg.sp
  | .fp => 29
  | .lr => Reg.lr
  | .xzr => Reg.xzr

def name : NamedRegister → String
  | .ip0 => "IP0"
  | .ip1 => "IP1"
  | .sp => "SP"
  | .fp => "FP"
  | .lr => "LR"
  | .xzr => "XZR"

def spells (r : NamedRegister) (text : String) : Bool :=
  text == r.name || text == r.name.toLower

def ofName? (text : String) : Option NamedRegister :=
  all.find? (·.spells text)

end NamedRegister

end Legv8
