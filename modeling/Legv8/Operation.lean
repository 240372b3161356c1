import Legv8.Alu
import Legv8.FloatingPoint

set_option autoImplicit false

namespace Legv8

inductive Width where
  | byte
  | half
  | word
  | double
  deriving DecidableEq, Repr

def Width.bytes : Width → Nat
  | .byte => 1
  | .half => 2
  | .word => 4
  | .double => 8

inductive Precision where
  | single
  | double
  deriving DecidableEq, Repr

def Precision.width : Precision → Width
  | .single => .word
  | .double => .double

inductive Source where
  | register
  | immediate
  deriving DecidableEq, Repr

inductive Operation where
  | integer (op : AluOp) (second : Source) (setsFlags : Bool)
  | load (w : Width) (signed : Bool)
  | store (w : Width)
  | loadExclusive
  | storeExclusive
  -- A 16-bit lane is set; the other lanes are kept or cleared.
  | moveWide (keep : Bool)
  | loadAddress
  | branch
  | branchLink
  | branchRegister
  | branchIf (c : Condition)
  | branchZero (whenZero : Bool)
  | float (op : FloatOp) (p : Precision)
  | floatCompare (p : Precision)
  | floatLoad (p : Precision)
  | floatStore (p : Precision)
  deriving DecidableEq, Repr

namespace Operation

def setsFlags : Operation → Bool
  | .integer _ _ f => f
  | .floatCompare _ => true
  | _ => false

def isLoad : Operation → Bool
  | .load .. | .loadExclusive | .floatLoad _ => true
  | _ => false

def isStore : Operation → Bool
  | .store _ | .storeExclusive | .floatStore _ => true
  | _ => false

def isBranch : Operation → Bool
  | .branch | .branchLink | .branchRegister | .branchIf _ | .branchZero _ => true
  | _ => false

end Operation

end Legv8
