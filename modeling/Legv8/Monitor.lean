import Legv8.Word

set_option autoImplicit false

namespace Legv8

structure Monitor where
  tag : Option Word := none
  deriving DecidableEq, Repr

namespace Monitor

def set (address : Word) : Monitor :=
  ⟨some address⟩

def permits (m : Monitor) (address : Word) : Bool :=
  m.tag == some address

-- The end of a range of addresses, which stops at the last address.
def rangeEnd (address : Word) (size : Nat) : Nat :=
  min (address.toNat + size) 0xFFFFFFFFFFFFFFFF

def touches (m : Monitor) (address : Word) (size : Nat) : Bool :=
  match m.tag with
  | none => false
  | some tag => address.toNat < rangeEnd tag 8 && tag.toNat < rangeEnd address size

def afterStore (m : Monitor) (address : Word) (size : Nat) : Monitor :=
  if m.touches address size then {} else m

end Monitor

end Legv8
