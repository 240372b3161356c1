import Legv8.Flags
import Legv8.Word

set_option autoImplicit false

namespace Legv8

inductive FloatOp where
  | add
  | sub
  | mul
  | div
  deriving DecidableEq, Repr

namespace FloatOp

def evalDouble (op : FloatOp) (a b : Word) : Word :=
  let x := Float.ofBits (UInt64.ofBitVec a)
  let y := Float.ofBits (UInt64.ofBitVec b)
  let r := match op with
    | .add => x + y
    | .sub => x - y
    | .mul => x * y
    | .div => x / y
  r.toBits.toBitVec

def evalSingle (op : FloatOp) (a b : BitVec 32) : BitVec 32 :=
  let x := Float32.ofBits (UInt32.ofBitVec a)
  let y := Float32.ofBits (UInt32.ofBitVec b)
  let r := match op with
    | .add => x + y
    | .sub => x - y
    | .mul => x * y
    | .div => x / y
  r.toBits.toBitVec

end FloatOp

namespace Flags

def ofOrder (less equal greater : Bool) : Flags :=
  if less then { n := true }
  else if equal then { z := true, c := true }
  else if greater then { c := true }
  else { c := true, v := true }

def compareDouble (a b : Word) : Flags :=
  let x := Float.ofBits (UInt64.ofBitVec a)
  let y := Float.ofBits (UInt64.ofBitVec b)
  ofOrder (x < y) (x == y) (y < x)

def compareSingle (a b : BitVec 32) : Flags :=
  let x := Float32.ofBits (UInt32.ofBitVec a)
  let y := Float32.ofBits (UInt32.ofBitVec b)
  ofOrder (x < y) (x == y) (y < x)

end Flags

def isNaNDouble (a : Word) : Bool :=
  a.extractLsb' 52 11 == BitVec.allOnes 11 && a.extractLsb' 0 52 != 0

def isNaNSingle (a : BitVec 32) : Bool :=
  a.extractLsb' 23 8 == BitVec.allOnes 8 && a.extractLsb' 0 23 != 0

end Legv8
