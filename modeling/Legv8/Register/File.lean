import Legv8.Register

set_option autoImplicit false

namespace Legv8

structure RegisterFile where
  x : Vector Word 32 := Vector.replicate 32 0
  d : Vector Word 32 := Vector.replicate 32 0
  deriving DecidableEq

namespace RegisterFile

-- The zero register reads as zero whatever its slot holds.
def readX (f : RegisterFile) (r : Reg) : Word :=
  if r = Reg.xzr then 0 else f.x[r]

-- A write to the zero register is dropped.
def writeX (f : RegisterFile) (r : Reg) (v : Word) : RegisterFile :=
  if r = Reg.xzr then f else { f with x := f.x.set r v }

def readD (f : RegisterFile) (r : Reg) : Word :=
  f.d[r]

def writeD (f : RegisterFile) (r : Reg) (v : Word) : RegisterFile :=
  { f with d := f.d.set r v }

def readS (f : RegisterFile) (r : Reg) : BitVec 32 :=
  f.d[r].extractLsb' 0 32

def writeS (f : RegisterFile) (r : Reg) (v : BitVec 32) : RegisterFile :=
  { f with d := f.d.set r (f.d[r].extractLsb' 32 32 ++ v) }

def read (f : RegisterFile) : RegisterClass → Reg → Word
  | .x, r => f.readX r
  | .s, r => (f.readS r).setWidth 64
  | .d, r => f.readD r

end RegisterFile

end Legv8
