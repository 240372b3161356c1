import Legv8.Pipeline.Register

set_option autoImplicit false

namespace Legv8.Pipeline

structure Hazards where
  branchRegisterStall : Bool := false
  flagStall : Bool := false
  loadUseStall : Bool := false
  controlFlush : Bool := false
  exForwardA : Bool := false
  exForwardB : Bool := false
  memForwardA : Bool := false
  memForwardB : Bool := false
  deriving DecidableEq, Repr

namespace Hazards

def branchStall (h : Hazards) : Bool :=
  h.branchRegisterStall || h.flagStall

def forwards (h : Hazards) : Bool :=
  h.exForwardA || h.exForwardB || h.memForwardA || h.memForwardB

-- A register and label instruction in decode names the destination of the instruction in execute or
-- memory.
def branchRegisterHazard (decode : Option Flight) (r : Registers) : Bool :=
  match decode with
  | none => false
  | some f =>
      let tested := some (f.instruction.number 0)
      f.instruction.mnemonic.form == .rl && (tested == r.idEx.rd || tested == r.exMem.rd)

def stageSetsFlags (stage : Option Flight) : Bool :=
  stage.any fun f => f.instruction.mnemonic.operation.setsFlags

-- A label branch other than the plain one is in decode while flags are being produced. If there is
-- an instruction in memory, it alone is asked.
def flagHazard (s : Stages) : Bool :=
  match s.decode with
  | none => false
  | some f =>
      f.instruction.mnemonic.form == .l && f.instruction.mnemonic != .b
        && stageSetsFlags (s.memory <|> s.execute)

def loadUseHazard (execute : Option Flight) (r : Registers) : Bool :=
  match execute with
  | none => false
  | some f =>
      f.instruction.control == .load && r.idEx.rd.isSome
        && (r.idEx.rd == r.ifId.rn || r.idEx.rd == r.ifId.rm)

/-- A branch in decode has redirected the machine. The plain branch always has; a conditional one
if it was announced as taken. Branches with link and through registers are followed directly. -/
def controlHazard (decode : Option Flight) : Bool :=
  match decode with
  | none => false
  | some f =>
      match f.instruction.mnemonic with
      | .b => true
      | .bcond _ | .cbz | .cbnz => f.taken
      | _ => false

def exHazard (r : ExMem) (source : Option Nat) : Bool :=
  r.regWrite && source.isSome && r.rd != some Reg.xzr.val && r.rd == source

def memHazard (w : MemWb) (r : ExMem) (source : Option Nat) : Bool :=
  w.regWrite && source.isSome && w.rd != some Reg.xzr.val && !exHazard r source && w.rd == source

def detect (s : Stages) (r : Registers) : Hazards where
  branchRegisterStall := branchRegisterHazard s.decode r
  flagStall := flagHazard s
  loadUseStall := loadUseHazard s.execute r
  controlFlush := controlHazard s.decode
  exForwardA := exHazard r.exMem r.idEx.rn
  exForwardB := exHazard r.exMem r.idEx.rm
  memForwardA := memHazard r.memWb r.exMem r.idEx.rn
  memForwardB := memHazard r.memWb r.exMem r.idEx.rm

end Hazards

end Legv8.Pipeline
