import Legv8.Config
import Legv8.Text.Json

set_option autoImplicit false

namespace Legv8

open Text (Json)

namespace Config

/-- The settings of a section, by name. No known setting may be given twice, and an array may not
be too long. -/
def settings? (names : List String) : Json → Option (List (String × Json))
  | .object members => do
      let named ← members.mapM fun (key, v) => key.map (·, v)
      let known := named.filter fun (name, _) => names.contains name
      if (known.map Prod.fst).Nodup then some known else none
  | .array vs => if vs.length ≤ names.length then some (names.zip vs) else none
  | _ => none

def setting? {α : Type} (settings : List (String × Json)) (name : String)
    (read : Json → Option α) (default : α) : Option α :=
  match settings.lookup name with
  | none => some default
  | some v => read v

def bool? : Json → Option Bool
  | .bool b => some b
  | _ => none

def natural? : Json → Option Nat
  | .number literal =>
      if literal.all Char.isDigit then
        (String.ofList literal).toNat?.filter (· < 0x10000000000000000)
      else none
  | _ => none

def word? (v : Json) : Option Word :=
  (natural? v).map (BitVec.ofNat 64)

def optionalWord? : Json → Option (Option Word)
  | .null => some none
  | v => (word? v).map some

def general? (v : Json) : Option GeneralConfig := do
  let s ← settings? ["trace_instructions", "max_steps"] v
  let d : GeneralConfig := {}
  return {
    traceInstructions := ← setting? s "trace_instructions" bool? d.traceInstructions
    maxSteps := ← setting? s "max_steps" natural? d.maxSteps }

def memory? (v : Json) : Option MemoryConfig := do
  let s ←
    settings? ["text_segment_offset", "dynamic_data_offset", "stack_base", "initial_sp"] v
  let d : MemoryConfig := {}
  return {
    textOffset := ← setting? s "text_segment_offset" word? d.textOffset
    dynamicOffset := ← setting? s "dynamic_data_offset" word? d.dynamicOffset
    stackBase := ← setting? s "stack_base" word? d.stackBase
    stackPointer := ← setting? s "initial_sp" optionalWord? d.stackPointer }

def pipeline? (v : Json) : Option PipelineConfig := do
  let s ← settings? ["max_cycles", "keep_log"] v
  let d : PipelineConfig := {}
  return {
    maxCycles := ← setting? s "max_cycles" natural? d.maxCycles
    keepLog := ← setting? s "keep_log" bool? d.keepLog }

def ofJson? (v : Json) : Option Config := do
  let s ← settings? ["general", "memory", "pipeline"] v
  return {
    general := ← setting? s "general" general? {}
    memory := ← setting? s "memory" memory? {}
    pipeline := ← setting? s "pipeline" pipeline? {} }

def ofString? (text : String) : Option Config :=
  (Json.ofString? text).bind ofJson?

end Config

end Legv8
