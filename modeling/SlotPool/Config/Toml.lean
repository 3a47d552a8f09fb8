import SlotPool.Config
import SlotPool.Toml.Document

/-!
# Configurations as TOML documents

`Config.ofToml` reads a configuration and `Config.toToml` writes one. Missing keys take their
default, and keys that mean nothing here are passed over.
-/

namespace SlotPool.Config

open Toml (Value Entries)

/-- The largest integer that a document can hold. -/
def maxInteger : Nat := (1 <<< 63) - 1

/-- A size is an integer that is not negative. -/
def size? : Value → Option Nat
  | .integer n => if 0 ≤ n then some n.toNat else none
  | _ => none

/-- Nothing stands in this array or table. -/
def isEmptyValue : Value → Bool
  | .array [] => true
  | .inlineTable [] => true
  | .table _ [] => true
  | _ => false

/-- A policy is named by a string, or by the only key of a table that holds nothing more. -/
def policy? : Value → Option GrowthPolicy
  | .string name => GrowthPolicy.ofName? name
  | .inlineTable [(name, v)] => if isEmptyValue v then GrowthPolicy.ofName? name else none
  | .table _ [(name, v)] => if isEmptyValue v then GrowthPolicy.ofName? name else none
  | _ => none

/-- The value under `key` as `read` takes it, or `default` if there is none. Fails if there is a
value that `read` does not take. -/
def field? (entries : Entries) (key : String) (read : Value → Option α) (default : α) : Option α :=
  match entries.get? key with
  | none => some default
  | some v => read v

def ofEntries? (entries : Entries) : Option Config := do
  let blockSize ← field? entries "block_size" size? ({} : Config).blockSize
  let bufferSize ← field? entries "buffer_size" (fun v => (size? v).map some) none
  let backoffMicros ← field? entries "backoff_micros" size? ({} : Config).backoffMicros
  let growthPolicy ← field? entries "growth_policy" policy? ({} : Config).growthPolicy
  return ⟨blockSize, bufferSize, backoffMicros, growthPolicy⟩

/-- The configuration that the text stands for, if its sizes are those of a pool. -/
def ofToml (text : String) : Except PoolError Config :=
  match (Toml.Document.read? text).bind ofEntries? with
  | none => .error (.invalidConfig .malformed)
  | some c => do
    c.validate
    return c

/-- Writes an integer, if a document can hold it. -/
def writeInteger (n : Nat) : Except PoolError String :=
  if n ≤ maxInteger then .ok (toString n) else .error (.invalidConfig .unwritable)

/-- The fields in order, each with what comes of writing its value. -/
def assignments (c : Config) : List (String × Except PoolError String) :=
  [("block_size", writeInteger c.blockSize)] ++
  (c.bufferSize.map fun n => ("buffer_size", writeInteger n)).toList ++
  [("backoff_micros", writeInteger c.backoffMicros),
    ("growth_policy", .ok ("\"" ++ c.growthPolicy.name ++ "\""))]

/-- One line for each field. Nothing is written if one of the values cannot be. -/
def toToml (c : Config) : Except PoolError String := do
  let lines ← c.assignments.mapM fun (key, v) => v.map (key, ·)
  return String.join (lines.map fun (key, v) => key ++ " = " ++ v ++ "\n")

end SlotPool.Config
