import SlotPool.Error
import SlotPool.Policy

/-!
# Configuration of a pool

`Config.validate` refuses sizes that no pool can have. `Config.tree` shows a configuration for
debugging.
-/

namespace SlotPool

/-- How a pool is set up. -/
structure Config where
  /-- Slots in a block. -/
  blockSize : Nat := 4096
  /-- Elements in a buffer, for pools of buffers. -/
  bufferSize : Option Nat := none
  /-- How long a call waits while another one grows the pool, in microseconds. -/
  backoffMicros : Nat := 1000
  growthPolicy : GrowthPolicy := .headroom
deriving DecidableEq, Repr, Inhabited

namespace Config

def isDefault (c : Config) : Bool := c == {}

/-- The waiting time as whole seconds and nanoseconds. -/
def backoff (c : Config) : Nat × Nat :=
  (c.backoffMicros / 1000000, c.backoffMicros % 1000000 * 1000)

/-- The first rule that the sizes break. -/
def fault? (c : Config) : Option ConfigFault :=
  if c.blockSize = 0 then some .zeroBlockSize
  else
    match c.bufferSize with
    | none => none
    | some bufferSize =>
      if bufferSize = 0 then some .zeroBufferSize
      else
        match Word.mul? bufferSize c.blockSize with
        | none => some (.tooManyElements bufferSize c.blockSize)
        | some _ => none

def validate (c : Config) : Except PoolError Unit :=
  match c.fault? with
  | none => .ok ()
  | some fault => .error (.invalidConfig fault)

open Text (Tree)

def tree (c : Config) : Tree :=
  .record "PoolConfig" [
    ("block_size", .number c.blockSize),
    ("buffer_size", .ofOption (c.bufferSize.map .number)),
    ("backoff_micros", .number c.backoffMicros),
    ("growth_policy", .atom c.growthPolicy.variantName)]

end Config

end SlotPool
