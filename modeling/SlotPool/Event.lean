import SlotPool.Error
import SlotPool.Policy
import SlotPool.PoolId
import SlotPool.Text.Interval

/-!
# What a pool notes in its journal

An event is noted when a pool has grown, when a bulk request has failed, and when a call waits for
another one that grows the pool.
-/

namespace SlotPool

/-- The kind of request for which a pool grows. -/
inductive GrowthPath where
  | single
  | bulk
deriving DecidableEq, Repr

def GrowthPath.name : GrowthPath → String
  | single => "single"
  | bulk => "bulk"

inductive Event where
  /-- New blocks were counted; `allocated` is the number of slots with them. -/
  | grown (pool : PoolId) (path : GrowthPath) (policy : GrowthPolicy)
      (blocks slots allocated : Nat)
  | bulkFailed (pool : PoolId) (count : Nat) (error : PoolError)
  | backingOff (pool : PoolId) (micros : Nat)
deriving DecidableEq, Repr

namespace Event

def level : Event → String
  | grown .. => "DEBUG"
  | bulkFailed .. => "DEBUG"
  | backingOff .. => "TRACE"

def message : Event → String
  | grown .. => "Pool grown"
  | bulkFailed .. => "Bulk acquire failed"
  | backingOff .. => "Growth in progress, backing off"

/-- A field of an event: a text or a number. -/
inductive Field where
  | text (s : String)
  | number (n : Nat)
deriving DecidableEq, Repr

/-- The particulars of an event by name. -/
def fields : Event → List (String × Field)
  | grown pool path policy blocks slots allocated => [
    ("pool", .text pool.name), ("path", .text path.name), ("policy", .text policy.name),
    ("blocks", .number blocks), ("slots", .number slots), ("allocated", .number allocated)]
  | bulkFailed pool count error => [
    ("pool", .text pool.name), ("count", .number count), ("error", .text error.message)]
  | backingOff pool micros => [
    ("pool", .text pool.name), ("backoff", .text (Text.Interval.ofMicros micros))]

end Event

end SlotPool
