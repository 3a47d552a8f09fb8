import SlotPool.BlockList
import SlotPool.Config
import SlotPool.Stack.Basic
import SlotPool.Stats
import SlotPool.Strategy

/-!
# A pool

A pool keeps its free slots on a stack behind a lock, and beside it some words that are read and
changed without the lock: the number of slots ever provided, the flag that one call at a time may
raise to grow the pool, and the counters.
-/

namespace SlotPool

structure Pool (ε : Type) where
  strategy : Strategy ε
  policy : GrowthPolicy
  /-- How long a call waits while another one grows the pool, in microseconds. -/
  backoffMicros : Nat
  free : Stack := {}
  /-- Slots ever provided, as far as they were counted. -/
  allocated : Nat := 0
  /-- Some call that wants one slot is growing the pool. -/
  growing : Bool := false
  /-- The array of each block. -/
  blocks : BlockList Nat := {}
  counters : Counters := {}

namespace Pool

variable {ε : Type}

def blockSize (p : Pool ε) : Nat := p.strategy.blockSize

def available (p : Pool ε) : Nat := p.free.length

/-- The counters and sizes, read while nothing changes them. -/
def stats (p : Pool ε) : PoolStats where
  acquisitions := p.counters.acquisitions
  releases := p.counters.releases
  growthEvents := p.counters.growthEvents
  blocksProvisioned := p.counters.blocksProvisioned
  backoffs := p.counters.backoffs
  allocated := p.allocated
  available := p.available

/-- Nothing of the pool is free yet, and nothing is provided. -/
def fresh (strategy : Strategy ε) (policy : GrowthPolicy) (backoffMicros : Nat) : Pool ε :=
  { strategy, policy, backoffMicros }

/-! ## Making a pool -/

/-- A pool of objects with the default policy. -/
def ofBlockSize (layout : ElementLayout ε) (blockSize : Nat) : Except Violation (Pool ε) :=
  if h : 0 < blockSize then
    .ok (fresh (.objects layout blockSize h) .headroom ({} : Config).backoffMicros)
  else .error .zeroBlockSize

/-- A pool of buffers with the default policy. -/
def ofBufferSize (layout : ElementLayout ε) (size blockSize : Nat) : Except Violation (Pool ε) :=
  if hs : 0 < size then
    if h : 0 < blockSize then
      .ok (fresh (.buffers layout size blockSize hs h) .headroom ({} : Config).backoffMicros)
    else .error .zeroBlockSize
  else .error .zeroBufferSize

/-- A pool of objects as configured. The size of buffers only has to be sound. -/
def ofConfig (layout : ElementLayout ε) (c : Config) : Except PoolError (Pool ε) := do
  c.validate
  if h : 0 < c.blockSize then
    return fresh (.objects layout c.blockSize h) c.growthPolicy c.backoffMicros
  else throw (.invalidConfig .zeroBlockSize)

/-- A pool of buffers as configured. -/
def ofBufferConfig (layout : ElementLayout ε) (c : Config) : Except PoolError (Pool ε) := do
  c.validate
  let some size := c.bufferSize | throw (.invalidConfig .noBufferSize)
  if hs : 0 < size then
    if h : 0 < c.blockSize then
      return fresh (.buffers layout size c.blockSize hs h) c.growthPolicy c.backoffMicros
    else throw (.invalidConfig .zeroBlockSize)
  else throw (.invalidConfig .zeroBufferSize)

/-- What stands in the place of a pool while it is changed, so that nothing else refers to its
blocks. -/
def vacated (p : Pool ε) : Pool ε := { p with blocks := {} }

open Text (Tree)

def tree (id : PoolId) (p : Pool ε) : Tree :=
  .record "SplicePool" [
    ("id", id.tree),
    ("strategy", .atom ("\"" ++ p.strategy.shape.name ++ "\"")),
    ("block_size", .number p.blockSize),
    ("policy", .atom p.policy.variantName),
    ("allocated", .number p.allocated),
    ("available", .number p.available)]

end Pool

end SlotPool
