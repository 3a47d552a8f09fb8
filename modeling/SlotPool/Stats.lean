import SlotPool.Text.Tree

/-!
# Counting what a pool does

`Counters` are kept by the pool, each in a place of its own. `PoolStats` is what a reader of the
counters, of the allocated slots and of the free ones gets.
-/

namespace SlotPool

/-- How often something was done since the pool was made. A pool keeps each count in a word, which
holds it as long as it is below `Word.limit`. -/
structure Counters where
  acquisitions : Nat := 0
  releases : Nat := 0
  growthEvents : Nat := 0
  blocksProvisioned : Nat := 0
  backoffs : Nat := 0
deriving DecidableEq, Repr, Inhabited

structure PoolStats where
  acquisitions : Nat := 0
  releases : Nat := 0
  growthEvents : Nat := 0
  blocksProvisioned : Nat := 0
  backoffs : Nat := 0
  allocated : Nat := 0
  available : Nat := 0
deriving DecidableEq, Repr, Inhabited

namespace PoolStats

/-- Slots that are neither free nor lost from sight: a reader who sees more free slots than
allocated ones sees none outstanding. -/
def outstanding (s : PoolStats) : Nat := s.allocated - s.available

def isDefault (s : PoolStats) : Bool := s == {}

/-- The fields by name, in the order in which they are listed. -/
def fields (s : PoolStats) : List (String × Nat) := [
  ("acquisitions", s.acquisitions),
  ("releases", s.releases),
  ("growth_events", s.growthEvents),
  ("blocks_provisioned", s.blocksProvisioned),
  ("backoffs", s.backoffs),
  ("allocated", s.allocated),
  ("available", s.available)]

def summary (s : PoolStats) : String :=
  s!"Pool: {s.allocated} allocated, {s.available} available, {s.outstanding} outstanding; " ++
  s!"{s.acquisitions} acquisitions, {s.releases} releases, " ++
  s!"{s.growthEvents} growth events ({s.blocksProvisioned} blocks), {s.backoffs} backoffs"

open Text (Tree)

def tree (s : PoolStats) : Tree :=
  .record "PoolStats" (s.fields.map fun (name, n) => (name, Tree.number n))

end PoolStats

end SlotPool
