import SlotPool.Call

/-!
# Pools that share a memory

An arena holds the memory, all pools with slots in it, and their common journal. A call goes on by
`Arena.step`; `Arena.proceed` takes steps of one call while nothing else happens.
-/

namespace SlotPool

structure Arena (ε : Type) where
  memory : Memory ε := {}
  /-- The pools in the order in which they were made, by which they are known. -/
  pools : Array (Pool ε) := #[]
  journal : Array Event := #[]

/-- What the allocator answers to the reservations of a call, each known by how many the call made
before it. -/
abbrev Allocator := Nat → Reservation → Bool

namespace Allocator

/-- Refuses what has more than `limit` bytes. -/
def upTo (limit : Nat) : Allocator := fun _ r => r.total ≤ limit

/-- Refuses also the reservation with this number, if there is one. -/
def failingAt (a : Allocator) : Option Nat → Allocator
  | none => a
  | some k => fun made r => made ≠ k && a made r

end Allocator

namespace Arena

variable {ε : Type}

def pool? (a : Arena ε) (id : PoolId) : Option (Pool ε) := a.pools[id.index]?

/-- The name that the next pool gets. -/
def nextId (a : Arena ε) : PoolId := ⟨a.pools.size⟩

def addPool (a : Arena ε) (p : Pool ε) : Arena ε :=
  match a with
  | ⟨memory, pools, journal⟩ => ⟨memory, pools.push p, journal⟩

def note (journal : Array Event) : Option Event → Array Event
  | none => journal
  | some event => journal.push event

/-- One step of a call to a pool. -/
def step (a : Arena ε) (id : PoolId) (granted : Bool) (c : Call) : Arena ε × Call :=
  match a with
  | ⟨memory, pools, journal⟩ =>
    match pools[id.index]? with
    | none => (⟨memory, pools, journal⟩, .finished .returned)
    | some p =>
      let pools := pools.setIfInBounds id.index p.vacated
      let (memory, p, event, c) := c.step id granted memory p
      (⟨memory, pools.setIfInBounds id.index p, note journal event⟩, c)

/-- The reservation that the call's next step makes. -/
def reservation? (a : Arena ε) (id : PoolId) (c : Call) : Option Reservation :=
  (a.pool? id).bind fun p => c.reservation? p.strategy

/-- A call on its way, and the reservations that it has made. -/
structure Progress where
  call : Call
  made : Nat := 0

/-- Takes steps of a call up to its end, or up to where `pause` holds. -/
def proceed (allocator : Allocator) (id : PoolId) (pause : Call → Bool) :
    Nat → Arena ε → Progress → Arena ε × Progress
  | 0, a, c => (a, c)
  | fuel + 1, a, ⟨c, made⟩ =>
    if pause c || c.outcome?.isSome then (a, ⟨c, made⟩)
    else
      match a.reservation? id c with
      | none =>
        let (a, c) := a.step id true c
        proceed allocator id pause fuel a ⟨c, made⟩
      | some r =>
        let (a, c) := a.step id (allocator made r) c
        proceed allocator id pause fuel a ⟨c, made + 1⟩

/-- Blocks that a call may still build. -/
def blocksAhead (a : Arena ε) (id : PoolId) : Call → Nat
  | .popMany count =>
    match a.pool? id with
    | some p => count / p.blockSize + 1
    | none => 0
  | .reserve g => g.blocks
  | .build g => g.blocks
  | _ => 1

/-- Enough steps for a call to which nothing else happens: at most three for a block, and some
before and after. -/
def patience (a : Arena ε) (id : PoolId) (c : Call) : Nat := 3 * a.blocksAhead id c + 32

/-- Takes steps of a call up to its end. A call that can only wait for others does not end. -/
def complete (a : Arena ε) (allocator : Allocator) (id : PoolId) (c : Progress) :
    Arena ε × Progress :=
  proceed allocator id (fun _ => false) (a.patience id c.call) a c

end Arena

end SlotPool
