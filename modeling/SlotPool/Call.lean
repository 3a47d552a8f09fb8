import SlotPool.Event
import SlotPool.Pool

/-!
# Calls of a pool, step by step

A call is what a thread has still to do before a pool's answer. `Call.step` does one thing that
other threads can see (one use of the free stack under its lock, one read or change of a word, one
reservation, one entry in the journal), or some work on slots that only this call can reach.

Asking for slots, with the way back to the start when the pool was grown for one slot:

    popOne ──────────────────────────────────────────────▶ countAcquired
      └▶ claimGrowth ─▶ grow… ─▶ publish ─▶ unclaim ─▶ popOne
           └▶ countBackoff ─▶ noteBackoff ─▶ popOne
    popMany ─────────────────────────────────────────────▶ countAcquired
      └▶ grow… ─▶ carve ─▶ surrender ────────────────────▶ countAcquired
           └▶ noteFailure ─▶ restore

where growing is, for each block, its reservations and `build`, and then `countSlots`,
`countGrowth`, `countBlocks` and `noteGrowth` if there is any new block.
-/

namespace SlotPool

/-- Slots that a call hands to its caller. -/
inductive Grant where
  | one (s : Slot)
  | many (st : Stack)
deriving DecidableEq, Repr

/-- How a call ends. -/
inductive Outcome where
  | acquired (slots : Grant)
  | returned
  | observed (stats : PoolStats)
  | failed (error : PoolError)
  | broken (violation : Violation)
deriving DecidableEq, Repr

/-- On whose behalf a pool grows. -/
inductive Origin where
  /-- A call for one slot, which holds the growth flag. -/
  | single
  /-- A call for `count` slots that found only `taken` on the free stack and lacks `deficit`. -/
  | bulk (count deficit : Nat) (taken : Stack)
deriving DecidableEq, Repr

namespace Origin

def path : Origin → GrowthPath
  | single => .single
  | bulk .. => .bulk

end Origin

/-- A pool that is being grown. -/
structure Growth where
  origin : Origin
  /-- Blocks still to be built. -/
  blocks : Nat
  /-- Reservations granted for the next block. -/
  granted : Nat := 0
  /-- The slots of the finished blocks. -/
  fresh : Stack := {}
deriving DecidableEq, Repr

/-- A word of a pool that a reader of its statistics looks at. -/
inductive Gauge where
  | allocated
  | available
  | acquisitions
  | releases
  | growthEvents
  | blocksProvisioned
  | backoffs
deriving DecidableEq, Repr

namespace Gauge

/-- The words in the order in which they are read. -/
def all : List Gauge :=
  [allocated, available, acquisitions, releases, growthEvents, blocksProvisioned, backoffs]

/-- Reads one word. The free stack is counted under its lock. -/
def read {ε : Type} (p : Pool ε) (seen : PoolStats) : Gauge → PoolStats
  | allocated => { seen with allocated := p.allocated }
  | available => { seen with available := p.available }
  | acquisitions => { seen with acquisitions := p.counters.acquisitions }
  | releases => { seen with releases := p.counters.releases }
  | growthEvents => { seen with growthEvents := p.counters.growthEvents }
  | blocksProvisioned => { seen with blocksProvisioned := p.counters.blocksProvisioned }
  | backoffs => { seen with backoffs := p.counters.backoffs }

end Gauge

inductive Call where
  /-- Take the front slot of the free stack. -/
  | popOne
  /-- Try to raise the growth flag. -/
  | claimGrowth
  | countBackoff
  | noteBackoff
  /-- Take `count` slots off the free stack, or all of them if there are not so many. -/
  | popMany (count : Nat)
  /-- Make the next reservation for the next block. -/
  | reserve (g : Growth)
  /-- Make the next block and register it. -/
  | build (g : Growth)
  /-- The new slots are allocated. From here on `fault` is what ended the growth, if anything did.
  -/
  | countSlots (g : Growth) (fault : Option PoolError)
  | countGrowth (g : Growth) (fault : Option PoolError) (allocated : Nat)
  | countBlocks (g : Growth) (fault : Option PoolError) (allocated : Nat)
  | noteGrowth (g : Growth) (fault : Option PoolError) (allocated : Nat)
  /-- Put new slots on the free stack. -/
  | publish (fresh : Stack) (fault : Option PoolError)
  /-- Lower the growth flag. -/
  | unclaim (fault : Option PoolError)
  /-- Put the slots that are lacking in front of those that were taken. -/
  | carve (count deficit : Nat) (taken fresh : Stack)
  /-- Put the new slots that are left over on the free stack. -/
  | surrender (count : Nat) (taken surplus : Stack)
  | noteFailure (count : Nat) (taken fresh : Stack) (error : PoolError)
  /-- Put everything back on the free stack. -/
  | restore (taken fresh : Stack) (error : PoolError)
  | countAcquired (count : Nat) (slots : Grant)
  /-- Check whose slot this is, and make its value pristine. -/
  | cleanOne (s : Slot)
  | pushOne (s : Slot)
  /-- Check whose slots these are, and make their values pristine, from front to back. -/
  | cleanMany (st : Stack)
  | appendMany (st : Stack)
  | countReleased (count : Nat)
  /-- Read the first of the words that are left. -/
  | observe (left : List Gauge) (seen : PoolStats)
  | finished (outcome : Outcome)
deriving DecidableEq, Repr

namespace Call

/-- A request for the statistics. -/
def readStats : Call := .observe Gauge.all {}

/-- What the call hands back, when it is over. -/
def outcome? : Call → Option Outcome
  | finished outcome => some outcome
  | _ => none

variable {ε : Type}

/-! ## Growing -/

/-- What follows when the new slots are counted. -/
def afterGrowth (g : Growth) (fault : Option PoolError) : Call :=
  match g.origin, fault with
  | .single, _ => .publish g.fresh fault
  | .bulk count deficit taken, none => .carve count deficit taken g.fresh
  | .bulk count _ taken, some error => .noteFailure count taken g.fresh error

/-- What follows when the last block is built or `fault` has come up. Without new slots there is
nothing to count. -/
def afterBlocks (g : Growth) (fault : Option PoolError) : Call :=
  if g.fresh.isEmpty then afterGrowth g fault else .countSlots g fault

/-- The next block, if there is one. -/
def nextBlock (g : Growth) : Call :=
  if g.blocks = 0 then afterBlocks g none else .reserve g

/-- Growth by `blocks` blocks. Whether they can be addressed is settled before the first one. -/
def startGrowth (strategy : Strategy ε) (origin : Origin) (blocks : Nat) : Call :=
  let g : Growth := { origin, blocks }
  if strategy.addressable blocks then nextBlock g
  else afterBlocks g (some (.capacityOverflow blocks strategy.blockSize))

/-- What follows when the next reservation is granted or refused. -/
def afterReservation (strategy : Strategy ε) (g : Growth) (granted : Bool) : Call :=
  match strategy.reservations[g.granted]? with
  | none => .build g
  | some r =>
    if granted then
      let g := { g with granted := g.granted + 1 }
      if g.granted < strategy.reservations.length then .reserve g else .build g
    else afterBlocks g (some r.error)

/-- A block whose slots, pushed one by one, are in front of the new ones. -/
def buildBlock (id : PoolId) (strategy : Strategy ε) (m : Memory ε) (g : Growth) :
    Memory ε × Growth :=
  let first := m.size
  let m := m.addBlock id strategy.blockSize strategy.shape.width strategy.pristine
  let (m, fresh) := g.fresh.pushRange m first strategy.blockSize
  (m, { g with blocks := g.blocks - 1, granted := 0, fresh })

/-! ## Giving back -/

/-- Cleans slots one after the other, up to the first that the pool did not provide. -/
def cleanAll (id : PoolId) (pristine : ε) (m : Memory ε) :
    List Slot → Memory ε × Option Violation
  | [] => (m, none)
  | s :: rest =>
    match m.owner? s with
    | some owner =>
      if owner = id then cleanAll id pristine (m.fill s pristine) rest
      else (m, some (.foreignSlot owner id))
    | none => cleanAll id pristine m rest

/-! ## Steps -/

/-- One step of a call to the pool named `id`. `granted` is the allocator's answer, should the step
make a reservation. -/
def step (id : PoolId) (granted : Bool) (m : Memory ε) (p : Pool ε) :
    Call → Memory ε × Pool ε × Option Event × Call
  | popOne =>
    match p.free.pop m with
    | (m, _, none) => (m, p, none, claimGrowth)
    | (m, free, some s) => (m, { p with free }, none, countAcquired 1 (.one s))
  | claimGrowth =>
    if p.growing then (m, p, none, countBackoff)
    else (m, { p with growing := true }, none, startGrowth p.strategy .single 1)
  | countBackoff =>
    let counters := { p.counters with backoffs := p.counters.backoffs + 1 }
    (m, { p with counters }, none, noteBackoff)
  | noteBackoff => (m, p, some (.backingOff id p.backoffMicros), popOne)
  | popMany count =>
    if count ≤ p.free.length then
      match p.free.split m count with
      | (m, .ok (st, free)) => (m, { p with free }, none, countAcquired count (.many st))
      | (m, .error v) => (m, p, none, finished (.broken v))
    else
      let taken := p.free
      let deficit := count - taken.length
      let origin := Origin.bulk count deficit taken
      let next :=
        match p.policy.blocksFor deficit p.blockSize with
        | some blocks => startGrowth p.strategy origin blocks
        | none =>
          afterBlocks { origin, blocks := 0 }
            (some (.capacityOverflow (Word.limit - 1) p.blockSize))
      (m, { p with free := {} }, none, next)
  | reserve g => (m, p, none, afterReservation p.strategy g granted)
  | build g =>
    let (m, g) := buildBlock id p.strategy m g
    (m, { p with blocks := p.blocks.push m.newestArray }, none, nextBlock g)
  | countSlots g fault =>
    let allocated := p.allocated + g.fresh.length
    (m, { p with allocated }, none, countGrowth g fault allocated)
  | countGrowth g fault allocated =>
    let counters := { p.counters with growthEvents := p.counters.growthEvents + 1 }
    (m, { p with counters }, none, countBlocks g fault allocated)
  | countBlocks g fault allocated =>
    let blocks := g.fresh.length / p.blockSize
    let counters :=
      { p.counters with blocksProvisioned := p.counters.blocksProvisioned + blocks }
    (m, { p with counters }, none, noteGrowth g fault allocated)
  | noteGrowth g fault allocated =>
    let slots := g.fresh.length
    let event := Event.grown id g.origin.path p.policy (slots / p.blockSize) slots allocated
    (m, p, some event, afterGrowth g fault)
  | publish fresh fault =>
    let (m, free) := p.free.append m fresh
    (m, { p with free }, none, unclaim fault)
  | unclaim fault =>
    let next :=
      match fault with
      | none => popOne
      | some error => finished (.failed error)
    (m, { p with growing := false }, none, next)
  | carve count deficit taken fresh =>
    match fresh.split m deficit with
    | (m, .ok (needed, surplus)) =>
      let (m, taken) := taken.append m needed
      let next :=
        if surplus.isEmpty then countAcquired count (.many taken)
        else surrender count taken surplus
      (m, p, none, next)
    | (m, .error v) => (m, p, none, finished (.broken v))
  | surrender count taken surplus =>
    let (m, free) := p.free.append m surplus
    (m, { p with free }, none, countAcquired count (.many taken))
  | noteFailure count taken fresh error =>
    (m, p, some (.bulkFailed id count error), restore taken fresh error)
  | restore taken fresh error =>
    let (m, free) := p.free.append m taken
    let (m, free) := free.append m fresh
    (m, { p with free }, none, finished (.failed error))
  | countAcquired count slots =>
    let counters := { p.counters with acquisitions := p.counters.acquisitions + count }
    (m, { p with counters }, none, finished (.acquired slots))
  | cleanOne s =>
    match cleanAll id p.strategy.pristine m [s] with
    | (m, none) => (m, p, none, pushOne s)
    | (m, some v) => (m, p, none, finished (.broken v))
  | pushOne s =>
    let (m, free) := p.free.push m s
    (m, { p with free }, none, countReleased 1)
  | cleanMany st =>
    if st.isEmpty then (m, p, none, finished .returned)
    else
      let slots := st.slots m
      match cleanAll id p.strategy.pristine m slots with
      | (m, none) => (m, p, none, appendMany st)
      | (m, some v) => (m, p, none, finished (.broken v))
  | appendMany st =>
    let (m, free) := p.free.append m st
    (m, { p with free }, none, countReleased st.length)
  | countReleased count =>
    let counters := { p.counters with releases := p.counters.releases + count }
    (m, { p with counters }, none, finished .returned)
  | observe left seen =>
    match left with
    | [] => (m, p, none, finished (.observed seen))
    | gauge :: left => (m, p, none, observe left (gauge.read p seen))
  | finished outcome => (m, p, none, finished outcome)

/-- The reservation that the next step makes, if it makes one. -/
def reservation? (strategy : Strategy ε) : Call → Option Reservation
  | reserve g => strategy.reservations[g.granted]?
  | _ => none

/-- The call is about to make the first value of its first new block. -/
def isAtFirstValue : Call → Bool
  | reserve g => g.granted == 1 && g.fresh.isEmpty
  | build g => g.granted == 1 && g.fresh.isEmpty
  | _ => false

end Call

end SlotPool
