import SlotPool.Proofs.Partition
import SlotPool.Session.Start

/-!
# Clients that share pools

A world is an arena, the clients of its pools, and the slots that nobody can give back any more.
`World.Step` is one thing that happens in it: a client takes one step of its call, or starts or ends
a call, or works on what it holds. Clients take their steps in any order, and the allocator answers
as it likes.
-/

namespace SlotPool

variable {ε : Type}

/-! ## Where slots are -/

namespace Held

def pieces : Held → List Piece
  | slot s => [.single s]
  | stack st => [.chain st]
  | lease l => l.slot.toList.map .single
  | leaseStack l => [.chain l.stack]

def slots (m : Memory ε) (h : Held) : List Slot := slotsOf m h.pieces

/-- Slots without a lease. Nothing is done for them when they are dropped. -/
def isBare : Held → Bool
  | slot _ => true
  | stack _ => true
  | lease _ => false
  | leaseStack _ => false

def pool? : Held → Option PoolId
  | slot _ => none
  | stack _ => none
  | lease l => l.pool
  | leaseStack l => l.pool

def emptied : Held → Held
  | lease l => lease l.detach.1
  | leaseStack l => leaseStack l.detach.1
  | h => h

end Held

def Origin.pieces : Origin → List Piece
  | single => []
  | bulk _ _ taken => [.chain taken]

def Growth.pieces (g : Growth) : List Piece := .chain g.fresh :: g.origin.pieces

def Grant.pieces : Grant → List Piece
  | one s => [.single s]
  | many st => [.chain st]

namespace Call

def pieces : Call → List Piece
  | reserve g => g.pieces
  | build g => g.pieces
  | countSlots g _ => g.pieces
  | countGrowth g _ _ => g.pieces
  | countBlocks g _ _ => g.pieces
  | noteGrowth g _ _ => g.pieces
  | publish fresh _ => [.chain fresh]
  | carve _ _ taken fresh => [.chain fresh, .chain taken]
  | surrender _ taken surplus => [.chain surplus, .chain taken]
  | noteFailure _ taken fresh _ => [.chain fresh, .chain taken]
  | restore taken fresh _ => [.chain fresh, .chain taken]
  | countAcquired _ slots => slots.pieces
  | cleanOne s => [.single s]
  | pushOne s => [.single s]
  | cleanMany st => [.chain st]
  | appendMany st => [.chain st]
  | finished (.acquired slots) => slots.pieces
  | _ => []

/-- The slots that the call can reach and nobody else. -/
def slots (m : Memory ε) (c : Call) : List Slot := slotsOf m c.pieces

/-- The slots of `c` that are in nobody's hands when it breaks a rule in its next step. -/
def forfeited (m : Memory ε) (c : Call) : Call → List Slot
  | finished (.broken _) => c.slots m
  | _ => []

/-- A request of a client that gives nothing. -/
inductive IsRequest : Call → Prop where
  | popOne : IsRequest popOne
  | popMany (count : Nat) : IsRequest (popMany count)
  | readStats : IsRequest readStats

end Call

/-! ## What clients do with what they hold -/

/-- Work of a client on the things `before`, which become `after`. Leases are of pools that are
`there`. -/
inductive Moves (there : PoolId → Prop) :
    Memory ε → List Held → Memory ε → List Held → Prop where
  | makeEmpty (m : Memory ε) (kind : HeldKind) (h : Held) (hk : Session.emptyOf kind = some h) :
      Moves there m [] m [h]
  | makeLeaseStack (m : Memory ε) (id : PoolId) (hid : there id) :
      Moves there m [] m [.leaseStack { pool := some id }]
  | write (m : Memory ε) (h : Held) (s : Slot) (content : Content ε) (hs : s ∈ h.slots m) :
      Moves there m [h] (content.write m s) [h]
  | push (m : Memory ε) (st : Stack) (s : Slot) :
      Moves there m [.stack st, .slot s] (st.push m s).1 [.stack (st.push m s).2]
  | append (m : Memory ε) (st other : Stack) :
      Moves there m [.stack st, .stack other] (st.append m other).1
        [.stack (st.append m other).2, .stack {}]
  | insert (m : Memory ε) (cmp : Array ε → Array ε → Ordering) (st : Stack) (s : Slot) :
      Moves there m [.stack st, .slot s] (st.insert cmp m s).1 [.stack (st.insert cmp m s).2]
  | pop (m m' : Memory ε) (st st' : Stack) (s : Slot) (hp : st.pop m = (m', st', some s)) :
      Moves there m [.stack st] m' [.stack st', .slot s]
  | split (m m' : Memory ε) (st front rest : Stack) (count : Nat)
      (hs : st.split m count = (m', .ok (front, rest))) :
      Moves there m [.stack st] m' [.stack front, .stack rest]
  | leaseSlot (m : Memory ε) (id : PoolId) (s : Slot) (l : Lease) (hid : there id)
      (hl : Lease.ofSlot m id s = .ok l) : Moves there m [.slot s] m [.lease l]
  | leaseStack (m : Memory ε) (id : PoolId) (st : Stack) (l : LeaseStack) (hid : there id)
      (hl : LeaseStack.ofStack m id st = .ok l) : Moves there m [.stack st] m [.leaseStack l]
  | pushBare (m : Memory ε) (l : LeaseStack) (s : Slot) (hl : l.checkPush m s = .ok ()) :
      Moves there m [.leaseStack l, .slot s] (l.push m s).1 [.leaseStack (l.push m s).2]
  | pushLease (m : Memory ε) (l l' : LeaseStack) (other : Lease)
      (hl : l.adopt other.pool = .ok l') :
      Moves there m [.leaseStack l, .lease other] (l'.pushLease m other).1
        [.leaseStack (l'.pushLease m other).2]
  | mergeStack (m : Memory ε) (l l' other : LeaseStack) (hl : l.adopt other.pool = .ok l') :
      Moves there m [.leaseStack l, .leaseStack other] (l'.append m other).1
        [.leaseStack (l'.append m other).2]
  | insertLease (m : Memory ε) (cmp : Array ε → Array ε → Ordering) (l l' : LeaseStack)
      (other : Lease) (hl : l.adopt other.pool = .ok l') :
      Moves there m [.leaseStack l, .lease other] (l'.insertLease cmp m other).1
        [.leaseStack (l'.insertLease cmp m other).2]
  | popLease (m m' : Memory ε) (l l' : LeaseStack) (one : Lease)
      (hp : l.pop m = (m', l', some one)) :
      Moves there m [.leaseStack l] m' [.leaseStack l', .lease one]
  | splitLease (m m' : Memory ε) (l front rest : LeaseStack) (count : Nat)
      (hs : l.split m count = (m', .ok (front, rest))) :
      Moves there m [.leaseStack l] m' [.leaseStack front, .leaseStack rest]
  | detachSlot (m : Memory ε) (l l' : Lease) (s : Slot) (hd : l.detach = (l', some s)) :
      Moves there m [.lease l] m [.lease l', .slot s]
  | detachStack (m : Memory ε) (l : LeaseStack) :
      Moves there m [.leaseStack l] m [.leaseStack l.detach.1, .stack l.detach.2]

def Arena.HasPool (a : Arena ε) (id : PoolId) : Prop := ∃ p, a.pool? id = some p

/-! ## Clients -/

structure Client where
  held : List Held := []
  /-- The call that the client is in, and the pool that it is made to. -/
  call : Option (PoolId × Call) := none

/-- Slots that nobody holds any more and no pool has. -/
structure Losses where
  /-- Slots that a client let go without giving them back. -/
  leaked : List Slot := []
  /-- Slots in the hands of something that broke a rule. -/
  forfeited : List Slot := []

/-- One step of a client, and what is lost in it. The order of the things held is of no account. -/
inductive Client.Step : Arena ε → Client → Arena ε → Client → Losses → Prop where
  /-- A client starts a call that gives nothing. -/
  | ask (a : Arena ε) (held : List Held) (id : PoolId) (p : Pool ε) (c : Call)
      (hp : a.pool? id = some p) (hc : c.IsRequest) :
      Step a ⟨held, none⟩ a ⟨held, some (id, c)⟩ {}
  /-- A client gives something to any pool. -/
  | give (a : Arena ε) (held rest : List Held) (h : Held) (kind : HeldKind) (id : PoolId)
      (p : Pool ε) (c : Call) (hh : held.Perm (h :: rest)) (hp : a.pool? id = some p)
      (hc : Session.returning kind h = some (some c)) :
      Step a ⟨held, none⟩ a ⟨rest, some (id, c)⟩ {}
  /-- A lease goes out of use. -/
  | drop (a : Arena ε) (held rest : List Held) (h : Held) (id : PoolId) (p : Pool ε) (c : Call)
      (hh : held.Perm (h :: rest)) (hp : a.pool? id = some p) (hd : h.dropped = .call id c) :
      Step a ⟨held, none⟩ a ⟨rest, some (id, c)⟩ {}
  /-- What a lease holds is given back, and the lease is kept. -/
  | reset (a : Arena ε) (held rest : List Held) (h : Held) (id : PoolId) (p : Pool ε) (c : Call)
      (hh : held.Perm (h :: rest)) (hp : a.pool? id = some p) (hd : h.dropped = .call id c) :
      Step a ⟨held, none⟩ a ⟨h.emptied :: rest, some (id, c)⟩ {}
  /-- Slots without a lease go out of use. -/
  | leak (a : Arena ε) (held rest : List Held) (h : Held) (hh : held.Perm (h :: rest))
      (hb : h.isBare = true) :
      Step a ⟨held, none⟩ a ⟨rest, none⟩ { leaked := h.slots a.memory }
  /-- A lease that is not given back by a call goes out of use. -/
  | expire (a : Arena ε) (held rest : List Held) (h : Held) (hh : held.Perm (h :: rest))
      (hb : h.isBare = false) (hd : ∀ id c, h.dropped ≠ .call id c) :
      Step a ⟨held, none⟩ a ⟨rest, none⟩ { forfeited := h.slots a.memory }
  | move (a : Arena ε) (held before after rest : List Held) (m : Memory ε)
      (hh : held.Perm (before ++ rest)) (hm : Moves a.HasPool a.memory before m after) :
      Step a ⟨held, none⟩ { a with memory := m } ⟨after ++ rest, none⟩ {}
  /-- One step of a call to a pool. -/
  | run (a a' : Arena ε) (held : List Held) (id : PoolId) (granted : Bool) (c c' : Call)
      (hc : c.outcome? = none) (hr : a.step id granted c = (a', c')) :
      Step a ⟨held, some (id, c)⟩ a' ⟨held, some (id, c')⟩
        { forfeited := c.forfeited a'.memory c' }
  /-- The slots of a call come into the hands of the client, under a lease if it asked for one. -/
  | receive (a : Arena ε) (held : List Held) (id : PoolId) (slots : Grant) (leased : Bool)
      (h : Held) (hh : Session.heldOf a.memory id leased slots = .ok h) :
      Step a ⟨held, some (id, .finished (.acquired slots))⟩ a ⟨h :: held, none⟩ {}
  /-- The slots of a call do not fit under a lease. -/
  | reject (a : Arena ε) (held : List Held) (id : PoolId) (slots : Grant) (leased : Bool)
      (v : Violation) (hh : Session.heldOf a.memory id leased slots = .error v) :
      Step a ⟨held, some (id, .finished (.acquired slots))⟩ a ⟨held, none⟩
        { forfeited := slotsOf a.memory slots.pieces }
  /-- A call ends that brings nothing. -/
  | finish (a : Arena ε) (held : List Held) (id : PoolId) (o : Outcome)
      (ho : ∀ slots, o ≠ .acquired slots) :
      Step a ⟨held, some (id, .finished o)⟩ a ⟨held, none⟩ {}

/-! ## Worlds -/

structure World (ε : Type) where
  arena : Arena ε := {}
  clients : List Client := []
  losses : Losses := {}

/-- One thing that happens. The order of the clients is of no account. -/
inductive World.Step : World ε → World ε → Prop where
  | client (a a' : Arena ε) (clients rest : List Client) (k k' : Client) (losses new : Losses)
      (hc : clients.Perm (k :: rest)) (hk : Client.Step a k a' k' new) :
      Step ⟨a, clients, losses⟩ ⟨a', k' :: rest,
        ⟨losses.leaked ++ new.leaked, losses.forfeited ++ new.forfeited⟩⟩
  | addPool (a : Arena ε) (clients : List Client) (losses : Losses) (strategy : Strategy ε)
      (policy : GrowthPolicy) (backoffMicros : Nat) :
      Step ⟨a, clients, losses⟩
        ⟨a.addPool (.fresh strategy policy backoffMicros), clients, losses⟩
  | join (a : Arena ε) (clients : List Client) (losses : Losses) :
      Step ⟨a, clients, losses⟩ ⟨a, {} :: clients, losses⟩
  /-- A client hands a thing to another one. -/
  | handOver (a : Arena ε) (clients rest : List Client) (giver taker : Client)
      (kept : List Held) (h : Held) (losses : Losses)
      (hc : clients.Perm (giver :: taker :: rest)) (hh : giver.held.Perm (h :: kept)) :
      Step ⟨a, clients, losses⟩
        ⟨a, { giver with held := kept } :: { taker with held := h :: taker.held } :: rest, losses⟩

/-- The worlds that steps lead to from one in which nothing has happened yet. -/
inductive World.Reachable : World ε → Prop where
  | start : Reachable {}
  | step {w w' : World ε} (hr : Reachable w) (hs : w.Step w') : Reachable w'

namespace World

/-- A client takes a step in which nothing is lost. -/
theorem Reachable.act {a a' : Arena ε} {k k' : Client} {rest : List Client} {losses : Losses}
    (h : Reachable ⟨a, k :: rest, losses⟩) (hk : Client.Step a k a' k' {}) :
    Reachable ⟨a', k' :: rest, losses⟩ := by
  have hstep := Step.client a a' _ rest k k' losses {} (List.Perm.refl _) hk
  simp only [List.append_nil] at hstep
  exact h.step hstep

/-- Some clients of a new pool. -/
def fleet (threads : Nat) (strategy : Strategy ε) (policy : GrowthPolicy) (backoffMicros : Nat) :
    World ε :=
  ⟨({} : Arena ε).addPool (.fresh strategy policy backoffMicros), List.replicate threads {}, {}⟩

theorem fleet_reachable (threads : Nat) (strategy : Strategy ε) (policy : GrowthPolicy)
    (backoffMicros : Nat) : (fleet threads strategy policy backoffMicros).Reachable := by
  induction threads with
  | zero => exact Reachable.start.step (.addPool {} [] {} strategy policy backoffMicros)
  | succ threads ih => exact ih.step (.join _ _ _)

end World

namespace Client

def running (k : Client) : List Piece :=
  match k.call with
  | none => []
  | some (_, c) => c.pieces

def pieces (k : Client) : List Piece := k.held.flatMap Held.pieces ++ k.running

end Client

def Arena.free (a : Arena ε) : List Piece := a.pools.toList.map fun p => .chain p.free

def Losses.pieces (l : Losses) : List Piece := (l.leaked ++ l.forfeited).map .single

namespace World

def memory (w : World ε) : Memory ε := w.arena.memory

def pieces (w : World ε) : List Piece :=
  w.arena.free ++ (w.clients.flatMap Client.pieces ++ w.losses.pieces)

def freeSlots (w : World ε) : List Slot :=
  w.arena.pools.toList.flatMap fun p => p.free.slots w.memory

def heldSlots (w : World ε) : List Slot :=
  w.clients.flatMap fun k => k.held.flatMap fun h => h.slots w.memory

def runningSlots (w : World ε) : List Slot :=
  w.clients.flatMap fun k => slotsOf w.memory k.running

end World

end SlotPool
