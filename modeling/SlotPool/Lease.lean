import SlotPool.Call
import SlotPool.Item

/-!
# Leases

A lease holds slots of one pool and gives them back when it is dropped. `Lease` holds at most one
slot and `LeaseStack` a stack of them. A lease that was made empty has no pool; a stack takes on the
pool of the first lease that is merged into it. Slots that are not leased are given back by hand or
lost.

`Lease.dropped` and `LeaseStack.dropped` say what is left to do when a lease goes out of use.
-/

namespace SlotPool

variable {ε : Type}

structure Lease where
  slot : Option Slot := none
  pool : Option PoolId := none
deriving DecidableEq, Repr, Inhabited

structure LeaseStack where
  stack : Stack := {}
  pool : Option PoolId := none
deriving DecidableEq, Repr, Inhabited

/-- What is to be done with slots that go out of use. -/
inductive Disposal where
  | nothing
  | call (pool : PoolId) (c : Call)
  | violation (v : Violation)
deriving DecidableEq, Repr

/-- A pool takes only the slots that it provided. -/
def checkOwner (m : Memory ε) (pool : PoolId) (s : Slot) : Except Violation Unit :=
  match m.owner? s with
  | some owner => if owner = pool then .ok () else .error (.foreignSlot owner pool)
  | none => .ok ()

namespace Lease

/-- Puts a slot under a lease of its pool. -/
def ofSlot (m : Memory ε) (pool : PoolId) (s : Slot) : Except Violation Lease := do
  checkOwner m pool s
  return ⟨some s, some pool⟩

def isEmpty (l : Lease) : Bool := l.slot.isNone

def dropped : Lease → Disposal
  | ⟨some s, some pool⟩ => .call pool (.cleanOne s)
  | _ => .nothing

/-- The lease without its slot, which is no longer under it. -/
def detach (l : Lease) : Lease × Option Slot := ({ l with slot := none }, l.slot)

/-- The value of the slot. -/
def value? (m : Memory ε) (l : Lease) : Option (Array ε) := l.slot.map m.value

open Text (Tree)

def tree (item : ItemType ε) (m : Memory ε) (l : Lease) : Tree :=
  .record "UniqueNode" [
    ("pool", .ofOption (l.pool.map PoolId.tree)),
    ("value", .ofOption ((l.value? m).map item.valueTree))]

end Lease

namespace LeaseStack

def checkAll (m : Memory ε) (pool : PoolId) : List Slot → Except Violation Unit
  | [] => .ok ()
  | s :: rest => do
    checkOwner m pool s
    checkAll m pool rest

/-- Puts a stack under a lease of its slots' pool. -/
def ofStack (m : Memory ε) (pool : PoolId) (st : Stack) : Except Violation LeaseStack := do
  checkAll m pool (st.slots m)
  return ⟨st, some pool⟩

def isEmpty (l : LeaseStack) : Bool := l.stack.isEmpty

def dropped (l : LeaseStack) : Disposal :=
  if l.stack.isEmpty then .nothing
  else
    match l.pool with
    | none => .violation .unboundLease
    | some pool => .call pool (.cleanMany l.stack)

def detach (l : LeaseStack) : LeaseStack × Stack := ({ l with stack := {} }, l.stack)

/-- Takes on the pool of a lease that is to be merged. A lease without a pool fits everywhere. -/
def adopt (l : LeaseStack) (source : Option PoolId) : Except Violation LeaseStack :=
  match source, l.pool with
  | none, _ => .ok l
  | some source, none => .ok { l with pool := some source }
  | some source, some target =>
    if target = source then .ok l else .error (.crossMerge source target)

/-- A bare slot can be pushed if it is from the pool of the lease. -/
def checkPush (m : Memory ε) (l : LeaseStack) (s : Slot) : Except Violation Unit :=
  match l.pool with
  | none => .error .unboundLease
  | some pool => checkOwner m pool s

def push (m : Memory ε) (l : LeaseStack) (s : Slot) : Memory ε × LeaseStack :=
  let (m, stack) := l.stack.push m s
  (m, { l with stack })

/-- Moves the slot of another lease in front, when its pool is taken on. -/
def pushLease (m : Memory ε) (l : LeaseStack) (other : Lease) : Memory ε × LeaseStack :=
  match other.slot with
  | none => (m, l)
  | some s => l.push m s

/-- Moves all slots of another lease in front, when its pool is taken on. -/
def append (m : Memory ε) (l other : LeaseStack) : Memory ε × LeaseStack :=
  let (m, stack) := l.stack.append m other.stack
  (m, { l with stack })

/-- Moves the slot of another lease to its place, when its pool is taken on. -/
def insertLease (cmp : Array ε → Array ε → Ordering) (m : Memory ε) (l : LeaseStack)
    (other : Lease) : Memory ε × LeaseStack :=
  match other.slot with
  | none => (m, l)
  | some s =>
    let (m, stack) := l.stack.insert cmp m s
    (m, { l with stack })

/-- Moves the front slot to a lease of its own. -/
def pop (m : Memory ε) (l : LeaseStack) : Memory ε × LeaseStack × Option Lease :=
  let (m, stack, s) := l.stack.pop m
  (m, { l with stack }, s.map fun s => ⟨some s, l.pool⟩)

/-- Moves the first `count` slots to a lease of their own. -/
def split (m : Memory ε) (l : LeaseStack) (count : Nat) :
    Memory ε × Except Violation (LeaseStack × LeaseStack) :=
  match l.stack.split m count with
  | (m, .ok (front, rest)) => (m, .ok (⟨front, l.pool⟩, { l with stack := rest }))
  | (m, .error v) => (m, .error v)

open Text (Tree)

def tree (item : ItemType ε) (m : Memory ε) (l : LeaseStack) : Tree :=
  .record "UniqueStack" [
    ("pool", .ofOption (l.pool.map PoolId.tree)),
    ("stack", l.stack.tree item m)]

end LeaseStack

/-! ## Things to hold -/

/-- What a client holds in one place. -/
inductive Held where
  /-- A slot without a lease. -/
  | slot (s : Slot)
  /-- Slots without a lease, maybe from several pools. -/
  | stack (st : Stack)
  | lease (l : Lease)
  | leaseStack (l : LeaseStack)
deriving DecidableEq, Repr

namespace Held

/-- What is to be done when the thing is dropped. Slots without a lease are lost. -/
def dropped : Held → Disposal
  | slot _ => .nothing
  | stack _ => .nothing
  | lease l => l.dropped
  | leaseStack l => l.dropped

open Text (Tree)

def slotTree (item : ItemType ε) (m : Memory ε) (s : Slot) : Tree :=
  .record "NodeHandle" [
    ("owner", ((m.owner? s).map PoolId.tree).getD (.atom "")),
    ("value", item.valueTree (m.value s))]

def tree (item : ItemType ε) (m : Memory ε) : Held → Tree
  | slot s => slotTree item m s
  | stack st => st.tree item m
  | lease l => l.tree item m
  | leaseStack l => l.tree item m

end Held

/-- Things that a client holds, by name. -/
abbrev Registers := List (String × Held)

namespace Registers

def get? (rs : Registers) (name : String) : Option Held := rs.lookup name

def remove (rs : Registers) (name : String) : Registers := rs.filter fun r => r.1 ≠ name

/-- The registers with a thing under a name that is free. -/
def store (rs : Registers) (name : String) (h : Held) : Registers := (name, h) :: rs.remove name

end Registers

end SlotPool
