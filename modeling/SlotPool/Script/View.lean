import SlotPool.Session.Basic

/-!
# What a transcript shows

Slots are shown under labels: each gets the next number when it is shown for the first time. Of a
stack or a buffer only the beginning is shown.
-/

namespace SlotPool.Script

/-- How many slots of a stack, and elements of a buffer, are shown. -/
def shownLimit : Nat := 40

/-- The beginning of a value. -/
def shownValue {ε : Type} (v : Array ε) : List ε := (v.extract 0 shownLimit).toList

/-- The labels of the slots that were shown so far. -/
structure Labels where
  /-- The label of each slot, as far as there are any. -/
  assigned : Array (Option Nat) := #[]
  /-- How many there are. -/
  count : Nat := 0

namespace Labels

def get? (l : Labels) (s : Slot) : Option Nat := (l.assigned[s.index]?).join

/-- The label of a slot, which is a new one if it was not shown before. -/
def label (l : Labels) (s : Slot) : Labels × Nat :=
  match l.get? s with
  | some n => (l, n)
  | none =>
    let missing := s.index + 1 - l.assigned.size
    let assigned := l.assigned ++ Array.replicate missing none
    (⟨assigned.setIfInBounds s.index (some l.count), l.count + 1⟩, l.count)

def labelAll (l : Labels) : List Slot → Labels × List Nat
  | [] => (l, [])
  | s :: rest =>
    let (l, n) := l.label s
    let (l, ns) := labelAll l rest
    (l, n :: ns)

end Labels

/-- A thing in a register as it is shown. -/
inductive View (ε : Type) where
  | slot (value : Array ε) (label : Nat) (owner : Option PoolId)
  | stack (values : List (Array ε)) (labels : List Nat) (length : Nat)
  | lease (value : Option (Array ε)) (label : Option Nat) (pool : Option PoolId)
  | leaseStack (values : List (Array ε)) (labels : List Nat) (length : Nat) (pool : Option PoolId)

variable {ε : Type}

def viewStack (m : Memory ε) (l : Labels) (st : Stack) : Labels × List (Array ε) × List Nat :=
  let slots := m.chainUpTo shownLimit st.head
  let (l, labels) := l.labelAll slots
  (l, slots.map m.value, labels)

def view (m : Memory ε) (l : Labels) : Held → Labels × View ε
  | .slot s =>
    let (l, n) := l.label s
    (l, .slot (m.value s) n (m.owner? s))
  | .stack st =>
    let (l, values, labels) := viewStack m l st
    (l, .stack values labels st.length)
  | .lease ⟨none, pool⟩ => (l, .lease none none pool)
  | .lease ⟨some s, pool⟩ =>
    let (l, n) := l.label s
    (l, .lease (some (m.value s)) (some n) pool)
  | .leaseStack ⟨st, pool⟩ =>
    let (l, values, labels) := viewStack m l st
    (l, .leaseStack values labels st.length pool)

/-- Registers by name, with what is in them. Each is shown once. -/
def viewAll (m : Memory ε) (rs : Registers) (l : Labels) :
    List String → Labels × List (String × Option (View ε))
  | [] => (l, [])
  | name :: names =>
    match rs.get? name with
    | none =>
      let (l, rest) := viewAll m rs l names
      (l, (name, none) :: rest)
    | some h =>
      let (l, v) := view m l h
      let (l, rest) := viewAll m rs l names
      (l, (name, some v) :: rest)

/-- What is shown of a pool after each step. -/
structure PoolRow where
  allocated : Nat
  available : Nat
  blocks : Nat
  acquisitions : Nat
  releases : Nat
  growthEvents : Nat
  blocksProvisioned : Nat
  hasBackoffs : Bool
deriving DecidableEq, Repr

def PoolRow.ofPool (p : Pool ε) : PoolRow where
  allocated := p.allocated
  available := p.available
  blocks := p.blocks.length
  acquisitions := p.counters.acquisitions
  releases := p.counters.releases
  growthEvents := p.counters.growthEvents
  blocksProvisioned := p.counters.blocksProvisioned
  hasBackoffs := p.counters.backoffs > 0

end SlotPool.Script
