import SlotPool.Memory
import SlotPool.Violation

/-!
# Stacks of slots

A stack is a chain of slots that are linked through their cells. It knows its first and its last
slot and how many there are, so that a slot is pushed or popped, and a whole stack put in front of
another, in one step each.

The operations take the memory with the links and return the changed one. A slot that is pushed, and
a stack that is put in front of another, belong to the changed stack alone from then on.
-/

namespace SlotPool

structure Stack where
  head : Option Slot := none
  tail : Option Slot := none
  length : Nat := 0
deriving DecidableEq, Repr, Inhabited

namespace Stack

variable {ε : Type}

def empty : Stack := {}

def isEmpty (st : Stack) : Bool := st.head.isNone

/-- The slots from front to back. -/
def slots (m : Memory ε) (st : Stack) : List Slot := m.chain st.head

/-- The values from front to back. -/
def values (m : Memory ε) (st : Stack) : List (Array ε) := (st.slots m).map m.value

/-- Puts a slot in front. -/
def push (m : Memory ε) (st : Stack) (s : Slot) : Memory ε × Stack :=
  (m.setNext s st.head, ⟨some s, st.tail.or (some s), st.length + 1⟩)

/-- Pushes `count` slots that lie side by side, from `first` on. -/
def pushRange (m : Memory ε) (st : Stack) (first : Nat) : Nat → Memory ε × Stack
  | 0 => (m, st)
  | count + 1 =>
    let (m, st) := st.push m ⟨first⟩
    pushRange m st (first + 1) count

/-- Puts all of `other` in front, in its order. -/
def append (m : Memory ε) (st other : Stack) : Memory ε × Stack :=
  match other.head, other.tail with
  | some first, some last =>
    (m.setNext last st.head, ⟨some first, st.tail.or (some last), st.length + other.length⟩)
  | _, _ => (m, st)

/-- Takes the front slot off, if there is one. -/
def pop (m : Memory ε) (st : Stack) : Memory ε × Stack × Option Slot :=
  match st.head with
  | none => (m, st, none)
  | some s =>
    let next := m.next? s
    let rest := st.length - 1
    let tail := if rest = 0 then none else st.tail
    (m.setNext s none, ⟨next, tail, rest⟩, some s)

/-- Splits a stack into its first `count` slots and the others. Fails if the links end before the
length that the stack has on record. -/
def split (m : Memory ε) (st : Stack) (count : Nat) :
    Memory ε × Except Violation (Stack × Stack) :=
  if st.length ≤ count then (m, .ok (st, empty))
  else
    match st.head, count with
    | none, _ => (m, .ok (empty, st))
    | some _, 0 => (m, .ok (empty, st))
    | some first, others + 1 =>
      match m.advance? first others with
      | none => (m, .error .brokenChain)
      | some last =>
        let next := m.next? last
        (m.setNext last none,
          .ok (⟨some first, some last, count⟩, ⟨next, st.tail, st.length - count⟩))

end Stack

end SlotPool
