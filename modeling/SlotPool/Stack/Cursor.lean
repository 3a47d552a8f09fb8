import SlotPool.Stack.Basic

/-!
# Going through a stack

A cursor follows the links of a stack and counts down from its length. It ends where the links end,
and stays at the end.
-/

namespace SlotPool

structure Cursor where
  next : Option Slot
  /-- Slots still to come. -/
  remaining : Nat
deriving DecidableEq, Repr

namespace Cursor

variable {ε : Type}

def ofStack (st : Stack) : Cursor := ⟨st.head, st.length⟩

/-- The next slot, if there is one, and the cursor after it. -/
def step (m : Memory ε) (c : Cursor) : Option Slot × Cursor :=
  match c.next with
  | none => (none, c)
  | some s => (some s, ⟨m.next? s, c.remaining - 1⟩)

/-- The answers to `count` steps, and the cursor after them. -/
def steps (m : Memory ε) (c : Cursor) : Nat → List (Option Slot) × Cursor
  | 0 => ([], c)
  | count + 1 =>
    let (s, c) := c.step m
    let (rest, c) := steps m c count
    (s :: rest, c)

/-- The least and the greatest number of slots that may come. -/
def sizeHint (c : Cursor) : Nat × Nat := (c.remaining, c.remaining)

end Cursor

end SlotPool
