import SlotPool.Stack.Basic

/-!
# Stacks in order

`Stack.insert` puts a slot in front of the first one whose value is greater, so that slots with
equal values keep the order in which they came. It makes no assumption on the comparison.
-/

namespace SlotPool

variable {ε : Type}

/-- The slot after which a slot with value `v` goes: from `cursor` on, the first whose successor is
greater than `v`, or the last one. -/
def Memory.predecessor (m : Memory ε) (cmp : Array ε → Array ε → Ordering) (v : Array ε) :
    Nat → Slot → Slot
  | 0, cursor => cursor
  | fuel + 1, cursor =>
    match m.next? cursor with
    | none => cursor
    | some next =>
      if cmp v (m.value next) = .lt then cursor else m.predecessor cmp v fuel next

namespace Stack

/-- Puts a slot where its value belongs. -/
def insert (cmp : Array ε → Array ε → Ordering) (m : Memory ε) (st : Stack) (s : Slot) :
    Memory ε × Stack :=
  match st.head with
  | none => st.push m s
  | some first =>
    let v := m.value s
    if cmp v (m.value first) = .lt then st.push m s
    else
      let before := m.predecessor cmp v m.size first
      let next := m.next? before
      ((m.setNext s next).setNext before (some s),
        { st with
          tail := if st.tail = some before then some s else st.tail
          length := st.length + 1 })

/-- No value is greater than the one after it. -/
def isAscending (cmp : Array ε → Array ε → Ordering) : List (Array ε) → Bool
  | a :: b :: rest => if cmp a b = .gt then false else isAscending cmp (b :: rest)
  | _ => true

def isSorted (cmp : Array ε → Array ε → Ordering) (m : Memory ε) (st : Stack) : Bool :=
  isAscending cmp (st.values m)

end Stack

end SlotPool
