import SlotPool.PoolId

/-!
# Slots and where their values lie

A slot is a cell with three things: the run of elements that holds its value, the pool that provided
it, and a link to the next slot of whatever stack it is in. The elements lie in arrays, one for each
block; a slot of an object is a run of one element, and a slot of a buffer a run of as many as the
buffer has.
-/

namespace SlotPool

/-- A cell of the memory. -/
structure Slot where
  index : Nat
deriving DecidableEq, Repr, Inhabited

/-- `length` elements of an array, from `start` on. -/
structure Run where
  array : Nat
  start : Nat
  length : Nat
deriving DecidableEq, Repr, Inhabited

structure Cell where
  run : Run
  owner : PoolId
  next : Option Slot := none
deriving DecidableEq, Repr, Inhabited

/-- All slots that were ever provided, and the elements of their values. -/
structure Memory (ε : Type) where
  arrays : Array (Array ε) := #[]
  cells : Array Cell := #[]
deriving Inhabited

namespace Memory

variable {ε : Type}

/-- The number of slots. -/
def size (m : Memory ε) : Nat := m.cells.size

def cell? (m : Memory ε) (s : Slot) : Option Cell := m.cells[s.index]?

/-! ## Links -/

def next? (m : Memory ε) (s : Slot) : Option Slot := (m.cell? s).bind (·.next)

def setNext (m : Memory ε) (s : Slot) (next : Option Slot) : Memory ε :=
  { m with cells := m.cells.modify s.index fun c => { c with next } }

/-- The slot `count` links after `s`. -/
def advance? (m : Memory ε) (s : Slot) : Nat → Option Slot
  | 0 => some s
  | count + 1 => (m.next? s).bind (m.advance? · count)

/-- The first `count` slots that the links lead through, from `start` on. -/
def chainUpTo (m : Memory ε) : Nat → Option Slot → List Slot
  | 0, _ => []
  | _, none => []
  | count + 1, some s => s :: m.chainUpTo count (m.next? s)

/-- The slots that the links lead through, from `start` on. There are no more of them than cells,
unless the links run in a circle. -/
def chain (m : Memory ε) (start : Option Slot) : List Slot := m.chainUpTo m.size start

/-! ## Owners -/

def owner? (m : Memory ε) (s : Slot) : Option PoolId := (m.cell? s).map (·.owner)

/-! ## Values -/

/-- The elements of a run. -/
def elements (m : Memory ε) (r : Run) : Array ε :=
  match m.arrays[r.array]? with
  | some a => a.extract r.start (r.start + r.length)
  | none => #[]

/-- The elements of the slot's run. -/
def value (m : Memory ε) (s : Slot) : Array ε :=
  match m.cell? s with
  | some c => m.elements c.run
  | none => #[]

/-- Puts one element in the place of `count` others, from `start` on. -/
def fillFrom (a : Array ε) (start : Nat) (v : ε) : Nat → Array ε
  | 0 => a
  | count + 1 => fillFrom (a.setIfInBounds start v) (start + 1) v count

/-- Puts the elements of a list in the place of others, from `start` on. -/
def writeFrom (a : Array ε) (start : Nat) : List ε → Array ε
  | [] => a
  | v :: vs => writeFrom (a.setIfInBounds start v) (start + 1) vs

/-- Changes the elements of the slot's array. The change gets the run, which it is not to leave. -/
def modifyRun (m : Memory ε) (s : Slot) (change : Run → Array ε → Array ε) : Memory ε :=
  match m.cell? s with
  | some c => { m with arrays := m.arrays.modify c.run.array (change c.run) }
  | none => m

/-- Makes every element of the slot's value the same. -/
def fill (m : Memory ε) (s : Slot) (v : ε) : Memory ε :=
  m.modifyRun s fun r a => fillFrom a r.start v r.length

/-- Puts the elements of a list in the place of the slot's first ones. What does not fit is left
out. -/
def overwrite (m : Memory ε) (s : Slot) (vs : List ε) : Memory ε :=
  m.modifyRun s fun r a => writeFrom a r.start (vs.take r.length)

/-! ## Blocks -/

/-- The slots of a block, each with the run that follows the one before. -/
def blockCells (array width : Nat) (owner : PoolId) (count : Nat) : Array Cell :=
  Array.ofFn fun i : Fin count => { run := ⟨array, i * width, width⟩, owner }

/-- Adds an array of `count` runs of `width` elements `v`, and a slot for each. -/
def addBlock (m : Memory ε) (owner : PoolId) (count width : Nat) (v : ε) : Memory ε :=
  match m with
  | ⟨arrays, cells⟩ =>
    let cells := cells ++ blockCells arrays.size width owner count
    ⟨arrays.push (Array.replicate (count * width) v), cells⟩

/-- The array that was added last. -/
def newestArray (m : Memory ε) : Nat := m.arrays.size - 1

end Memory

end SlotPool
