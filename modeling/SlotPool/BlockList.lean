/-!
# The blocks of a pool

Blocks are kept in a list that only grows. Any number of threads add to it without a lock: each
makes an entry, reads the newest one, links its own to that, and publishes it if the newest is still
the same; if not, it links anew. `Adding.step` is one such step, `BlockList.push` all of them
without interruption, and `BlockList.drain` the walk that frees the blocks.
-/

namespace SlotPool

structure BlockEntry (β : Type) where
  block : β
  /-- The entry published before this one. -/
  previous : Option Nat := none
deriving DecidableEq, Repr, Inhabited

structure BlockList (β : Type) where
  /-- Every entry made so far, whether published or not. -/
  entries : Array (BlockEntry β) := #[]
  /-- The newest published entry. -/
  newest : Option Nat := none
  /-- How many additions were counted. -/
  length : Nat := 0
deriving Repr, Inhabited

/-- How far a thread that adds a block has come. -/
inductive Adding (β : Type) where
  | make (block : β)
  | read (entry : Nat)
  | link (entry : Nat) (seen : Option Nat)
  | publish (entry : Nat) (seen : Option Nat)
  | count
  | finished
deriving DecidableEq, Repr

variable {β : Type}

/-- One step of an addition. Publishing may fail although the newest entry is the one seen, if
`spurious` says so. -/
def Adding.step (spurious : Bool) (l : BlockList β) : Adding β → BlockList β × Adding β
  | .make block =>
    match l with
    | ⟨entries, newest, length⟩ =>
      let entry := entries.size
      (⟨entries.push ⟨block, none⟩, newest, length⟩, .read entry)
  | .read entry => (l, .link entry l.newest)
  | .link entry seen =>
    ({ l with entries := l.entries.modify entry fun e => { e with previous := seen } },
      .publish entry seen)
  | .publish entry seen =>
    if l.newest = seen ∧ spurious = false then ({ l with newest := some entry }, .count)
    else (l, .link entry l.newest)
  | .count => ({ l with length := l.length + 1 }, .finished)
  | .finished => (l, .finished)

namespace BlockList

/-- Takes steps of one addition while nothing else happens. -/
def proceed : Nat → BlockList β × Adding β → BlockList β × Adding β
  | 0, state => state
  | steps + 1, (l, adding) => proceed steps (adding.step false l)

/-- Adds a block. Without interruption five steps are enough. -/
def push (l : BlockList β) (block : β) : BlockList β := (proceed 5 (l, .make block)).1

/-- The blocks from an entry back to the first one. There are no more of them than entries, unless
the links run in a circle. -/
def drainFrom (l : BlockList β) : Nat → Option Nat → List β
  | 0, _ => []
  | _, none => []
  | fuel + 1, some i =>
    match l.entries[i]? with
    | none => []
    | some e => e.block :: drainFrom l fuel e.previous

/-- The published blocks, newest first. -/
def drain (l : BlockList β) : List β := l.drainFrom l.entries.size l.newest

end BlockList

end SlotPool
