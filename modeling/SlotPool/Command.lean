import SlotPool.Lease
import SlotPool.Stack.Cursor

/-!
# What a client asks for, and what it is answered

A command names pools by number and things that the client holds by the register they are in. A
command that takes a thing empties its register, whatever comes of it; a result is put into a
register, and what was there before is dropped.

A client may leave a part of a command out. The command is refused where it needs that part, and
what it did before stays done.
-/

namespace SlotPool

/-- The kinds of things to hold. -/
inductive HeldKind where
  | slot
  | stack
  | lease
  | leaseStack
deriving DecidableEq, Repr

/-- The register that a command means, if the client named one. -/
abbrev Place := Option String

/-- How a pool is asked for. -/
inductive PoolRequest where
  /-- By sizes alone. A text beside them is not used, but it has to be a configuration. -/
  | sizes (blockSize : Nat) (bufferSize : Option Nat) (beside : Option String)
  | config (c : Config)
  /-- By the text of a configuration. -/
  | document (text : String)

inductive Command (ε : Type) where
  | newPool (request : PoolRequest)
  | poolInfo (p : Nat)
  | poolTree (p : Nat)
  | stats (p : Nat)
  /-- One slot, under a lease if `leased`, with `content` written to it if there is any. -/
  | acquire (p : Nat) (leased : Bool) (content : Option (Content ε)) (dest : Place)
  /-- `count` slots as a stack, under a lease if `leased`. -/
  | acquireStack (p : Nat) (count : Option Nat) (leased : Bool) (dest : Place)
  /-- Give what is in `a` back to a pool. -/
  | release (p : Nat) (kind : HeldKind) (a : Place)
  /-- An empty stack, lease or stack under a lease without a pool. -/
  | makeEmpty (kind : HeldKind) (dest : Place)
  /-- An empty stack under a lease of a pool. -/
  | makeLeaseStack (p : Nat) (dest : Place)
  /-- Put a slot under a lease. -/
  | leaseSlot (p : Nat) (a dest : Place)
  /-- Put a stack under a lease. -/
  | leaseStack (p : Nat) (a dest : Place)
  | drop (a : Place)
  | move (a dest : Place)
  /-- Move what is in `a` and leave an empty thing of its kind. -/
  | take (a dest : Place)
  | push (a b : Place)
  | append (a b : Place)
  | insert (a b : Place) (cmp : Comparison)
  | isSorted (a : Place) (cmp : Comparison)
  | pop (a dest : Place)
  | split (a : Place) (count : Option Nat) (dest : Place)
  | peek (a : Place)
  /-- Write to the front slot. -/
  | writeFront (a : Place) (content : Content ε)
  | length (a : Place)
  | summary (a : Place) (limit : Option Nat)
  | tree (a : Place)
  /-- Go so many steps through a stack. -/
  | iterate (a : Place) (steps : Option Nat)
  /-- Go through a stack and write to each slot. -/
  | writeEach (a : Place) (contents : Option (List (Content ε)))
  /-- Go through a stack and write the same to all of its slots. -/
  | writeAll (a : Place) (content : Content ε)
  | read (a : Place)
  | write (a : Place) (content : Content ε)
  /-- Write to the slot of a lease, if it has one. -/
  | tryWrite (a : Place) (content : Content ε)
  /-- Give back what is under a lease. -/
  | reset (a : Place)
  /-- Take what is under a lease out of it. -/
  | detach (a dest : Place)

/-- Why a command is not understood. -/
inductive Refusal where
  | missingOperation
  | unknownOperation
  | missingRegister
  | missingCount
  | missingContents
  | noSuchRegister
  | wrongKind
  | noSuchPool
deriving DecidableEq, Repr

def Refusal.message : Refusal → String
  | .missingOperation => "missing o"
  | .unknownOperation => "unknown o"
  | .missingRegister => "missing register field"
  | .missingCount => "missing n"
  | .missingContents => "missing vs"
  | .noSuchRegister => "no such register"
  | .wrongKind => "wrong kind of register"
  | .noSuchPool => "no such pool"

/-- Why a command has no answer. -/
inductive Failure where
  | error (e : PoolError)
  | violation (v : Violation)
  | refused (r : Refusal)
  /-- The call waits for another one that does not go on. -/
  | waiting
deriving DecidableEq, Repr

def Failure.message : Failure → String
  | .error e => e.message
  | .violation v => v.message
  | .refused r => r.message
  | .waiting => "the call waits for another one"

structure PoolInfo where
  id : PoolId
  blockSize : Nat
  policy : GrowthPolicy
  shape : Shape
deriving Repr

inductive Reply (ε : Type) where
  | done
  | pool (index : Nat)
  | info (i : PoolInfo)
  | tree (t : Text.Tree)
  | stats (s : PoolStats)
  | flag (b : Bool)
  | value (v : Option (Array ε))
  | length (length : Nat) (isEmpty : Bool)
  | text (s : String)
  /-- The values that came, and what is known of those to come. -/
  | visited (values : List (Option (Array ε))) (rest : Cursor)
  | written (rest : Cursor)
  | noted (e : Option Event)

end SlotPool
