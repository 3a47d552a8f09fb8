import SlotPool.Text.Tree

/-! # Names of pools -/

namespace SlotPool

/-- The pool made `index` pools after the first one. Every slot is stamped with its pool's. -/
structure PoolId where
  index : Nat
deriving DecidableEq, Repr, Inhabited

namespace PoolId

/-- Pools are counted from one when they are named. -/
def number (id : PoolId) : Nat := id.index + 1

def name (id : PoolId) : String := s!"pool#{id.number}"

def tree (id : PoolId) : Text.Tree := .variant "PoolId" [.number id.number]

end PoolId

end SlotPool
