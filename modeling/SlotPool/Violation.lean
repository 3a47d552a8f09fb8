import SlotPool.PoolId

/-!
# Broken contracts

A caller that breaks a rule of the pool does not get an error value: the call is cut short where the
rule is checked. Each rule that can be broken is a constructor, and its wording is `message`.
-/

namespace SlotPool

/-- A rule broken by a caller. -/
inductive Violation where
  /-- A pool was asked for with blocks of no slots. -/
  | zeroBlockSize
  /-- A pool was asked for with buffers of no elements. -/
  | zeroBufferSize
  /-- A block count was asked for with blocks of no slots. -/
  | divisionByZero
  /-- A slot was given to a pool that did not provide it. -/
  | foreignSlot (owner pool : PoolId)
  /-- A lease was merged into a lease of another pool. -/
  | crossMerge (source target : PoolId)
  /-- A bare slot was pushed onto a lease that has no pool yet. -/
  | unboundLease
  /-- The value of a lease that holds no slot was asked for. -/
  | emptyLease
  /-- A chain of slots ended before its recorded length. -/
  | brokenChain
deriving DecidableEq, Repr

def Violation.message : Violation → String
  | .zeroBlockSize => "block_size must be greater than zero"
  | .zeroBufferSize => "buffer_size must be greater than zero"
  | .divisionByZero => "attempt to divide by zero"
  | .foreignSlot owner pool => s!"node provisioned by {owner.name} released into {pool.name}"
  | .crossMerge source target =>
    s!"cannot merge contents of {source.name} into a stack bound to {target.name}"
  | .unboundLease => "UniqueStack is not bound to a pool"
  | .emptyLease => "empty UniqueNode"
  | .brokenChain =>
    "internal error: entered unreachable code: stack shorter than its recorded length"

end SlotPool
