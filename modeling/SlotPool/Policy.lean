import SlotPool.Violation
import SlotPool.Word

/-!
# How far a pool grows for a bulk request

`GrowthPolicy.blocksFor` turns the slots that are missing into a number of blocks.
-/

namespace SlotPool

inductive GrowthPolicy where
  /-- One block more than whole blocks of the shortfall, so that slots are left over. -/
  | headroom
  /-- As few blocks as cover the shortfall. -/
  | exactFit
deriving DecidableEq, Repr, Inhabited

namespace GrowthPolicy

/-- The name used in configuration files and reports. -/
def name : GrowthPolicy → String
  | headroom => "headroom"
  | exactFit => "exact-fit"

def ofName? : String → Option GrowthPolicy
  | "headroom" => some headroom
  | "exact-fit" => some exactFit
  | _ => none

/-- The name used when a configuration is shown for debugging. -/
def variantName : GrowthPolicy → String
  | headroom => "Headroom"
  | exactFit => "ExactFit"

/-- Blocks for `deficit` missing slots, at least one. `none` if a word cannot hold their number. -/
def blocksFor (policy : GrowthPolicy) (deficit blockSize : Nat) : Option Nat :=
  match policy with
  | headroom => Word.add? (deficit / blockSize) 1
  | exactFit => some (max ((deficit + (blockSize - 1)) / blockSize) 1)

/-- Blocks for a block size that may be no block size. -/
def request (policy : GrowthPolicy) (deficit blockSize : Nat) : Except Violation (Option Nat) :=
  if blockSize = 0 then .error .divisionByZero else .ok (policy.blocksFor deficit blockSize)

theorem ofName?_name (policy : GrowthPolicy) : ofName? policy.name = some policy := by
  cases policy <;> rfl

end GrowthPolicy

end SlotPool
