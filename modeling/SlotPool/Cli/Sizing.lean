import SlotPool.Cli.Report
import SlotPool.Session.Perform
import SlotPool.Text.Column
import SlotPool.Text.Share

/-!
# The policies compared

For each policy a fresh pool is asked for so many slots at once. A row of the table says how far the
pool has grown and what it has left. The table ends where a pool does not grow.
-/

namespace SlotPool.Cli.Sizing

structure Row where
  policy : GrowthPolicy
  blocks : Nat
  allocated : Nat
  available : Nat
deriving DecidableEq, Repr

/-- The row of one policy. -/
def row (allocator : Allocator) (c : Config) (count : Nat) (policy : GrowthPolicy) :
    Except Failure Row := do
  let s : Session Int := { item := .number 0 }
  let s ← s.performAll allocator [
    .newPool (.config { c with growthPolicy := policy }),
    .acquireStack 0 count false "request"]
  match s.pool? 0 with
  | some p => return ⟨policy, p.blocks.length, p.allocated, p.available⟩
  | none => throw (.refused .noSuchPool)

/-- The rows of policies in order, up to the first that fails. What the allocator answers to one
policy's pool says nothing of the next one's. -/
def rows (allocators : GrowthPolicy → Allocator) (c : Config) (count : Nat) :
    List GrowthPolicy → List Row × Option Failure
  | [] => ([], none)
  | policy :: rest =>
    match row (allocators policy) c count policy with
    | .error f => ([], some f)
    | .ok r =>
      let (rs, failure) := rows allocators c count rest
      (r :: rs, failure)

/-- The policies that are compared. -/
def policies : List GrowthPolicy := [.headroom, .exactFit]

/-! ## As text -/

open Text

/-- A line of the table. -/
def cells (policy blocks allocated available spare : String) : String :=
  "  " ++ " ".intercalate [Column.left 12 policy, Column.right 8 blocks, Column.right 10 allocated,
    Column.right 10 available, Column.right 8 spare]

def Row.line (r : Row) : String :=
  cells r.policy.name (toString r.blocks) (toString r.allocated) (toString r.available)
    (Share.percent r.available r.allocated ++ "%")

def heading (c : Config) (count : Nat) : List String :=
  title "Growth Policy Sizing" ++ [
    s!"  Block size:  {c.blockSize}",
    s!"  Request:     {count} slots",
    "",
    cells "Policy" "Blocks" "Allocated" "Available" "Spare %",
    "  " ++ String.ofList (List.replicate 52 '-')]

def report (allocators : GrowthPolicy → Allocator) (c : Config) (count : Nat) : Report :=
  let (rs, failure) := rows allocators c count policies
  let table := heading c count ++ rs.map Row.line
  match failure with
  | some f => (Report.ofTexts table).andThen (.ofFailure f)
  | none => .ofTexts (table ++ [""])

end SlotPool.Cli.Sizing
