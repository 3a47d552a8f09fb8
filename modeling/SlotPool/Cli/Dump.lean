import SlotPool.Cli.Report
import SlotPool.Session.Perform

/-!
# A stack put in order

Scattered values are put into slots of one pool, one after the other, each at its place in a stack
that is kept in order. The report shows the beginning of the stack, and the pool after all slots are
given back.
-/

namespace SlotPool.Cli.Dump

/-! ## Values -/

/-- The number after `x` in a sequence that runs through all words but zero. -/
def scatter (x : UInt32) : UInt32 :=
  let x := x ^^^ (x <<< 13)
  let x := x ^^^ (x >>> 17)
  x ^^^ (x <<< 5)

/-- Where the sequence starts. -/
def seed : UInt32 := 0x9E3779B9

/-- The next `count` values after `x`. -/
def valuesFrom (x : UInt32) : Nat → List Nat
  | 0 => []
  | count + 1 =>
    let x := scatter x
    x.toNat % 1000 :: valuesFrom x count

def values (count : Nat) : List Nat := valuesFrom seed count

/-! ## The stack -/

/-- What is found when all values are in their places, and when all slots are given back. -/
structure Finding where
  isSorted : Bool
  length : Nat
  contents : String
  stats : PoolStats
deriving DecidableEq, Repr

/-- Puts a value into a slot, and the slot into the stack. -/
def insertion (v : Nat) : List (Command Int) :=
  [.acquire 0 true (some (.all v)) "slot", .insert "stack" "slot" .ascending]

/-- The pool has room for all values in one block, if they are not too many for that. -/
def blockSize (count : Nat) : Nat := max 1 (min count 4096)

def find (allocator : Allocator) (count limit : Nat) : Except Failure Finding := do
  let s : Session Int := { item := .number 0 }
  let s ← s.performAll allocator [
    .newPool (.sizes (blockSize count) none none),
    .makeLeaseStack 0 "stack"]
  let s ← s.performAll allocator ((values count).flatMap insertion)
  match s.registers.get? "stack" with
  | some (.leaseStack l) =>
    let isSorted := l.stack.isSorted (s.item.compare .ascending) s.memory
    let contents := l.stack.summary s.item s.memory limit
    let s ← s.performAll allocator [.drop "stack"]
    match s.pool? 0 with
    | some p => return ⟨isSorted, l.stack.length, contents, p.stats⟩
    | none => throw (.refused .noSuchPool)
  | _ => throw (.refused .noSuchRegister)

/-! ## As text -/

def Finding.report (f : Finding) : Report :=
  if f.isSorted then
    .ofTexts [s!"  Values:   {f.length}", s!"  Contents: {f.contents}", "",
      "  " ++ f.stats.summary, ""]
  else .ofFault { message := "stack lost its ordering" }

/-- The report on `count` values, of which at most `limit` are shown. -/
def report (allocator : Allocator) (count limit : Nat) : Report :=
  let body :=
    match find allocator count limit with
    | .ok f => f.report
    | .error f => .ofFailure f
  (Report.ofTexts (title "Sorted Stack Dump")).andThen body

end SlotPool.Cli.Dump
