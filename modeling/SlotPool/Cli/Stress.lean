import SlotPool.Cli.Report
import SlotPool.Crew

/-!
# Many threads on one pool

Each thread takes slots and gives them back, alone and by the stack, and looks whether a slot still
holds what it wrote. When all are done, all slots must be free, and they must be those of whole
blocks.
-/

namespace SlotPool.Cli.Stress

structure Plan where
  threads : Nat
  /-- Rounds of each thread. -/
  iterations : Nat
  /-- Slots that are taken at once in every eighth round, if any are. -/
  batch : Nat
deriving DecidableEq, Repr

/-! ## The work of a thread -/

/-- What thread `thread` writes in round `i`: both numbers in one word. -/
def mark (thread i : Nat) : Int := (UInt64.ofNat thread <<< 32 ||| UInt64.ofNat i).toNat

/-- A duty to find `v` in the slot. -/
def lookFor (v : Int) : Duty Int where
  command := .read "slot"
  complaint
    | .value (some found) =>
      if found.all (· == v) then none
      else
        let found := " ".intercalate (found.toList.map toString)
        some s!"slot corrupted: {found} != {v}"
    | _ => none

/-- A duty to find `count` slots in the stack. -/
def countTo (count : Nat) : Duty Int where
  command := .length "stack"
  complaint
    | .length n _ => if n = count then none else some "short bulk acquire"
    | _ => none

/-- The duties of thread `thread` in round `i`. -/
def duties (batch thread i : Nat) : List (Duty Int) :=
  let v := mark thread i
  let single := [
    { command := .acquire 0 false (some (.all v)) "slot" },
    lookFor v,
    { command := .release 0 .slot "slot" }]
  let bulk := [
    { command := .acquireStack 0 batch false "stack" },
    { command := .writeAll "stack" (.all v) },
    countTo batch,
    { command := .release 0 .stack "stack" }]
  if batch > 0 && i % 8 = 0 then single ++ bulk else single

def Plan.work (p : Plan) : List (Work Int) :=
  (List.range p.threads).map fun thread =>
    { rounds := p.iterations, duties := duties p.batch thread : Work Int }

/-- The threads with a pool of their own, before the first step. -/
def Plan.crew (plan : Plan) (c : Config) : Except Failure (Crew Int) := do
  let item := ItemType.number 0
  let p ← Session.makePool item (.config c)
  return .ofWork item p plan.work

/-- The threads when they are done, having taken turns. -/
def Plan.done (limit : Nat) (plan : Plan) (crew : Crew Int) : Crew Int :=
  crew.sweeps limit (Crew.patience (plan.threads * plan.iterations) plan.batch)

/-! ## As text -/

def heading (plan : Plan) (c : Config) : List String := [
  s!"  Threads:     {plan.threads}",
  s!"  Iterations:  {plan.iterations} per thread",
  s!"  Block size:  {c.blockSize}",
  "  Batch:       " ++ (if plan.batch > 0 then toString plan.batch else "off"),
  s!"  Policy:      {c.growthPolicy.name}",
  ""]

/-- What does not hold of a pool when all is done, if anything does not. -/
def imbalance? (stats : PoolStats) (blockSize : Nat) : Option String :=
  if stats.allocated ≠ stats.available then
    some s!"pool not quiescent: {stats.allocated} allocated, {stats.available} available"
  else if stats.allocated % blockSize ≠ 0 then
    some s!"allocated {stats.allocated} is not a multiple of block size {blockSize}"
  else none

/-- The verdict on the pool that the threads leave behind. -/
def verdict (plan : Plan) (blocks : Nat) (stats : PoolStats) (blockSize : Nat) : Report :=
  let figures : Report :=
    { lines := [.elapsed, .throughput (plan.threads * plan.iterations)] ++
        [s!"  Blocks:      {blocks}", "  " ++ stats.summary, ""].map .text }
  figures.andThen
    (match imbalance? stats blockSize with
    | some message => .ofFault { message }
    | none => .ofTexts ["  ✓ allocated == available",
        "  ✓ allocated is a whole number of blocks", ""])

/-- What is reported of the threads when they are done. -/
def conclusion (plan : Plan) (c : Config) (crew : Crew Int) : Report :=
  match crew.complaint?, crew.arena.pools[0]? with
  | some complaint, _ => .ofFault { message := complaint.message }
  | none, some p => verdict plan p.blocks.length p.stats c.blockSize
  | none, none => .ofFailure (.refused .noSuchPool)

def report (limit : Nat) (c : Config) (plan : Plan) : Report :=
  let title := Report.ofTexts (title "Concurrency Stress")
  if plan.threads = 0 then title.andThen (.ofFault { message := "--threads must be at least 1" })
  else
    let body :=
      match plan.crew c with
      | .error f => .ofFailure f
      | .ok crew => conclusion plan c (plan.done limit crew)
    (title.andThen (.ofTexts (heading plan c))).andThen body

end SlotPool.Cli.Stress
