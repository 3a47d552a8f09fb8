import SlotPool.Crew

/-!
# Drills

A drill lets threads use one pool in the same way at the same time, and reports what holds at the
end whatever the schedule was.
-/

namespace SlotPool

/-- What the threads of a drill do in each round. -/
inductive Exercise where
  /-- Take a slot with a value, look at it and give it back. -/
  | single
  /-- Take a stack and give it back. -/
  | bulk
  /-- Take a stack and a slot under leases, merge them, split the front off and drop all. -/
  | leases
  /-- Take a buffer, look at it, fill it and give it back. -/
  | buffer
deriving DecidableEq, Repr

structure Drill where
  exercise : Exercise
  threads : Nat
  /-- Rounds of each thread. -/
  cycles : Nat
  /-- The most slots that are asked for at a time. -/
  batch : Nat
  config : Config

namespace Drill

def itemOf : Exercise → ItemType Int
  | .buffer => .numberBuffers 0 1
  | _ => .number 0

/-- A duty to read register `a` and find only elements that are `v`. -/
def expect (a : String) (v : Int) : Duty Int where
  command := .read a
  complaint
    | .value (some found) => if found.all (· == v) then none else some "unexpected value"
    | _ => some "unexpected value"

/-- The duties of thread `thread` in round `i`. -/
def duties (d : Drill) (thread i : Nat) : List (Duty Int) :=
  let v : Int := ((thread <<< 32) + i : Nat)
  let count := i % (d.batch + 1)
  match d.exercise with
  | .single => [
      { command := .acquire 0 false (some (.all v)) "slot" },
      expect "slot" v,
      { command := .release 0 .slot "slot" }]
  | .bulk => [
      { command := .acquireStack 0 count false "stack" },
      { command := .release 0 .stack "stack" }]
  | .leases => [
      { command := .acquireStack 0 count true "stack" },
      { command := .acquire 0 true none "one" },
      { command := .push "stack" "one" },
      { command := .split "stack" (some 3) "front" },
      { command := .drop "front" },
      { command := .drop "stack" }]
  | .buffer => [
      { command := .acquire 0 false none "slot" },
      expect "slot" 0,
      { command := .write "slot" (.all (i % 255 + 1)) },
      { command := .release 0 .slot "slot" }]

/-- What holds at the end. -/
structure Finding where
  acquisitions : Nat
  releases : Nat
  outstanding : Nat
  /-- All slots are free. -/
  quiescent : Bool
  /-- The slots are those of whole blocks. -/
  wholeBlocks : Bool
  /-- Slots and counted blocks are those of the registered blocks. -/
  blocksAgree : Bool
  grew : Bool
deriving DecidableEq, Repr

def Finding.ofPool (p : Pool Int) : Finding where
  acquisitions := p.counters.acquisitions
  releases := p.counters.releases
  outstanding := p.stats.outstanding
  quiescent := p.allocated == p.available
  wholeBlocks := p.allocated % p.blockSize == 0
  blocksAgree := p.blocks.length * p.blockSize == p.allocated &&
    p.counters.blocksProvisioned == p.blocks.length
  grew := p.allocated > 0

/-- The threads with a pool of their own, before the first step. -/
def crew (d : Drill) : Except Failure (Crew Int) := do
  let item := itemOf d.exercise
  let p ← Session.makePool item (.config d.config)
  let work := (List.range d.threads).map fun thread =>
    { rounds := d.cycles, duties := d.duties thread : Work Int }
  return .ofWork item p work

/-- Does the drill, the threads taking turns, with no reservation of more than `limit` bytes
granted. -/
def run (limit : Nat) (d : Drill) : Except Failure (Finding × Option Complaint) := do
  let crew ← d.crew
  let crew := crew.sweeps limit (Crew.patience (d.threads * d.cycles) d.batch)
  match crew.arena.pools[0]? with
  | some p => return (.ofPool p, crew.complaint?)
  | none => throw (.refused .noSuchPool)

end Drill

end SlotPool
