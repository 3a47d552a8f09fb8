import SlotPool.Session.Perform

/-!
# Threads that share pools

A crew is an arena and some threads, each with registers and work of its own. A thread's work comes
in rounds, and a round is a list of duties: commands whose answers are checked. A thread stops at
the first answer that is not as it should be.

`Crew.advance` lets one thread take one step, so that any sequence of threads is a schedule;
`Crew.sweeps` is the schedule in which all threads take turns.
-/

namespace SlotPool

/-- A command, and what is wrong with an answer to it. -/
structure Duty (ε : Type) where
  command : Command ε
  complaint : Reply ε → Option String := fun _ => none

/-- The work of a thread. -/
structure Work (ε : Type) where
  rounds : Nat
  duties : Nat → List (Duty ε)

/-- Why a thread stopped early. -/
inductive Complaint where
  | failure (f : Failure)
  | answer (text : String)
deriving DecidableEq, Repr

def Complaint.message : Complaint → String
  | failure f => f.message
  | answer text => text

structure Thread (ε : Type) where
  work : Work ε
  registers : Registers := []
  /-- Rounds that were begun. -/
  begun : Nat := 0
  /-- Duties left in the round. -/
  left : List (Duty ε) := []
  /-- The duty that the thread is at, and how far it has come with it. -/
  current : Option (Duty ε × Execution ε) := none
  complaint : Option Complaint := none

namespace Thread

variable {ε : Type}

/-- Nothing is left to do. -/
def isDone (t : Thread ε) : Bool :=
  t.complaint.isSome || (t.current.isNone && t.left.isEmpty && t.work.rounds ≤ t.begun)

/-- What a thread has against an answer. -/
def judge (d : Duty ε) : Except Failure (Reply ε) → Option Complaint
  | .error f => some (.failure f)
  | .ok r => (d.complaint r).map .answer

/-- One step of a thread: a step of its command, or the end of it, or the start of the next one. -/
def step (item : ItemType ε) (granted : Bool) (arena : Arena ε) (t : Thread ε) :
    Arena ε × Thread ε :=
  if t.isDone then (arena, t)
  else
    match t with
    | ⟨work, registers, begun, left, current, _⟩ =>
      match current, left with
      | some (d, .finished answer), _ =>
        (arena, ⟨work, registers, begun, left, none, judge d answer⟩)
      | some (d, e), _ =>
        let (s, e) := Session.advance ⟨item, arena, registers⟩ granted e
        (s.arena, ⟨work, s.registers, begun, left, some (d, e), none⟩)
      | none, d :: left =>
        let (s, e) := Session.start ⟨item, arena, registers⟩ d.command
        (s.arena, ⟨work, s.registers, begun, left, some (d, e), none⟩)
      | none, [] => (arena, ⟨work, registers, begun + 1, work.duties begun, none, none⟩)

/-- The reservation that the thread's next step makes. -/
def reservation? (arena : Arena ε) (t : Thread ε) : Option Reservation :=
  match t.current with
  | some (_, .calling pool ⟨c, _⟩ _) => arena.reservation? pool c
  | _ => none

end Thread

structure Crew (ε : Type) where
  item : ItemType ε
  arena : Arena ε := {}
  threads : Array (Thread ε) := #[]

namespace Crew

variable {ε : Type}

def isDone (c : Crew ε) : Bool := c.threads.all Thread.isDone

/-- Thread `i` takes a step. -/
def advance (c : Crew ε) (granted : Bool) (i : Nat) : Crew ε :=
  match c with
  | ⟨item, arena, threads⟩ =>
    match threads[i]? with
    | none => ⟨item, arena, threads⟩
    | some t =>
      let (arena, t) := t.step item granted arena
      ⟨item, arena, threads.setIfInBounds i t⟩

/-- Thread `i` takes a step, with no reservation of more than `limit` bytes granted. -/
def turn (limit : Nat) (c : Crew ε) (i : Nat) : Crew ε :=
  let granted :=
    match c.threads[i]?.bind (·.reservation? c.arena) with
    | some r => r.total ≤ limit
    | none => true
  c.advance granted i

/-- Each of the first `count` threads takes a step, the last one first. -/
def sweep (limit : Nat) : Nat → Crew ε → Crew ε
  | 0, c => c
  | count + 1, c => sweep limit count (c.turn limit count)

/-- All threads take turns until they are done, or have had so many. -/
def sweeps (limit : Nat) : Nat → Crew ε → Crew ε
  | 0, c => c
  | fuel + 1, c => if c.isDone then c else sweeps limit fuel (c.sweep limit c.threads.size)

/-- The complaint of the first thread that has one. -/
def complaint? (c : Crew ε) : Option Complaint := c.threads.toList.findSome? (·.complaint)

/-- A crew with one pool and a thread for each piece of work. -/
def ofWork (item : ItemType ε) (p : Pool ε) (work : List (Work ε)) : Crew ε where
  item
  arena := ({} : Arena ε).addPool p
  threads := (work.map fun w => { work := w : Thread ε }).toArray

/-- More turns than the threads need to do `rounds` rounds in all, if none asks for more than
`request` slots at a time and a command takes some hundred steps at most when others do not hold it
up. -/
def patience (rounds request : Nat) : Nat := 1000 * (rounds + 1) * (request + 1)

end Crew

end SlotPool
