import SlotPool.Arena
import SlotPool.Command

/-!
# A client's session

A session is an arena and the registers of a client. A command either has an answer at once or
makes a call, and the call's outcome goes into a register or becomes the answer. When a register is
filled, what was in it before is dropped, which may take another call.
-/

namespace SlotPool

structure Session (ε : Type) where
  item : ItemType ε
  arena : Arena ε := {}
  registers : Registers := []

/-- What becomes of a call's outcome. -/
inductive Sequel (ε : Type) where
  /-- Slots are put into a register, under a lease if `leased`. -/
  | keep (dest : Place) (leased : Bool) (content : Option (Content ε))
  /-- The answer is known already, if the call does not break a rule. -/
  | answer (a : Except Failure (Reply ε))
  /-- The statistics are the answer. -/
  | report

/-- A command under way. -/
inductive Execution (ε : Type) where
  | calling (pool : PoolId) (progress : Arena.Progress) (sequel : Sequel ε)
  | finished (answer : Except Failure (Reply ε))

namespace Execution

variable {ε : Type}

def done : Execution ε := .finished (.ok .done)

def refused (r : Refusal) : Execution ε := .finished (.error (.refused r))

def violated (v : Violation) : Execution ε := .finished (.error (.violation v))

/-- A call from its start. -/
def call (pool : PoolId) (c : Call) (sequel : Sequel ε) : Execution ε :=
  .calling pool { call := c } sequel

/-- Things that go out of use are disposed of before the answer. -/
def disposing (d : Disposal) (answer : Except Failure (Reply ε)) : Execution ε :=
  match d with
  | .nothing => .finished answer
  | .call pool c => .call pool c (.answer answer)
  | .violation v => .violated v

end Execution

namespace Session

variable {ε : Type}

def memory (s : Session ε) : Memory ε := s.arena.memory

def pool? (s : Session ε) (p : Nat) : Option (Pool ε) := s.arena.pools[p]?

/-- Changes the memory by work on slots that the client holds. -/
def withMemory (s : Session ε) (f : Memory ε → Memory ε × α) : Session ε × α :=
  match s with
  | ⟨item, ⟨memory, pools, journal⟩, registers⟩ =>
    let (memory, result) := f memory
    (⟨item, ⟨memory, pools, journal⟩, registers⟩, result)

/-- Puts a changed thing back into its register. -/
def update (s : Session ε) (name : String) (h : Held) : Session ε :=
  match s with
  | ⟨item, arena, registers⟩ => ⟨item, arena, registers.store name h⟩

/-- Refuses a command that has a thing in no register, which is dropped. -/
def refuseDropping (s : Session ε) (r : Refusal) (h : Held) : Session ε × Execution ε :=
  (s, .disposing h.dropped (.error (.refused r)))

/-- Puts a thing into a register and drops what was there. -/
def store (s : Session ε) (dest : Place) (h : Held) (answer : Except Failure (Reply ε)) :
    Session ε × Execution ε :=
  match dest with
  | none => s.refuseDropping .missingRegister h
  | some name =>
    let d :=
      match s.registers.get? name with
      | some old => old.dropped
      | none => .nothing
    (s.update name h, .disposing d answer)

/-- The name of a register and what is in it, or why there is nothing. -/
def find (s : Session ε) (a : Place) : Except Refusal (String × Held) :=
  match a with
  | none => .error .missingRegister
  | some name =>
    match s.registers.get? name with
    | none => .error .noSuchRegister
    | some h => .ok (name, h)

/-- Does something with a thing that is taken out of its register. -/
def taking (s : Session ε) (a : Place) (k : Session ε → Held → Session ε × Execution ε) :
    Session ε × Execution ε :=
  match s.find a with
  | .error r => (s, .refused r)
  | .ok (name, h) =>
    match s with
    | ⟨item, arena, registers⟩ => k ⟨item, arena, registers.remove name⟩ h

/-- Does something with a thing that stays in its register. -/
def viewing (s : Session ε) (a : Place)
    (k : Session ε → String → Held → Session ε × Execution ε) : Session ε × Execution ε :=
  match s.find a with
  | .error r => (s, .refused r)
  | .ok (name, h) => k s name h

/-! ## The end of a call -/

/-- Slots that were acquired, ready to be put into a register. -/
def heldOf (m : Memory ε) (pool : PoolId) (leased : Bool) : Grant → Except Violation Held
  | .one s => if leased then (Lease.ofSlot m pool s).map .lease else .ok (.slot s)
  | .many st => if leased then (LeaseStack.ofStack m pool st).map .leaseStack else .ok (.stack st)

def writeContent (m : Memory ε) : Grant → Option (Content ε) → Memory ε
  | .one s, some content => content.write m s
  | _, _ => m

/-- Goes on after a call to `pool` has ended. -/
def conclude (s : Session ε) (pool : PoolId) (outcome : Outcome) (sequel : Sequel ε) :
    Session ε × Execution ε :=
  match outcome, sequel with
  | .acquired slots, .keep dest leased content =>
    let (s, held) := s.withMemory fun m =>
      let m := writeContent m slots content
      let held := heldOf m pool leased slots
      (m, held)
    match held with
    | .ok h => s.store dest h (.ok .done)
    | .error v => (s, .violated v)
  | .failed e, _ => (s, .finished (.error (.error e)))
  | .broken v, _ => (s, .violated v)
  | .observed stats, .report => (s, .finished (.ok (.stats stats)))
  | _, .answer a => (s, .finished a)
  | _, _ => (s, .done)

/-- One step of a command: one step of its call, or what follows when the call has ended. -/
def advance (s : Session ε) (granted : Bool) : Execution ε → Session ε × Execution ε
  | .finished answer => (s, .finished answer)
  | .calling pool ⟨c, made⟩ sequel =>
    match c.outcome? with
    | some outcome => s.conclude pool outcome sequel
    | none =>
      match s with
      | ⟨item, arena, registers⟩ =>
        let (arena, c) := arena.step pool granted c
        (⟨item, arena, registers⟩, .calling pool ⟨c, made⟩ sequel)

end Session

end SlotPool
