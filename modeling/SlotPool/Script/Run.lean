import SlotPool.Script.View
import SlotPool.Session.Perform

/-!
# Scripts

A script is a list of steps, each a command with some circumstances: a reservation that is refused,
and other steps that happen in the middle of the growth that the command causes. `Script.run` gives
an answer for each step, and the pools at the end, when all that was held is dropped.
-/

namespace SlotPool.Script

inductive Action (ε : Type) where
  | command (c : Command ε)
  /-- Another thread wants a slot of pool `p`. When it waits, or is done, the slot in `a` is given
  back to the pool; what the thread got is put into `dest`. -/
  | contend (p : Nat) (a dest : Place)

structure Step (ε : Type) where
  /-- What is to be done, if it is understood. -/
  action : Except Refusal (Action ε)
  /-- The registers that are shown afterwards. -/
  shown : List String := []
  /-- Which of the call's reservations is refused. -/
  failAt : Option Nat := none
  /-- What happens when the first value of the first new block is about to be made. -/
  during : List (Step ε) := []

structure Answer (ε : Type) where
  result : Except Failure (Reply ε)
  registers : List (String × Option (View ε))
  pools : List PoolRow
  /-- What the step noted in the journal. -/
  log : List Event
  /-- The answers to the steps in its middle. -/
  during : List (Answer ε)

/-- A session with what was told of it so far: the labels of what was shown, and how many events of
the journal belong to steps that are done. -/
structure State (ε : Type) where
  session : Session ε
  labels : Labels := {}
  told : Nat := 0

namespace State

variable {ε : Type}

/-- How many events there are. -/
def noted (t : State ε) : Nat := t.session.arena.journal.size

/-- The events that were not told yet. -/
def untold (t : State ε) : List Event :=
  (t.session.arena.journal.extract t.told t.noted).toList

/-- All events were told. -/
def tellAll (t : State ε) : State ε :=
  match t with
  | ⟨session, labels, _⟩ => ⟨session, labels, session.arena.journal.size⟩

def rows (t : State ε) : List PoolRow := t.session.arena.pools.toList.map PoolRow.ofPool

/-- What is answered after a step. -/
def answer (t : State ε) (shown : List String) (result : Except Failure (Reply ε))
    (log : List Event) (during : List (Answer ε)) : State ε × Answer ε :=
  match t with
  | ⟨session, labels, told⟩ =>
    let (labels, registers) := viewAll session.memory session.registers labels shown
    let t := State.tellAll ⟨session, labels, told⟩
    (t, { result, registers, pools := t.rows, log, during })

/-- A call is made by another thread, and a slot given back when that waits or is done. -/
def contend (allocator : Allocator) (s : Session ε) (p : Nat) (a dest : Place) :
    Session ε × Except Failure (Reply ε) :=
  let start := s.arena.journal.size
  match s.pool? p, s.find a with
  | none, _ => (s, .error (.refused .noSuchPool))
  | some _, .error r => (s, .error (.refused r))
  | some _, .ok (name, h) =>
    let s := { s with registers := s.registers.remove name }
    match h with
    | .slot sl =>
      let other := Execution.call ⟨p⟩ .popOne (.keep dest false none)
      let (s, other) := s.proceed allocator (· == .noteBackoff) other
      let (s, other) :=
        match other with
        | .calling _ ⟨.noteBackoff, _⟩ _ => s.advance true other
        | _ => (s, other)
      let back := Execution.call ⟨p⟩ (.cleanOne sl) (.answer (.ok .done))
      match s.complete allocator back with
      | (s, .error f) => (s, .error f)
      | (s, .ok _) =>
        match s.complete allocator other with
        | (s, .error f) => (s, .error f)
        | (s, .ok _) => (s, .ok (.noted s.arena.journal[start]?))
    | h =>
      let (s, e) := s.refuseDropping .wrongKind h
      s.complete allocator e

end State

variable {ε : Type}

/-- The command is where the first value of its first new block is to be made. -/
def isPaused : Execution ε → Bool
  | .calling _ ⟨c, _⟩ _ => c.isAtFirstValue
  | .finished _ => false

mutual

/-- Does one step. No reservation of more than `limit` bytes is granted. -/
def runStep (limit : Nat) : Step ε → State ε → State ε × Answer ε
  | ⟨.error r, shown, _, _⟩, t => t.answer shown (.error (.refused r)) [] []
  | ⟨.ok (.contend p a dest), shown, _, _⟩, t =>
    match t with
    | ⟨session, labels, told⟩ =>
      let (session, result) := State.contend (.upTo limit) session p a dest
      State.answer ⟨session, labels, told⟩ shown result [] []
  | ⟨.ok (.command c), shown, failAt, during⟩, t =>
    let allocator := (Allocator.upTo limit).failingAt failAt
    match t with
    | ⟨session, labels, told⟩ =>
      let (session, e) := session.start c
      let (session, e) := session.proceed allocator Call.isAtFirstValue e
      let t : State ε := ⟨session, labels, told⟩
      if isPaused e then
        let before := t.untold
        match runSteps limit during t.tellAll with
        | (⟨session, labels, told⟩, nested) =>
          let (session, result) := session.complete allocator e
          let t : State ε := ⟨session, labels, told⟩
          t.answer shown result (before ++ t.untold) nested
      else
        match t with
        | ⟨session, labels, told⟩ =>
          let (session, result) := session.complete allocator e
          let t : State ε := ⟨session, labels, told⟩
          t.answer shown result t.untold []

/-- Does steps one after the other. -/
def runSteps (limit : Nat) : List (Step ε) → State ε → State ε × List (Answer ε)
  | [], t => (t, [])
  | step :: steps, t =>
    let (t, answer) := runStep limit step t
    let (t, answers) := runSteps limit steps t
    (t, answer :: answers)

end

/-- Drops all that is held. -/
def dropAll (limit : Nat) (s : Session ε) : Registers → Session ε
  | [] => s
  | (name, _) :: rest =>
    let (s, _) := s.perform (.upTo limit) (.drop name)
    dropAll limit s rest

/-- The answers to all steps, and the pools at the end. -/
def run (limit : Nat) (item : ItemType ε) (steps : List (Step ε)) :
    List (Answer ε) × List PoolRow :=
  match runSteps limit steps { session := { item } } with
  | (⟨session, labels, told⟩, answers) =>
    let names := session.registers
    let t : State ε := ⟨dropAll limit session names, labels, told⟩
    (answers, t.rows)

end SlotPool.Script
