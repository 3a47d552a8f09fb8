import SlotPool.Session.Start

/-!
# Commands from start to end

`Session.perform` does a whole command while nothing else happens. `Session.complete` goes on with
one that was started before.
-/

namespace SlotPool.Session

variable {ε : Type}

/-- Goes on with the call of a command, up to its end or to where `pause` holds. -/
def proceed (allocator : Allocator) (pause : Call → Bool) (s : Session ε) :
    Execution ε → Session ε × Execution ε
  | .finished answer => (s, .finished answer)
  | .calling pool progress sequel =>
    match s with
    | ⟨item, arena, registers⟩ =>
      let fuel := arena.patience pool progress.call
      let (arena, progress) := arena.proceed allocator pool pause fuel progress
      (⟨item, arena, registers⟩, .calling pool progress sequel)

/-- Goes on with a command that makes at most `calls` calls more. -/
def completeWithin (allocator : Allocator) (s : Session ε) (e : Execution ε) :
    Nat → Session ε × Except Failure (Reply ε)
  | 0 =>
    match e with
    | .finished answer => (s, answer)
    | .calling .. => (s, .error .waiting)
  | calls + 1 =>
    match s.proceed allocator (fun _ => false) e with
    | (s, .finished answer) => (s, answer)
    | (s, .calling pool ⟨c, _⟩ sequel) =>
      match c.outcome? with
      | none => (s, .error .waiting)
      | some outcome =>
        let (s, e) := s.conclude pool outcome sequel
        completeWithin allocator s e calls

/-- Goes on with a command to its end: its call, and the call that drops what its result displaces.
-/
def complete (allocator : Allocator) (s : Session ε) (e : Execution ε) :
    Session ε × Except Failure (Reply ε) :=
  completeWithin allocator s e 2

/-- Does a command while nothing else happens. -/
def perform (allocator : Allocator) (s : Session ε) (c : Command ε) :
    Session ε × Except Failure (Reply ε) :=
  let (s, e) := s.start c
  s.complete allocator e

/-- Does commands one after the other, up to the first that has no answer. -/
def performAll (allocator : Allocator) (s : Session ε) :
    List (Command ε) → Except Failure (Session ε)
  | [] => .ok s
  | c :: rest =>
    match s.perform allocator c with
    | (s, .ok _) => performAll allocator s rest
    | (_, .error f) => .error f

end SlotPool.Session
