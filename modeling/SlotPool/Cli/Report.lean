import SlotPool.Command

/-!
# What the command line prints

A report is printed as far as a command gets. A command that fails ends with a fault, which may
have a cause of its own.
-/

namespace SlotPool.Cli

inductive Line where
  | text (s : String)
  /-- The time that the command took. -/
  | elapsed
  /-- How many of so many cycles were done in a second. -/
  | throughput (cycles : Nat)
deriving DecidableEq, Repr

structure Fault where
  message : String
  cause : Option String := none
deriving DecidableEq, Repr

namespace Fault

def ofFailure (f : Failure) : Fault := { message := f.message }

/-- Blanks in front of each line of a cause, also of an empty one. -/
def indent : String := "    "

/-- The fault as it is told at the end, its cause line by line below it. -/
def text (f : Fault) : String :=
  let cause :=
    match f.cause with
    | none => ""
    | some c => "\n\nCaused by:" ++ String.join ((c.splitOn "\n").map fun l => "\n" ++ indent ++ l)
  "Error: " ++ f.message ++ cause

end Fault

structure Report where
  lines : List Line := []
  fault : Option Fault := none
deriving DecidableEq, Repr

namespace Report

def ofTexts (texts : List String) : Report := { lines := texts.map .text }

def ofFault (f : Fault) : Report := { fault := some f }

def ofFailure (f : Failure) : Report := ofFault (.ofFailure f)

/-- One report after another. Nothing comes after a fault. -/
def andThen (first rest : Report) : Report :=
  match first.fault with
  | some _ => first
  | none => { lines := first.lines ++ rest.lines, fault := rest.fault }

end Report

/-- Columns between the sides of a title. The rules above and below it are one longer. -/
def titleWidth : Nat := 53

/-- The title of a report in a box, and an empty line. -/
def title (name : String) : List String :=
  let rule := String.ofList (List.replicate (titleWidth + 1) '═')
  let text := String.ofList (List.replicate 11 ' ') ++ "splice · " ++ name
  let blanks := String.ofList (List.replicate (titleWidth - text.length) ' ')
  ["╔" ++ rule ++ "╗", "║" ++ text ++ blanks ++ "║", "╚" ++ rule ++ "╝", ""]

end SlotPool.Cli
