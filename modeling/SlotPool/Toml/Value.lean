/-!
# The values of a TOML document

A document is a table: keys with values, in the order in which they came. `Entries.descend` walks a
path of keys and applies a change at its end, under TOML's rule that no table is defined twice.
-/

namespace SlotPool.Toml

/-- How a table came to be, which decides who may add to it. -/
inductive Form where
  /-- By a header of its own, or as the document itself. -/
  | explicit
  /-- By the header of a table inside it. -/
  | implied
  /-- By a dotted key. -/
  | dotted
deriving DecidableEq, Repr

inductive Value where
  | string (text : String)
  | integer (n : Int)
  /-- A floating-point number, as it is written. -/
  | float (literal : String)
  | boolean (b : Bool)
  /-- A date, a time or both, as it is written. -/
  | dateTime (literal : String)
  | array (elements : List Value)
  /-- A table between braces. Nothing is added to it once it is closed. -/
  | inlineTable (entries : List (String × Value))
  | table (form : Form) (entries : List (String × Value))
  /-- Tables under a doubled header, in order. -/
  | tables (members : List (List (String × Value)))
deriving Inhabited

abbrev Entries := List (String × Value)

namespace Entries

def get? (entries : Entries) (key : String) : Option Value := entries.lookup key

/-- Puts a value in the place of the one under `key`. -/
def replace (entries : Entries) (key : String) (v : Value) : Entries :=
  entries.map fun (k, old) => if k = key then (k, v) else (k, old)

/-- Adds a key, unless it is there. -/
def add? (entries : Entries) (key : String) (v : Value) : Option Entries :=
  match entries.get? key with
  | none => some (entries ++ [(key, v)])
  | some _ => none

/-- A change to a table that depends on how the table came to be. -/
abbrev Change := Form → Entries → Option Entries

/-- Applies `change` to the table at the end of `path`. Tables that are missing on the way are made.
A dotted key opens none that has a header of its own; in an array of tables the way goes through
the last one. -/
def descend (dotted : Bool) (change : Change) : List String → Change
  | [], form, entries => change form entries
  | key :: path, _, entries =>
    match entries.get? key with
    | none => do
      let form := if dotted then .dotted else .implied
      let inner ← descend dotted change path form []
      return entries ++ [(key, .table form inner)]
    | some (.table form inner) =>
      if dotted && form = .explicit then none
      else do
        let inner ← descend dotted change path form inner
        return entries.replace key (.table form inner)
    | some (.tables members) =>
      match members.getLast? with
      | none => none
      | some last => do
        let last ← descend dotted change path .explicit last
        return entries.replace key (.tables (members.dropLast ++ [last]))
    | some _ => none

/-- Gives `key`, after the dotted `path` before it, a value. Keys with and without dots do not share
a table. -/
def assign (path : List String) (key : String) (v : Value) : Change :=
  descend true (fun form entries =>
    if (form == .dotted) == path.isEmpty then none else entries.add? key v) path

/-- Opens the table `key` at the end of `path`. It may have been implied before, and is explicit
from now on. -/
def openTable (path : List String) (key : String) : Change :=
  descend false (fun _ entries =>
    match entries.get? key with
    | none => some (entries ++ [(key, .table .explicit [])])
    | some (.table .implied inner) => some (entries.replace key (.table .explicit inner))
    | some _ => none) path

/-- Adds an empty table to the array of tables `key` at the end of `path`. -/
def openMember (path : List String) (key : String) : Change :=
  descend false (fun _ entries =>
    match entries.get? key with
    | none => some (entries ++ [(key, .tables [[]])])
    | some (.tables members) => some (entries.replace key (.tables (members ++ [[]])))
    | some _ => none) path

end Entries

end SlotPool.Toml
