import SlotPool.Toml.Lexeme
import SlotPool.Toml.Number

/-!
# Reading a TOML document

A document is a sequence of lines: assignments, headers, comments and empty lines. `Document.read?`
gives the table that the whole document stands for, or nothing if it is not well formed.
-/

namespace SlotPool.Toml

open Lexeme

/-! ## Values -/

/-- The elements of an array after its opening bracket. -/
def arrayElements (element : Reader Value) (fuel : Nat) (cs : List Char) :
    Option (List Value × List Char) :=
  match fuel with
  | 0 => none
  | fuel + 1 =>
    match afterGap cs.length cs with
    | ']' :: rest => some ([], rest)
    | start => do
      let (v, rest) ← element start
      match afterGap rest.length rest with
      | ',' :: rest =>
        let (vs, rest) ← arrayElements element fuel rest
        return (v :: vs, rest)
      | ']' :: rest => return ([v], rest)
      | _ => none

/-- The assignments of an inline table, added to those already read. -/
def inlineEntries (element : Reader Value) (fuel : Nat) (entries : Entries) (cs : List Char) :
    Option (Entries × List Char) :=
  match fuel with
  | 0 => none
  | fuel + 1 => do
    let ((path, name), rest) ← key cs
    let '=' :: rest := rest | none
    let (v, rest) ← element (afterBlanks rest)
    let entries ← Entries.assign path name v .explicit entries
    match afterBlanks rest with
    | ',' :: rest => inlineEntries element fuel entries rest
    | '}' :: rest => return (entries, rest)
    | _ => none

/-- A value that is no array or table. -/
def scalar (cs : List Char) : Option (Value × List Char) :=
  match cs with
  | '"' :: _ | '\'' :: _ => (string cs).map fun (text, rest) => (.string (String.ofList text), rest)
  | _ => Number.word cs

/-- A value that nests at most `depth` arrays and tables. -/
def value : Nat → Reader Value
  | 0, cs => scalar cs
  | depth + 1, cs =>
    match cs with
    | '[' :: rest =>
      (arrayElements (value depth) cs.length rest).map fun (vs, rest) => (.array vs, rest)
    | '{' :: rest =>
      match afterBlanks rest with
      | '}' :: rest => some (.inlineTable [], rest)
      | _ =>
        (inlineEntries (value depth) cs.length [] rest).map fun (entries, rest) =>
          (.inlineTable entries, rest)
    | _ => scalar cs

/-! ## Lines -/

/-- What is known of a document up to some line: its table, and the path of the last header. -/
structure Document where
  entries : Entries := []
  header : List String := []

namespace Document

/-- The assignment at the front of the text, up to the end of its line. -/
def assignment? (doc : Document) (cs : List Char) : Option (Document × List Char) := do
  let ((path, name), rest) ← key cs
  let '=' :: rest := rest | none
  let (v, rest) ← value (depthLimit - 1) (afterBlanks rest)
  let rest ← afterLine? rest
  let entries ←
    Entries.descend false (Entries.assign path name v) doc.header .explicit doc.entries
  return (⟨entries, doc.header⟩, rest)

/-- The header after its opening bracket, up to the end of its line. A doubled bracket adds a table
to an array of tables. -/
def header? (doc : Document) (cs : List Char) : Option (Document × List Char) :=
  match cs with
  | '[' :: cs => do
    let ((path, name), rest) ← key cs
    let ']' :: ']' :: rest := rest | none
    let rest ← afterLine? rest
    let entries ← Entries.openMember path name .explicit doc.entries
    return (⟨entries, path ++ [name]⟩, rest)
  | _ => do
    let ((path, name), rest) ← key cs
    let ']' :: rest := rest | none
    let rest ← afterLine? rest
    let entries ← Entries.openTable path name .explicit doc.entries
    return (⟨entries, path ++ [name]⟩, rest)

/-- Reads lines to the end of the text. Each line takes at least one character. -/
def lines? (fuel : Nat) (doc : Document) (cs : List Char) : Option Document :=
  match fuel with
  | 0 => none
  | fuel + 1 =>
    match afterBlanks cs with
    | [] => some doc
    | '#' :: _ | '\n' :: _ | '\r' :: _ =>
      match afterLine? cs with
      | some rest => lines? fuel doc rest
      | none => none
    | '[' :: rest =>
      match doc.header? rest with
      | some (doc, rest) => lines? fuel doc rest
      | none => none
    | rest =>
      match doc.assignment? rest with
      | some (doc, rest) => lines? fuel doc rest
      | none => none

/-- A mark of the byte order may stand in front of the text. -/
def afterMark : List Char → List Char
  | '\uFEFF' :: rest => rest
  | cs => cs

/-- The table that the text stands for. -/
def read? (text : String) : Option Entries :=
  let cs := afterMark text.toList
  (lines? (cs.length + 1) {} cs).map (·.entries)

end Document

end SlotPool.Toml
