import SlotPool.Text.Quoted

/-!
# Values shown for debugging

A value is shown as a tree of atoms, lists and named records, written on one line (`Tree.line`) or
one entry to a line and four blanks deeper than what encloses it (`Tree.indented`).
-/

namespace SlotPool.Text

inductive Tree where
  /-- Text that stands for itself. -/
  | atom (text : String)
  | list (entries : List Tree)
  /-- Entries in parentheses after a name; the name is empty for a plain tuple. -/
  | variant (name : String) (entries : List Tree)
  | record (name : String) (fields : List (String × Tree))

namespace Tree

def number (n : Nat) : Tree := .atom (toString n)

def integer (n : Int) : Tree := .atom (toString n)

/-- A string between double quotes. -/
def quoted (s : String) : Tree := .atom (Quoted.string s)

/-- A character between single quotes. -/
def character (c : Char) : Tree := .atom (Quoted.character c)

def ofOption : Option Tree → Tree
  | none => .atom "None"
  | some t => .variant "Some" [t]

def openBrace : String := "\x7b"

def closeBrace : String := "\x7d"

mutual

/-- The tree on one line. -/
def line : Tree → String
  | atom text => text
  | list entries => "[" ++ ", ".intercalate (lines entries) ++ "]"
  | variant name entries => name ++ "(" ++ ", ".intercalate (lines entries) ++ ")"
  | record name fields =>
    name ++ " " ++ openBrace ++ " " ++ ", ".intercalate (fieldLines fields) ++ " " ++ closeBrace

def lines : List Tree → List String
  | [] => []
  | t :: ts => t.line :: lines ts

def fieldLines : List (String × Tree) → List String
  | [] => []
  | (name, t) :: fields => (name ++ ": " ++ t.line) :: fieldLines fields

end

/-- Entries between two brackets, each on a line of its own. Nothing stands between the brackets
of no entries. -/
def bracketed (opening closing margin : String) (entries : List String) : String :=
  match entries with
  | [] => opening ++ closing
  | _ =>
    opening ++ "\n" ++ String.join (entries.map fun e => margin ++ "    " ++ e ++ ",\n")
      ++ margin ++ closing

mutual

/-- The tree over several lines, which start after `margin` from the second one on. -/
def indentedAt (margin : String) : Tree → String
  | atom text => text
  | list entries => bracketed "[" "]" margin (indentedEntries (margin ++ "    ") entries)
  | variant name entries =>
    name ++ bracketed "(" ")" margin (indentedEntries (margin ++ "    ") entries)
  | record name fields =>
    name ++ " " ++
      bracketed openBrace closeBrace margin (indentedFields (margin ++ "    ") fields)

def indentedEntries (margin : String) : List Tree → List String
  | [] => []
  | t :: ts => t.indentedAt margin :: indentedEntries margin ts

def indentedFields (margin : String) : List (String × Tree) → List String
  | [] => []
  | (name, t) :: fields => (name ++ ": " ++ t.indentedAt margin) :: indentedFields margin fields

end

/-- The tree over several lines. -/
def indented (t : Tree) : String := t.indentedAt ""

end Tree

end SlotPool.Text
