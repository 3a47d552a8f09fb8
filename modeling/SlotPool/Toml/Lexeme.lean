/-!
# Characters, blanks and strings of TOML

A reader takes characters off the front of the text and returns what they stand for and what is left
of it, or nothing if the text does not start that way.
-/

namespace SlotPool.Toml

abbrev Reader (α : Type) := List Char → Option (α × List Char)

namespace Lexeme

/-- Blanks within a line. -/
def isBlank (c : Char) : Bool := c = ' ' || c = '\t'

/-- The characters that may stand in a comment: no control but the tab. -/
def isPlain (c : Char) : Bool := c = '\t' || (' ' ≤ c && c ≠ '\x7f')

def isBareKey (c : Char) : Bool := c.isAlphanum || c = '_' || c = '-'

/-- Drops blanks. -/
def afterBlanks (cs : List Char) : List Char := cs.dropWhile isBlank

/-- Drops one line end, if there is one. -/
def afterNewline? : List Char → Option (List Char)
  | '\n' :: rest => some rest
  | '\r' :: '\n' :: rest => some rest
  | _ => none

/-- Drops a comment, if there is one, up to the end of its line. -/
def afterComment : List Char → List Char
  | '#' :: rest => rest.dropWhile isPlain
  | cs => cs

/-- Drops what may follow on a line, and the end of the line or of the text. -/
def afterLine? (cs : List Char) : Option (List Char) :=
  match afterComment (afterBlanks cs) with
  | [] => some []
  | rest => afterNewline? rest

/-- Drops blanks, line ends and comments, as between the elements of an array. -/
def afterGap (fuel : Nat) (cs : List Char) : List Char :=
  match fuel with
  | 0 => cs
  | fuel + 1 =>
    let rest := afterBlanks cs
    match rest with
    | '#' :: _ =>
      let rest := afterComment rest
      match afterNewline? rest with
      | some rest => afterGap fuel rest
      | none => rest
    | _ =>
      match afterNewline? rest with
      | some rest => afterGap fuel rest
      | none => rest

/-! ## Strings -/

def hexValue? (c : Char) : Option Nat :=
  if c.isDigit then some (c.toNat - '0'.toNat)
  else if 'a' ≤ c && c ≤ 'f' then some (c.toNat - 'a'.toNat + 10)
  else if 'A' ≤ c && c ≤ 'F' then some (c.toNat - 'A'.toNat + 10)
  else none

/-- The character with this code point in hexadecimal, unless it is a surrogate or too large. -/
def scalar? (digits : List Char) : Option Char := do
  let n ← digits.foldlM (fun n c => (hexValue? c).map (n * 16 + ·)) 0
  if n.isValidChar then some (Char.ofNat n) else none

/-- The character that a letter stands for after a backslash. -/
def escape? : Char → Option Char
  | 'b' => some '\x08'
  | 't' => some '\t'
  | 'n' => some '\n'
  | 'f' => some '\x0c'
  | 'r' => some '\r'
  | '"' => some '"'
  | '\\' => some '\\'
  | _ => none

/-- The rest of a string in double quotes, on one line. -/
def basic : Reader (List Char)
  | [] => none
  | '"' :: rest => some ([], rest)
  | '\\' :: 'u' :: a :: b :: c :: d :: rest => do
    let x ← scalar? [a, b, c, d]
    let (text, rest) ← basic rest
    return (x :: text, rest)
  | '\\' :: 'U' :: a :: b :: c :: d :: e :: f :: g :: h :: rest => do
    let x ← scalar? [a, b, c, d, e, f, g, h]
    let (text, rest) ← basic rest
    return (x :: text, rest)
  | '\\' :: c :: rest => do
    let x ← escape? c
    let (text, rest) ← basic rest
    return (x :: text, rest)
  | c :: rest =>
    if isPlain c && c ≠ '\\' then do
      let (text, rest) ← basic rest
      return (c :: text, rest)
    else none

/-- The rest of a string in single quotes, on one line. Nothing is escaped in it. -/
def literal : Reader (List Char)
  | [] => none
  | '\'' :: rest => some ([], rest)
  | c :: rest =>
    if isPlain c then do
      let (text, rest) ← literal rest
      return (c :: text, rest)
    else none

/-- A run of three to five quotes ends a string of several lines; those before the last three
belong to it. -/
def closing? (quote : Char) (cs : List Char) : Option (List Char × List Char) :=
  let run := cs.takeWhile (· = quote)
  if run.length < 3 then none
  else
    let inside := min (run.length - 3) 2
    some (List.replicate inside quote, cs.drop (inside + 3))

/-- A backslash at the end of a line swallows the line end and all blanks and line ends after it.
What is left is returned if the blanks do reach a line end. -/
def afterFold? (cs : List Char) : Option (List Char) :=
  match afterNewline? (afterBlanks cs) with
  | none => none
  | some rest => some (blankLines rest.length rest)
where
  blankLines : Nat → List Char → List Char
    | 0, cs => cs
    | fuel + 1, cs =>
      match afterNewline? (afterBlanks cs) with
      | some rest => blankLines fuel rest
      | none => afterBlanks cs

/-- The rest of a string between triple double quotes. -/
def multilineBasic (fuel : Nat) (cs : List Char) : Option (List Char × List Char) :=
  match fuel with
  | 0 => none
  | fuel + 1 =>
    match closing? '"' cs with
    | some result => some result
    | none =>
      match cs with
      | [] => none
      | '\r' :: '\n' :: rest => do
        let (text, rest) ← multilineBasic fuel rest
        return ('\n' :: text, rest)
      | '\\' :: rest =>
        match afterFold? rest with
        | some rest => multilineBasic fuel rest
        | none =>
          match rest with
          | 'u' :: a :: b :: c :: d :: rest => do
            let x ← scalar? [a, b, c, d]
            let (text, rest) ← multilineBasic fuel rest
            return (x :: text, rest)
          | 'U' :: a :: b :: c :: d :: e :: f :: g :: h :: rest => do
            let x ← scalar? [a, b, c, d, e, f, g, h]
            let (text, rest) ← multilineBasic fuel rest
            return (x :: text, rest)
          | c :: rest => do
            let x ← escape? c
            let (text, rest) ← multilineBasic fuel rest
            return (x :: text, rest)
          | [] => none
      | c :: rest =>
        if isPlain c || c = '\n' then do
          let (text, rest) ← multilineBasic fuel rest
          return (c :: text, rest)
        else none

/-- The rest of a string between triple single quotes. -/
def multilineLiteral (fuel : Nat) (cs : List Char) : Option (List Char × List Char) :=
  match fuel with
  | 0 => none
  | fuel + 1 =>
    match closing? '\'' cs with
    | some result => some result
    | none =>
      match cs with
      | [] => none
      | '\r' :: '\n' :: rest => do
        let (text, rest) ← multilineLiteral fuel rest
        return ('\n' :: text, rest)
      | c :: rest =>
        if isPlain c || c = '\n' then do
          let (text, rest) ← multilineLiteral fuel rest
          return (c :: text, rest)
        else none

/-- A line end right after the opening quotes is no part of the string. -/
def afterOpening (cs : List Char) : List Char := (afterNewline? cs).getD cs

/-- A string in any of the four ways to write one. -/
def string : Reader (List Char)
  | '"' :: '"' :: '"' :: rest => multilineBasic (rest.length + 1) (afterOpening rest)
  | '"' :: rest => basic rest
  | '\'' :: '\'' :: '\'' :: rest => multilineLiteral (rest.length + 1) (afterOpening rest)
  | '\'' :: rest => literal rest
  | _ => none

/-! ## Keys -/

/-- One part of a key: bare, or a string on one line. -/
def keyPart (cs : List Char) : Option (String × List Char) :=
  match cs with
  | '"' :: rest => (basic rest).map fun (text, rest) => (String.ofList text, rest)
  | '\'' :: rest => (literal rest).map fun (text, rest) => (String.ofList text, rest)
  | _ =>
    match cs.takeWhile isBareKey with
    | [] => none
    | bare => some (String.ofList bare, cs.dropWhile isBareKey)

/-- The parts of a key after its first one, with the blanks around them. -/
def keyTail (fuel : Nat) (cs : List Char) : Option (List String × List Char) :=
  match fuel with
  | 0 => none
  | fuel + 1 =>
    match afterBlanks cs with
    | '.' :: rest => do
      let (part, rest) ← keyPart (afterBlanks rest)
      let (parts, rest) ← keyTail fuel rest
      return (part :: parts, rest)
    | rest => some ([], rest)

/-- Keys have fewer parts than this, and values nest less deep. -/
def depthLimit : Nat := 80

/-- A key, as the parts before the last dot and the last one, with the blanks around it. -/
def key (cs : List Char) : Option ((List String × String) × List Char) := do
  let (first, rest) ← keyPart (afterBlanks cs)
  let (others, rest) ← keyTail (rest.length + 1) rest
  let parts := first :: others
  if parts.length < depthLimit then
    return ((parts.dropLast, parts.getLast?.getD first), rest)
  else none

end Lexeme

end SlotPool.Toml
