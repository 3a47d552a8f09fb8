import SlotPool.Word

/-!
# The command line's arguments

Arguments are options and one command with options of its own. An option is given by a long name
after two dashes or by a letter after one; letters of options without a value may stand together. A
value stands after an equals sign, right after the letter, or in the next argument if that is no
option.
-/

namespace SlotPool.Cli

/-- What an option takes. -/
inductive Takes where
  | nothing
  | number
  | path
deriving DecidableEq, Repr

structure OptionSpec where
  long : String
  short : Option Char := none
  takes : Takes
deriving Repr

/-- Why the arguments are not carried out. -/
inductive Stop where
  | help
  | version
  | invalid
deriving DecidableEq, Repr

/-- What was given so far: for each option its values, which are empty texts for an option without
one. -/
abbrev Given := List (String × String)

namespace OptionSpec

/-- Every command has this one. -/
def help : OptionSpec := { long := "help", short := some 'h', takes := .nothing }

def version : OptionSpec := { long := "version", short := some 'V', takes := .nothing }

/-- Asks for more words beside the report, which stays as it is. -/
def verbose : OptionSpec := { long := "verbose", short := some 'v', takes := .nothing }

def config : OptionSpec := { long := "config", short := some 'c', takes := .path }

end OptionSpec

/-- The number that digits stand for, if a word can hold it. A plus sign may stand in front. -/
def number? (s : String) : Option Nat :=
  let digits :=
    match s.toList with
    | '+' :: rest => rest
    | cs => cs
  if digits.isEmpty || !digits.all Char.isDigit then none
  else
    let n := digits.foldl (fun n c => n * 10 + (c.toNat - '0'.toNat)) 0
    if n < Word.limit then some n else none

/-- A value that the option takes. -/
def isValue (spec : OptionSpec) (v : String) : Bool :=
  match spec.takes with
  | .nothing => false
  | .number => (number? v).isSome
  | .path => !v.isEmpty

/-- Adds an option with a value. No option with a value is given twice. -/
def give (given : Given) (spec : OptionSpec) (v : String) : Except Stop Given :=
  if isValue spec v && (given.lookup spec.long).isNone then .ok ((spec.long, v) :: given)
  else .error .invalid

/-- Adds an option without a value. Some of them end the reading of arguments. -/
def raise (given : Given) (spec : OptionSpec) : Except Stop Given :=
  if spec.long = "help" then .error .help
  else if spec.long = "version" then .error .version
  else .ok ((spec.long, "") :: given)

/-- What was read so far, before the command or after it. A value in an argument of its own is
pending until the next option there, or until all arguments are read. -/
structure Reading where
  given : Given := []
  pending : Option (OptionSpec × String) := none

/-- Judges the value that is pending, if there is one. -/
def Reading.settle (r : Reading) : Except Stop Given :=
  match r.pending with
  | none => .ok r.given
  | some (spec, v) => give r.given spec v

/-- What is known after an argument. -/
inductive AfterArgument where
  | read (r : Reading)
  /-- The next argument is the value of this option. -/
  | awaiting (spec : OptionSpec) (given : Given)

/-- An option with a value in the same argument. -/
def attached (r : Reading) (spec : OptionSpec) (v : List Char) : Except Stop AfterArgument := do
  let given ← r.settle
  let given ← give given spec (String.ofList v)
  return .read { given }

/-- An option whose value is the next argument. -/
def detached (r : Reading) (spec : OptionSpec) : Except Stop AfterArgument :=
  r.settle.map (.awaiting spec)

/-- An option without a value. -/
def bare (r : Reading) (spec : OptionSpec) : Except Stop Reading := do
  let given ← r.settle
  let given ← raise given spec
  return { given }

/-- Letters after one dash. -/
def letters (specs : List OptionSpec) (r : Reading) : List Char → Except Stop AfterArgument
  | [] => .ok (.read r)
  | c :: rest =>
    match specs.find? (·.short = some c) with
    | none => .error .invalid
    | some spec =>
      if spec.takes = .nothing then do
        let r ← bare r spec
        letters specs r rest
      else
        match rest with
        | [] => detached r spec
        | '=' :: v => attached r spec v
        | v => attached r spec v

/-- A name after two dashes, maybe with a value after an equals sign. -/
def named (specs : List OptionSpec) (r : Reading) (body : List Char) : Except Stop AfterArgument :=
  let name := String.ofList (body.takeWhile (· ≠ '='))
  match specs.find? (·.long = name), body.dropWhile (· ≠ '=') with
  | none, _ => .error .invalid
  | some spec, [] => if spec.takes = .nothing then (bare r spec).map .read else detached r spec
  | some spec, _ :: v => attached r spec v

/-- The argument may stand as a value, or as the name of a command. -/
def isPlain (arg : String) : Bool :=
  match arg.toList with
  | '-' :: _ :: _ => false
  | _ => true

/-- Reads options up to the first argument that is none. Nothing may follow two dashes that stand
alone. -/
def readOptions (specs : List OptionSpec) (r : Reading) :
    List String → Except Stop (Reading × List String)
  | [] => .ok (r, [])
  | arg :: rest =>
    if isPlain arg then .ok (r, arg :: rest)
    else
      let after : Except Stop AfterArgument :=
        match arg.toList with
        | ['-', '-'] => if rest.isEmpty then .ok (.read r) else .error .invalid
        | '-' :: '-' :: body => named specs r body
        | body => letters specs r (body.drop 1)
      match after with
      | .error stop => .error stop
      | .ok (.read r) => readOptions specs r rest
      | .ok (.awaiting spec given) =>
        match rest with
        | [] => .error .invalid
        | v :: rest =>
          if isPlain v then readOptions specs { given, pending := some (spec, v) } rest
          else .error .invalid

/-! ## Commands -/

inductive Task where
  | stress (threads iterations blockSize batch : Nat)
  | sizing (blockSize count : Nat)
  | dump (count max : Nat)
deriving DecidableEq, Repr

/-- A command to be carried out. -/
structure Invocation where
  task : Task
  /-- The path of a configuration file. -/
  config : Option String := none
deriving DecidableEq, Repr

/-- Options that stand before or after the command. -/
def globalOptions : List OptionSpec := [.help, .verbose, .config]

def taskOptions : String → Option (List OptionSpec)
  | "stress" => some [
      { long := "threads", short := some 't', takes := .number },
      { long := "iterations", short := some 'i', takes := .number },
      { long := "block-size", short := some 'b', takes := .number },
      { long := "batch", takes := .number }]
  | "sizing" => some [
      { long := "block-size", short := some 'b', takes := .number },
      { long := "count", takes := .number }]
  | "dump" => some [
      { long := "count", takes := .number },
      { long := "max", short := some 'm', takes := .number }]
  | _ => none

def numberOf (given : Given) (name : String) (default : Nat) : Nat :=
  ((given.lookup name).bind number?).getD default

def taskOf (given : Given) : String → Option Task
  | "stress" => some (.stress (numberOf given "threads" 4) (numberOf given "iterations" 10000)
      (numberOf given "block-size" 4096) (numberOf given "batch" 0))
  | "sizing" => some (.sizing (numberOf given "block-size" 20) (numberOf given "count" 41))
  | "dump" => some (.dump (numberOf given "count" 32) (numberOf given "max" 16))
  | _ => none

/-- The command called `name`, with the arguments after it. The last value before the command is
judged after all of them. -/
def readTask (before : Reading) (name : String) (rest : List String) : Except Stop Invocation :=
  match taskOptions name with
  | none => .error .invalid
  | some specs => do
    let (after, rest) ← readOptions (specs ++ globalOptions) {} rest
    let given ← after.settle
    let before ← before.settle
    match rest, taskOf given name with
    | [], some task => return { task, config := (given ++ before).lookup "config" }
    | _, _ => throw .invalid

/-- Asks for an explanation of the program or of one command. -/
def readTopic : List String → Stop
  | [] => .help
  | [topic] => if topic = "help" || (taskOptions topic).isSome then .help else .invalid
  | _ => .invalid

/-- What the arguments ask for. -/
def readArguments (args : List String) : Except Stop Invocation := do
  match ← readOptions (.version :: globalOptions) {} args with
  | (_, []) => throw .invalid
  | (_, "help" :: topics) => throw (readTopic topics)
  | (before, name :: rest) => readTask before name rest

end SlotPool.Cli
