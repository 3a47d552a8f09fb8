import SlotPool.Cli.Run

/-!
# The program

Reads the configuration file that the arguments name, and prints what they lead to.
-/

namespace SlotPool.Cli

/-- The text of a file. A path that leads through a file cannot be opened, whereas a directory can
be opened but not read. -/
def readText (path : String) : IO (Except FileFault String) := do
  try
    let bytes ← IO.FS.readBinFile path
    match String.fromUTF8? bytes with
    | some text => return .ok text
    | none => return .error .notUtf8
  catch
    | .noFileOrDirectory .. => return .error .missing
    | .inappropriateType (some _) .. => return .error .notDirectory
    | .inappropriateType none .. => return .error .isDirectory
    | e =>
      if path.any (· = '\x00') then return .error .zeroInName
      else if Directory.isTooLong path then return .error .nameTooLong
      else return .error (.other (toString e))

/-- The file that the arguments name as configuration. -/
def namedFile (args : List String) : Option String :=
  match readArguments args with
  | .ok i => i.config
  | .error _ => none

/-- A number of hundredths, with two decimals. -/
def hundredths (n : Nat) : String :=
  let zero := if n % 100 < 10 then "0" else ""
  s!"{n / 100}.{zero}{n % 100}"

def printLine (nanos : Nat) : Line → IO Unit
  | .text s => IO.println s
  | .elapsed => IO.println s!"  Elapsed:     {hundredths (nanos / 10000)} ms"
  | .throughput cycles =>
    IO.println s!"  Throughput:  {cycles * 1000000000 / max nanos 1} cycles/s"

/-- Answers a command line, and returns the exit code. -/
def perform (args : List String) : IO UInt32 := do
  let content ←
    match namedFile args with
    | some path => readText path
    | none => pure (.error .missing)
  let start ← IO.monoNanosNow
  let answer ← IO.lazyPure fun _ => answer (fun _ => content) args
  let stop ← IO.monoNanosNow
  for line in answer.lines do
    printLine (stop - start) line
  if let .stopped .invalid := answer then
    IO.eprintln "error: invalid arguments\n\nFor more information, try '--help'."
  if let some fault := answer.fault? then
    IO.eprintln fault.text
  return answer.exitCode.toUInt32

end SlotPool.Cli

def main (args : List String) : IO UInt32 := SlotPool.Cli.perform args
