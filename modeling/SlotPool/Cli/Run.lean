import SlotPool.Cli.Arguments
import SlotPool.Cli.Dump
import SlotPool.Cli.Help
import SlotPool.Cli.Sizing
import SlotPool.Cli.Stress
import SlotPool.Config.Directory

/-!
# The command line

`answer` says what a command line leads to: a text that explains, a refusal, or a report. Reading
files is left to the caller.
-/

namespace SlotPool.Cli

/-- Files by path. -/
abbrev Reader := String → Except FileFault String

/-- The configuration in the file that was named, or else the default one with this block size. -/
def loadConfig (read : Reader) (path : Option String) (blockSize : Nat) : Except Fault Config :=
  match path with
  | some path =>
    match Config.ofContent path (read path) with
    | .ok c => .ok c
    | .error e =>
      .error { message := s!"loading pool config from '{path}'", cause := some e.message }
  | none =>
    let c : Config := { blockSize }
    match c.validate with
    | .ok () => .ok c
    | .error e => .error { message := e.message }

/-- The most bytes that a reservation can have. -/
def reservationLimit : Nat := 1 <<< 47

/-- What a command reports. Only commands that make a pool of a given block size have a
configuration. -/
def Invocation.report (read : Reader) (i : Invocation) : Report :=
  match i.task with
  | .stress threads iterations blockSize batch =>
    match loadConfig read i.config blockSize with
    | .error f => .ofFault f
    | .ok c => Stress.report reservationLimit c ⟨threads, iterations, batch⟩
  | .sizing blockSize count =>
    match loadConfig read i.config blockSize with
    | .error f => .ofFault f
    | .ok c => Sizing.report (fun _ => .upTo reservationLimit) c count
  | .dump count limit => Dump.report (.upTo reservationLimit) count limit

inductive Answer where
  | stopped (s : Stop)
  | reported (r : Report)
deriving DecidableEq, Repr

namespace Answer

/-- What is printed. -/
def lines : Answer → List Line
  | stopped .help => helpLines.map .text
  | stopped .version => [.text versionLine]
  | stopped .invalid => []
  | reported r => r.lines

/-- What is told at the end of a command that failed. -/
def fault? : Answer → Option Fault
  | stopped _ => none
  | reported r => r.fault

def exitCode : Answer → Nat
  | stopped .help => 0
  | stopped .version => 0
  | stopped .invalid => 2
  | reported r => if r.fault.isSome then 1 else 0

end Answer

/-- What the arguments lead to. -/
def answer (read : Reader) (args : List String) : Answer :=
  match readArguments args with
  | .error s => .stopped s
  | .ok i => .reported (i.report read)

end SlotPool.Cli
