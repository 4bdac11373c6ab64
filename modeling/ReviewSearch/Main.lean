/-
ReviewSearch.Main — the program.

Reads the files that a command names and runs it. Requests are served as
their lines come in. All else is in `ReviewSearch.Command`.
-/
import ReviewSearch.Command.Run

namespace ReviewSearch.Command

/-- How the program is used. -/
def usage : String :=
  Text.joinWith "\n"
    ["Usage: aeroquery [-v] <COMMAND>", "", "Commands:", "  parse <QUERY>",
      "  explain [--config F] [--schema F] [--docs F] [--start N] [--limit N] [--no-limit] [--fields A,B] <QUERY>",
      "  query [--config F] [--schema F] [--docs F] [--start N] [--limit N] [--no-limit] [--fields A,B] <QUERY>",
      "  start [--config F] [--schema F] [--docs F]", "  stale --docs F --refs F"]

/-- The files that a command reads. -/
def paths : Action → List String
  | .parse _ => []
  | .explain files .. | .query files .. | .start files =>
    files.config?.toList ++ files.schema?.toList ++ files.docs?.toList
  | .stale docs refs => [docs, refs]

/-- The octets of a file, if it can be read. -/
def contentsOf (path : String) : IO Contents :=
  try
    return some (← IO.FS.readBinFile path).toList
  catch _ => return none

/-- Prints lines where they belong. -/
def print (lines : List Line) : IO Unit := do
  let output ← IO.getStdout
  let errors ← IO.getStderr
  for line in lines do
    let stream := if line.isError then errors else output
    stream.putStr line.written
    stream.flush

/-- Ends with a failure, if there is one. -/
def finish (failure? : Option Failure) : IO UInt32 :=
  match failure? with
  | none => return 0
  | some f => do
    IO.eprintln f.display
    return 1

/-- The octets of the next line of the input with the line feed behind it,
or none at the end. -/
partial def nextLine (input : IO.FS.Stream) (line : ByteArray) : IO ByteArray := do
  let octet ← input.read 1
  if octet.isEmpty then return line
  else if octet.data.contains 10 then return line ++ octet
  else nextLine input (line ++ octet)

/-- Serves the lines of the input as they come in. -/
partial def serveInput (e : Engine) (threshold : Severity) (s : Service) : IO UInt32 := do
  let line ← nextLine (← IO.getStdin) .empty
  if line.isEmpty then
    print [serviceEnd s]
    return 0
  else
    match serveLine e threshold line.toList s with
    | .error f => finish (some f)
    | .ok (printed, s) =>
      print printed
      serveInput e threshold s

/-- Runs a command. -/
def perform (threshold : Severity) (a : Action) : IO UInt32 := do
  let contents ← (paths a).mapM fun path => return (path, ← contentsOf path)
  let files (path : String) : Contents := (contents.lookup path).join
  let w : Surroundings := ⟨files, []⟩
  match a with
  | .start named =>
    match loadEngine w named ⟨threshold, []⟩ with
    | (.error f, log) =>
      print (logged log)
      finish (some (.ofFault f))
    | (.ok e, log) =>
      print (logged log)
      serveInput e threshold {}
  | a =>
    let outcome := run w threshold a
    print outcome.lines
    finish outcome.failure?

/-- Tells a caller what is wrong with a command line. -/
def advise : Misuse → IO UInt32
  | .versionWanted => do
    IO.println version
    return 0
  | .helpWanted => do
    IO.println usage
    return 0
  | _ => do
    IO.eprintln usage
    return 2

end ReviewSearch.Command

open ReviewSearch.Command in
/-- Runs the command that the arguments ask for. -/
def main (args : List String) : IO UInt32 :=
  match Invocation.ofArguments args with
  | .error misuse => advise misuse
  | .ok invocation => perform (thresholdOf invocation.verbose) invocation.action
