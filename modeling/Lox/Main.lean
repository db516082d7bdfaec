import Lox.Program
import Std.Time

/-!
The entry of the program. It reads the file or the lines, asks the library what to write, and writes
it; the log goes to the error stream and, if asked for, to a file.
-/

namespace Lox.Main

open CommandLine (Options)

/-- No loop of a program gets to so many rounds. -/
def fuel : Nat := Nat.pow 2 62

def isColored : IO Bool := do
  if (← IO.getEnv "ANSI_COLORS_DISABLED").isSome || (← IO.getEnv "NO_COLOR").isSome then
    return false
  if (← IO.getEnv "FORCE_COLOR").isSome then return true
  return (← (← IO.getStdout).isTty) && (← IO.getEnv "TERM") != some "dumb"

def write (text : String) : IO Unit := do
  let out ← IO.getStdout
  out.putStr text
  out.flush

def stamped (e : Log.Entry) : IO String := do
  let now ← Std.Time.PlainDateTime.now
  return now.format "uuuu-MM-dd HH:mm:ss" ++ " - " ++ e.display ++ "\n"

/-- The log file gets every entry, the error stream those that were asked for. -/
def record (options : Options) (file : Option IO.FS.Handle) (entries : List Log.Entry) :
    IO Unit := do
  for e in Program.visibleEntries options entries do
    IO.eprint (← stamped e)
  if let some handle := file then
    for e in entries do
      handle.putStr (← stamped e)
    handle.flush

def exitCode : Option Interruption → UInt32
  | none => 0
  | some (.quit none) => 0
  | some (.quit (some code)) => code.toNat.toUInt32
  | some _ => 1

def nextLines : IO (List String) := do
  let text ← (← IO.getStdin).getLine
  return if text.isEmpty then [Shell.endOfInput] else Program.inputLines text

/-- Holds the dialogue; `waiting` has been read and not yet been taken up. -/
partial def converse (options : Options) (file : Option IO.FS.Handle) (sh : Shell)
    (waiting : List String) : IO UInt32 := do
  write sh.prompt
  let lines ← if waiting.isEmpty then nextLines else pure waiting
  let line := lines.headD ""
  match sh.step fuel line with
  | none => return 1
  | some step =>
    write (Program.writeStep step)
    record options file (sh.entries fuel line)
    if step.done || step.escaped.isSome then return exitCode step.escaped
    converse options file step.shell (lines.drop 1)

def openFault : IO.Error → Log.OpenFault
  | .permissionDenied .. => .denied
  | .inappropriateType _ 20 _ => .notDirectory
  | .inappropriateType _ 21 _ => .directory
  | _ => .missing

def openLog (options : Options) : IO (Except Interruption (Option IO.FS.Handle)) := do
  let directory := (← IO.currentDir).toString
  match Program.checkLog directory none options.logFile, options.logFile with
  | .error interruption, _ => return .error interruption
  | .ok (), some (.named path) =>
    let path := Log.fullPath directory path
    try
      return .ok (some (← IO.FS.Handle.mk path .append))
    catch e =>
      return .error ((openFault e).interruption path)
  | .ok (), _ => return .ok none

def finish (options : Options) (file : Option IO.FS.Handle) : Option Program.Outcome → IO UInt32
  | none => return 1
  | some outcome => do
    write outcome.written
    record options file outcome.entries
    return exitCode outcome.escaped

def run (options : Options) : IO UInt32 := do
  let reporter := Program.reporter (← isColored)
  match ← openLog options with
  | .error interruption => finish options none (some (Program.stop reporter interruption))
  | .ok file =>
    match options.file with
    | some path =>
      let content ← try some <$> IO.FS.readBinFile path catch _ => pure none
      finish options file (Program.runFile fuel reporter options path content)
    | none =>
      match Program.startShell reporter options with
      | .error report => finish options file (some (Program.stop reporter (.failure report)))
      | .ok sh =>
        write (Shell.intro ++ "\n")
        converse options file sh []

end Lox.Main

def main (arguments : List String) : IO UInt32 := do
  match Lox.CommandLine.Request.ofArguments arguments with
  | .help => Lox.Main.write Lox.CommandLine.help; return 0
  | .version => Lox.Main.write Lox.CommandLine.version; return 0
  | .complain misuse => IO.eprint misuse.complaint; return 2
  | .run options => Lox.Main.run options
