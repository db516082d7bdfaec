import Lox.CommandLine
import Lox.Shell

/-!
The program as a whole: what it writes for given arguments, files and input, and how it ends. With a
file it runs that file, without one it holds a dialogue. Reading and writing are left to the caller.
-/

namespace Lox.Program

open CommandLine (LogFile Options)

structure Outcome where
  written : String
  entries : List Log.Entry
  escaped : Option Interruption
  deriving DecidableEq, Repr

def writeLines (lines : List String) : String := String.join (lines.map (· ++ "\n"))

def checkName (path : String) : Except Interruption Unit :=
  if path.toList.contains '\x00' then .error (.unforeseen "ValueError" "embedded null byte")
  else .ok ()

/-- The source in a file, if it has the given bytes or none because it could not be opened. -/
def readSource (path : String) (content : Option ByteArray) : Except Interruption String := do
  checkName path
  match content with
  | none => .error (.failure (.single (.general ("'" ++ path ++ "' could not be opened"))))
  | some bytes =>
    match String.fromUTF8? bytes with
    | none => .error (.failure (.single (.general ("'" ++ path ++ "' is not UTF-8 text"))))
    | some text => .ok (Text.unifyLineEnds text)

def stop (reporter : Reporter) (interruption : Interruption) : Outcome :=
  let handling := reporter.handle (some interruption)
  ⟨handling.shown, [], handling.escaped⟩

def runFile (fuel : Nat) (reporter : Reporter) (options : Options) (path : String)
    (content : Option ByteArray) : Option Outcome :=
  match Session.start reporter path false options.parseOnly with
  | .error report => some (stop reporter (.failure report))
  | .ok session =>
    match readSource path content with
    | .error interruption => some (stop session.reporter interruption)
    | .ok source =>
      (session.runHandled fuel source).map fun h =>
        ⟨writeLines h.printed ++ h.shown, session.entries fuel source, h.escaped⟩

def inputLines (input : String) : List String :=
  match (Text.unifyLineEnds input).splitOn "\n" |>.reverse with
  | "" :: rest => rest.reverse
  | lines => lines.reverse

def writeStep (step : Shell.Step) : String := writeLines step.printed ++ step.shown

/-- A dialogue, in which the end of the input reads as a line of its own. -/
def converse (fuel : Nat) (sh : Shell) : List String → Option Outcome
  | [] => (sh.step fuel Shell.endOfInput).map fun step =>
    ⟨sh.prompt ++ writeStep step, [], step.escaped⟩
  | line :: rest => do
    let step ← sh.step fuel line
    let written := sh.prompt ++ writeStep step
    let entries := sh.entries fuel line
    if step.done || step.escaped.isSome then return ⟨written, entries, step.escaped⟩
    let later ← converse fuel step.shell rest
    return ⟨written ++ later.written, entries ++ later.entries, later.escaped⟩

def startShell (reporter : Reporter) (options : Options) : Except Report Shell :=
  (Session.start reporter Session.linePath true options.parseOnly).map Shell.ofSession

def runLines (fuel : Nat) (reporter : Reporter) (options : Options) (input : String) :
    Option Outcome :=
  match startShell reporter options with
  | .error report => some (stop reporter (.failure report))
  | .ok sh =>
    (converse fuel sh (inputLines input)).map fun o =>
      { o with written := Shell.intro ++ "\n" ++ o.written }

def reporter (colored : Bool) : Reporter := ⟨true, colored, []⟩

/-- What a run finds around it: whether errors are colored, the directory, why the log file cannot
be opened, what can be read from the file that is named, and the input. -/
structure Surroundings where
  colored : Bool
  directory : String
  logFault : Option Log.OpenFault
  content : Option ByteArray
  input : String

def checkLog (directory : String) (fault : Option Log.OpenFault) :
    Option LogFile → Except Interruption Unit
  | none => .ok ()
  | some .nameless =>
    .error (.unforeseen "TypeError" "expected str, bytes or os.PathLike object, not list")
  | some (.named path) => do
    checkName path
    match fault with
    | some fault => .error (fault.interruption (Log.fullPath directory path))
    | none => .ok ()

def run (fuel : Nat) (around : Surroundings) (options : Options) : Option Outcome :=
  let reporter := reporter around.colored
  match checkLog around.directory around.logFault options.logFile with
  | .error interruption => some (stop reporter interruption)
  | .ok () =>
    match options.file with
    | some path => runFile fuel reporter options path around.content
    | none => runLines fuel reporter options around.input

def visibleEntries (options : Options) (entries : List Log.Entry) : List Log.Entry :=
  entries.filter (Log.Entry.shownAt (Log.Level.ofVerbosity options.verbosity))

end Lox.Program
