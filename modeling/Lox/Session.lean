import Lox.Evaluation
import Lox.Grammar.Parser
import Lox.Log
import Lox.Reporter

/-!
Sessions. The sources run in one session share their global variables. While a source runs, the
session's reporter knows it under the session's path, so that errors can show the line they are on.
-/

namespace Lox

/-- Sources are run where `room` calls can still be nested. -/
structure Session where
  path : String
  parseOnly : Bool
  scope : Scope
  reporter : Reporter
  room : Nat
  deriving DecidableEq, Repr

namespace Session

/-- The path under which an interactive session runs its lines; no file can have it. -/
def linePath : String := "<in>"

def start (reporter : Reporter) (path : String) (interactive parseOnly : Bool)
    (room : Nat := Evaluation.usualRoom) : Except Report Session :=
  let reporter := reporter.register path
  if interactive then .ok ⟨path, parseOnly, .empty, { reporter with fatal := false }, room⟩
  else if path = linePath then
    .error (.single (.general ("'" ++ linePath ++ "' is a reserved filename")))
  else .ok ⟨path, parseOnly, .empty, reporter, room⟩

/-- The program that a source spells. The calls that read it are nested in seven others. -/
def parse (room : Nat) (source : String) : Except Report (List Stmt) :=
  match Lexer.scan source with
  | .error failure => .error (.single failure.diagnostic)
  | .ok tokens =>
    match Grammar.parseWithin (room - 7) tokens with
    | .error errors => .error errors.report
    | .ok program => .ok program

structure Run where
  session : Session
  printed : List String
  interruption : Option Interruption
  deriving DecidableEq, Repr

def renderAll (room : Nat) : List Stmt → List String × Option Interruption
  | [] => ([], none)
  | stmt :: rest =>
    match stmt.textWithin (room - 2) with
    | .error fault => ([], some fault.interruption)
    | .ok text =>
      let (texts, interruption) := renderAll room rest
      (text :: texts, interruption)

/-- A program is run, or its trees are written instead; none if it runs out of fuel. -/
def runProgram (fuel : Nat) (s : Session) (program : List Stmt) : Option Run :=
  if s.parseOnly then
    let (printed, interruption) := renderAll s.room program
    some ⟨s, printed, interruption⟩
  else
    match Evaluation.interpretWithin (s.room - 1) fuel program s.scope with
    | (.completed, after) => some ⟨{ s with scope := after.scope }, after.printed.toList, none⟩
    | (.failed fault, after) =>
      some ⟨{ s with scope := after.scope }, after.printed.toList,
        some fault.interruption⟩
    | (.outOfFuel, _) => none

/-- Runs a source. The reporter forgets it only if nothing went wrong. -/
def run (fuel : Nat) (s : Session) (source : String) : Option Run :=
  let opened := { s with reporter := s.reporter.load s.path source }
  match parse s.room source with
  | .error report => some ⟨opened, [], some (.failure report)⟩
  | .ok program =>
    match opened.runProgram fuel program with
    | none => none
    | some r =>
      if r.interruption.isSome then some r
      else
        let reporter := r.session.reporter.unload s.path
        some { r with session := { r.session with reporter } }

structure Handled where
  session : Session
  printed : List String
  shown : String
  escaped : Option Interruption
  deriving DecidableEq, Repr

def Run.handle (r : Run) : Handled :=
  let handling := r.session.reporter.handle r.interruption
  ⟨{ r.session with reporter := handling.reporter }, r.printed, handling.shown, handling.escaped⟩

def runHandled (fuel : Nat) (s : Session) (source : String) : Option Handled :=
  (s.run fuel source).map Run.handle

def entries (fuel : Nat) (s : Session) (source : String) : List Log.Entry :=
  let reading := Lexer.read (Lexer.start source)
  Log.ofPlace (Lexer.start source) ++
    if reading.failure.isSome then []
    else
      Log.ofTokens reading.tokens ::
        match Grammar.parseWithin (s.room - 7) reading.tokens with
        | .error errors => Log.ofErrors errors
        | .ok program =>
          let running := "Running " ++ toString program.length ++ " statements from " ++ s.path
          let executed :=
            if s.parseOnly then #[]
            else Evaluation.journalWithin (s.room - 1) fuel program s.scope
          Log.ofProgram program :: ⟨.session, .info, running⟩ ::
            executed.toList.map fun label => ⟨.interpreter, .debug, "Executing " ++ label⟩

def openBraces (tokens : List Token) : Int :=
  tokens.foldl (fun n t =>
    if t.kind = .leftBrace then n + 1 else if t.kind = .rightBrace then n - 1 else n) 0

/-- A line added to what is pending, and whether more lines have to follow: they do while braces are
open in what can be read of it, up to the first fault. -/
def accumulate (pending line : String) : String × Bool :=
  let source := pending ++ line ++ "\n"
  (source, decide (0 < openBraces (Lexer.read (Lexer.start source)).tokens))

end Session

end Lox
