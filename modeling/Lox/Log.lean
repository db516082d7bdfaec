import Lox.Diagnostic

/-!
The log of a run and the file it is written to. What is logged while a source is read: every comment
that is passed over and every token, then the tally of a complete reading, and every grammatical
error or else the tally of the statements. The name of the file is made complete before the file is
opened, so that a complaint shows where it would have been.
-/

namespace Lox.Log

inductive Level where
  | debug
  | info
  | warning
  deriving DecidableEq, Repr

namespace Level

def name : Level → String
  | debug => "DEBUG"
  | info => "INFO"
  | warning => "WARNING"

def rank : Level → Nat
  | debug => 0
  | info => 1
  | warning => 2

/-- The level at which a person sees entries who asked for them `n` times. -/
def ofVerbosity : Nat → Level
  | 0 => warning
  | 1 => info
  | _ => debug

end Level

inductive Origin where
  | scanner
  | parser
  | interpreter
  | session
  deriving DecidableEq, Repr

def Origin.name : Origin → String
  | scanner => "treelox.core.scanner"
  | parser => "treelox.core.parser"
  | interpreter => "treelox.core.interpreter"
  | session => "treelox.lang.session"

structure Entry where
  origin : Origin
  level : Level
  message : String
  deriving DecidableEq, Repr

namespace Entry

def display (e : Entry) : String := e.origin.name ++ " - " ++ e.level.name ++ " - " ++ e.message

def shownAt (level : Level) (e : Entry) : Bool := level.rank ≤ e.level.rank

end Entry

def comments (rest : List Char) : List String :=
  match rest with
  | [] => []
  | '/' :: '/' :: cs =>
    if cs.contains '\n' then
      String.ofList ('/' :: '/' :: cs.takeWhile (· ≠ '\n')) :: comments (cs.dropWhile (· ≠ '\n'))
    else []
  | c :: cs => if Text.isBlank c then comments cs else []
termination_by rest.length
decreasing_by
  · have := Lexer.length_dropWhile_le (fun c => decide (c ≠ '\n')) cs
    simp only [List.length_cons]
    omega
  · simp

def ofComment (text : String) : Entry := ⟨.scanner, .debug, "Skipping comment: " ++ text⟩

def ofToken (t : Token) : Entry := ⟨.scanner, .debug, "Token " ++ t.listing⟩

def ofPlace (p : Lexer.Place) : List Entry :=
  (comments p.rest).map ofComment ++
    match _h : Lexer.next p with
    | .error _ => []
    | .ok (t, q) => ofToken t :: if _ht : t.kind = .eof then [] else ofPlace q
termination_by p.rest.length
decreasing_by exact Lexer.next_length_lt ‹_› ‹_›

def ofTokens (tokens : List Token) : Entry :=
  let lines := match tokens.getLast? with
    | some t => t.line
    | none => 1
  ⟨.scanner, .debug,
    "Scanned " ++ toString tokens.length ++ " tokens over " ++ toString lines ++ " lines"⟩

/-- Nesting that is too deep is not logged, since reading is not taken up after it. -/
def ofErrors (es : Grammar.Errors) : List Entry :=
  (es.toList.filter fun e => e.fault ≠ .tooMuchNesting).map fun e =>
    ⟨.parser, .debug, "Syntax error, synchronizing: " ++ e.diagnostic.display⟩

def ofProgram (program : List Stmt) : Entry :=
  ⟨.parser, .debug, "Parsed " ++ toString program.length ++ " statements"⟩

inductive OpenFault where
  | missing
  | denied
  | notDirectory
  | directory
  deriving DecidableEq, Repr

namespace OpenFault

def name : OpenFault → String
  | missing => "FileNotFoundError"
  | denied => "PermissionError"
  | notDirectory => "NotADirectoryError"
  | directory => "IsADirectoryError"

def reason : OpenFault → String
  | missing => "[Errno 2] No such file or directory"
  | denied => "[Errno 13] Permission denied"
  | notDirectory => "[Errno 20] Not a directory"
  | directory => "[Errno 21] Is a directory"

def interruption (fault : OpenFault) (path : String) : Interruption :=
  .unforeseen fault.name (fault.reason ++ ": " ++ Text.quoted path)

end OpenFault

/-- Takes up one more part of a path. The empty part and `.` say nothing, and `..` takes back the
part before it. -/
def addPart (parts : List String) (part : String) : List String :=
  if part = "" || part = "." then parts
  else if part = ".." then parts.dropLast
  else parts ++ [part]

def pathParts (path : String) : List String := (path.splitOn "/").foldl addPart []

/-- A path starts at one root, or with exactly two slashes at another. -/
def root (path : String) : String :=
  match path.toList with
  | '/' :: '/' :: '/' :: _ => "/"
  | '/' :: '/' :: _ => "//"
  | _ => "/"

def fullPath (directory path : String) : String :=
  let whole := match path.toList with
    | '/' :: _ => path
    | _ => directory ++ "/" ++ path
  root whole ++ "/".intercalate (pathParts whole)

end Lox.Log
