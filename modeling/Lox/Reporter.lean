import Lox.Diagnostic

/-!
Showing errors. A reporter knows the sources that are being run, by path and in the order in which
the paths came, and shows with an error the line it is on. A fatal reporter ends the program at the
first error; any other forgets the sources and lets it go on.
-/

namespace Lox

structure Reporter where
  fatal : Bool
  colored : Bool
  sources : List (String × Option (List String))
  deriving DecidableEq, Repr

namespace Reporter

/-- Sets what is known of a path, which keeps its position. -/
def setSource (lines : Option (List String)) (path : String) :
    List (String × Option (List String)) → List (String × Option (List String))
  | [] => [(path, lines)]
  | entry :: rest =>
    if entry.1 = path then (path, lines) :: rest else entry :: setSource lines path rest

def register (r : Reporter) (path : String) : Reporter :=
  { r with sources := setSource none path r.sources }

def load (r : Reporter) (path source : String) : Reporter :=
  { r with sources := setSource (some (Text.lines source)) path r.sources }

def unload (r : Reporter) (path : String) : Reporter := r.register path

def unloadAll (r : Reporter) : Reporter :=
  { r with sources := r.sources.map fun entry => (entry.1, none) }

def lineOf (entry : String × Option (List String)) (line : Int) : Option String :=
  match entry.2 with
  | some lines => if 0 < line then lines[line.toNat - 1]? else none
  | none => none

def excerpts (r : Reporter) (line : Option Int) : String :=
  match line with
  | none => ""
  | some line =>
    String.join <| r.sources.map fun entry =>
      match lineOf entry line with
      | some text =>
        "  File '" ++ entry.1 ++ "', line " ++ toString line ++ ":\n    " ++ Text.trim text ++ "\n"
      | none => ""

def emphasize (r : Reporter) (text : String) : String :=
  if r.colored then "\x1b[1m\x1b[31m" ++ text ++ "\x1b[0m" else text

def describe (r : Reporter) (d : Diagnostic) : String :=
  r.excerpts d.line ++ (if d.internal then r.emphasize "[internal] " else "") ++
    r.emphasize "error: " ++ d.display ++ "\n"

structure Handling where
  shown : String
  reporter : Reporter
  escaped : Option Interruption
  deriving DecidableEq, Repr

def report (r : Reporter) (what : Report) : Handling :=
  let shown := String.join (what.parts.map r.describe)
  if r.fatal then ⟨shown, r, some (.quit (some 1))⟩ else ⟨shown, r.unloadAll, none⟩

/-- Deals with whatever cut a run short. Only an order to quit and a surprise are not held back. -/
def handle (r : Reporter) : Option Interruption → Handling
  | none => ⟨"", r, none⟩
  | some (.failure what) => r.report what
  | some (.quit code) => ⟨"", r, some (.quit code)⟩
  | some .keyboard => r.report (.single (.general "keyboard interrupt"))
  | some .exhausted => r.report (.single (.blame "maximum recursion depth exceeded"))
  | some (.unforeseen name text) =>
    let handling := r.report (.single (.unforeseen name text))
    { handling with escaped := some (handling.escaped.getD (.unforeseen name text)) }

end Reporter

end Lox
