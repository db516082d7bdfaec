import Lox.Session

/-!
The interactive shell. A line is source, except for a few commands: `exit` and `help` alone on a
line with nothing pending, a question mark, and the end of the input. Source is held back while
braces are open, and run together with the lines that close them.
-/

namespace Lox

structure Shell where
  session : Session
  pending : String
  prompt : String
  deriving DecidableEq, Repr

namespace Shell

def intro : String := "treelox :: tree-walking Lox interpreter\nType 'help' for more information."

def helpText : String :=
  "Welcome to the treelox interpreter!\n\n" ++
  "treelox runs a small C-like scripting language: numbers, strings, booleans and nil, \n" ++
  "arithmetic and comparison operators, 'and'/'or', 'var' declarations, blocks, \n" ++
  "'if', 'while' and 'for'. Variables declared here live until you exit.\n\n" ++
  "Try it out by typing 'var x = 40 + 2;', then 'print x;'. Blocks may span several \n" ++
  "lines: the prompt changes to '. ' until every '\x7b' is closed."

def endOfInput : String := "EOF"

def firstPrompt : String := "> "

def secondPrompt : String := ". "

def ofSession (session : Session) : Shell := ⟨session, "", firstPrompt⟩

inductive Request where
  | nothing
  | source (text : String)
  | help
  | exit
  | endOfInput
  deriving DecidableEq, Repr

def isCommandChar (c : Char) : Bool := c.isAlphanum || c == '_'

def splitCommand (line : List Char) : String × List Char :=
  (String.ofList (line.takeWhile isCommandChar),
   Text.trimChars (line.dropWhile isCommandChar))

def expand : List Char → List Char
  | '?' :: rest => "help ".toList ++ rest
  | line => line

def request (pending : Bool) (line : String) : Request :=
  let chars := expand (Text.trimChars line.toList)
  let source := Request.source (String.ofList chars)
  match splitCommand chars with
  | (command, argument) =>
    if command = endOfInput then .endOfInput
    else if pending then source
    else if chars.isEmpty then .nothing
    else if !argument.isEmpty then source
    else if command = "exit" then .exit
    else if command = "help" then .help
    else source

structure Step where
  shell : Shell
  printed : List String
  shown : String
  escaped : Option Interruption
  done : Bool
  deriving DecidableEq, Repr

def say (sh : Shell) (shown : String) (done : Bool) : Step := ⟨sh, [], shown, none, done⟩

/-- Adds source to what is pending, and runs it all unless braces are still open. -/
def takeSource (fuel : Nat) (sh : Shell) (text : String) : Option Step :=
  match Session.accumulate sh.pending text with
  | (source, true) =>
    some (say { sh with pending := source, prompt := secondPrompt } "" false)
  | (source, false) =>
    (sh.session.runHandled fuel source).map fun h =>
      ⟨⟨h.session, "", firstPrompt⟩, h.printed, h.shown, h.escaped, false⟩

def step (fuel : Nat) (sh : Shell) (line : String) : Option Step :=
  match request (!sh.pending.isEmpty) line with
  | .nothing => some (sh.say "" false)
  | .source text => sh.takeSource fuel text
  | .help => some (sh.say (helpText ++ "\n") false)
  | .exit => some (sh.say "" true)
  | .endOfInput => some (sh.say "\n" true)

/-- An empty line taken as it is: it becomes part of what is pending. -/
def blankLine (sh : Shell) : Shell :=
  if sh.pending.isEmpty then sh else { sh with pending := sh.pending ++ "\n" }

def entries (fuel : Nat) (sh : Shell) (line : String) : List Log.Entry :=
  match request (!sh.pending.isEmpty) line with
  | .source text =>
    let (source, more) := Session.accumulate sh.pending text
    Log.ofPlace (Lexer.start source) ++ if more then [] else sh.session.entries fuel source
  | _ => []

end Shell

end Lox
