import Lox.Fault
import Lox.Token.Lexer
import Lox.Tree

/-!
Errors as they are shown. Every fault of reading, parsing or running becomes a diagnostic: a
category, a message and, where there is one, a line. An internal diagnostic blames the interpreter
rather than the program. A report is what a failed run hands over: one diagnostic that stands for
it, and all that were collected on the way.
-/

namespace Lox

inductive Category where
  | general
  | lexical | unexpectedCharacter | unterminatedText | unexpectedEnd | unterminatedComment
  | invalidNumber
  | grammatical | expectedExpression
  | runtime
  deriving DecidableEq, Repr

structure Diagnostic where
  category : Category
  message : String
  line : Option Int
  internal : Bool
  deriving DecidableEq, Repr

namespace Diagnostic

def unexpectedCharacter (what : String) (line : Option Int) : Diagnostic :=
  ⟨.unexpectedCharacter, "Unexpected character '" ++ what ++ "'.", line, false⟩

def unterminatedText (line : Option Int) : Diagnostic :=
  ⟨.unterminatedText, "Unterminated string.", line, false⟩

def unexpectedEnd (line : Option Int) : Diagnostic :=
  ⟨.unexpectedEnd, "Unexpected end of file.", line, false⟩

def unterminatedComment (line : Option Int) : Diagnostic :=
  ⟨.unterminatedComment, "Unterminated comment.", line, false⟩

def invalidNumber (digits : String) (line : Option Int) : Diagnostic :=
  ⟨.invalidNumber, "Invalid number '" ++ digits ++ "'.", line, false⟩

def grammatical (message : String) (line : Option Int) : Diagnostic :=
  ⟨.grammatical, message, line, false⟩

def expectedExpression (line : Option Int) : Diagnostic :=
  ⟨.expectedExpression, Grammar.Fault.expression.message, line, false⟩

def runtime (message : String) (line : Option Int) : Diagnostic := ⟨.runtime, message, line, false⟩

def general (message : String) : Diagnostic := ⟨.general, message, none, false⟩

def blame (message : String) : Diagnostic := ⟨.general, message, none, true⟩

def unforeseen (name text : String) : Diagnostic :=
  blame ("unknown error: '" ++ name ++ ": " ++ text ++ "'")

def leavingGlobals : Diagnostic := blame "cannot exit the global scope"

def display (d : Diagnostic) : String :=
  match d.line with
  | some line => "[line " ++ toString line ++ "] " ++ d.message
  | none => d.message

/-- Diagnostics are alike when category, message and line agree; who is to blame does not matter. -/
def alike (d e : Diagnostic) : Bool :=
  d.category = e.category && d.message = e.message && d.line = e.line

end Diagnostic

def Lexer.Failure.diagnostic (f : Lexer.Failure) : Diagnostic :=
  let line : Option Int := some f.place.line
  match f.fault with
  | .unexpectedCharacter c => .unexpectedCharacter c.toString line
  | .unterminatedText => .unterminatedText line
  | .unexpectedEnd => .unexpectedEnd line
  | .unterminatedComment => .unterminatedComment line
  | .invalidNumber digits => .invalidNumber digits line

def Grammar.Error.diagnostic (e : Grammar.Error) : Diagnostic :=
  if e.fault = .expression then .expectedExpression (some e.line)
  else .grammatical e.fault.message (some e.line)

def Evaluation.Fault.diagnostic : Evaluation.Fault → Diagnostic
  | .misuse m line => .runtime m.message (some line)
  | .tooMuchNesting => .runtime Grammar.Fault.tooMuchNesting.message none
  | .unknownStatement label => .blame ("unknown statement '" ++ label ++ "'")
  | .unknownExpression label => .blame ("unknown expression '" ++ label ++ "'")
  | .unknownOperator kind => .unforeseen "KeyError" kind.listing
  | .divisionByZero => .unforeseen "ZeroDivisionError" "float division by zero"

structure Report where
  head : Diagnostic
  parts : List Diagnostic
  deriving DecidableEq, Repr

namespace Report

def single (d : Diagnostic) : Report := ⟨d, [d]⟩

def collect (first : Diagnostic) (others : List Diagnostic) : Report :=
  ⟨.grammatical first.message first.line, first :: others⟩

end Report

def Grammar.Errors.report (es : Grammar.Errors) : Report :=
  .collect es.first.diagnostic (es.others.map (·.diagnostic))

inductive Interruption where
  | failure (report : Report)
  | quit (code : Option Int)
  | keyboard
  | exhausted
  | unforeseen (name text : String)
  deriving DecidableEq, Repr

/-- An operator that has no rule, and a zero that is divided by, are errors of the host. -/
def Evaluation.Fault.interruption : Evaluation.Fault → Interruption
  | .unknownOperator kind => .unforeseen "KeyError" kind.listing
  | .divisionByZero => .unforeseen "ZeroDivisionError" "float division by zero"
  | fault => .failure (.single fault.diagnostic)

/-- A tree that is nested too deeply to be written, or in which a name or an operator has a value of
the wrong kind, is no error of the program. -/
def Printer.Fault.interruption : Printer.Fault → Interruption
  | .unknownStatement label =>
    .failure (.single (.blame ("cannot print unknown statement '" ++ label ++ "'")))
  | .unknownExpression label =>
    .failure (.single (.blame ("cannot print unknown expression '" ++ label ++ "'")))
  | .notANumber => .unforeseen "InvalidOperation" "[<class 'decimal.ConversionSyntax'>]"
  | .notAText => .unforeseen "TypeError" "expected str instance"
  | .tooMuchNesting => .exhausted

end Lox
