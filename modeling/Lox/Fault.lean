import Lox.Token.Basic

/-!
What can be wrong with a program, and how it is said: with the order of its tokens, and with what it
does when it is run.
-/

namespace Lox

namespace Grammar

inductive Fault where
  | expression
  | variableName
  | semicolonAfterDeclaration
  | semicolonAfterValue
  | parenAfterIf
  | parenAfterIfCondition
  | parenAfterWhile
  | parenAfterCondition
  | parenAfterFor
  | semicolonAfterLoopCondition
  | parenAfterForClauses
  | braceAfterBlock
  | parenAfterExpression
  | assignmentTarget
  | tooMuchNesting
  deriving DecidableEq, Repr

def Fault.message : Fault → String
  | expression => "Expect expression."
  | variableName => "Expect variable name."
  | semicolonAfterDeclaration => "Expect ';' after variable declaration."
  | semicolonAfterValue => "Expect ';' after value."
  | parenAfterIf => "Expect '(' after 'if'."
  | parenAfterIfCondition => "Expect ')' after if condition."
  | parenAfterWhile => "Expect '(' after 'while'."
  | parenAfterCondition => "Expect ')' after condition."
  | parenAfterFor => "Expect '(' after 'for'."
  | semicolonAfterLoopCondition => "Expect ';' after loop condition."
  | parenAfterForClauses => "Expect ')' after for clauses."
  | braceAfterBlock => "Expect '\x7d' after block."
  | parenAfterExpression => "Expect ')' after expression."
  | assignmentTarget => "Invalid assignment target."
  | tooMuchNesting => "Too much nesting."

structure Error where
  fault : Fault
  line : Int
  deriving DecidableEq, Repr

structure Errors where
  first : Error
  others : List Error
  deriving DecidableEq, Repr

def Errors.toList (es : Errors) : List Error := es.first :: es.others

end Grammar

namespace Evaluation

inductive Misuse where
  | operand
  | leftOperand
  | rightOperand
  | addition
  | undefinedVariable
  deriving DecidableEq, Repr

def Misuse.message : Misuse → String
  | operand => "Operand must be a number."
  | leftOperand => "Left operand must be a number."
  | rightOperand => "Right operand must be a number."
  | addition => "Cannot add these values."
  | undefinedVariable => "Undefined variable."

/-- A misuse is an error of the program and has a line. The others come from trees nested too
deeply, from trees that no parser makes, and from a division by zero that nothing guards. -/
inductive Fault where
  | misuse (m : Misuse) (line : Int)
  | tooMuchNesting
  | unknownStatement (label : String)
  | unknownExpression (label : String)
  | unknownOperator (kind : Kind)
  | divisionByZero
  deriving DecidableEq, Repr

end Evaluation

end Lox
