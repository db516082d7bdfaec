import Lox.Token.Basic

/-!
Programs as trees, and their texts. Operators and names are kept as tokens, for their kind, value
and line. A tree made by hand may hold nodes for which there is no rule, expressions where
statements belong, and the mark of a branch that was cut off because it was nested too deeply.

Whoever walks a tree takes calls of its own for every node. The walk of a tree that is too deep is
that of the tree cut where the calls run out: only a walk that comes to the mark fails.
-/

namespace Lox

inductive Expr where
  | literal (value : Value)
  | group (inner : Expr)
  | unary (operator : Token) (right : Expr)
  | binary (left : Expr) (operator : Token) (right : Expr)
  | logical (left : Expr) (operator : Token) (right : Expr)
  | var (name : Token)
  | assign (name : Token) (value : Expr)
  | unknown (label : String)
  | cut
  deriving DecidableEq, Repr

inductive Stmt where
  | expression (e : Expr)
  | print (e : Expr)
  | declare (name : Token) (initial : Expr)
  | block (body : List Stmt)
  | ifThen (condition : Expr) (yes : Stmt)
  | ifElse (condition : Expr) (yes no : Stmt)
  | loop (condition : Expr) (body : Stmt)
  | bare (e : Expr)
  | unknown (label : String)
  | cut
  deriving Repr

def Expr.label : Expr → String
  | literal _ => "Literal"
  | group _ => "Grouping"
  | unary .. => "Unary"
  | binary .. => "Binary"
  | logical .. => "Logical"
  | var _ => "Variable"
  | assign .. => "Assign"
  | unknown label => label
  | cut => ""

namespace Stmt

def label : Stmt → String
  | expression _ => "Expression"
  | print _ => "Print"
  | declare .. => "Var"
  | block _ => "Block"
  | ifThen .. | ifElse .. => "If"
  | loop .. => "While"
  | bare e => e.label
  | unknown label => label
  | cut => ""

/-- A loop with three clauses in terms of the other statements: the step follows the body inside a
block of their own, a missing condition holds, and the start has a block around the whole loop. -/
def forLoop (start : Option Stmt) (condition step : Option Expr) (body : Stmt) : Stmt :=
  let round := match step with
    | some e => block [body, expression e]
    | none => body
  let whole := loop (condition.getD (.literal (.bool true))) round
  match start with
  | some s => block [s, whole]
  | none => whole

end Stmt

/-- The calls that a walk takes, beside the one for each node, before it comes to the operands of an
operator, to the statements of a block, and to the parts of any other statement. -/
structure Costs where
  operator : Nat
  block : Nat
  statement : Nat
  deriving DecidableEq, Repr

def Expr.cutAt (costs : Costs) : Nat → Expr → Expr
  | 0, _ => .cut
  | n + 1, .group e => .group (e.cutAt costs n)
  | n + 1, .unary op r => .unary op (r.cutAt costs (n - costs.operator))
  | n + 1, .binary l op r =>
    .binary (l.cutAt costs (n - costs.operator)) op (r.cutAt costs (n - costs.operator))
  | n + 1, .logical l op r =>
    .logical (l.cutAt costs (n - costs.operator)) op (r.cutAt costs (n - costs.operator))
  | n + 1, .assign name e => .assign name (e.cutAt costs n)
  | _ + 1, .literal v => .literal v
  | _ + 1, .var name => .var name
  | _ + 1, .unknown label => .unknown label
  | _ + 1, .cut => .cut

mutual

/-- The statement as far as the given number of nested calls reaches. -/
def Stmt.cutAt (costs : Costs) : Nat → Stmt → Stmt
  | 0, _ => .cut
  | n + 1, .expression e => .expression (e.cutAt costs (n - costs.statement))
  | n + 1, .print e => .print (e.cutAt costs (n - costs.statement))
  | n + 1, .declare name e => .declare name (e.cutAt costs (n - costs.statement))
  | n + 1, .block body => .block (Stmt.cutAllAt costs (n - costs.block) body)
  | n + 1, .ifThen c s =>
    .ifThen (c.cutAt costs (n - costs.statement)) (s.cutAt costs (n - costs.statement))
  | n + 1, .ifElse c s t =>
    .ifElse (c.cutAt costs (n - costs.statement)) (s.cutAt costs (n - costs.statement))
      (t.cutAt costs (n - costs.statement))
  | n + 1, .loop c s =>
    .loop (c.cutAt costs (n - costs.statement)) (s.cutAt costs (n - costs.statement))
  | n + 1, .bare e => .bare (e.cutAt costs (n + 1))
  | _ + 1, .unknown label => .unknown label
  | _ + 1, .cut => .cut

def Stmt.cutAllAt (costs : Costs) : Nat → List Stmt → List Stmt
  | _, [] => []
  | n, s :: rest => s.cutAt costs n :: Stmt.cutAllAt costs n rest

end

namespace Printer

inductive Fault where
  | unknownStatement (label : String)
  | unknownExpression (label : String)
  | notANumber
  | notAText
  | tooMuchNesting
  deriving DecidableEq, Repr

/-- Four spaces a level; a negative one has no room for any. -/
def indentation (level : Int) : String := String.ofList (List.replicate (4 * level.toNat) ' ')

def spell (t : Token) : Except Fault String :=
  if t.isWritable then .ok t.lexeme else .error .notANumber

def costs : Costs := ⟨0, 3, 1⟩

/-- What is left of a thousand calls for a statement that is written by itself. -/
def usualRoom : Nat := 991

end Printer

open Printer

def Expr.render : Expr → Except Fault String
  | .literal v => pure v.literal
  | .group e => do return "(group " ++ (← e.render) ++ ")"
  | .unary op r => do return "(" ++ (← spell op) ++ " " ++ (← r.render) ++ ")"
  | .binary l op r | .logical l op r => do
    return "(" ++ (← spell op) ++ " " ++ (← l.render) ++ " " ++ (← r.render) ++ ")"
  | .var name => spell name
  | .assign name e => do return "(= " ++ (← spell name) ++ " " ++ (← e.render) ++ ")"
  | .unknown label => throw (.unknownExpression label)
  | .cut => throw .tooMuchNesting

/-- A name alone is written as its value, which on a line of a block has to be text. -/
def Stmt.isLine : Stmt → Bool
  | .bare (.var name) => name.isTextual
  | _ => true

mutual

/-- A statement on its own lines, indented by `level`. An expression in the place of a statement is
not indented. -/
def Stmt.render (level : Int) : Stmt → Except Fault String
  | .expression e => do return indentation level ++ "(; " ++ (← e.render) ++ ")"
  | .print e => do return indentation level ++ "(print " ++ (← e.render) ++ ")"
  | .declare name e => do
    return indentation level ++ "(var " ++ (← spell name) ++ " " ++ (← e.render) ++ ")"
  | .block body => do
    let lines ← Stmt.renderAll (level + 1) body
    if body.all Stmt.isLine then return indentation level ++ "(block" ++ lines ++ ")"
    else throw .notAText
  | .ifThen c s => do
    return indentation level ++ "(if " ++ (← c.render) ++ "\n" ++ (← s.render (level + 1)) ++ ")"
  | .ifElse c s t => do
    return indentation level ++ "(if " ++ (← c.render) ++ "\n" ++
      (← s.render (level + 1)) ++ "\n" ++ (← t.render (level + 1)) ++ ")"
  | .loop c s => do
    return indentation level ++ "(while " ++ (← c.render) ++ "\n" ++ (← s.render (level + 1)) ++ ")"
  | .bare e => e.render
  | .unknown label => throw (.unknownStatement label)
  | .cut => throw .tooMuchNesting

def Stmt.renderAll (level : Int) : List Stmt → Except Fault String
  | [] => pure ""
  | s :: rest => do return "\n" ++ (← s.render level) ++ (← Stmt.renderAll level rest)

end

def Stmt.textWithin (room : Nat) (s : Stmt) : Except Fault String := (s.cutAt costs room).render 0

def Stmt.text (s : Stmt) : Except Fault String := s.textWithin usualRoom

end Lox
