import Lox.Evaluation

/-!
# Names resolved ahead of the run

Where a name in a program points to can be read off the program: to the nearest block around it, or
the top level, in which a declaration of the name stands directly and before it. A bound tree holds
for each use of a name the number of blocks to go outwards, and is run by going straight to that
frame. The log of a run holds every use of a name that was evaluated, with the scope at that time.
-/

namespace Lox

/-- The names declared so far in each block around a place, from the inside out. -/
abbrev Blocks := List (List Name)

namespace Blocks

def lists (names : List Name) (name : Name) : Bool :=
  names.any fun other => Name.key other = Name.key name

def distance? (blocks : Blocks) (name : Name) : Option Nat :=
  blocks.findIdx? fun names => lists names name

def declare (name : Name) : Blocks → Blocks
  | [] => []
  | names :: outer => (if lists names name then names else names ++ [name]) :: outer

def after (blocks : Blocks) : Stmt → Blocks
  | .declare name _ => blocks.declare name.value
  | _ => blocks

end Blocks

inductive BoundExpr where
  | literal (value : Value)
  | group (inner : BoundExpr)
  | unary (operator : Token) (right : BoundExpr)
  | binary (left : BoundExpr) (operator : Token) (right : BoundExpr)
  | logical (left : BoundExpr) (operator : Token) (right : BoundExpr)
  | var (name : Token) (distance : Option Nat)
  | assign (name : Token) (distance : Option Nat) (value : BoundExpr)
  | unknown (label : String)
  | cut

inductive BoundStmt where
  | expression (e : BoundExpr)
  | print (e : BoundExpr)
  | declare (name : Token) (initial : BoundExpr)
  | block (body : List BoundStmt)
  | ifThen (condition : BoundExpr) (yes : BoundStmt)
  | ifElse (condition : BoundExpr) (yes no : BoundStmt)
  | loop (condition : BoundExpr) (body : BoundStmt)
  | bare (e : BoundExpr)
  | unknown (label : String)
  | cut

def Expr.resolve (blocks : Blocks) : Expr → BoundExpr
  | .literal v => .literal v
  | .group e => .group (e.resolve blocks)
  | .unary op r => .unary op (r.resolve blocks)
  | .binary l op r => .binary (l.resolve blocks) op (r.resolve blocks)
  | .logical l op r => .logical (l.resolve blocks) op (r.resolve blocks)
  | .var name => .var name (blocks.distance? name.value)
  | .assign name e => .assign name (blocks.distance? name.value) (e.resolve blocks)
  | .unknown label => .unknown label
  | .cut => .cut

mutual

/-- Binds every use of a name in the statement, given what is declared around it. -/
def Stmt.resolve (blocks : Blocks) : Stmt → BoundStmt
  | .expression e => .expression (e.resolve blocks)
  | .print e => .print (e.resolve blocks)
  | .declare name e => .declare name (e.resolve blocks)
  | .block body => .block (Stmt.resolveAll ([] :: blocks) body)
  | .ifThen c yes => .ifThen (c.resolve blocks) (yes.resolve blocks)
  | .ifElse c yes no => .ifElse (c.resolve blocks) (yes.resolve blocks) (no.resolve blocks)
  | .loop c body => .loop (c.resolve blocks) (body.resolve blocks)
  | .bare e => .bare (e.resolve blocks)
  | .unknown label => .unknown label
  | .cut => .cut

def Stmt.resolveAll (blocks : Blocks) : List Stmt → List BoundStmt
  | [] => []
  | stmt :: rest => stmt.resolve blocks :: Stmt.resolveAll (blocks.after stmt) rest

end

def resolveProgram (program : List Stmt) : List BoundStmt := Stmt.resolveAll [[]] program

def BoundExpr.plain : BoundExpr → Expr
  | .literal v => .literal v
  | .group e => .group e.plain
  | .unary op r => .unary op r.plain
  | .binary l op r => .binary l.plain op r.plain
  | .logical l op r => .logical l.plain op r.plain
  | .var name _ => .var name
  | .assign name _ e => .assign name e.plain
  | .unknown label => .unknown label
  | .cut => .cut

mutual

def BoundStmt.plain : BoundStmt → Stmt
  | .expression e => .expression e.plain
  | .print e => .print e.plain
  | .declare name e => .declare name e.plain
  | .block body => .block (BoundStmt.plainAll body)
  | .ifThen c yes => .ifThen c.plain yes.plain
  | .ifElse c yes no => .ifElse c.plain yes.plain no.plain
  | .loop c body => .loop c.plain body.plain
  | .bare e => .bare e.plain
  | .unknown label => .unknown label
  | .cut => .cut

def BoundStmt.plainAll : List BoundStmt → List Stmt
  | [] => []
  | stmt :: rest => stmt.plain :: BoundStmt.plainAll rest

end

def BoundExpr.cutAt (costs : Costs) : Nat → BoundExpr → BoundExpr
  | 0, _ => .cut
  | n + 1, .group e => .group (e.cutAt costs n)
  | n + 1, .unary op r => .unary op (r.cutAt costs (n - costs.operator))
  | n + 1, .binary l op r =>
    .binary (l.cutAt costs (n - costs.operator)) op (r.cutAt costs (n - costs.operator))
  | n + 1, .logical l op r =>
    .logical (l.cutAt costs (n - costs.operator)) op (r.cutAt costs (n - costs.operator))
  | n + 1, .assign name distance e => .assign name distance (e.cutAt costs n)
  | _ + 1, .literal v => .literal v
  | _ + 1, .var name distance => .var name distance
  | _ + 1, .unknown label => .unknown label
  | _ + 1, .cut => .cut

mutual

def BoundStmt.cutAt (costs : Costs) : Nat → BoundStmt → BoundStmt
  | 0, _ => .cut
  | n + 1, .expression e => .expression (e.cutAt costs (n - costs.statement))
  | n + 1, .print e => .print (e.cutAt costs (n - costs.statement))
  | n + 1, .declare name e => .declare name (e.cutAt costs (n - costs.statement))
  | n + 1, .block body => .block (BoundStmt.cutAllAt costs (n - costs.block) body)
  | n + 1, .ifThen c yes =>
    .ifThen (c.cutAt costs (n - costs.statement)) (yes.cutAt costs (n - costs.statement))
  | n + 1, .ifElse c yes no =>
    .ifElse (c.cutAt costs (n - costs.statement)) (yes.cutAt costs (n - costs.statement))
      (no.cutAt costs (n - costs.statement))
  | n + 1, .loop c body =>
    .loop (c.cutAt costs (n - costs.statement)) (body.cutAt costs (n - costs.statement))
  | n + 1, .bare e => .bare (e.cutAt costs (n + 1))
  | _ + 1, .unknown label => .unknown label
  | _ + 1, .cut => .cut

def BoundStmt.cutAllAt (costs : Costs) : Nat → List BoundStmt → List BoundStmt
  | _, [] => []
  | n, stmt :: rest => stmt.cutAt costs n :: BoundStmt.cutAllAt costs n rest

end

namespace Scope

def home? (s : Scope) (name : Name) : Option Nat := s.frames.findIdx? (·.has name)

def getAt? (s : Scope) (position : Nat) (name : Name) : Option Value :=
  s.frames[position]?.bind (·.get? name)

def setAt (s : Scope) (name : Name) (value : Value) : Nat → Scope
  | 0 => s.define name value
  | position + 1 => { s with outer := s.outer.modify position (·.set name value) }

end Scope

namespace Resolution

open Evaluation

def lookupAt (name : Token) (distance : Option Nat) (scope : Scope) : Result :=
  match distance.bind fun position => scope.getAt? position name.value with
  | some v => (.ok v, scope)
  | none => (.error (.misuse .undefinedVariable name.line), scope)

def storeAt (name : Token) (distance : Option Nat) (v : Value) (scope : Scope) : Result :=
  match distance with
  | some position => (.ok v, scope.setAt name.value v position)
  | none => (.error (.misuse .undefinedVariable name.line), scope)

def eval : BoundExpr → Scope → Result
  | .literal v, scope => (.ok v, scope)
  | .group e, scope => eval e scope
  | .unary op r, scope => (eval r scope).andThen fun v scope => (applyUnary op v, scope)
  | .binary l op r, scope =>
    (eval l scope).andThen fun left scope =>
      (eval r scope).andThen fun right scope => (applyBinary op left right, scope)
  | .logical l op r, scope =>
    (eval l scope).andThen fun left scope =>
      if decides op left then (.ok left, scope) else eval r scope
  | .var name distance, scope => lookupAt name distance scope
  | .assign name distance e, scope => (eval e scope).andThen (storeAt name distance)
  | .unknown label, scope => (.error (.unknownExpression label), scope)
  | .cut, scope => (.error .tooMuchNesting, scope)

def withValue (e : BoundExpr) (s : State) (f : Value → State → Run) : Run :=
  match eval e s.scope with
  | (.ok v, scope) => f v { s with scope }
  | (.error fault, scope) => (.failed fault, { s with scope })

def repeatWhile (condition : BoundExpr) (body : State → Run) : Nat → State → Run
  | 0, s => (.outOfFuel, s)
  | n + 1, s =>
    withValue condition s fun v s =>
      if v.truthy then (body s).andThen (repeatWhile condition body n) else (.completed, s)

mutual

def exec (fuel : Nat) : BoundStmt → State → Run
  | .expression e, s => withValue e s fun _ s => (.completed, s)
  | .print e, s =>
    withValue e s fun v s => (.completed, { s with printed := s.printed.push v.display })
  | .declare name e, s =>
    withValue e s fun v s => (.completed, { s with scope := s.scope.define name.value v })
  | .block body, s => inFrame s (execAll fuel body)
  | .ifThen c yes, s =>
    withValue c s fun v s => if v.truthy then exec fuel yes s else (.completed, s)
  | .ifElse c yes no, s =>
    withValue c s fun v s => if v.truthy then exec fuel yes s else exec fuel no s
  | .loop c body, s => repeatWhile c (exec fuel body) fuel s
  | .bare e, s => (.failed (.unknownStatement e.plain.label), s)
  | .unknown label, s => (.failed (.unknownStatement label), s)
  | .cut, s => (.failed .tooMuchNesting, s)

def execAll (fuel : Nat) : List BoundStmt → State → Run
  | [], s => (.completed, s)
  | stmt :: rest, s => (exec fuel stmt s).andThen (execAll fuel rest)

end

def interpretWithin (room fuel : Nat) (program : List BoundStmt) (scope : Scope) : Run :=
  (execAll fuel (BoundStmt.cutAllAt costs room program) ⟨scope, #[]⟩).handled scope.depth

/-- A use of a name: where it is bound to, and the scope in which it was evaluated. -/
structure Access where
  name : Token
  distance : Option Nat
  scope : Scope

def behindResult (r : Result) (f : Value → Scope → List Access) : List Access :=
  match r with
  | (.ok v, scope) => f v scope
  | (.error _, _) => []

def behindRun (r : Run) (f : State → List Access) : List Access :=
  match r with
  | (.completed, s) => f s
  | _ => []

def logExpr : BoundExpr → Scope → List Access
  | .group e, scope => logExpr e scope
  | .unary _ r, scope => logExpr r scope
  | .binary l _ r, scope =>
    logExpr l scope ++
      behindResult (Evaluation.eval l.plain scope) fun _ scope => logExpr r scope
  | .logical l op r, scope =>
    logExpr l scope ++
      behindResult (Evaluation.eval l.plain scope) fun left scope =>
        if decides op left then [] else logExpr r scope
  | .var name distance, scope => [⟨name, distance, scope⟩]
  | .assign name distance e, scope =>
    logExpr e scope ++
      behindResult (Evaluation.eval e.plain scope) fun _ scope => [⟨name, distance, scope⟩]
  | _, _ => []

def logValue (e : BoundExpr) (s : State) (f : Value → State → List Access) : List Access :=
  logExpr e s.scope ++
    behindResult (Evaluation.eval e.plain s.scope) fun v scope => f v { s with scope }

def logRounds (condition : BoundExpr) (body : State → Run) (round : State → List Access) :
    Nat → State → List Access
  | 0, _ => []
  | n + 1, s =>
    logValue condition s fun v s =>
      if v.truthy then round s ++ behindRun (body s) (logRounds condition body round n) else []

mutual

def logStmt (fuel : Nat) : BoundStmt → State → List Access
  | .expression e, s | .print e, s | .declare _ e, s => logExpr e s.scope
  | .block body, s => logAll fuel body { s with scope := s.scope.enter }
  | .ifThen c yes, s =>
    logValue c s fun v s => if v.truthy then logStmt fuel yes s else []
  | .ifElse c yes no, s =>
    logValue c s fun v s => if v.truthy then logStmt fuel yes s else logStmt fuel no s
  | .loop c body, s => logRounds c (Evaluation.exec fuel body.plain) (logStmt fuel body) fuel s
  | _, _ => []

def logAll (fuel : Nat) : List BoundStmt → State → List Access
  | [], _ => []
  | stmt :: rest, s =>
    logStmt fuel stmt s ++ behindRun (Evaluation.exec fuel stmt.plain s) (logAll fuel rest)

end

def log (fuel : Nat) (program : List BoundStmt) : List Access :=
  logAll fuel program ⟨.empty, #[]⟩

end Resolution

end Lox
