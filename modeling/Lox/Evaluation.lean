import Lox.Fault
import Lox.Scope
import Lox.Tree

/-!
Running programs. An expression is evaluated from left to right and gives a value or a fault, and in
either case the scope as the assignments on the way have left it. A statement changes the scope,
prints lines, and ends in one of three ways: it completes, a fault stops it, or it runs out of fuel.
Fuel bounds the rounds of each loop and nothing else, so that a run which ends at all ends the same
way with any larger amount.
-/

namespace Lox.Evaluation

def applyUnary (operator : Token) (right : Value) : Except Fault Value :=
  match operator.kind, right with
  | .minus, .number x => .ok (.number (-x))
  | .minus, _ => .error (.misuse .operand operator.line)
  | _, v => .ok (.bool (!v.truthy))

/-- Division as the host has it, which refuses to divide by zero. -/
def quotient (x y : Float) : Except Fault Float :=
  if y == 0 then .error .divisionByZero else .ok (x / y)

def infinity : Float := Float.ofBits 0x7FF0000000000000

def notANumber : Float := Float.ofBits 0x7FF8000000000000

def copySign (x y : Float) : Float :=
  Float.ofBits ((x.toBits &&& 0x7FFFFFFFFFFFFFFF) ||| (y.toBits &&& 0x8000000000000000))

/-- Nothing but a zero or a NaN is left undefined by a zero that divides it. -/
def divide (x y : Float) : Except Fault Float :=
  if y != 0 then quotient x y
  else if x == 0 || x.isNaN then .ok notANumber
  else .ok (copySign infinity x * copySign 1 y)

theorem quotient_ok {x y : Float} (h : (y != 0) = true) : quotient x y = .ok (x / y) := by
  have hzero : (y == 0) = false := Bool.not_eq_true' _ |>.mp h
  rw [quotient, hzero]
  rfl

/-- The host is never asked to divide by zero. -/
theorem divide_ok (x y : Float) : ∃ z, divide x y = .ok z := by
  unfold divide
  split
  · next h => exact ⟨x / y, quotient_ok h⟩
  · split
    · exact ⟨notANumber, rfl⟩
    · exact ⟨_, rfl⟩

def applyNumeric (kind : Kind) (x y : Float) : Except Fault Value :=
  match kind with
  | .minus => .ok (.number (x - y))
  | .star => .ok (.number (x * y))
  | .slash => do return .number (← divide x y)
  | .greater => .ok (.bool (y < x))
  | .greaterEqual => .ok (.bool (y ≤ x))
  | .less => .ok (.bool (x < y))
  | .lessEqual => .ok (.bool (x ≤ y))
  | _ => .error (.unknownOperator kind)

theorem applyNumeric_slash (x y : Float) : ∃ z, applyNumeric .slash x y = .ok (.number z) := by
  obtain ⟨z, hz⟩ := divide_ok x y
  exact ⟨z, by rw [applyNumeric, hz]; rfl⟩

def applyToNumbers (operator : Token) (left right : Value) : Except Fault Value :=
  match left, right with
  | .number x, .number y => applyNumeric operator.kind x y
  | .number _, _ => .error (.misuse .rightOperand operator.line)
  | _, _ => .error (.misuse .leftOperand operator.line)

def applyPlus (operator : Token) (left right : Value) : Except Fault Value :=
  match left, right with
  | .number x, .number y => .ok (.number (x + y))
  | .text s, .text t => .ok (.text (s ++ t))
  | _, _ => .error (.misuse .addition operator.line)

def applyBinary (operator : Token) (left right : Value) : Except Fault Value :=
  match operator.kind with
  | .equalEqual => .ok (.bool (left.same right))
  | .bangEqual => .ok (.bool (!left.same right))
  | .plus => applyPlus operator left right
  | _ => applyToNumbers operator left right

/-- Whether the left operand is the result: a true one of an `or`, a false one of anything else. -/
def decides (operator : Token) (left : Value) : Bool :=
  if operator.kind = .or_ then left.truthy else !left.truthy

abbrev Result := Except Fault Value × Scope

@[inline] def Result.andThen (r : Result) (f : Value → Scope → Result) : Result :=
  match r with
  | (.ok v, scope) => f v scope
  | (.error fault, scope) => (.error fault, scope)

def lookup (name : Token) (scope : Scope) : Result :=
  match scope.get? name.value with
  | some v => (.ok v, scope)
  | none => (.error (.misuse .undefinedVariable name.line), scope)

def store (name : Token) (v : Value) (scope : Scope) : Result :=
  match scope.assign? name.value v with
  | some scope => (.ok v, scope)
  | none => (.error (.misuse .undefinedVariable name.line), scope)

def eval : Expr → Scope → Result
  | .literal v, scope => (.ok v, scope)
  | .group e, scope => eval e scope
  | .unary op r, scope => (eval r scope).andThen fun v scope => (applyUnary op v, scope)
  | .binary l op r, scope =>
    (eval l scope).andThen fun left scope =>
      (eval r scope).andThen fun right scope => (applyBinary op left right, scope)
  | .logical l op r, scope =>
    (eval l scope).andThen fun left scope =>
      if decides op left then (.ok left, scope) else eval r scope
  | .var name, scope => lookup name scope
  | .assign name e, scope => (eval e scope).andThen (store name)
  | .unknown label, scope => (.error (.unknownExpression label), scope)
  | .cut, scope => (.error .tooMuchNesting, scope)

structure State where
  scope : Scope
  printed : Array String
  deriving DecidableEq, Repr

inductive Outcome where
  | completed
  | failed (fault : Fault)
  | outOfFuel
  deriving DecidableEq, Repr

abbrev Run := Outcome × State

@[inline] def Run.andThen (r : Run) (f : State → Run) : Run :=
  match r with
  | (.completed, s) => f s
  | (.failed fault, s) => (.failed fault, s)
  | (.outOfFuel, s) => (.outOfFuel, s)

@[inline] def withValue (e : Expr) (s : State) (f : Value → State → Run) : Run :=
  match eval e s.scope with
  | (.ok v, scope) => f v { s with scope }
  | (.error fault, scope) => (.failed fault, { s with scope })

/-- Runs something in a frame of its own, which is gone however the run ends. -/
@[inline] def inFrame (s : State) (f : State → Run) : Run :=
  let (outcome, after) := f { s with scope := s.scope.enter }
  (outcome, { after with scope := after.scope.leave })

def repeatWhile (condition : Expr) (body : State → Run) : Nat → State → Run
  | 0, s => (.outOfFuel, s)
  | fuel + 1, s =>
    withValue condition s fun v s =>
      if v.truthy then
        match body s with
        | (.completed, s) => repeatWhile condition body fuel s
        | stopped => stopped
      else (.completed, s)

mutual

def exec (fuel : Nat) : Stmt → State → Run
  | .expression e, s => withValue e s fun _ s => (.completed, s)
  | .print e, s =>
    withValue e s fun v s => (.completed, { s with printed := s.printed.push v.display })
  | .declare name e, s =>
    withValue e s fun v s => (.completed, { s with scope := s.scope.define name.value v })
  | .block body, s => inFrame s (execAll fuel body)
  | .ifThen c yes, s =>
    withValue c s fun v s => if v.truthy then exec fuel yes s else (.completed, s)
  | .ifElse c yes no, s =>
    withValue c s fun v s => if v.truthy then exec fuel yes s else exec fuel no s
  | .loop c body, s => repeatWhile c (exec fuel body) fuel s
  | .bare e, s => (.failed (.unknownStatement e.label), s)
  | .unknown label, s => (.failed (.unknownStatement label), s)
  | .cut, s => (.failed .tooMuchNesting, s)

def execAll (fuel : Nat) : List Stmt → State → Run
  | [], s => (.completed, s)
  | stmt :: rest, s =>
    match exec fuel stmt s with
    | (.completed, s) => execAll fuel rest s
    | stopped => stopped

end

def costs : Costs := ⟨1, 1, 0⟩

/-- What is left of a thousand calls for the statements of a program that is run by itself. -/
def usualRoom : Nat := 993

/-- What becomes of a run where the calls have run out: blocks may have failed to leave their frames
on the way out, and those beyond `depth` are taken away. -/
def Run.handled (depth : Nat) : Run → Run
  | (.failed .tooMuchNesting, s) =>
    (.failed .tooMuchNesting, { s with scope := s.scope.unwind depth })
  | r => r

def interpretWithin (room fuel : Nat) (program : List Stmt) (scope : Scope) : Run :=
  (execAll fuel (Stmt.cutAllAt costs room program) ⟨scope, #[]⟩).handled scope.depth

def interpret (fuel : Nat) (program : List Stmt) (scope : Scope) : Run :=
  interpretWithin usualRoom fuel program scope

/-- The kinds of the statements that a run executes. A journal follows the run without taking part
in it. -/
abbrev Journal := Array String

@[inline] def journalValue (e : Expr) (s : State) (journal : Journal)
    (f : Value → State → Journal) : Journal :=
  match eval e s.scope with
  | (.ok v, scope) => f v { s with scope }
  | (.error _, _) => journal

def journalRounds (condition : Expr) (body : State → Run) (round : State → Journal → Journal) :
    Nat → State → Journal → Journal
  | 0, _, journal => journal
  | fuel + 1, s, journal =>
    journalValue condition s journal fun v s =>
      if v.truthy then
        let journal := round s journal
        match body s with
        | (.completed, s) => journalRounds condition body round fuel s journal
        | _ => journal
      else journal

mutual

def journalStmt (fuel : Nat) : Stmt → State → Journal → Journal
  | .block body, s, journal =>
    journalAll fuel body { s with scope := s.scope.enter } (journal.push "Block")
  | .ifThen c yes, s, journal =>
    let journal := journal.push "If"
    journalValue c s journal fun v s => if v.truthy then journalStmt fuel yes s journal else journal
  | .ifElse c yes no, s, journal =>
    let journal := journal.push "If"
    journalValue c s journal fun v s =>
      if v.truthy then journalStmt fuel yes s journal else journalStmt fuel no s journal
  | .loop c body, s, journal =>
    journalRounds c (exec fuel body) (journalStmt fuel body) fuel s (journal.push "While")
  | .cut, _, journal => journal
  | stmt, _, journal => journal.push stmt.label

def journalAll (fuel : Nat) : List Stmt → State → Journal → Journal
  | [], _, journal => journal
  | stmt :: rest, s, journal =>
    let journal := journalStmt fuel stmt s journal
    match exec fuel stmt s with
    | (.completed, s) => journalAll fuel rest s journal
    | _ => journal

end

def journalWithin (room fuel : Nat) (program : List Stmt) (scope : Scope) : Journal :=
  journalAll fuel (Stmt.cutAllAt costs room program) ⟨scope, #[]⟩ #[]

end Lox.Evaluation
