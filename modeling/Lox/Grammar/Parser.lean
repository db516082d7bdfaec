import Lox.Fault
import Lox.Tree

/-!
Tokens to trees, by recursive descent. From loose to tight, an expression is an assignment, an `or`,
an `and`, an equality, a comparison, a sum, a product, a signed operand, a primary; the first and
the signs nest to the right, the others lean to the left.

A parser takes the tokens before the end mark and gives what it has read with the tokens that are
left. Every construct is read by calls of its own, one inside the other: `room` is how many of them
may still be nested, and each construct takes as many as it needs before it comes to its parts. That
bounds the nesting of a program and makes the recursion structural.

After a fault the program is taken up again at the next place where a statement is likely to start,
so that one pass reports every fault.
-/

namespace Lox.Grammar

structure Failure where
  fault : Fault
  line : Int
  rest : List Token
  deriving DecidableEq, Repr

/-- What is known of the tokens as a whole: the line of the end mark, and a number that is not less
than theirs, which bounds every repetition. -/
structure Context where
  endLine : Int
  size : Nat
  deriving DecidableEq, Repr

abbrev Parser (α : Type) := List Token → Except Failure (α × List Token)

def lineAt (ctx : Context) : List Token → Int
  | [] => ctx.endLine
  | t :: _ => t.line

def fail {α : Type} (ctx : Context) (fault : Fault) : Parser α := fun ts =>
  .error ⟨fault, lineAt ctx ts, ts⟩

def take? (wanted : List Kind) : List Token → Option (Token × List Token)
  | [] => none
  | t :: ts => if t.kind ∈ wanted then some (t, ts) else none

def expect (ctx : Context) (kind : Kind) (fault : Fault) : Parser Token := fun ts =>
  match take? [kind] ts with
  | some (t, rest) => .ok (t, rest)
  | none => fail ctx fault ts

/-- Joins operands to `left` for as long as one of the operators follows, at most the given number
of times. -/
def chain (operators : List Kind) (join : Expr → Token → Expr → Expr) (operand : Parser Expr) :
    Nat → Expr → Parser Expr
  | 0, left, ts => .ok (left, ts)
  | n + 1, left, ts =>
    match take? operators ts with
    | none => .ok (left, ts)
    | some (op, ts) => do
      let (right, ts) ← operand ts
      chain operators join operand n (join left op right) ts

def tier (ctx : Context) (operators : List Kind) (join : Expr → Token → Expr → Expr)
    (operand : Parser Expr) : Parser Expr := fun ts => do
  let (left, ts) ← operand ts
  chain operators join operand ctx.size left ts

def product (ctx : Context) (operand : Parser Expr) : Parser Expr :=
  tier ctx [.slash, .star] .binary operand

def sum (ctx : Context) (operand : Parser Expr) : Parser Expr :=
  tier ctx [.minus, .plus] .binary (product ctx operand)

def comparison (ctx : Context) (operand : Parser Expr) : Parser Expr :=
  tier ctx [.greater, .greaterEqual, .less, .lessEqual] .binary (sum ctx operand)

def equality (ctx : Context) (operand : Parser Expr) : Parser Expr :=
  tier ctx [.bangEqual, .equalEqual] .binary (comparison ctx operand)

def conjunction (ctx : Context) (operand : Parser Expr) : Parser Expr :=
  tier ctx [.and_] .logical (equality ctx operand)

def disjunction (ctx : Context) (operand : Parser Expr) : Parser Expr :=
  tier ctx [.or_] .logical (conjunction ctx operand)

def primary (ctx : Context) (inner : Parser Expr) : Parser Expr := fun ts =>
  match ts with
  | [] => fail ctx .expression []
  | t :: rest =>
    match t.kind with
    | .true_ => .ok (.literal (.bool true), rest)
    | .false_ => .ok (.literal (.bool false), rest)
    | .nil_ => .ok (.literal .nil, rest)
    | .number | .string => .ok (.literal t.value, rest)
    | .identifier => .ok (.var t, rest)
    | .leftParen => do
      let (e, rest) ← inner rest
      let (_, rest) ← expect ctx .rightParen .parenAfterExpression rest
      return (.group e, rest)
    | _ => fail ctx .expression ts

def assignTo (target : Expr) (equals : Token) (value : Expr) : Parser Expr := fun ts =>
  match target with
  | .var name => .ok (.assign name value, ts)
  | _ => .error ⟨.assignmentTarget, equals.line, ts⟩

def assignment (ctx : Context) (operand next : Parser Expr) : Parser Expr := fun ts => do
  let (target, ts) ← disjunction ctx operand ts
  match take? [.equal] ts with
  | none => return (target, ts)
  | some (equals, ts) => do
    let (value, ts) ← next ts
    assignTo target equals value ts

def signedOperand (ctx : Context) (next inner : Parser Expr) : Parser Expr := fun ts =>
  match take? [.bang, .minus] ts with
  | some (op, ts) => do
    let (right, ts) ← next ts
    return (.unary op right, ts)
  | none => primary ctx inner ts

mutual

-- Thirteen calls lead from an expression to a primary: eight tiers, four of them with one more for
-- their list of operators, and the primary.
def expression (ctx : Context) : Nat → Parser Expr
  | room + 13 => assignment ctx (signed ctx room) (expression ctx (room + 12))
  | _ => fail ctx .tooMuchNesting

def signed (ctx : Context) : Nat → Parser Expr
  | 0 => fail ctx .tooMuchNesting
  | room + 1 => signedOperand ctx (signed ctx room) (expression ctx room)

end

theorem expression_of_lt (ctx : Context) {room : Nat} (h : room < 13) :
    expression ctx room = fail ctx .tooMuchNesting := by
  unfold expression
  split
  · omega
  · rfl

theorem expression_add (ctx : Context) (room : Nat) :
    expression ctx (room + 13) = assignment ctx (signed ctx room) (expression ctx (room + 12)) :=
  rfl

theorem expression_cases (ctx : Context) (room : Nat) :
    expression ctx room = fail ctx .tooMuchNesting ∨
      ∃ m n, expression ctx room = assignment ctx (signed ctx m) (expression ctx n) := by
  rcases Nat.lt_or_ge room 13 with h | h
  · exact Or.inl (expression_of_lt ctx h)
  · obtain ⟨n, rfl⟩ : ∃ n, room = n + 13 := ⟨room - 13, by omega⟩
    exact Or.inr ⟨n, n + 12, expression_add ctx n⟩

/-- Expressions are read as deep as there is room, and so are signed operands. -/
theorem expression_induction {P Q : Nat → Prop} (hfull : ∀ room, room < 13 → P room)
    (hassignment : ∀ room, Q room → P (room + 12) → P (room + 13)) (hnone : Q 0)
    (hsigned : ∀ room, Q room → P room → Q (room + 1)) (room : Nat) : P room ∧ Q room := by
  induction room using Nat.strongRecOn with
  | ind room ih =>
    refine ⟨?_, ?_⟩
    · rcases Nat.lt_or_ge room 13 with h | h
      · exact hfull room h
      · obtain ⟨n, rfl⟩ : ∃ n, room = n + 13 := ⟨room - 13, by omega⟩
        exact hassignment n (ih n (by omega)).2 (ih (n + 12) (by omega)).1
    · cases room with
      | zero => exact hnone
      | succ n => exact hsigned n (ih n (by omega)).2 (ih n (by omega)).1

def optional (stop : Kind) (item : Parser Expr) : Parser (Option Expr) := fun ts =>
  match take? [stop] ts with
  | some _ => .ok (none, ts)
  | none => do
    let (e, ts) ← item ts
    return (some e, ts)

def value (ctx : Context) (item : Parser Expr) : Parser Expr := fun ts => do
  let (e, ts) ← item ts
  let (_, ts) ← expect ctx .semicolon .semicolonAfterValue ts
  return (e, ts)

def expressionStatement (ctx : Context) (item : Parser Expr) : Parser Stmt := fun ts => do
  let (e, ts) ← value ctx item ts
  return (.expression e, ts)

def printStatement (ctx : Context) (item : Parser Expr) : Parser Stmt := fun ts => do
  let (e, ts) ← value ctx item ts
  return (.print e, ts)

def variableDeclaration (ctx : Context) (item : Parser Expr) : Parser Stmt := fun ts => do
  let (name, ts) ← expect ctx .identifier .variableName ts
  let (initial, ts) ← match take? [.equal] ts with
    | some (_, ts) => item ts
    | none => .ok (.literal .nil, ts)
  let (_, ts) ← expect ctx .semicolon .semicolonAfterDeclaration ts
  return (.declare name initial, ts)

def loopStart (ctx : Context) (item : Parser Expr) : Parser (Option Stmt) := fun ts =>
  match take? [.semicolon] ts with
  | some (_, ts) => .ok (none, ts)
  | none => do
    let (s, ts) ← match take? [.var_] ts with
      | some (_, ts) => variableDeclaration ctx item ts
      | none => expressionStatement ctx item ts
    return (some s, ts)

def forStatement (ctx : Context) (first item : Parser Expr) (body : Parser Stmt) : Parser Stmt :=
  fun ts => do
  let (_, ts) ← expect ctx .leftParen .parenAfterFor ts
  let (start, ts) ← loopStart ctx first ts
  let (condition, ts) ← optional .semicolon item ts
  let (_, ts) ← expect ctx .semicolon .semicolonAfterLoopCondition ts
  let (step, ts) ← optional .rightParen item ts
  let (_, ts) ← expect ctx .rightParen .parenAfterForClauses ts
  let (round, ts) ← body ts
  return (Stmt.forLoop start condition step round, ts)

/-- What follows `if`. An `else` belongs to the nearest `if` before it. -/
def ifStatement (ctx : Context) (item : Parser Expr) (branch : Parser Stmt) : Parser Stmt :=
  fun ts => do
  let (_, ts) ← expect ctx .leftParen .parenAfterIf ts
  let (condition, ts) ← item ts
  let (_, ts) ← expect ctx .rightParen .parenAfterIfCondition ts
  let (yes, ts) ← branch ts
  match take? [.else_] ts with
  | none => return (.ifThen condition yes, ts)
  | some (_, ts) => do
    let (no, ts) ← branch ts
    return (.ifElse condition yes no, ts)

def whileStatement (ctx : Context) (item : Parser Expr) (body : Parser Stmt) : Parser Stmt :=
  fun ts => do
  let (_, ts) ← expect ctx .leftParen .parenAfterWhile ts
  let (condition, ts) ← item ts
  let (_, ts) ← expect ctx .rightParen .parenAfterCondition ts
  let (round, ts) ← body ts
  return (.loop condition round, ts)

def declaration (ctx : Context) (item : Parser Expr) (other : Parser Stmt) : Parser Stmt :=
  fun ts =>
  match take? [.var_] ts with
  | some (_, ts) => variableDeclaration ctx item ts
  | none => other ts

def blockBody (ctx : Context) (item : Parser Stmt) : Nat → Parser (List Stmt)
  | 0, ts => fail ctx .braceAfterBlock ts
  | _ + 1, [] => fail ctx .braceAfterBlock []
  | n + 1, t :: ts =>
    if t.kind = .rightBrace then .ok ([], ts)
    else do
      let (s, ts) ← item (t :: ts)
      let (body, ts) ← blockBody ctx item n ts
      return (s :: body, ts)

/-- A statement whose parts are read by the given parsers: `first` reads the expression at the start
of a loop head and `item` any other, `inner` a statement and `member` what stands in a block. -/
def sentence (ctx : Context) (first item : Parser Expr) (inner member : Parser Stmt) :
    Parser Stmt := fun ts =>
  match ts with
  | [] => expressionStatement ctx item []
  | t :: rest =>
    match t.kind with
    | .for_ => forStatement ctx first item inner rest
    | .if_ => ifStatement ctx item inner rest
    | .print_ => printStatement ctx item rest
    | .while_ => whileStatement ctx item inner rest
    | .leftBrace => do
      let (body, rest) ← blockBody ctx member ctx.size rest
      return (.block body, rest)
    | _ => expressionStatement ctx item ts

-- The word of a statement takes a call beside that for the statement, an opening brace two.
def statement (ctx : Context) : Nat → Parser Stmt
  | room + 3 =>
    sentence ctx (expression ctx room) (expression ctx (room + 1)) (statement ctx (room + 1))
      (declaration ctx (expression ctx (room - 1)) (statement ctx room))
  | _ => fail ctx .tooMuchNesting

def entry (ctx : Context) (room : Nat) : Parser Stmt :=
  declaration ctx (expression ctx (room - 1)) (statement ctx room)

theorem statement_of_lt (ctx : Context) {room : Nat} (h : room < 3) :
    statement ctx room = fail ctx .tooMuchNesting := by
  unfold statement
  split
  · omega
  · rfl

theorem statement_add (ctx : Context) (room : Nat) :
    statement ctx (room + 3) =
      sentence ctx (expression ctx room) (expression ctx (room + 1)) (statement ctx (room + 1))
        (entry ctx room) :=
  rfl

theorem statement_cases (ctx : Context) (room : Nat) :
    statement ctx room = fail ctx .tooMuchNesting ∨
      ∃ j k m n, statement ctx room =
        sentence ctx (expression ctx j) (expression ctx k) (statement ctx m) (entry ctx n) := by
  rcases Nat.lt_or_ge room 3 with h | h
  · exact Or.inl (statement_of_lt ctx h)
  · obtain ⟨n, rfl⟩ : ∃ n, room = n + 3 := ⟨room - 3, by omega⟩
    exact Or.inr ⟨n, n + 1, n + 1, n, statement_add ctx n⟩

theorem statement_induction {P : Nat → Prop} (hfull : ∀ room, room < 3 → P room)
    (hsentence : ∀ room, P (room + 1) → P room → P (room + 3)) (room : Nat) : P room := by
  induction room using Nat.strongRecOn with
  | ind room ih =>
    rcases Nat.lt_or_ge room 3 with h | h
    · exact hfull room h
    · obtain ⟨n, rfl⟩ : ∃ n, room = n + 3 := ⟨room - 3, by omega⟩
      exact hsentence n (ih (n + 1) (by omega)) (ih n (by omega))

def statementStarts : List Kind :=
  [.class_, .fun_, .var_, .for_, .if_, .while_, .print_, .return_]

/-- The tokens from the next likely start of a statement, where `last` was the last one passed over:
behind a semicolon or before a word that starts a statement. -/
def resume (last : Token) : List Token → List Token
  | [] => []
  | t :: ts =>
    if last.kind = .semicolon ∨ t.kind ∈ statementStarts then t :: ts else resume t ts

def synchronize : List Token → List Token
  | [] => []
  | t :: ts => resume t ts

/-- The statements that could be read and the errors of those that could not, in order. Nesting that
is too deep ends the reading. -/
def declarations (ctx : Context) (room : Nat) : Nat → List Token → List Stmt × List Error
  | 0, _ => ([], [])
  | _ + 1, [] => ([], [])
  | n + 1, t :: ts =>
    match entry ctx room (t :: ts) with
    | .ok (s, rest) =>
      let (statements, errors) := declarations ctx room n rest
      (s :: statements, errors)
    | .error failure =>
      let error : Error := ⟨failure.fault, failure.line⟩
      if failure.fault = .tooMuchNesting then ([], [error])
      else
        let (statements, errors) := declarations ctx room n (synchronize failure.rest)
        (statements, error :: errors)

def body (tokens : List Token) : List Token := tokens.takeWhile (·.kind ≠ .eof)

def endLine (tokens : List Token) : Int :=
  match tokens.find? (·.kind = .eof), tokens.getLast? with
  | some t, _ => t.line
  | none, some t => t.line
  | none, none => 1

/-- The program that the tokens before the end mark spell, if the given number of nested calls is
enough to read it. -/
def parseWithin (room : Nat) (tokens : List Token) : Except Errors (List Stmt) :=
  let ts := body tokens
  let ctx : Context := ⟨endLine tokens, ts.length⟩
  match declarations ctx room ctx.size ts with
  | (statements, []) => .ok statements
  | (_, first :: others) => .error ⟨first, others⟩

/-- What is left of a thousand calls for the statements of a program that is only read. -/
def usualRoom : Nat := 990

def parse (tokens : List Token) : Except Errors (List Stmt) := parseWithin usualRoom tokens

end Lox.Grammar
