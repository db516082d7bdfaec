import Lox.Grammar.Parser

/-!
# Parsing by an index

The parser once more, over the whole list of tokens and an index that says which of them is next.
Where the list has run out an end mark is made up, what was read last is found by counting back from
the index, and a failure leaves the index where it is. Nothing here knows where the program ends but
by looking at the next token.
-/

namespace Lox.Grammar

/-- Why a part of the walk ends without a result: an error of the program, nesting that is too deep,
or a slip of the walk itself, which looks for a token that is not there or repeats without end. -/
inductive Signal where
  | wrong (fault : Fault) (line : Int)
  | tooDeep
  | outOfRange
  | endless
  deriving DecidableEq, Repr

def Walk (α : Type) : Type := Nat → Except Signal α × Nat

namespace Walk

instance : Monad Walk where
  pure a i := (.ok a, i)
  bind w f i :=
    match w i with
    | (.ok a, j) => f a j
    | (.error signal, j) => (.error signal, j)

def stop {α : Type} (signal : Signal) : Walk α := fun i => (.error signal, i)

def attempt {α : Type} (w : Walk α) : Walk (Except Signal α) := fun i => (.ok (w i).1, (w i).2)

section

variable (tokens : List Token)

/-- The token at an index. Past the last token stands an end mark on the line of that token. -/
def tokenAt (i : Nat) : Token :=
  tokens[i]?.getD ⟨.eof, .nil, tokens.getLast?.elim 1 Token.line⟩

def peek : Walk Token := fun i => (.ok (tokenAt tokens i), i)

/-- The token before the index. Before the first one, counting back goes on from the end. -/
def previous : Walk Token := fun i =>
  match if i = 0 then tokens.getLast? else tokens[i - 1]? with
  | some t => (.ok t, i)
  | none => (.error .outOfRange, i)

def isAtEnd : Walk Bool := do
  return decide ((← peek tokens).kind = .eof)

def step : Walk Unit := fun i => (.ok (), i + 1)

def advance : Walk Token := do
  if ← isAtEnd tokens then previous tokens
  else
    step
    previous tokens

def check (kind : Kind) : Walk Bool := do
  if ← isAtEnd tokens then return false
  else return decide ((← peek tokens).kind = kind)

def takeAny : List Kind → Walk Bool
  | [] => return false
  | kind :: rest => do
    if ← check tokens kind then
      let _ ← advance tokens
      return true
    else takeAny rest

def consume (kind : Kind) (fault : Fault) : Walk Token := do
  if ← check tokens kind then advance tokens
  else stop (.wrong fault (← peek tokens).line)

def chain (operators : List Kind) (join : Expr → Token → Expr → Expr) (operand : Walk Expr) :
    Nat → Expr → Walk Expr
  | 0, _ => stop .endless
  | n + 1, left => do
    if ← takeAny tokens operators then
      let op ← previous tokens
      let right ← operand
      chain operators join operand n (join left op right)
    else return left

def tier (operators : List Kind) (join : Expr → Token → Expr → Expr) (operand : Walk Expr) :
    Walk Expr := do
  let left ← operand
  chain tokens operators join operand (tokens.length + 1) left

def disjunction (operand : Walk Expr) : Walk Expr :=
  let product := tier tokens [.slash, .star] .binary operand
  let sum := tier tokens [.minus, .plus] .binary product
  let comparison := tier tokens [.greater, .greaterEqual, .less, .lessEqual] .binary sum
  let equality := tier tokens [.bangEqual, .equalEqual] .binary comparison
  let conjunction := tier tokens [.and_] .logical equality
  tier tokens [.or_] .logical conjunction

def constant : Kind → Value
  | .true_ => .bool true
  | .false_ => .bool false
  | _ => .nil

def primary (inner : Walk Expr) : Walk Expr := do
  let token ← peek tokens
  if ← takeAny tokens [.false_, .true_, .nil_] then return .literal (constant token.kind)
  else if ← takeAny tokens [.number, .string] then return .literal token.value
  else if ← takeAny tokens [.identifier] then return .var token
  else if ← takeAny tokens [.leftParen] then
    let e ← inner
    let _ ← consume tokens .rightParen .parenAfterExpression
    return .group e
  else stop (.wrong .expression token.line)

def assignTo (target : Expr) (equals : Token) (value : Expr) : Walk Expr :=
  match target with
  | .var name => return .assign name value
  | _ => stop (.wrong .assignmentTarget equals.line)

def assignment (operand next : Walk Expr) : Walk Expr := do
  let target ← disjunction tokens operand
  if ← takeAny tokens [.equal] then
    let equals ← previous tokens
    let value ← next
    assignTo target equals value
  else return target

def signedOperand (next inner : Walk Expr) : Walk Expr := do
  if ← takeAny tokens [.bang, .minus] then
    let op ← previous tokens
    let right ← next
    return .unary op right
  else primary tokens inner

mutual

def expression : Nat → Walk Expr
  | room + 13 => assignment tokens (signed room) (expression (room + 12))
  | _ => stop .tooDeep

def signed : Nat → Walk Expr
  | 0 => stop .tooDeep
  | room + 1 => signedOperand tokens (signed room) (expression room)

end

theorem expression_of_lt {room : Nat} (h : room < 13) : expression tokens room = stop .tooDeep := by
  unfold expression
  split
  · omega
  · rfl

def value (item : Walk Expr) : Walk Expr := do
  let e ← item
  let _ ← consume tokens .semicolon .semicolonAfterValue
  return e

def expressionStatement (item : Walk Expr) : Walk Stmt := do
  return .expression (← value tokens item)

def printStatement (item : Walk Expr) : Walk Stmt := do
  return .print (← value tokens item)

def initializer (item : Walk Expr) : Walk Expr := do
  if ← takeAny tokens [.equal] then item else return .literal .nil

def variableDeclaration (item : Walk Expr) : Walk Stmt := do
  let name ← consume tokens .identifier .variableName
  let initial ← initializer tokens item
  let _ ← consume tokens .semicolon .semicolonAfterDeclaration
  return .declare name initial

def loopStart (item : Walk Expr) : Walk (Option Stmt) := do
  if ← takeAny tokens [.semicolon] then return none
  else if ← takeAny tokens [.var_] then return some (← variableDeclaration tokens item)
  else return some (← expressionStatement tokens item)

def optional (kind : Kind) (item : Walk Expr) : Walk (Option Expr) := do
  if ← check tokens kind then return none
  else return some (← item)

def forStatement (first item : Walk Expr) (body : Walk Stmt) : Walk Stmt := do
  let _ ← consume tokens .leftParen .parenAfterFor
  let start ← loopStart tokens first
  let condition ← optional tokens .semicolon item
  let _ ← consume tokens .semicolon .semicolonAfterLoopCondition
  let increment ← optional tokens .rightParen item
  let _ ← consume tokens .rightParen .parenAfterForClauses
  let round ← body
  return Stmt.forLoop start condition increment round

def ifStatement (item : Walk Expr) (branch : Walk Stmt) : Walk Stmt := do
  let _ ← consume tokens .leftParen .parenAfterIf
  let condition ← item
  let _ ← consume tokens .rightParen .parenAfterIfCondition
  let yes ← branch
  if ← takeAny tokens [.else_] then
    let no ← branch
    return .ifElse condition yes no
  else return .ifThen condition yes

def whileStatement (item : Walk Expr) (body : Walk Stmt) : Walk Stmt := do
  let _ ← consume tokens .leftParen .parenAfterWhile
  let condition ← item
  let _ ← consume tokens .rightParen .parenAfterCondition
  let round ← body
  return .loop condition round

def declaration (item : Walk Expr) (other : Walk Stmt) : Walk Stmt := do
  if ← takeAny tokens [.var_] then variableDeclaration tokens item else other

def blockItems (item : Walk Stmt) : Nat → Walk (List Stmt)
  | 0 => stop .endless
  | n + 1 => do
    if (← check tokens .rightBrace) || (← isAtEnd tokens) then return []
    else
      let s ← item
      let rest ← blockItems item n
      return s :: rest

def block (item : Walk Stmt) : Walk (List Stmt) := do
  let body ← blockItems tokens item (tokens.length + 1)
  let _ ← consume tokens .rightBrace .braceAfterBlock
  return body

def sentence (first item : Walk Expr) (inner member : Walk Stmt) : Walk Stmt := do
  if ← takeAny tokens [.for_] then forStatement tokens first item inner
  else if ← takeAny tokens [.if_] then ifStatement tokens item inner
  else if ← takeAny tokens [.print_] then printStatement tokens item
  else if ← takeAny tokens [.while_] then whileStatement tokens item inner
  else if ← takeAny tokens [.leftBrace] then return .block (← block tokens member)
  else expressionStatement tokens item

def statement : Nat → Walk Stmt
  | room + 3 =>
    sentence tokens (expression tokens room) (expression tokens (room + 1)) (statement (room + 1))
      (declaration tokens (expression tokens (room - 1)) (statement room))
  | _ => stop .tooDeep

theorem statement_of_lt {room : Nat} (h : room < 3) : statement tokens room = stop .tooDeep := by
  unfold statement
  split
  · omega
  · rfl

def entry (room : Nat) : Walk Stmt :=
  declaration tokens (expression tokens (room - 1)) (statement tokens room)

def passOver : Nat → Walk Unit
  | 0 => stop .endless
  | n + 1 => do
    if ← isAtEnd tokens then return ()
    else if (← previous tokens).kind = .semicolon then return ()
    else if (← peek tokens).kind ∈ statementStarts then return ()
    else
      let _ ← advance tokens
      passOver n

def synchronize : Walk Unit := do
  let _ ← advance tokens
  passOver tokens (tokens.length + 1)

def declarations (item : Walk Stmt) : Nat → Walk (List Stmt × List Error)
  | 0 => stop .endless
  | n + 1 => do
    if ← isAtEnd tokens then return ([], [])
    else
      match ← attempt item with
      | .ok s =>
        let later ← declarations item n
        return (s :: later.1, later.2)
      | .error (.wrong fault line) =>
        synchronize tokens
        let later ← declarations item n
        return (later.1, ⟨fault, line⟩ :: later.2)
      | .error .tooDeep => return ([], [⟨.tooMuchNesting, (← peek tokens).line⟩])
      | .error signal => stop signal

def parseWithin (room : Nat) : Except Signal (Except Errors (List Stmt)) :=
  match (declarations tokens (entry tokens room) (tokens.length + 1) 0).1 with
  | .ok (statements, []) => .ok (.ok statements)
  | .ok (_, first :: others) => .ok (.error ⟨first, others⟩)
  | .error signal => .error signal

end

end Walk

end Lox.Grammar
