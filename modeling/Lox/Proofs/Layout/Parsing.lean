import Lox.Diagnostic
import Lox.Tree
import Lox.Grammar.Parser

/-!
# Parsing does not look at lines

Tokens, trees and errors carry lines. Each can be moved to other lines by a function that says where
every line goes, with all else as it was. Moving the tokens moves what is read from them, trees and
errors alike, and changes nothing else. Since this holds for every way to move them, a line that
comes out of the parser can only be the line of a token that went in.
-/

namespace Lox

def Token.mapLine (f : Int → Int) (t : Token) : Token := { t with line := f t.line }

@[simp] theorem Token.kind_mapLine (f : Int → Int) (t : Token) : (t.mapLine f).kind = t.kind := rfl

@[simp] theorem Token.value_mapLine (f : Int → Int) (t : Token) :
    (t.mapLine f).value = t.value := rfl

@[simp] theorem Token.line_mapLine (f : Int → Int) (t : Token) :
    (t.mapLine f).line = f t.line := rfl

abbrev Token.mapLines (f : Int → Int) (ts : List Token) : List Token := ts.map (mapLine f)

theorem Token.mapLines_cons (f : Int → Int) (t : Token) (ts : List Token) :
    mapLines f (t :: ts) = t.mapLine f :: mapLines f ts := rfl

def Expr.mapLines (f : Int → Int) : Expr → Expr
  | .literal v => .literal v
  | .group e => .group (e.mapLines f)
  | .unary op r => .unary (op.mapLine f) (r.mapLines f)
  | .binary l op r => .binary (l.mapLines f) (op.mapLine f) (r.mapLines f)
  | .logical l op r => .logical (l.mapLines f) (op.mapLine f) (r.mapLines f)
  | .var name => .var (name.mapLine f)
  | .assign name e => .assign (name.mapLine f) (e.mapLines f)
  | .unknown label => .unknown label
  | .cut => .cut

mutual

def Stmt.mapLines (f : Int → Int) : Stmt → Stmt
  | .expression e => .expression (e.mapLines f)
  | .print e => .print (e.mapLines f)
  | .declare name e => .declare (name.mapLine f) (e.mapLines f)
  | .block body => .block (Stmt.mapAllLines f body)
  | .ifThen c yes => .ifThen (c.mapLines f) (yes.mapLines f)
  | .ifElse c yes no => .ifElse (c.mapLines f) (yes.mapLines f) (no.mapLines f)
  | .loop c body => .loop (c.mapLines f) (body.mapLines f)
  | .bare e => .bare (e.mapLines f)
  | .unknown label => .unknown label
  | .cut => .cut

def Stmt.mapAllLines (f : Int → Int) : List Stmt → List Stmt
  | [] => []
  | stmt :: rest => stmt.mapLines f :: Stmt.mapAllLines f rest

end

theorem Expr.label_mapLines (f : Int → Int) (e : Expr) : (e.mapLines f).label = e.label := by
  cases e <;> rfl

theorem Expr.cutAt_mapLines (f : Int → Int) (costs : Costs) (e : Expr) (n : Nat) :
    (e.mapLines f).cutAt costs n = (e.cutAt costs n).mapLines f := by
  induction e generalizing n with
  | literal | var | unknown | cut => cases n <;> rfl
  | group _ ih | unary _ _ ih | assign _ _ ih =>
    cases n with
    | zero => rfl
    | succ n => simp only [Expr.mapLines, Expr.cutAt, ih]
  | binary _ _ _ ihl ihr | logical _ _ _ ihl ihr =>
    cases n with
    | zero => rfl
    | succ n => simp only [Expr.mapLines, Expr.cutAt, ihl, ihr]

mutual

theorem Stmt.cutAt_mapLines (f : Int → Int) (costs : Costs) : ∀ (stmt : Stmt) (n : Nat),
    (stmt.mapLines f).cutAt costs n = (stmt.cutAt costs n).mapLines f
  | stmt, 0 => by cases stmt <;> rfl
  | .expression _, n + 1 | .print _, n + 1 | .declare _ _, n + 1 | .bare _, n + 1 => by
    simp only [Stmt.mapLines, Stmt.cutAt, Expr.cutAt_mapLines]
  | .block body, n + 1 => by
    simp only [Stmt.mapLines, Stmt.cutAt, Stmt.cutAllAt_mapLines f costs body]
  | .ifThen _ yes, n + 1 => by
    simp only [Stmt.mapLines, Stmt.cutAt, Expr.cutAt_mapLines, Stmt.cutAt_mapLines f costs yes]
  | .ifElse _ yes no, n + 1 => by
    simp only [Stmt.mapLines, Stmt.cutAt, Expr.cutAt_mapLines, Stmt.cutAt_mapLines f costs yes,
      Stmt.cutAt_mapLines f costs no]
  | .loop _ body, n + 1 => by
    simp only [Stmt.mapLines, Stmt.cutAt, Expr.cutAt_mapLines, Stmt.cutAt_mapLines f costs body]
  | .unknown _, _ + 1 => rfl
  | .cut, _ + 1 => rfl

theorem Stmt.cutAllAt_mapLines (f : Int → Int) (costs : Costs) : ∀ (body : List Stmt) (n : Nat),
    Stmt.cutAllAt costs n (Stmt.mapAllLines f body) =
      Stmt.mapAllLines f (Stmt.cutAllAt costs n body)
  | [], _ => rfl
  | stmt :: rest, n => by
    simp only [Stmt.mapAllLines, Stmt.cutAllAt, Stmt.cutAt_mapLines f costs stmt,
      Stmt.cutAllAt_mapLines f costs rest]

end

namespace Grammar

def Error.mapLine (f : Int → Int) (e : Error) : Error := { e with line := f e.line }

def Errors.mapLines (f : Int → Int) (es : Errors) : Errors :=
  ⟨es.first.mapLine f, es.others.map (Error.mapLine f)⟩

end Grammar

def Evaluation.Fault.mapLine (f : Int → Int) : Evaluation.Fault → Evaluation.Fault
  | .misuse m line => .misuse m (f line)
  | fault => fault

def Diagnostic.mapLine (f : Int → Int) (d : Diagnostic) : Diagnostic :=
  { d with line := d.line.map f }

def Report.mapLines (f : Int → Int) (r : Report) : Report :=
  ⟨r.head.mapLine f, r.parts.map (Diagnostic.mapLine f)⟩

def Interruption.mapLines (f : Int → Int) : Interruption → Interruption
  | .failure report => .failure (report.mapLines f)
  | interruption => interruption

theorem Grammar.Error.diagnostic_mapLine (f : Int → Int) (e : Grammar.Error) :
    (e.mapLine f).diagnostic = e.diagnostic.mapLine f := by
  obtain ⟨fault, line⟩ := e
  cases fault <;> rfl

theorem Grammar.Errors.report_mapLines (f : Int → Int) (es : Grammar.Errors) :
    (es.mapLines f).report = es.report.mapLines f := by
  simp [Grammar.Errors.report, Grammar.Errors.mapLines, Report.collect, Report.mapLines,
    Grammar.Error.diagnostic_mapLine, Diagnostic.mapLine, Diagnostic.grammatical, Function.comp_def]

theorem Evaluation.Fault.interruption_mapLine (f : Int → Int) (fault : Evaluation.Fault) :
    (fault.mapLine f).interruption = fault.interruption.mapLines f := by
  cases fault <;> rfl

end Lox

namespace Lox.Grammar

def Failure.mapLines (f : Int → Int) (failure : Failure) : Failure :=
  ⟨failure.fault, f failure.line, Token.mapLines f failure.rest⟩

def Context.mapLine (f : Int → Int) (ctx : Context) : Context :=
  { ctx with endLine := f ctx.endLine }

/-- What a parser gives, moved to other lines; `g` moves what it has read. -/
def moved {α : Type} (f : Int → Int) (g : α → α) :
    Except Failure (α × List Token) → Except Failure (α × List Token)
  | .ok (a, rest) => .ok (g a, Token.mapLines f rest)
  | .error failure => .error (failure.mapLines f)

/-- On tokens that were moved, the second parser gives what the first one gives, moved. -/
def Follows {α : Type} (f : Int → Int) (g : α → α) (p q : Parser α) : Prop :=
  ∀ ts : List Token, q (Token.mapLines f ts) = moved f g (p ts)

theorem moved_bind {α β : Type} {f : Int → Int} {g : α → α} {h : β → β}
    {r r' : Except Failure (α × List Token)}
    {next next' : α × List Token → Except Failure (β × List Token)} (hr : r' = moved f g r)
    (hnext : ∀ a rest, next' (g a, Token.mapLines f rest) = moved f h (next (a, rest))) :
    (r' >>= next') = moved f h (r >>= next) := by
  subst hr
  cases r with
  | ok a => exact hnext a.1 a.2
  | error failure => rfl

section

variable (f : Int → Int)

theorem lineAt_mapLines (ctx : Context) (ts : List Token) :
    lineAt (ctx.mapLine f) (Token.mapLines f ts) = f (lineAt ctx ts) := by
  cases ts <;> rfl

theorem fail_follows {α : Type} (g : α → α) (ctx : Context) (fault : Fault) :
    Follows f g (fail ctx fault) (fail (ctx.mapLine f) fault) := by
  intro ts
  simp only [fail, moved, Failure.mapLines, lineAt_mapLines]

theorem take_mapLines (wanted : List Kind) (ts : List Token) :
    take? wanted (Token.mapLines f ts) =
      (take? wanted ts).map fun taken => (taken.1.mapLine f, Token.mapLines f taken.2) := by
  cases ts with
  | nil => rfl
  | cons t ts =>
    by_cases h : t.kind ∈ wanted <;> simp [take?, h]

theorem expect_follows (ctx : Context) (kind : Kind) (fault : Fault) :
    Follows f (Token.mapLine f) (expect ctx kind fault) (expect (ctx.mapLine f) kind fault) := by
  intro ts
  unfold expect
  rw [take_mapLines]
  cases take? [kind] ts with
  | none => exact fail_follows f _ ctx fault ts
  | some taken => rfl

section

variable {operand operand' : Parser Expr} (hoperand : Follows f (Expr.mapLines f) operand operand')

include hoperand

theorem chain_follows (operators : List Kind) {join : Expr → Token → Expr → Expr}
    (hjoin : ∀ l op r, (join l op r).mapLines f =
      join (l.mapLines f) (op.mapLine f) (r.mapLines f)) (n : Nat) (left : Expr) :
    Follows f (Expr.mapLines f) (chain operators join operand n left)
      (chain operators join operand' n (left.mapLines f)) := by
  induction n generalizing left with
  | zero => exact fun ts => rfl
  | succ n ih =>
    intro ts
    unfold chain
    rw [take_mapLines]
    cases take? operators ts with
    | none => rfl
    | some taken =>
      refine moved_bind (hoperand taken.2) fun right rest => ?_
      dsimp only
      rw [← hjoin]
      exact ih _ rest

theorem tier_follows (ctx : Context) (operators : List Kind) {join : Expr → Token → Expr → Expr}
    (hjoin : ∀ l op r, (join l op r).mapLines f =
      join (l.mapLines f) (op.mapLine f) (r.mapLines f)) :
    Follows f (Expr.mapLines f) (tier ctx operators join operand)
      (tier (ctx.mapLine f) operators join operand') := fun ts =>
  moved_bind (hoperand ts) fun left rest => chain_follows f hoperand operators hjoin _ left rest

theorem disjunction_follows (ctx : Context) :
    Follows f (Expr.mapLines f) (disjunction ctx operand)
      (disjunction (ctx.mapLine f) operand') := by
  have hproduct : Follows f (Expr.mapLines f) (product ctx operand)
      (product (ctx.mapLine f) operand') := tier_follows f hoperand ctx _ fun _ _ _ => rfl
  have hsum : Follows f (Expr.mapLines f) (sum ctx operand)
      (sum (ctx.mapLine f) operand') := tier_follows f hproduct ctx _ fun _ _ _ => rfl
  have hcomparison : Follows f (Expr.mapLines f) (comparison ctx operand)
      (comparison (ctx.mapLine f) operand') := tier_follows f hsum ctx _ fun _ _ _ => rfl
  have hequality : Follows f (Expr.mapLines f) (equality ctx operand)
      (equality (ctx.mapLine f) operand') := tier_follows f hcomparison ctx _ fun _ _ _ => rfl
  have hconjunction : Follows f (Expr.mapLines f) (conjunction ctx operand)
      (conjunction (ctx.mapLine f) operand') := tier_follows f hequality ctx _ fun _ _ _ => rfl
  exact tier_follows f hconjunction ctx _ fun _ _ _ => rfl

theorem primary_follows (ctx : Context) :
    Follows f (Expr.mapLines f) (primary ctx operand) (primary (ctx.mapLine f) operand') := by
  intro ts
  cases ts with
  | nil => exact fail_follows f _ ctx .expression []
  | cons t rest =>
    have hother := fail_follows f (Expr.mapLines f) ctx .expression (t :: rest)
    unfold primary
    simp only [List.map_cons, Token.kind_mapLine] at hother ⊢
    cases t.kind with
    | leftParen =>
      refine moved_bind (hoperand rest) fun e us => ?_
      exact moved_bind (expect_follows f ctx _ _ us) fun _ _ => rfl
    | true_ | false_ | nil_ | number | string | identifier => rfl
    | _ => exact hother

end

theorem assignTo_follows (target : Expr) (equals : Token) (value : Expr) :
    Follows f (Expr.mapLines f) (assignTo target equals value)
      (assignTo (target.mapLines f) (equals.mapLine f) (value.mapLines f)) := by
  intro ts
  cases target <;> rfl

section

variable {operand operand' next next' inner inner' : Parser Expr}

theorem assignment_follows (ctx : Context)
    (hoperand : Follows f (Expr.mapLines f) operand operand')
    (hnext : Follows f (Expr.mapLines f) next next') :
    Follows f (Expr.mapLines f) (assignment ctx operand next)
      (assignment (ctx.mapLine f) operand' next') := by
  intro ts
  refine moved_bind (disjunction_follows f hoperand ctx ts) fun target us => ?_
  dsimp only
  rw [take_mapLines]
  cases take? [.equal] us with
  | none => rfl
  | some taken =>
    refine moved_bind (hnext taken.2) fun value vs => ?_
    exact assignTo_follows f target taken.1 value vs

theorem signedOperand_follows (ctx : Context) (hnext : Follows f (Expr.mapLines f) next next')
    (hinner : Follows f (Expr.mapLines f) inner inner') :
    Follows f (Expr.mapLines f) (signedOperand ctx next inner)
      (signedOperand (ctx.mapLine f) next' inner') := by
  intro ts
  unfold signedOperand
  rw [take_mapLines]
  cases take? [.bang, .minus] ts with
  | none => exact primary_follows f hinner ctx ts
  | some taken => exact moved_bind (hnext taken.2) fun _ _ => rfl

end

theorem expression_signed_follows (ctx : Context) (room : Nat) :
    Follows f (Expr.mapLines f) (expression ctx room) (expression (ctx.mapLine f) room) ∧
      Follows f (Expr.mapLines f) (signed ctx room) (signed (ctx.mapLine f) room) := by
  refine expression_induction
    (P := fun room => Follows f (Expr.mapLines f) (expression ctx room)
      (expression (ctx.mapLine f) room))
    (Q := fun room => Follows f (Expr.mapLines f) (signed ctx room) (signed (ctx.mapLine f) room))
    ?_ ?_ ?_ ?_ room
  · intro room h
    rw [expression_of_lt ctx h, expression_of_lt _ h]
    exact fail_follows f _ ctx _
  · exact fun room hoperand hnext => assignment_follows f ctx hoperand hnext
  · exact fail_follows f _ ctx _
  · exact fun room hnext hinner => signedOperand_follows f ctx hnext hinner

theorem expression_follows (ctx : Context) (room : Nat) :
    Follows f (Expr.mapLines f) (expression ctx room) (expression (ctx.mapLine f) room) :=
  (expression_signed_follows f ctx room).1

theorem forLoop_mapLines (start : Option Stmt) (condition step : Option Expr) (body : Stmt) :
    Stmt.forLoop (start.map (Stmt.mapLines f)) (condition.map (Expr.mapLines f))
        (step.map (Expr.mapLines f)) (body.mapLines f) =
      (Stmt.forLoop start condition step body).mapLines f := by
  cases start <;> cases condition <;> cases step <;> rfl

section

variable {ctx : Context} {item item' : Parser Expr} (hitem : Follows f (Expr.mapLines f) item item')

include hitem

theorem value_follows :
    Follows f (Expr.mapLines f) (value ctx item) (value (ctx.mapLine f) item') := by
  intro ts
  refine moved_bind (hitem ts) fun e us => ?_
  exact moved_bind (expect_follows f ctx _ _ us) fun _ _ => rfl

theorem expressionStatement_follows :
    Follows f (Stmt.mapLines f) (expressionStatement ctx item)
      (expressionStatement (ctx.mapLine f) item') :=
  fun ts => moved_bind (value_follows f hitem ts) fun _ _ => rfl

theorem printStatement_follows :
    Follows f (Stmt.mapLines f) (printStatement ctx item)
      (printStatement (ctx.mapLine f) item') :=
  fun ts => moved_bind (value_follows f hitem ts) fun _ _ => rfl

theorem optional_follows (stop : Kind) :
    Follows f (Option.map (Expr.mapLines f)) (optional stop item) (optional stop item') := by
  intro ts
  unfold optional
  rw [take_mapLines]
  cases take? [stop] ts with
  | none => exact moved_bind (hitem ts) fun _ _ => rfl
  | some _ => rfl

theorem variableDeclaration_follows :
    Follows f (Stmt.mapLines f) (variableDeclaration ctx item)
      (variableDeclaration (ctx.mapLine f) item') := by
  intro ts
  refine moved_bind (expect_follows f ctx _ _ ts) fun name us => ?_
  dsimp only
  rw [take_mapLines]
  cases take? [.equal] us with
  | none =>
    refine @moved_bind _ _ f (Expr.mapLines f) _ (.ok (.literal .nil, us)) _ _ _ rfl fun e vs => ?_
    exact moved_bind (expect_follows f ctx _ _ vs) fun _ _ => rfl
  | some taken =>
    refine moved_bind (hitem taken.2) fun e vs => ?_
    exact moved_bind (expect_follows f ctx _ _ vs) fun _ _ => rfl

theorem loopStart_follows :
    Follows f (Option.map (Stmt.mapLines f)) (loopStart ctx item)
      (loopStart (ctx.mapLine f) item') := by
  intro ts
  unfold loopStart
  rw [take_mapLines]
  cases take? [.semicolon] ts with
  | some _ => rfl
  | none =>
    dsimp only [Option.map_none]
    rw [take_mapLines]
    cases take? [.var_] ts with
    | some taken => exact moved_bind (variableDeclaration_follows f hitem taken.2) fun _ _ => rfl
    | none => exact moved_bind (expressionStatement_follows f hitem ts) fun _ _ => rfl

variable {inner inner' : Parser Stmt} (hinner : Follows f (Stmt.mapLines f) inner inner')

include hinner

theorem declaration_follows :
    Follows f (Stmt.mapLines f) (declaration ctx item inner)
      (declaration (ctx.mapLine f) item' inner') := by
  intro ts
  unfold declaration
  rw [take_mapLines]
  cases take? [.var_] ts with
  | some taken => exact variableDeclaration_follows f hitem taken.2
  | none => exact hinner ts

theorem forStatement_follows {first first' : Parser Expr}
    (hfirst : Follows f (Expr.mapLines f) first first') :
    Follows f (Stmt.mapLines f) (forStatement ctx first item inner)
      (forStatement (ctx.mapLine f) first' item' inner') := by
  intro ts
  refine moved_bind (expect_follows f ctx _ _ ts) fun _ ts₁ => ?_
  refine moved_bind (loopStart_follows f hfirst ts₁) fun start ts₂ => ?_
  refine moved_bind (optional_follows f hitem _ ts₂) fun condition ts₃ => ?_
  refine moved_bind (expect_follows f ctx _ _ ts₃) fun _ ts₄ => ?_
  refine moved_bind (optional_follows f hitem _ ts₄) fun step ts₅ => ?_
  refine moved_bind (expect_follows f ctx _ _ ts₅) fun _ ts₆ => ?_
  refine moved_bind (hinner ts₆) fun round ts₇ => ?_
  dsimp only
  rw [forLoop_mapLines]
  rfl

theorem whileStatement_follows :
    Follows f (Stmt.mapLines f) (whileStatement ctx item inner)
      (whileStatement (ctx.mapLine f) item' inner') := by
  intro ts
  refine moved_bind (expect_follows f ctx _ _ ts) fun _ ts₁ => ?_
  refine moved_bind (hitem ts₁) fun _ ts₂ => ?_
  refine moved_bind (expect_follows f ctx _ _ ts₂) fun _ ts₃ => ?_
  exact moved_bind (hinner ts₃) fun _ _ => rfl

theorem ifStatement_follows :
    Follows f (Stmt.mapLines f) (ifStatement ctx item inner)
      (ifStatement (ctx.mapLine f) item' inner') := by
  intro ts
  refine moved_bind (expect_follows f ctx _ _ ts) fun _ ts₁ => ?_
  refine moved_bind (hitem ts₁) fun _ ts₂ => ?_
  refine moved_bind (expect_follows f ctx _ _ ts₂) fun _ ts₃ => ?_
  refine moved_bind (hinner ts₃) fun yes ts₄ => ?_
  dsimp only
  rw [take_mapLines]
  cases take? [.else_] ts₄ with
  | none => rfl
  | some taken => exact moved_bind (hinner taken.2) fun _ _ => rfl

end

theorem blockBody_follows {ctx : Context} {item item' : Parser Stmt}
    (hitem : Follows f (Stmt.mapLines f) item item') (n : Nat) :
    Follows f (Stmt.mapAllLines f) (blockBody ctx item n)
      (blockBody (ctx.mapLine f) item' n) := by
  induction n with
  | zero => exact fail_follows f _ ctx _
  | succ n ih =>
    intro ts
    cases ts with
    | nil => exact fail_follows f _ ctx _ []
    | cons t ts =>
      by_cases hright : t.kind = .rightBrace
      · simp [blockBody, hright, moved, Stmt.mapAllLines]
      · have hright' : (t.mapLine f).kind ≠ .rightBrace := hright
        rw [Token.mapLines_cons, blockBody, blockBody, if_neg hright, if_neg hright']
        refine moved_bind (hitem (t :: ts)) fun s us => ?_
        exact moved_bind (ih us) fun _ _ => rfl

theorem sentence_follows {ctx : Context} {first first' item item' : Parser Expr}
    {inner inner' member member' : Parser Stmt} (hfirst : Follows f (Expr.mapLines f) first first')
    (hitem : Follows f (Expr.mapLines f) item item')
    (hinner : Follows f (Stmt.mapLines f) inner inner')
    (hmember : Follows f (Stmt.mapLines f) member member') :
    Follows f (Stmt.mapLines f) (sentence ctx first item inner member)
      (sentence (ctx.mapLine f) first' item' inner' member') := by
  intro ts
  cases ts with
  | nil => exact expressionStatement_follows f hitem []
  | cons t rest =>
    have hplain := @expressionStatement_follows f ctx _ _ hitem (t :: rest)
    unfold sentence
    simp only [List.map_cons, Token.kind_mapLine] at hplain ⊢
    cases t.kind with
    | for_ => exact forStatement_follows f hitem hinner hfirst rest
    | if_ => exact ifStatement_follows f hitem hinner rest
    | print_ => exact printStatement_follows f hitem rest
    | while_ => exact whileStatement_follows f hitem hinner rest
    | leftBrace =>
      exact moved_bind (blockBody_follows f hmember ctx.size rest) fun _ _ => rfl
    | _ => exact hplain

theorem statement_follows (ctx : Context) (room : Nat) :
    Follows f (Stmt.mapLines f) (statement ctx room) (statement (ctx.mapLine f) room) := by
  induction room using statement_induction with
  | hfull room h =>
    rw [statement_of_lt ctx h, statement_of_lt _ h]
    exact fail_follows f _ ctx _
  | hsentence room hinner hother =>
    rw [statement_add, statement_add]
    exact sentence_follows f (expression_follows f ctx room) (expression_follows f ctx (room + 1))
      hinner (declaration_follows f (expression_follows f ctx (room - 1)) hother)

theorem entry_follows (ctx : Context) (room : Nat) :
    Follows f (Stmt.mapLines f) (entry ctx room) (entry (ctx.mapLine f) room) :=
  declaration_follows f (expression_follows f ctx (room - 1)) (statement_follows f ctx room)

theorem resume_mapLines (last : Token) (ts : List Token) :
    resume (last.mapLine f) (Token.mapLines f ts) = Token.mapLines f (resume last ts) := by
  induction ts generalizing last with
  | nil => rfl
  | cons t ts ih =>
    simp only [List.map_cons, resume, Token.kind_mapLine, ih]
    split <;> rfl

theorem synchronize_mapLines (ts : List Token) :
    synchronize (Token.mapLines f ts) = Token.mapLines f (synchronize ts) := by
  cases ts with
  | nil => rfl
  | cons t ts => exact resume_mapLines f t ts

theorem declarations_mapLines (ctx : Context) (room n : Nat) (ts : List Token) :
    declarations (ctx.mapLine f) room n (Token.mapLines f ts) =
      (Stmt.mapAllLines f (declarations ctx room n ts).1,
       (declarations ctx room n ts).2.map (Error.mapLine f)) := by
  induction n generalizing ts with
  | zero => rfl
  | succ n ih =>
    cases ts with
    | nil => rfl
    | cons t ts =>
      have hs := entry_follows f ctx room (t :: ts)
      simp only [List.map_cons] at hs
      simp only [List.map_cons, declarations, hs]
      cases entry ctx room (t :: ts) with
      | ok a => simp only [moved, ih, Stmt.mapAllLines]
      | error failure =>
        simp only [moved, Failure.mapLines]
        split
        · rfl
        · simp only [synchronize_mapLines, ih, List.map_cons, Error.mapLine]

theorem body_mapLines (tokens : List Token) :
    body (Token.mapLines f tokens) = Token.mapLines f (body tokens) := by
  rw [body, List.takeWhile_map]
  rfl

theorem endLine_mapLines {tokens : List Token} (h : tokens ≠ []) :
    endLine (Token.mapLines f tokens) = f (endLine tokens) := by
  have hfind : (Token.mapLines f tokens).find? (·.kind = .eof) =
      (tokens.find? (·.kind = .eof)).map (Token.mapLine f) := List.find?_map
  have hlast := List.getLast?_eq_some_getLast h
  unfold endLine
  rw [hfind, List.getLast?_map, hlast]
  cases tokens.find? (·.kind = .eof) <;> rfl

def mapResult (r : Except Errors (List Stmt)) : Except Errors (List Stmt) :=
  match r with
  | .ok program => .ok (Stmt.mapAllLines f program)
  | .error errors => .error (errors.mapLines f)

theorem parseWithin_mapLines (room : Nat) {tokens : List Token} (h : tokens ≠ []) :
    parseWithin room (Token.mapLines f tokens) = mapResult f (parseWithin room tokens) := by
  have hread := declarations_mapLines f ⟨endLine tokens, (body tokens).length⟩ room
    (body tokens).length (body tokens)
  have hctx : Context.mapLine f ⟨endLine tokens, (body tokens).length⟩ =
      ⟨endLine (Token.mapLines f tokens), (body tokens).length⟩ := by
    rw [endLine_mapLines f h]
    rfl
  rw [hctx] at hread
  simp only [parseWithin, body_mapLines, List.length_map, hread]
  obtain ⟨statements, errors⟩ :=
    declarations ⟨endLine tokens, (body tokens).length⟩ room (body tokens).length (body tokens)
  cases errors <;> rfl

end

/-- Tells the lines of the tokens from all others. -/
def offLines (tokens : List Token) (line : Int) : Int :=
  if tokens.any (·.line = line) then 0 else 1

theorem exists_of_offLines {tokens : List Token} {line : Int} (h : offLines tokens line = 0) :
    ∃ t ∈ tokens, t.line = line := by
  unfold offLines at h
  split at h
  · next hany => simpa using hany
  · cases h

theorem mapLines_offLines (tokens : List Token) :
    Token.mapLines (offLines tokens) tokens = Token.mapLines (fun _ => 0) tokens := by
  refine List.map_congr_left fun t ht => ?_
  have hany : tokens.any (·.line = t.line) = true := by
    simpa using ⟨t, ht, rfl⟩
  simp [Token.mapLine, offLines, hany]

theorem mapResult_offLines (room : Nat) {tokens : List Token} (h : tokens ≠ []) :
    mapResult (offLines tokens) (parseWithin room tokens) =
      mapResult (fun _ => 0) (parseWithin room tokens) := by
  rw [← parseWithin_mapLines _ room h, mapLines_offLines, parseWithin_mapLines _ room h]

theorem program_offLines {room : Nat} {tokens : List Token} {program : List Stmt} (h : tokens ≠ [])
    (hread : parseWithin room tokens = .ok program) :
    Stmt.mapAllLines (offLines tokens) program = Stmt.mapAllLines (fun _ => 0) program := by
  have hmap := mapResult_offLines room h
  rw [hread] at hmap
  exact Except.ok.inj hmap

theorem error_line {room : Nat} {tokens : List Token} {errors : Errors} (h : tokens ≠ [])
    (hread : parseWithin room tokens = .error errors) :
    ∀ e ∈ errors.toList, ∃ t ∈ tokens, t.line = e.line := by
  intro e he
  have hmap := mapResult_offLines room h
  rw [hread] at hmap
  have hlist : errors.toList.map (Error.mapLine (offLines tokens)) =
      errors.toList.map (Error.mapLine fun _ => 0) :=
    congrArg Errors.toList (Except.error.inj hmap)
  have hline := congrArg Error.line (List.map_inj_left.mp hlist e he)
  exact exists_of_offLines hline

end Lox.Grammar
