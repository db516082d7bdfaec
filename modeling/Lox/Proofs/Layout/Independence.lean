import Lox.Proofs.Evaluation.Frames
import Lox.Proofs.Layout.Parsing
import Lox.Proofs.Lexer.Positions
import Lox.Session

/-!
# Layout never changes behaviour

A program that was moved to other lines does the same, but for the lines of its faults. Two sources
with the same tokens on different lines are therefore alike in all but lines. To compare the lines
of their errors, both are traced back to the same tokens with their positions in the place of their
lines: what is read and run there has positions in it, and each source has the lines of its own
tokens at those positions.
-/

namespace Lox

namespace Evaluation

def Outcome.mapLine (f : Int → Int) : Outcome → Outcome
  | .failed fault => .failed (fault.mapLine f)
  | outcome => outcome

def Run.mapLine (f : Int → Int) (r : Run) : Run := (r.1.mapLine f, r.2)

def mapFault (f : Int → Int) : Except Fault Value → Except Fault Value
  | .ok v => .ok v
  | .error fault => .error (fault.mapLine f)

def Result.mapLine (f : Int → Int) (r : Result) : Result := (mapFault f r.1, r.2)

section

variable (f : Int → Int)

theorem Result.andThen_mapLine {r : Result} {g g' : Value → Scope → Result}
    (hg : ∀ v scope, g' v scope = (g v scope).mapLine f) :
    (r.mapLine f).andThen g' = (r.andThen g).mapLine f := by
  obtain ⟨result, scope⟩ := r
  cases result with
  | error => rfl
  | ok v => exact hg v scope

theorem applyUnary_mapLine (op : Token) (v : Value) :
    applyUnary (op.mapLine f) v = mapFault f (applyUnary op v) := by
  unfold applyUnary
  simp only [Token.kind_mapLine, Token.line_mapLine]
  split <;> rfl

theorem applyNumeric_mapFault (kind : Kind) (x y : Float) :
    mapFault f (applyNumeric kind x y) = applyNumeric kind x y := by
  cases kind with
  | slash =>
    obtain ⟨z, hz⟩ := applyNumeric_slash x y
    rw [hz]
    rfl
  | _ => rfl

theorem applyBinary_mapLine (op : Token) (left right : Value) :
    applyBinary (op.mapLine f) left right = mapFault f (applyBinary op left right) := by
  have hplus : applyPlus (op.mapLine f) left right = mapFault f (applyPlus op left right) := by
    unfold applyPlus
    split <;> rfl
  have hnumbers : applyToNumbers (op.mapLine f) left right =
      mapFault f (applyToNumbers op left right) := by
    unfold applyToNumbers
    split
    · exact (applyNumeric_mapFault f _ _ _).symm
    · rfl
    · rfl
  unfold applyBinary
  simp only [Token.kind_mapLine]
  split
  · rfl
  · rfl
  · exact hplus
  · exact hnumbers

theorem lookup_mapLine (name : Token) (scope : Scope) :
    lookup (name.mapLine f) scope = (lookup name scope).mapLine f := by
  simp only [lookup, Token.value_mapLine]
  split <;> rfl

theorem store_mapLine (name : Token) (v : Value) (scope : Scope) :
    store (name.mapLine f) v scope = (store name v scope).mapLine f := by
  simp only [store, Token.value_mapLine]
  split <;> rfl

theorem eval_mapLines (e : Expr) (scope : Scope) :
    eval (e.mapLines f) scope = (eval e scope).mapLine f := by
  induction e generalizing scope with
  | literal => rfl
  | group inner ih => exact ih scope
  | unary op r ih =>
    simp only [Expr.mapLines, eval, ih]
    refine Result.andThen_mapLine f fun v mid => ?_
    rw [applyUnary_mapLine]
    rfl
  | binary l op r ihl ihr =>
    simp only [Expr.mapLines, eval, ihl]
    refine Result.andThen_mapLine f fun left mid => ?_
    rw [ihr]
    refine Result.andThen_mapLine f fun right last => ?_
    rw [applyBinary_mapLine]
    rfl
  | logical l op r ihl ihr =>
    simp only [Expr.mapLines, eval, ihl]
    refine Result.andThen_mapLine f fun left mid => ?_
    have hdecides : decides (op.mapLine f) left = decides op left := rfl
    rw [hdecides]
    split
    · rfl
    · exact ihr mid
  | var name => exact lookup_mapLine f name scope
  | assign name e ih =>
    simp only [Expr.mapLines, eval, ih]
    exact Result.andThen_mapLine f fun v mid => store_mapLine f name v mid
  | unknown => rfl
  | cut => rfl

theorem withValue_mapLines {g g' : Value → State → Run} (e : Expr) (s : State)
    (hg : ∀ v t, g' v t = (g v t).mapLine f) :
    withValue (e.mapLines f) s g' = (withValue e s g).mapLine f := by
  unfold withValue
  rw [eval_mapLines]
  obtain ⟨result, scope⟩ := eval e s.scope
  cases result with
  | error => rfl
  | ok v => exact hg v { s with scope }

theorem Run.andThen_mapLine {r : Run} {g g' : State → Run} (hg : ∀ t, g' t = (g t).mapLine f) :
    (r.mapLine f).andThen g' = (r.andThen g).mapLine f := by
  obtain ⟨outcome, t⟩ := r
  cases outcome with
  | completed => exact hg t
  | failed => rfl
  | outOfFuel => rfl

theorem repeatWhile_mapLines {body body' : State → Run} (c : Expr)
    (hbody : ∀ t, body' t = (body t).mapLine f) (n : Nat) (s : State) :
    repeatWhile (c.mapLines f) body' n s = (repeatWhile c body n s).mapLine f := by
  induction n generalizing s with
  | zero => rfl
  | succ n ih =>
    rw [repeatWhile_succ, repeatWhile_succ]
    refine withValue_mapLines f c s fun v t => ?_
    split
    · rw [hbody t]
      exact Run.andThen_mapLine f ih
    · rfl

mutual

theorem exec_mapLines (fuel : Nat) : ∀ (stmt : Stmt) (s : State),
    exec fuel (stmt.mapLines f) s = (exec fuel stmt s).mapLine f
  | .expression e, s => withValue_mapLines f e s fun _ _ => rfl
  | .print e, s => withValue_mapLines f e s fun _ _ => rfl
  | .declare _ e, s => withValue_mapLines f e s fun _ _ => rfl
  | .block body, s => by
    rw [Stmt.mapLines, exec, exec, inFrame_eq, inFrame_eq, execAll_mapLines fuel body]
    rfl
  | .ifThen c yes, s => by
    refine withValue_mapLines f c s fun v t => ?_
    split
    · exact exec_mapLines fuel yes t
    · rfl
  | .ifElse c yes no, s => by
    refine withValue_mapLines f c s fun v t => ?_
    split
    · exact exec_mapLines fuel yes t
    · exact exec_mapLines fuel no t
  | .loop c body, s => repeatWhile_mapLines f c (exec_mapLines fuel body) fuel s
  | .bare e, s => by
    rw [Stmt.mapLines, exec, exec, Expr.label_mapLines]
    rfl
  | .unknown _, _ => rfl
  | .cut, _ => rfl

theorem execAll_mapLines (fuel : Nat) : ∀ (body : List Stmt) (s : State),
    execAll fuel (Stmt.mapAllLines f body) s = (execAll fuel body s).mapLine f
  | [], _ => rfl
  | stmt :: rest, s => by
    rw [Stmt.mapAllLines, execAll_cons, execAll_cons, exec_mapLines fuel stmt s]
    exact Run.andThen_mapLine f (execAll_mapLines fuel rest)

end

theorem interpretWithin_mapLines (room fuel : Nat) (program : List Stmt) (scope : Scope) :
    interpretWithin room fuel (Stmt.mapAllLines f program) scope =
      (interpretWithin room fuel program scope).mapLine f := by
  rw [interpretWithin_eq, interpretWithin_eq, Stmt.cutAllAt_mapLines]
  exact execAll_mapLines f fuel _ _

end

/-- The line of a fault in a program from the parser is that of a token. -/
theorem fault_line {reading room fuel : Nat} {tokens : List Token} {program : List Stmt}
    {scope : Scope} {m : Misuse} {line : Int} (h : tokens ≠ [])
    (hread : Grammar.parseWithin reading tokens = .ok program)
    (hrun : (interpretWithin room fuel program scope).1 = .failed (.misuse m line)) :
    ∃ t ∈ tokens, t.line = line := by
  have hmap := interpretWithin_mapLines (Grammar.offLines tokens) room fuel program scope
  rw [Grammar.program_offLines h hread, interpretWithin_mapLines] at hmap
  have houtcome := congrArg Prod.fst hmap
  simp only [Run.mapLine, hrun, Outcome.mapLine, Fault.mapLine, Outcome.failed.injEq,
    Fault.misuse.injEq, true_and] at houtcome
  exact Grammar.exists_of_offLines houtcome.symm

end Evaluation

theorem Printer.spell_mapLine (f : Int → Int) (t : Token) : spell (t.mapLine f) = spell t := rfl

theorem Expr.render_mapLines (f : Int → Int) (e : Expr) : (e.mapLines f).render = e.render := by
  induction e with
  | literal | unknown | cut | var => rfl
  | group _ ih => simp only [Expr.mapLines, Expr.render, ih]
  | unary _ _ ih | assign _ _ ih =>
    simp only [Expr.mapLines, Expr.render, ih, Printer.spell_mapLine]
  | binary _ _ _ ihl ihr | logical _ _ _ ihl ihr =>
    simp only [Expr.mapLines, Expr.render, ihl, ihr, Printer.spell_mapLine]

theorem Stmt.isLine_mapLines (f : Int → Int) (stmt : Stmt) :
    (stmt.mapLines f).isLine = stmt.isLine := by
  cases stmt with
  | bare e => cases e <;> rfl
  | _ => rfl

theorem Stmt.all_isLine_mapLines (f : Int → Int) (body : List Stmt) :
    (Stmt.mapAllLines f body).all Stmt.isLine = body.all Stmt.isLine := by
  induction body with
  | nil => rfl
  | cons stmt rest ih => simp only [Stmt.mapAllLines, List.all_cons, Stmt.isLine_mapLines, ih]

mutual

theorem Stmt.render_mapLines (f : Int → Int) : ∀ (stmt : Stmt) (level : Int),
    (stmt.mapLines f).render level = stmt.render level
  | .expression _, level | .print _, level | .bare _, level => by
    simp only [Stmt.mapLines, Stmt.render, Expr.render_mapLines]
  | .declare _ _, level => by
    simp only [Stmt.mapLines, Stmt.render, Expr.render_mapLines, Printer.spell_mapLine]
  | .block body, level => by
    simp only [Stmt.mapLines, Stmt.render, Stmt.renderAll_mapLines f body,
      Stmt.all_isLine_mapLines]
  | .ifThen _ yes, level => by
    simp only [Stmt.mapLines, Stmt.render, Expr.render_mapLines, Stmt.render_mapLines f yes]
  | .ifElse _ yes no, level => by
    simp only [Stmt.mapLines, Stmt.render, Expr.render_mapLines, Stmt.render_mapLines f yes,
      Stmt.render_mapLines f no]
  | .loop _ body, level => by
    simp only [Stmt.mapLines, Stmt.render, Expr.render_mapLines, Stmt.render_mapLines f body]
  | .unknown _, _ => rfl
  | .cut, _ => rfl

theorem Stmt.renderAll_mapLines (f : Int → Int) : ∀ (body : List Stmt) (level : Int),
    Stmt.renderAll level (Stmt.mapAllLines f body) = Stmt.renderAll level body
  | [], _ => rfl
  | stmt :: rest, level => by
    simp only [Stmt.mapAllLines, Stmt.renderAll, Stmt.render_mapLines f stmt,
      Stmt.renderAll_mapLines f rest]

end

theorem Stmt.textWithin_mapLines (f : Int → Int) (room : Nat) (stmt : Stmt) :
    (stmt.mapLines f).textWithin room = stmt.textWithin room := by
  rw [Stmt.textWithin, Stmt.cutAt_mapLines, Stmt.render_mapLines]
  rfl

def Token.content (t : Token) : Kind × Value := (t.kind, t.value)

/-- The tokens with their positions in the place of their lines. -/
def Token.numbered (ts : List Token) : List Token := ts.mapIdx fun i t => { t with line := i }

def Token.lineOf (ts : List Token) (position : Int) : Int :=
  (ts[position.toNat]?.map Token.line).getD 0

theorem Token.mapLines_numbered (ts : List Token) :
    Token.mapLines (Token.lineOf ts) (Token.numbered ts) = ts := by
  refine List.ext_getElem (by simp [numbered]) fun i hi hts => ?_
  simp [numbered, Token.mapLine, lineOf, hts]

theorem Token.numbered_congr {ts us : List Token} (h : ts.map content = us.map content) :
    numbered ts = numbered us := by
  have hlength : ts.length = us.length := by simpa using congrArg List.length h
  refine List.ext_getElem (by simp [numbered, hlength]) fun i hi hi' => ?_
  simp only [numbered, List.length_mapIdx] at hi hi'
  have hcontent : ts[i].content = us[i].content := by
    have hget := congrArg (·[i]?) h
    simpa [hi, hi'] using hget
  simp only [content, Prod.mk.injEq] at hcontent
  simp [numbered, hcontent.1, hcontent.2]

theorem Token.numbered_ne_nil {ts : List Token} (h : ts ≠ []) : numbered ts ≠ [] := by
  simpa [numbered] using h

theorem Token.mem_numbered {ts : List Token} {t : Token} (h : t ∈ numbered ts) :
    ∃ position : Nat, position < ts.length ∧ t.line = position := by
  obtain ⟨position, hposition, rfl⟩ := List.mem_iff_getElem.mp h
  refine ⟨position, by simpa [numbered] using hposition, ?_⟩
  simp [numbered]

theorem Session.parse_numbered (room : Nat) {source : String} {ts : List Token}
    (h : Lexer.scan source = .ok ts) :
    Session.parse room source =
      match Grammar.parseWithin (room - 7) (Token.numbered ts) with
      | .error errors => .error (errors.report.mapLines (Token.lineOf ts))
      | .ok program => .ok (Stmt.mapAllLines (Token.lineOf ts) program) := by
  have hread := Grammar.parseWithin_mapLines (Token.lineOf ts) (room - 7)
    (Token.numbered_ne_nil (Lexer.scan_ne_nil h))
  rw [Token.mapLines_numbered] at hread
  simp only [Session.parse, h, hread]
  cases Grammar.parseWithin (room - 7) (Token.numbered ts) with
  | error errors => simp only [Grammar.mapResult, Grammar.Errors.report_mapLines]
  | ok program => rfl

theorem Grammar.Error.diagnostic_line (e : Grammar.Error) : e.diagnostic.line = some e.line := by
  obtain ⟨fault, line⟩ := e
  cases fault <;> rfl

theorem Grammar.Errors.report_lines (errors : Grammar.Errors) {d : Diagnostic}
    (hd : d ∈ errors.report.head :: errors.report.parts) :
    ∃ e ∈ errors.toList, d.line = some e.line := by
  simp only [Grammar.Errors.report, Report.collect, List.mem_cons, List.mem_map] at hd
  rcases hd with rfl | rfl | ⟨e, he, rfl⟩
  · exact ⟨errors.first, List.mem_cons_self, errors.first.diagnostic_line⟩
  · exact ⟨errors.first, List.mem_cons_self, errors.first.diagnostic_line⟩
  · exact ⟨e, List.mem_cons_of_mem _ he, e.diagnostic_line⟩

/-- How two sources with the tokens `ts` and `us` behave the same but for lines, where `room` calls
can be nested to read them. What they have in common has the positions of tokens for lines: a report
if both fail, otherwise a program and, from every scope and whatever its nesting, a run of it. -/
inductive Alike (room : Nat) (a b : String) (ts us : List Token) : Prop
  | rejected (report : Report)
      (left : Session.parse room a = .error (report.mapLines (Token.lineOf ts)))
      (right : Session.parse room b = .error (report.mapLines (Token.lineOf us)))
      (positions : ∀ d ∈ report.head :: report.parts,
        ∃ position : Nat, position < ts.length ∧ d.line = some (position : Int))
  | accepted (program : List Stmt)
      (left : Session.parse room a = .ok (Stmt.mapAllLines (Token.lineOf ts) program))
      (right : Session.parse room b = .ok (Stmt.mapAllLines (Token.lineOf us) program))
      (runs : ∀ within fuel scope, ∃ run : Evaluation.Run,
        Evaluation.interpretWithin within fuel (Stmt.mapAllLines (Token.lineOf ts) program) scope =
          run.mapLine (Token.lineOf ts) ∧
        Evaluation.interpretWithin within fuel (Stmt.mapAllLines (Token.lineOf us) program) scope =
          run.mapLine (Token.lineOf us) ∧
        ∀ m line, run.1 = .failed (.misuse m line) →
          ∃ position : Nat, position < ts.length ∧ line = position)

/-- Two sources with the same tokens on different lines both fail or are both read. If they fail,
the reports are the same but for lines, and each error is on the lines of the same token in both. If
they are read, the trees are the same but for lines, and in every scope both run the same: they
print the same, leave the same scope and end the same way, a fault being on the lines of the same
token in both. -/
theorem layout_never_changes_behaviour {a b : String} {ts us : List Token}
    (ha : Lexer.scan a = .ok ts) (hb : Lexer.scan b = .ok us)
    (h : ts.map Token.content = us.map Token.content) (room : Nat) : Alike room a b ts us := by
  have hne := Token.numbered_ne_nil (Lexer.scan_ne_nil ha)
  have hparse := Session.parse_numbered room ha
  have hparse' := Session.parse_numbered room hb
  rw [← Token.numbered_congr h] at hparse'
  cases hread : Grammar.parseWithin (room - 7) (Token.numbered ts) with
  | error errors =>
    rw [hread] at hparse hparse'
    refine .rejected errors.report hparse hparse' fun d hd => ?_
    obtain ⟨e, he, hline⟩ := errors.report_lines hd
    obtain ⟨t, ht, hte⟩ := Grammar.error_line hne hread e he
    obtain ⟨position, hposition, htp⟩ := Token.mem_numbered ht
    exact ⟨position, hposition, by rw [hline, ← hte, htp]⟩
  | ok program =>
    rw [hread] at hparse hparse'
    refine .accepted program hparse hparse' fun within fuel scope => ?_
    refine ⟨Evaluation.interpretWithin within fuel program scope,
      Evaluation.interpretWithin_mapLines _ within fuel program scope,
      Evaluation.interpretWithin_mapLines _ within fuel program scope, fun m line hrun => ?_⟩
    obtain ⟨t, ht, hline⟩ := Evaluation.fault_line hne hread hrun
    obtain ⟨position, hposition, htp⟩ := Token.mem_numbered ht
    exact ⟨position, hposition, by rw [← hline, htp]⟩

/-- The program `print -nil;` on one line, and over three with a comment. -/
theorem line_breaks_keep_the_misuse :
    let a := "print -nil;"
    let b := "print // a comment\n-\nnil;"
    let ts : List Token := [⟨.print_, .nil, 1⟩, ⟨.minus, .nil, 1⟩, ⟨.nil_, .nil, 1⟩,
      ⟨.semicolon, .nil, 1⟩, ⟨.eof, .nil, 1⟩]
    let us : List Token := [⟨.print_, .nil, 1⟩, ⟨.minus, .nil, 2⟩, ⟨.nil_, .nil, 3⟩,
      ⟨.semicolon, .nil, 3⟩, ⟨.eof, .nil, 3⟩]
    let printed (sign : Int) : List Stmt := [.print (.unary ⟨.minus, .nil, sign⟩ (.literal .nil))]
    Lexer.scan a = .ok ts ∧ Lexer.scan b = .ok us ∧ ts.map Token.content = us.map Token.content ∧
      ts ≠ us ∧ Alike Evaluation.usualRoom a b ts us ∧
      Session.parse Evaluation.usualRoom a = .ok (printed 1) ∧
      Session.parse Evaluation.usualRoom b = .ok (printed 2) ∧
      Evaluation.Misuse.operand.message = "Operand must be a number." ∧
      Evaluation.interpret 0 (printed 1) .empty =
        (.failed (.misuse .operand 1), ⟨.empty, #[]⟩) ∧
      Evaluation.interpret 0 (printed 2) .empty =
        (.failed (.misuse .operand 2), ⟨.empty, #[]⟩) := by
  intro a b ts us printed
  have hread : Lexer.read (Lexer.start a) = ⟨ts, none⟩ := by decide +kernel
  have hread' : Lexer.read (Lexer.start b) = ⟨us, none⟩ := by decide +kernel
  have ha : Lexer.scan a = .ok ts := by rw [Lexer.scan, hread]
  have hb : Lexer.scan b = .ok us := by rw [Lexer.scan, hread']
  have h : ts.map Token.content = us.map Token.content := rfl
  have hparse : Session.parse Evaluation.usualRoom a = .ok (printed 1) := by
    rw [Session.parse, ha]
    rfl
  have hparse' : Session.parse Evaluation.usualRoom b = .ok (printed 2) := by
    rw [Session.parse, hb]
    rfl
  exact ⟨ha, hb, h, by decide +kernel, layout_never_changes_behaviour ha hb h _, hparse, hparse',
    rfl, rfl, rfl⟩

end Lox
