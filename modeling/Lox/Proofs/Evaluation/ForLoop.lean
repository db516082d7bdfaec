import Lox.Proofs.Evaluation.Pairs
import Lox.Proofs.Grammar.Soundness

/-!
# Loops with three clauses

The parser writes a loop with three clauses out as a `while` loop with blocks around the loop and
around each round. Running that tree is the same as running the loop directly: a frame for the
start, no frame for a round, and the step in the scope of the loop itself.
-/

namespace Lox.Evaluation

def whenDue (condition : Option Expr) (s : State) (f : Bool → State → Run) : Run :=
  match condition with
  | some c => withValue c s fun v s => f v.truthy s
  | none => f true s

def takeStep (step : Option Expr) (s : State) : Run :=
  match step with
  | some e => withValue e s fun _ s => (.completed, s)
  | none => (.completed, s)

def directRounds (condition step : Option Expr) (body : State → Run) : Nat → State → Run
  | 0, s => (.outOfFuel, s)
  | n + 1, s =>
    whenDue condition s fun due s =>
      if due then
        (body s).andThen fun s =>
          (takeStep step s).andThen (directRounds condition step body n)
      else (.completed, s)

/-- A loop with three clauses, run as it is read: the start in a frame that lasts as long as the
loop and goes however the loop ends, and then the rounds. -/
def directLoop (fuel : Nat) (start : Option Stmt) (condition step : Option Expr) (body : Stmt)
    (s : State) : Run :=
  match start with
  | some first =>
    inFrame s fun s =>
      (exec fuel first s).andThen (directRounds condition step (exec fuel body) fuel)
  | none => directRounds condition step (exec fuel body) fuel s

/-- The block around one round: nothing is declared in it, so it might as well not be there. -/
theorem exec_round {body : Stmt} (h : body.declares = false) (fuel : Nat) (e : Expr) (s : State) :
    exec fuel (.block [body, .expression e]) s =
      (exec fuel body s).andThen (takeStep (some e)) := by
  have hbody : [body, .expression e].any Stmt.declares = false := by
    simp [h, Stmt.declares]
  rw [block_eq_execAll hbody, execAll_cons]
  congr 1
  funext t
  rw [execAll_cons]
  exact Run.andThen_completed _

theorem repeatWhile_eq_directRounds {condition step : Option Expr} {body round : State → Run}
    (hround : ∀ s, round s = (body s).andThen (takeStep step)) (n : Nat) (s : State) :
    repeatWhile (condition.getD (.literal (.bool true))) round n s =
      directRounds condition step body n s := by
  induction n generalizing s with
  | zero => rfl
  | succ n ih =>
    have hrepeat : repeatWhile (condition.getD (.literal (.bool true))) round n =
        directRounds condition step body n := funext ih
    rw [repeatWhile_succ, directRounds, hrepeat]
    cases condition with
    | none => simp only [Option.getD_none, withValue, eval, whenDue, Value.truthy, if_true, hround,
        Run.andThen_assoc]
    | some c => simp only [Option.getD_some, whenDue, hround, Run.andThen_assoc]

theorem exec_forLoop_rounds {body : Stmt} (h : body.declares = false) (fuel : Nat)
    (condition step : Option Expr) (s : State) :
    exec fuel (Stmt.forLoop none condition step body) s =
      directRounds condition step (exec fuel body) fuel s := by
  cases step with
  | none => exact repeatWhile_eq_directRounds (fun t => (Run.andThen_completed _).symm) fuel s
  | some e => exact repeatWhile_eq_directRounds (exec_round h fuel e) fuel s

theorem exec_forLoop {body : Stmt} (h : body.declares = false) (fuel : Nat) (start : Option Stmt)
    (condition step : Option Expr) (s : State) :
    exec fuel (Stmt.forLoop start condition step body) s =
      directLoop fuel start condition step body s := by
  cases start with
  | none => exact exec_forLoop_rounds h fuel condition step s
  | some first =>
    have htree : Stmt.forLoop (some first) condition step body =
      .block [first, Stmt.forLoop none condition step body] := rfl
    rw [htree, exec, directLoop]
    refine congrArg (inFrame s) (funext fun t => ?_)
    rw [execAll_cons]
    refine congrArg (Run.andThen (exec fuel first t)) (funext fun u => ?_)
    rw [execAll_cons, ← exec_forLoop_rounds h]
    exact Run.andThen_completed _

end Lox.Evaluation

namespace Lox.Grammar

theorem Statement.not_declares {d : Dialect} :
    ∀ {ending : Ending} {ts : List Token} {s : Stmt},
      Statement d ending ts s → s.declares = false
  | _, _, _, .expression _ => rfl
  | _, _, _, .print _ _ => rfl
  | _, _, _, .ifThen _ _ _ _ hs => hs.not_declares
  | _, _, _, .ifElse _ _ _ _ hs _ _ ht =>
    Bool.or_eq_false_iff.mpr ⟨hs.not_declares, ht.not_declares⟩
  | _, _, _, .loop _ _ _ _ hs => hs.not_declares
  | _, _, _, .block _ _ _ => rfl
  | _, _, _, @Statement.forLoop _ _ _ _ _ _ _ _ _ start _ step _ _ _ _ _ _ _ _ _ hs => by
    cases start <;> cases step <;> first | rfl | exact hs.not_declares

end Lox.Grammar

namespace Lox.Evaluation

open Grammar

/-- The tree that the parser returns for a loop with three clauses runs as the loop itself does, in
every state: it prints the same, ends the same way and leaves the same frames. The body leaves every
frame with the names it had, so that the step sees no variable of the body. -/
theorem parsed_loop_runs_directly {ctx : Context} {first item inner : Nat} {ts rest : List Token}
    {tree : Stmt} (h : forStatement ctx (expression ctx first) (expression ctx item)
      (statement ctx inner) ts = .ok (tree, rest)) :
    ∃ (loop : Loop) (ending : Ending) (used : List Token),
      ts = used ++ rest ∧ loop.Spelled ending used ∧
      (∀ fuel s, exec fuel tree s =
        directLoop fuel loop.start loop.condition loop.step loop.body s) ∧
      ∀ fuel s, (exec fuel loop.body s).2.scope.shape = s.scope.shape := by
  obtain ⟨loop, ending, used, hused, hspelled, rfl, -⟩ :=
    forStatement_parts (expression_sound ctx item) (statement_sound ctx inner)
      (expression_sound ctx first) h
  have hbody : loop.body.declares = false := by
    cases hspelled with
    | intro _ _ _ _ _ _ hbody => exact hbody.not_declares
  refine ⟨loop, ending, used, hused, hspelled, fun fuel s => ?_, fun fuel s => ?_⟩
  · exact exec_forLoop hbody fuel loop.start loop.condition loop.step s
  · have hkeeps := exec_keeps fuel loop.body s
    rw [hbody] at hkeeps
    exact hkeeps.shape

/-- The loop `(var i = 0; i < 2; i = i + 1) { var i = nil; print i; }`, whose body hides the
variable that its step counts up. -/
theorem hiding_loop_runs_directly :
    let ctx : Context := ⟨1, 26⟩
    let name : Token := ⟨.identifier, .text "i", 1⟩
    let ts : List Token :=
      [⟨.leftParen, .nil, 1⟩, ⟨.var_, .nil, 1⟩, name, ⟨.equal, .nil, 1⟩, ⟨.number, .number 0, 1⟩,
       ⟨.semicolon, .nil, 1⟩, name, ⟨.less, .nil, 1⟩, ⟨.number, .number 2, 1⟩,
       ⟨.semicolon, .nil, 1⟩, name, ⟨.equal, .nil, 1⟩, name, ⟨.plus, .nil, 1⟩,
       ⟨.number, .number 1, 1⟩, ⟨.rightParen, .nil, 1⟩, ⟨.leftBrace, .nil, 1⟩, ⟨.var_, .nil, 1⟩,
       name, ⟨.equal, .nil, 1⟩, ⟨.nil_, .nil, 1⟩, ⟨.semicolon, .nil, 1⟩, ⟨.print_, .nil, 1⟩, name,
       ⟨.semicolon, .nil, 1⟩, ⟨.rightBrace, .nil, 1⟩]
    ∃ tree, forStatement ctx (expression ctx 40) (expression ctx 41) (statement ctx 41) ts =
        .ok (tree, []) ∧
      ∃ (loop : Loop) (ending : Ending) (used : List Token),
        ts = used ++ [] ∧ loop.Spelled ending used ∧
        (∀ fuel s, exec fuel tree s =
          directLoop fuel loop.start loop.condition loop.step loop.body s) ∧
        ∀ fuel s, (exec fuel loop.body s).2.scope.shape = s.scope.shape :=
  ⟨_, rfl, @parsed_loop_runs_directly ⟨1, 26⟩ 40 41 41 _ _ _ rfl⟩

end Lox.Evaluation
