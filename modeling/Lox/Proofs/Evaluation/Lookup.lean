import Lox.Proofs.Evaluation.Lexical

/-!
# Every use of a name acts on the frame it is bound to

The log of a run accounts for it: each use of a name acts on the frame to which it is bound, and the
run stops at an undefined variable iff it comes to a use that is bound to none.
-/

namespace Lox

namespace Scope

theorem get_eq_none_iff (s : Scope) (name : Name) : s.get? name = none ↔ s.home? name = none := by
  simp only [get?, home?]
  induction s.frames with
  | nil => simp [lookupIn]
  | cons f fs ih =>
    cases hget : f.get? name with
    | some v => simp [lookupIn, List.findIdx?_cons, Frame.has, hget]
    | none => simpa [lookupIn, List.findIdx?_cons, Frame.has, hget] using ih

theorem assign_eq_none_iff (s : Scope) (name : Name) (v : Value) :
    s.assign? name v = none ↔ s.home? name = none := by
  rw [assign_eq_home, Option.map_eq_none_iff]

end Scope

namespace Resolution

open Evaluation (State Run Result Fault)

/-- The use of the name acts on the frame to which it is bound, and fails if there is none. -/
structure Access.Lexical (a : Access) : Prop where
  home : a.scope.home? a.name.value = a.distance
  reads : a.scope.get? a.name.value =
    a.distance.bind fun position => a.scope.getAt? position a.name.value
  writes : ∀ v, a.scope.assign? a.name.value v = a.distance.map (a.scope.setAt a.name.value v)
  lookup_fails : (Evaluation.lookup a.name a.scope).1 =
    .error (.misuse .undefinedVariable a.name.line) ↔ a.distance = none
  store_fails : ∀ v, (Evaluation.store a.name v a.scope).1 =
    .error (.misuse .undefinedVariable a.name.line) ↔ a.distance = none

theorem Access.lexical_of_distance {a : Access}
    (h : a.distance = Blocks.distance? a.scope.shape a.name.value) : a.Lexical := by
  rw [← Scope.home_eq_distance] at h
  refine ⟨h.symm, ?_, ?_, ?_, ?_⟩
  · rw [h, Scope.get_eq_home]
  · intro v
    rw [h, Scope.assign_eq_home]
  · rw [h, ← Scope.get_eq_none_iff, Evaluation.lookup]
    cases a.scope.get? a.name.value <;> simp
  · intro v
    rw [h, ← Scope.assign_eq_none_iff a.scope a.name.value v, Evaluation.store]
    cases a.scope.assign? a.name.value v <;> simp

def undefinedAt (line : Int) : Option Fault := some (.misuse .undefinedVariable line)

/-- The uses of names are bound to the frames they act on, and the run stopped at an undefined
variable iff one of them is bound to none. -/
structure Accounts (uses : List Access) (fault : Option Fault) : Prop where
  bound : ∀ a ∈ uses, a.distance = Blocks.distance? a.scope.shape a.name.value
  undefined : ∀ line, fault = undefinedAt line ↔
    ∃ a ∈ uses, a.distance = none ∧ a.name.line = line

def missesVariable : Option Fault → Bool
  | some (.misuse .undefinedVariable _) => true
  | _ => false

theorem Accounts.nil {fault : Option Fault} (h : missesVariable fault = false) :
    Accounts [] fault := by
  refine ⟨by simp, fun line => ⟨fun hfault => ?_, by simp⟩⟩
  rw [hfault] at h
  cases h

theorem Accounts.append {first second : List Access} {fault : Option Fault}
    (hfirst : Accounts first none) (hsecond : Accounts second fault) :
    Accounts (first ++ second) fault := by
  refine ⟨fun a ha => ?_, fun line => ?_⟩
  · rcases List.mem_append.mp ha with ha | ha
    · exact hfirst.bound a ha
    · exact hsecond.bound a ha
  · have hnone : ¬ ∃ a ∈ first, a.distance = none ∧ a.name.line = line := fun h => by
      cases (hfirst.undefined line).mpr h
    rw [hsecond.undefined line]
    constructor
    · rintro ⟨a, ha, h⟩
      exact ⟨a, List.mem_append_right first ha, h⟩
    · rintro ⟨a, ha, h⟩
      rcases List.mem_append.mp ha with ha | ha
      · exact absurd ⟨a, ha, h⟩ hnone
      · exact ⟨a, ha, h⟩

def resultFault (r : Result) : Option Fault :=
  match r.1 with
  | .ok _ => none
  | .error fault => some fault

def runFault (r : Run) : Option Fault :=
  match r.1 with
  | .failed fault => some fault
  | _ => none

theorem Accounts.result {uses : List Access} {r : Result} {f : Value → Scope → Result}
    {more : Value → Scope → List Access} (hr : Accounts uses (resultFault r))
    (hf : ∀ v scope, r = (.ok v, scope) → Accounts (more v scope) (resultFault (f v scope))) :
    Accounts (uses ++ behindResult r more) (resultFault (r.andThen f)) := by
  obtain ⟨result, scope⟩ := r
  cases result with
  | ok v => exact hr.append (hf v scope rfl)
  | error =>
    rw [behindResult, List.append_nil]
    exact hr

theorem Accounts.run {uses : List Access} {r : Run} {f : State → Run} {more : State → List Access}
    (hr : Accounts uses (runFault r))
    (hf : ∀ t, r = (.completed, t) → Accounts (more t) (runFault (f t))) :
    Accounts (uses ++ behindRun r more) (runFault (r.andThen f)) := by
  obtain ⟨outcome, t⟩ := r
  cases outcome with
  | completed => exact hr.append (hf t rfl)
  | failed =>
    rw [behindRun, List.append_nil]
    · exact hr
    · nofun
  | outOfFuel =>
    rw [behindRun, List.append_nil]
    · exact hr
    · nofun

theorem Accounts.operation {uses : List Access} {r : Result} {f : Value → Except Fault Value}
    (hr : Accounts uses (resultFault r))
    (hf : ∀ v scope, missesVariable (resultFault (f v, scope)) = false) :
    Accounts uses (resultFault (r.andThen fun v scope => (f v, scope))) := by
  obtain ⟨result, scope⟩ := r
  cases result with
  | error => exact hr
  | ok v =>
    rw [← List.append_nil uses]
    exact hr.append (.nil (hf v scope))

theorem applyUnary_misses_none (op : Token) (v : Value) (scope : Scope) :
    missesVariable (resultFault (Evaluation.applyUnary op v, scope)) = false := by
  unfold Evaluation.applyUnary
  split <;> rfl

theorem applyNumeric_misses_none (kind : Kind) (x y : Float) (scope : Scope) :
    missesVariable (resultFault (Evaluation.applyNumeric kind x y, scope)) = false := by
  cases kind with
  | slash =>
    obtain ⟨z, hz⟩ := Evaluation.applyNumeric_slash x y
    rw [hz]
    rfl
  | _ => rfl

theorem applyBinary_misses_none (op : Token) (left right : Value) (scope : Scope) :
    missesVariable (resultFault (Evaluation.applyBinary op left right, scope)) = false := by
  unfold Evaluation.applyBinary
  split
  · rfl
  · rfl
  · unfold Evaluation.applyPlus
    split <;> rfl
  · unfold Evaluation.applyToNumbers
    split
    · exact applyNumeric_misses_none _ _ _ scope
    · rfl
    · rfl

/-- One use of a name accounts for a fault that arises iff no block declares the name. -/
theorem Accounts.use {name : Token} {scope : Scope} {fault : Option Fault}
    (hnone : scope.home? name.value = none → fault = undefinedAt name.line)
    (hsome : scope.home? name.value ≠ none → fault = none) :
    Accounts [⟨name, Blocks.distance? scope.shape name.value, scope⟩] fault := by
  rw [Scope.home_eq_distance] at hnone hsome
  refine ⟨by simp, fun line => ?_⟩
  by_cases hdistance : Blocks.distance? scope.shape name.value = none
  · rw [hnone hdistance]
    simp [undefinedAt, hdistance]
  · rw [hsome hdistance]
    simp [undefinedAt, hdistance]

theorem Accounts.lookup (name : Token) (scope : Scope) :
    Accounts [⟨name, Blocks.distance? scope.shape name.value, scope⟩]
      (resultFault (Evaluation.lookup name scope)) := by
  have hnone := Scope.get_eq_none_iff scope name.value
  unfold Evaluation.lookup
  split
  · next v hget =>
    refine .use (fun h => ?_) fun _ => rfl
    rw [hnone.mpr h] at hget
    cases hget
  · next hget => exact .use (fun _ => rfl) fun h => absurd (hnone.mp hget) h

theorem Accounts.store (name : Token) (v : Value) (scope : Scope) :
    Accounts [⟨name, Blocks.distance? scope.shape name.value, scope⟩]
      (resultFault (Evaluation.store name v scope)) := by
  have hnone := Scope.assign_eq_none_iff scope name.value v
  unfold Evaluation.store
  split
  · next after hassign =>
    refine .use (fun h => ?_) fun _ => rfl
    rw [hnone.mpr h] at hassign
    cases hassign
  · next hassign => exact .use (fun _ => rfl) fun h => absurd (hnone.mp hassign) h

theorem logExpr_accounts (e : Expr) (scope : Scope) :
    Accounts (logExpr (e.resolve scope.shape) scope) (resultFault (Evaluation.eval e scope)) := by
  generalize hblocks : scope.shape = blocks
  induction e generalizing scope with
  | literal => exact .nil rfl
  | group inner ih => exact ih scope hblocks
  | unary op r ih => exact (ih scope hblocks).operation (applyUnary_misses_none op)
  | binary l op r ihl ihr =>
    rw [Expr.resolve, logExpr, plain_resolve_expr]
    refine (ihl scope hblocks).result fun left mid hmid => ?_
    refine (ihr mid ?_).operation (applyBinary_misses_none op left)
    exact (Evaluation.eval_ok_shape hmid).trans hblocks
  | logical l op r ihl ihr =>
    rw [Expr.resolve, logExpr, plain_resolve_expr]
    refine (ihl scope hblocks).result fun left mid hmid => ?_
    split
    · exact .nil rfl
    · exact ihr mid ((Evaluation.eval_ok_shape hmid).trans hblocks)
  | var name =>
    subst hblocks
    exact .lookup name scope
  | assign name e ih =>
    rw [Expr.resolve, logExpr, plain_resolve_expr]
    refine (ih scope hblocks).result fun v mid hmid => ?_
    rw [← hblocks, ← Evaluation.eval_ok_shape hmid]
    exact .store name v mid
  | unknown => exact .nil rfl
  | cut => exact .nil rfl

theorem logValue_accounts {f : Value → State → Run} {more : Value → State → List Access} (e : Expr)
    (s : State)
    (hf : ∀ v t, t.scope.shape = s.scope.shape → Accounts (more v t) (runFault (f v t))) :
    Accounts (logValue (e.resolve s.scope.shape) s more)
      (runFault (Evaluation.withValue e s f)) := by
  have hexpr := logExpr_accounts e s.scope
  rw [logValue, plain_resolve_expr, Evaluation.withValue]
  cases heval : Evaluation.eval e s.scope with
  | mk result scope =>
    rw [heval] at hexpr
    cases result with
    | ok v => exact hexpr.append (hf v { s with scope } (Evaluation.eval_ok_shape heval))
    | error =>
      rw [behindResult, List.append_nil]
      exact hexpr

theorem logExpr_statement {f : Value → State → Run} (e : Expr) (s : State)
    (hf : ∀ v t, runFault (f v t) = none) :
    Accounts (logExpr (e.resolve s.scope.shape) s.scope)
      (runFault (Evaluation.withValue e s f)) := by
  have hvalue := @logValue_accounts f (fun _ _ => []) e s fun v t _ => by
    rw [hf v t]
    exact .nil rfl
  have hnone : ∀ r : Result, behindResult r (fun _ _ => []) = [] := fun r => by
    obtain ⟨result, scope⟩ := r
    cases result <;> rfl
  rw [logValue, hnone, List.append_nil] at hvalue
  exact hvalue

theorem logRounds_accounts {body : State → Run} {round : State → List Access} {blocks : Blocks}
    (c : Expr) (hround : ∀ t, t.scope.shape = blocks → Accounts (round t) (runFault (body t)))
    (hshape : ∀ t, (body t).2.scope.shape = t.scope.shape) (n : Nat) (s : State)
    (hs : s.scope.shape = blocks) :
    Accounts (logRounds (c.resolve blocks) body round n s)
      (runFault (Evaluation.repeatWhile c body n s)) := by
  induction n generalizing s with
  | zero => exact .nil rfl
  | succ n ih =>
    subst hs
    rw [Evaluation.repeatWhile_succ, logRounds]
    refine logValue_accounts c s fun v t ht => ?_
    split
    · refine (hround t ht).run fun u hu => ih u ?_
      -- The next round has the names of this one, and the condition its distances.
      have hkept := hshape t
      rw [hu] at hkept
      exact hkept.trans ht
    · exact .nil rfl

mutual

theorem plain_resolve : ∀ (stmt : Stmt) (blocks : Blocks), (stmt.resolve blocks).plain = stmt
  | .expression e, blocks | .print e, blocks | .declare _ e, blocks | .bare e, blocks => by
    simp only [Stmt.resolve, BoundStmt.plain, plain_resolve_expr]
  | .block body, blocks => by
    simp only [Stmt.resolve, BoundStmt.plain, plainAll_resolveAll body]
  | .ifThen c yes, blocks => by
    simp only [Stmt.resolve, BoundStmt.plain, plain_resolve_expr, plain_resolve yes]
  | .ifElse c yes no, blocks => by
    simp only [Stmt.resolve, BoundStmt.plain, plain_resolve_expr, plain_resolve yes,
      plain_resolve no]
  | .loop c body, blocks => by
    simp only [Stmt.resolve, BoundStmt.plain, plain_resolve_expr, plain_resolve body]
  | .unknown _, _ => rfl
  | .cut, _ => rfl

theorem plainAll_resolveAll : ∀ (body : List Stmt) (blocks : Blocks),
    BoundStmt.plainAll (Stmt.resolveAll blocks body) = body
  | [], _ => rfl
  | stmt :: rest, blocks => by
    simp only [Stmt.resolveAll, BoundStmt.plainAll, plain_resolve stmt, plainAll_resolveAll rest]

end

theorem inFrame_fault (s : State) (f : State → Run) :
    runFault (Evaluation.inFrame s f) = runFault (f s.enter) := rfl

mutual

theorem logStmt_accounts (fuel : Nat) : ∀ (stmt : Stmt) (blocks : Blocks) (s : State),
    stmt.Placed → s.scope.shape = blocks →
      Accounts (logStmt fuel (stmt.resolve blocks) s) (runFault (Evaluation.exec fuel stmt s))
  | .expression e, _, s, _, rfl => logExpr_statement e s fun _ _ => rfl
  | .print e, _, s, _, rfl => logExpr_statement e s fun _ _ => rfl
  | .declare name e, _, s, _, rfl => logExpr_statement e s fun _ _ => rfl
  | .block body, _, s, hplaced, rfl => by
    rw [Evaluation.exec, inFrame_fault]
    exact logAll_accounts fuel body ([] :: s.scope.shape) s.enter hplaced rfl
  | .ifThen c yes, _, s, hplaced, rfl => by
    refine logValue_accounts c s fun v t ht => ?_
    split
    · exact logStmt_accounts fuel yes _ t hplaced.2 ht
    · exact .nil rfl
  | .ifElse c yes no, _, s, hplaced, rfl => by
    refine logValue_accounts c s fun v t ht => ?_
    split
    · exact logStmt_accounts fuel yes _ t hplaced.1.2 ht
    · exact logStmt_accounts fuel no _ t hplaced.2.2 ht
  | .loop c body, _, s, hplaced, rfl => by
    rw [Stmt.resolve, logStmt, plain_resolve, Evaluation.exec]
    exact logRounds_accounts c (fun t ht => logStmt_accounts fuel body _ t hplaced.2 ht)
      (Evaluation.exec_shape hplaced.1 fuel) fuel s rfl
  | .bare e, _, s, _, _ => .nil rfl
  | .unknown label, _, s, _, _ => .nil rfl
  | .cut, _, s, _, _ => .nil rfl

theorem logAll_accounts (fuel : Nat) : ∀ (body : List Stmt) (blocks : Blocks) (s : State),
    Stmt.AllPlaced body → s.scope.shape = blocks →
      Accounts (logAll fuel (Stmt.resolveAll blocks body) s)
        (runFault (Evaluation.execAll fuel body s))
  | [], _, s, _, _ => .nil rfl
  | stmt :: rest, _, s, hplaced, rfl => by
    rw [Evaluation.execAll_cons, Stmt.resolveAll, logAll, plain_resolve]
    refine (logStmt_accounts fuel stmt _ s hplaced.1 rfl).run fun t ht => ?_
    exact logAll_accounts fuel rest _ t hplaced.2 (Evaluation.exec_completed_shape hplaced.1 ht)

end

end Resolution

end Lox
