import Lox.Proofs.Evaluation.Frames
import Lox.Proofs.Evaluation.Resolution

/-!
# The frames of a run are the blocks of the program

While a program runs, the names bound in each frame are the names declared before the current place
in each block around it. So looking a name up from the inside out leads to the frame that the
program text gives, and a bound tree runs like the plain one.
-/

namespace Lox

theorem Frame.has_eq_lists (f : Frame) (name : Name) : f.has name = Blocks.lists f.names name := by
  induction f with
  | nil => rfl
  | cons binding f ih =>
    by_cases hkey : Name.key binding.1 = Name.key name
    · simp [Frame.has, Frame.get?, Frame.atKey?, Blocks.lists, Frame.names, hkey]
    · simpa [Frame.has, Frame.get?, Frame.atKey?, Blocks.lists, Frame.names, hkey] using ih

theorem Frame.names_set_new {f : Frame} {name : Name} (v : Value) (h : f.has name = false) :
    (f.set name v).names = f.names ++ [name] := by
  induction f with
  | nil => rfl
  | cons binding f ih =>
    by_cases hkey : Name.key binding.1 = Name.key name
    · simp [Frame.has, Frame.get?, Frame.atKey?, hkey] at h
    · have htail : Frame.has f name = false := by
        simpa [Frame.has, Frame.get?, Frame.atKey?, hkey] using h
      simpa [Frame.set, hkey, Frame.names] using ih htail

namespace Scope

theorem define_shape (s : Scope) (name : Name) (v : Value) :
    (s.define name v).shape = Blocks.declare name s.shape := by
  have hlists := Frame.has_eq_lists s.inner name
  simp only [shape, frames, define, Blocks.declare, List.map_cons, ← hlists]
  split
  · next h => rw [Frame.names_set v h]
  · next h => rw [Frame.names_set_new v (Bool.eq_false_iff.mpr h)]

theorem home_eq_distance (s : Scope) (name : Name) :
    s.home? name = Blocks.distance? s.shape name := by
  simp only [home?, Blocks.distance?, shape, List.findIdx?_map, Frame.has_eq_lists]
  rfl

theorem lookupIn_eq (name : Name) (fs : List Frame) :
    lookupIn name fs =
      (fs.findIdx? (·.has name)).bind fun position => fs[position]?.bind (·.get? name) := by
  induction fs with
  | nil => rfl
  | cons f fs ih =>
    cases hget : f.get? name with
    | some v => simp [lookupIn, List.findIdx?_cons, Frame.has, hget]
    | none =>
      simp only [lookupIn, hget, List.findIdx?_cons, Frame.has, Option.isSome_none,
        Bool.false_eq_true, if_false, ih]
      cases fs.findIdx? _ <;> rfl

theorem get_eq_home (s : Scope) (name : Name) :
    s.get? name = (s.home? name).bind fun position => s.getAt? position name :=
  lookupIn_eq name s.frames

theorem assignIn_eq (name : Name) (v : Value) (fs : List Frame) :
    assignIn name v fs =
      (fs.findIdx? (·.has name)).map fun position => fs.modify position (·.set name v) := by
  induction fs with
  | nil => rfl
  | cons f fs ih =>
    by_cases hf : f.has name = true
    · simp [assignIn, List.findIdx?_cons, hf]
    · simp only [assignIn, hf, List.findIdx?_cons, ih, Bool.false_eq_true, if_false]
      cases fs.findIdx? _ <;> rfl

theorem assign_eq_home (s : Scope) (name : Name) (v : Value) :
    s.assign? name v = (s.home? name).map (s.setAt name v) := by
  simp only [assign?, home?, frames, List.findIdx?_cons, assignIn_eq]
  split
  · rfl
  · cases s.outer.findIdx? _ <;> rfl

end Scope

mutual

/-- Declarations stand directly in blocks, never as the branch of an `if` or the body of a loop. -/
def Stmt.Placed : Stmt → Prop
  | .block body => Stmt.AllPlaced body
  | .ifThen _ yes => yes.declares = false ∧ yes.Placed
  | .ifElse _ yes no => (yes.declares = false ∧ yes.Placed) ∧ no.declares = false ∧ no.Placed
  | .loop _ body => body.declares = false ∧ body.Placed
  | _ => True

def Stmt.AllPlaced : List Stmt → Prop
  | [] => True
  | stmt :: rest => stmt.Placed ∧ Stmt.AllPlaced rest

end

theorem Stmt.Placed.declares_cases {stmt : Stmt} (h : stmt.Placed) :
    (∃ name e, stmt = .declare name e) ∨
      stmt.declares = false ∧ ∀ blocks : Blocks, blocks.after stmt = blocks := by
  cases stmt with
  | declare name e => exact Or.inl ⟨name, e, rfl⟩
  | ifThen => exact Or.inr ⟨h.1, fun _ => rfl⟩
  | ifElse => exact Or.inr ⟨Bool.or_eq_false_iff.mpr ⟨h.1.1, h.2.1⟩, fun _ => rfl⟩
  | loop => exact Or.inr ⟨h.1, fun _ => rfl⟩
  | _ => exact Or.inr ⟨rfl, fun _ => rfl⟩

namespace Evaluation

theorem exec_shape {stmt : Stmt} (h : stmt.declares = false) (fuel : Nat) (s : State) :
    (exec fuel stmt s).2.scope.shape = s.scope.shape := by
  have hkeeps := exec_keeps fuel stmt s
  rw [h] at hkeeps
  exact hkeeps.shape

theorem eval_ok_shape {e : Expr} {scope after : Scope} {v : Value}
    (h : eval e scope = (.ok v, after)) : after.shape = scope.shape := by
  have hshape := eval_shape e scope
  rw [h] at hshape
  exact hshape

theorem exec_completed_shape {stmt : Stmt} (hplaced : stmt.Placed) {fuel : Nat} {s t : State}
    (h : exec fuel stmt s = (.completed, t)) :
    t.scope.shape = Blocks.after s.scope.shape stmt := by
  rcases hplaced.declares_cases with ⟨name, e, rfl⟩ | ⟨hdeclares, hafter⟩
  · rw [exec, withValue] at h
    split at h
    · next v scope heval =>
      cases h
      rw [Scope.define_shape]
      exact congrArg (Blocks.declare name.value) (eval_ok_shape heval)
    · cases h
  · have hshape := exec_shape hdeclares fuel s
    rw [h] at hshape
    rw [hafter]
    exact hshape

end Evaluation

namespace Resolution

open Evaluation (State Run Result)

theorem lookupAt_home (name : Token) (scope : Scope) :
    lookupAt name (Blocks.distance? scope.shape name.value) scope =
      Evaluation.lookup name scope := by
  have hget := Scope.get_eq_home scope name.value
  rw [Scope.home_eq_distance] at hget
  cases hv : scope.get? name.value with
  | none => simp only [lookupAt, Evaluation.lookup, ← hget, hv]
  | some v => simp only [lookupAt, Evaluation.lookup, ← hget, hv]

theorem storeAt_home (name : Token) (v : Value) (scope : Scope) :
    storeAt name (Blocks.distance? scope.shape name.value) v scope =
      Evaluation.store name v scope := by
  have hassign := Scope.assign_eq_home scope name.value v
  rw [Scope.home_eq_distance] at hassign
  cases hd : Blocks.distance? scope.shape name.value with
  | none => simp only [storeAt, Evaluation.store, hassign, hd, Option.map_none]
  | some d => simp only [storeAt, Evaluation.store, hassign, hd, Option.map_some]

theorem Result.andThen_congr {r : Result} {f g : Value → Scope → Result}
    (h : ∀ v scope, r = (.ok v, scope) → f v scope = g v scope) : r.andThen f = r.andThen g := by
  obtain ⟨result, scope⟩ := r
  cases result with
  | error => rfl
  | ok v => exact h v scope rfl

theorem eval_resolve (e : Expr) (scope : Scope) :
    eval (e.resolve scope.shape) scope = Evaluation.eval e scope := by
  generalize hblocks : scope.shape = blocks
  induction e generalizing scope with
  | literal => rfl
  | group inner ih => exact ih scope hblocks
  | unary op r ih => simp only [Expr.resolve, eval, Evaluation.eval, ih scope hblocks]
  | binary l op r ihl ihr =>
    simp only [Expr.resolve, eval, Evaluation.eval, ihl scope hblocks]
    refine Result.andThen_congr fun v mid hmid => ?_
    rw [ihr mid ((Evaluation.eval_ok_shape hmid).trans hblocks)]
  | logical l op r ihl ihr =>
    simp only [Expr.resolve, eval, Evaluation.eval, ihl scope hblocks]
    refine Result.andThen_congr fun v mid hmid => ?_
    rw [ihr mid ((Evaluation.eval_ok_shape hmid).trans hblocks)]
  | var name =>
    subst hblocks
    exact lookupAt_home name scope
  | assign name e ih =>
    simp only [Expr.resolve, eval, Evaluation.eval, ih scope hblocks]
    refine Result.andThen_congr fun v mid hmid => ?_
    rw [← hblocks, ← Evaluation.eval_ok_shape hmid]
    exact storeAt_home name v mid
  | unknown => rfl
  | cut => rfl

theorem withValue_resolve {f g : Value → State → Run} (e : Expr) (s : State)
    (hf : ∀ v t, t.scope.shape = s.scope.shape → f v t = g v t) :
    withValue (e.resolve s.scope.shape) s f = Evaluation.withValue e s g := by
  unfold withValue Evaluation.withValue
  rw [eval_resolve]
  cases heval : Evaluation.eval e s.scope with
  | mk result scope =>
    cases result with
    | error => rfl
    | ok v => exact hf v { s with scope } (Evaluation.eval_ok_shape heval)

theorem Run.andThen_congr {r : Run} {f g : State → Run}
    (h : ∀ t, r = (.completed, t) → f t = g t) : r.andThen f = r.andThen g := by
  obtain ⟨outcome, t⟩ := r
  cases outcome with
  | completed => exact h t rfl
  | failed => rfl
  | outOfFuel => rfl

theorem repeatWhile_resolve {body round : State → Run} {blocks : Blocks} (c : Expr)
    (hbody : ∀ t, t.scope.shape = blocks → round t = body t)
    (hshape : ∀ t, (body t).2.scope.shape = t.scope.shape) (n : Nat) (s : State)
    (hs : s.scope.shape = blocks) :
    repeatWhile (c.resolve blocks) round n s = Evaluation.repeatWhile c body n s := by
  induction n generalizing s with
  | zero => rfl
  | succ n ih =>
    subst hs
    rw [Evaluation.repeatWhile_succ, repeatWhile]
    refine withValue_resolve c s fun v t ht => ?_
    rw [hbody t ht]
    split
    · refine Run.andThen_congr fun u hu => ih u ?_
      have hround := hshape t
      rw [hu] at hround
      exact hround.trans ht
    · rfl

theorem plain_resolve_expr (e : Expr) (blocks : Blocks) : (e.resolve blocks).plain = e := by
  induction e <;> simp_all [Expr.resolve, BoundExpr.plain]

mutual

/-- A statement in the scope of its blocks runs the same bound and plain. -/
theorem exec_resolve (fuel : Nat) : ∀ (stmt : Stmt) (blocks : Blocks) (s : State),
    stmt.Placed → s.scope.shape = blocks →
      exec fuel (stmt.resolve blocks) s = Evaluation.exec fuel stmt s
  | .expression e, _, s, _, rfl => withValue_resolve e s fun _ _ _ => rfl
  | .print e, _, s, _, rfl => withValue_resolve e s fun _ _ _ => rfl
  | .declare name e, _, s, _, rfl => withValue_resolve e s fun _ _ _ => rfl
  | .block body, _, s, hplaced, rfl => by
    have hbody := execAll_resolve fuel body ([] :: s.scope.shape) s.enter hplaced rfl
    rw [Evaluation.exec, Stmt.resolve, exec, Evaluation.inFrame_eq, Evaluation.inFrame_eq, hbody]
  | .ifThen c yes, _, s, hplaced, rfl => by
    refine withValue_resolve c s fun v t ht => ?_
    rw [exec_resolve fuel yes _ t hplaced.2 ht]
  | .ifElse c yes no, _, s, hplaced, rfl => by
    refine withValue_resolve c s fun v t ht => ?_
    rw [exec_resolve fuel yes _ t hplaced.1.2 ht, exec_resolve fuel no _ t hplaced.2.2 ht]
  | .loop c body, _, s, hplaced, rfl =>
    repeatWhile_resolve c (fun t ht => exec_resolve fuel body _ t hplaced.2 ht)
      (Evaluation.exec_shape hplaced.1 fuel) fuel s rfl
  | .bare e, blocks, s, _, _ => by
    rw [Stmt.resolve, exec, Evaluation.exec, plain_resolve_expr]
  | .unknown label, _, s, _, _ => rfl
  | .cut, _, s, _, _ => rfl

theorem execAll_resolve (fuel : Nat) : ∀ (body : List Stmt) (blocks : Blocks) (s : State),
    Stmt.AllPlaced body → s.scope.shape = blocks →
      execAll fuel (Stmt.resolveAll blocks body) s = Evaluation.execAll fuel body s
  | [], _, s, _, _ => rfl
  | stmt :: rest, _, s, hplaced, rfl => by
    rw [Evaluation.execAll_cons, Stmt.resolveAll, execAll, exec_resolve fuel stmt _ s hplaced.1 rfl]
    refine Run.andThen_congr fun t ht => ?_
    exact execAll_resolve fuel rest _ t hplaced.2 (Evaluation.exec_completed_shape hplaced.1 ht)

end

end Resolution

end Lox
