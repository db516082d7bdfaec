import Lox.Evaluation

/-!
# Frames during a run

Running a statement leaves the frames that it found, and adds names to the innermost one at most;
if the statement declares nothing outside of its blocks, it adds none.
-/

namespace Lox

/-- Whether a declaration stands in the statement outside of any block. -/
def Stmt.declares : Stmt → Bool
  | .declare .. => true
  | .ifThen _ yes => yes.declares
  | .ifElse _ yes no => yes.declares || no.declares
  | .loop _ body => body.declares
  | _ => false

theorem Frame.names_set {f : Frame} {name : Name} (v : Value) (h : f.has name = true) :
    (f.set name v).names = f.names := by
  induction f with
  | nil => cases h
  | cons binding f ih =>
    by_cases hkey : Name.key binding.1 = Name.key name
    · simp [Frame.set, hkey, Frame.names]
    · have htail : Frame.has f name = true := by
        simpa [Frame.has, Frame.get?, Frame.atKey?, hkey] using h
      simpa [Frame.set, hkey, Frame.names] using ih htail

namespace Scope

def shape (s : Scope) : List (List Name) := s.frames.map Frame.names

theorem assignIn_names {name : Name} {v : Value} {fs gs : List Frame}
    (h : assignIn name v fs = some gs) : gs.map Frame.names = fs.map Frame.names := by
  induction fs generalizing gs with
  | nil => cases h
  | cons f fs ih =>
    unfold assignIn at h
    split at h
    · next hf =>
      cases h
      simp [Frame.names_set v hf]
    · obtain ⟨hs, hassign, rfl⟩ := Option.map_eq_some_iff.mp h
      simp [ih hassign]

theorem unwind_frames {s base : Scope} {extra : List Frame} (h : s.frames = extra ++ base.frames) :
    s.unwind base.depth = base := by
  have hone : max (Int.toNat base.depth) 1 = base.depth := by
    simp [depth, frames]
  have hdepth : s.depth - base.depth = extra.length := by
    simp [depth, h]
  unfold unwind
  rw [hone, hdepth, h, List.drop_left]
  rfl

theorem assign_frames (s : Scope) (name : Name) (v : Value) :
    (s.assign? name v).map frames = assignIn name v s.frames := by
  simp only [assign?, frames, assignIn]
  split
  · rfl
  · simp [Function.comp_def, frames]

theorem assign_shape {s t : Scope} {name : Name} {v : Value} (h : s.assign? name v = some t) :
    t.shape = s.shape := by
  unfold assign? at h
  split at h
  · next hinner =>
    cases h
    simp [shape, frames, define, Frame.names_set v hinner]
  · obtain ⟨outer, hassign, rfl⟩ := Option.map_eq_some_iff.mp h
    simp [shape, frames, assignIn_names hassign]

end Scope

namespace Evaluation

theorem Run.andThen_assoc (r : Run) (f g : State → Run) :
    (r.andThen f).andThen g = r.andThen fun s => (f s).andThen g := by
  obtain ⟨outcome, s⟩ := r
  cases outcome <;> rfl

theorem Run.andThen_completed (r : Run) : r.andThen (fun s => (.completed, s)) = r := by
  obtain ⟨outcome, s⟩ := r
  cases outcome <;> rfl

theorem execAll_cons (fuel : Nat) (stmt : Stmt) (rest : List Stmt) (s : State) :
    execAll fuel (stmt :: rest) s = (exec fuel stmt s).andThen (execAll fuel rest) := by
  rw [execAll]
  obtain ⟨outcome, t⟩ := exec fuel stmt s
  cases outcome <;> rfl

theorem repeatWhile_succ (c : Expr) (body : State → Run) (n : Nat) (s : State) :
    repeatWhile c body (n + 1) s = withValue c s fun v s =>
      if v.truthy then (body s).andThen (repeatWhile c body n) else (.completed, s) := by
  rw [repeatWhile]
  congr 1
  funext v t
  split
  · obtain ⟨outcome, u⟩ := body t
    cases outcome <;> rfl
  · rfl

def State.enter (s : State) : State := { s with scope := s.scope.enter }

theorem inFrame_eq (s : State) (f : State → Run) :
    inFrame s f =
      ((f s.enter).1, { (f s.enter).2 with scope := (f s.enter).2.scope.leave }) := rfl

theorem Result.andThen_shape {r : Result} {f : Value → Scope → Result} {names : List (List Name)}
    (hr : r.2.shape = names) (hf : ∀ v scope, scope.shape = names → (f v scope).2.shape = names) :
    (r.andThen f).2.shape = names := by
  obtain ⟨result, scope⟩ := r
  cases result with
  | error => exact hr
  | ok v => exact hf v scope hr

theorem eval_shape (e : Expr) (scope : Scope) : (eval e scope).2.shape = scope.shape := by
  induction e generalizing scope with
  | literal => rfl
  | group inner ih => exact ih scope
  | unary op r ih => exact Result.andThen_shape (ih scope) fun _ _ h => h
  | binary l op r ihl ihr =>
    refine Result.andThen_shape (ihl scope) fun _ mid hmid => ?_
    exact Result.andThen_shape ((ihr mid).trans hmid) fun _ _ h => h
  | logical l op r ihl ihr =>
    refine Result.andThen_shape (ihl scope) fun v mid hmid => ?_
    split
    · exact hmid
    · exact (ihr mid).trans hmid
  | var name =>
    simp only [eval, lookup]
    split <;> rfl
  | assign name e ih =>
    refine Result.andThen_shape (ih scope) fun v mid hmid => ?_
    unfold store
    split
    · next hassign => exact (Scope.assign_shape hassign).trans hmid
    · exact hmid
  | unknown => rfl
  | cut => rfl

/-- The frames around the innermost one keep their names, and it keeps its own unless something is
declared. -/
structure Keeps (declares : Bool) (before after : Scope) : Prop where
  outer : after.outer.map Frame.names = before.outer.map Frame.names
  inner : declares = false → after.inner.names = before.inner.names

theorem Keeps.of_shape {declares : Bool} {before after : Scope} (h : after.shape = before.shape) :
    Keeps declares before after := by
  simp only [Scope.shape, Scope.frames, List.map_cons, List.cons.injEq] at h
  exact ⟨h.2, fun _ => h.1⟩

theorem Keeps.shape {before after : Scope} (h : Keeps false before after) :
    after.shape = before.shape := by
  simp [Scope.shape, Scope.frames, h.outer, h.inner rfl]

theorem Keeps.trans {first second : Bool} {a b c : Scope} (hab : Keeps first a b)
    (hbc : Keeps second b c) : Keeps (first || second) a c where
  outer := hbc.outer.trans hab.outer
  inner h := by
    rw [Bool.or_eq_false_iff] at h
    exact (hbc.inner h.2).trans (hab.inner h.1)

theorem Keeps.weaken {first second : Bool} {a b : Scope} (h : Keeps first a b)
    (himp : second = false → first = false) : Keeps second a b :=
  ⟨h.outer, fun hsecond => h.inner (himp hsecond)⟩

theorem withValue_keeps {declares : Bool} {f : Value → State → Run} (e : Expr) (s : State)
    (hf : ∀ v t, Keeps declares t.scope (f v t).2.scope) :
    Keeps declares s.scope (withValue e s f).2.scope := by
  have heval : Keeps false s.scope (eval e s.scope).2 := .of_shape (eval_shape e s.scope)
  unfold withValue
  split
  · next v scope h =>
    rw [h] at heval
    exact heval.trans (hf v { s with scope })
  · next h =>
    rw [h] at heval
    exact heval.weaken fun _ => rfl

theorem andThen_keeps {first second : Bool} {before : Scope} {r : Run} {f : State → Run}
    (hr : Keeps first before r.2.scope) (hf : ∀ t, Keeps second t.scope (f t).2.scope) :
    Keeps (first || second) before (r.andThen f).2.scope := by
  have hstop : Keeps (first || second) before r.2.scope :=
    hr.weaken fun h => (Bool.or_eq_false_iff.mp h).1
  obtain ⟨outcome, t⟩ := r
  cases outcome with
  | completed => exact hr.trans (hf t)
  | failed => exact hstop
  | outOfFuel => exact hstop

theorem repeatWhile_keeps {declares : Bool} {body : State → Run} (c : Expr)
    (hbody : ∀ t, Keeps declares t.scope (body t).2.scope) (n : Nat) (s : State) :
    Keeps declares s.scope (repeatWhile c body n s).2.scope := by
  induction n generalizing s with
  | zero => exact .of_shape rfl
  | succ n ih =>
    rw [repeatWhile_succ]
    refine withValue_keeps c s fun v t => ?_
    split
    · exact (andThen_keeps (hbody t) ih).weaken fun hd => by rw [hd]; rfl
    · exact .of_shape rfl

theorem inFrame_keeps {declares : Bool} {f : State → Run} (s : State)
    (hf : ∀ t, Keeps declares t.scope (f t).2.scope) :
    Keeps false s.scope (inFrame s f).2.scope := by
  have houter := (hf { s with scope := s.scope.enter }).outer
  refine .of_shape ?_
  simp only [inFrame, Scope.leave, Scope.leave?]
  split
  · next h =>
    rw [h] at houter
    cases houter
  · next frame rest h =>
    rw [h] at houter
    exact houter

mutual

theorem exec_keeps (fuel : Nat) : ∀ (stmt : Stmt) (s : State),
    Keeps stmt.declares s.scope (exec fuel stmt s).2.scope
  | .expression e, s => withValue_keeps e s fun _ _ => .of_shape rfl
  | .print e, s => withValue_keeps e s fun _ _ => .of_shape rfl
  | .declare name e, s => withValue_keeps e s fun _ _ => ⟨rfl, nofun⟩
  | .block body, s => inFrame_keeps s (execAll_keeps fuel body)
  | .ifThen c yes, s => by
    refine withValue_keeps c s fun v t => ?_
    split
    · exact exec_keeps fuel yes t
    · exact .of_shape rfl
  | .ifElse c yes no, s => by
    refine withValue_keeps c s fun v t => ?_
    split
    · exact (exec_keeps fuel yes t).weaken fun h => (Bool.or_eq_false_iff.mp h).1
    · exact (exec_keeps fuel no t).weaken fun h => (Bool.or_eq_false_iff.mp h).2
  | .loop c body, s => repeatWhile_keeps c (exec_keeps fuel body) fuel s
  | .bare e, s => .of_shape rfl
  | .unknown label, s => .of_shape rfl
  | .cut, s => .of_shape rfl

theorem execAll_keeps (fuel : Nat) : ∀ (body : List Stmt) (s : State),
    Keeps (body.any Stmt.declares) s.scope (execAll fuel body s).2.scope
  | [], s => .of_shape rfl
  | stmt :: rest, s => by
    rw [execAll_cons]
    exact andThen_keeps (exec_keeps fuel stmt s) (execAll_keeps fuel rest)

end

theorem Keeps.depth {declares : Bool} {before after : Scope} (h : Keeps declares before after) :
    after.depth = before.depth := by
  have hlength := congrArg List.length h.outer
  simpa [Scope.depth, Scope.frames] using hlength

theorem Run.handled_eq {r : Run} {depth : Nat} (h : r.2.scope.depth = depth) :
    r.handled depth = r := by
  obtain ⟨outcome, s⟩ := r
  subst h
  unfold Run.handled
  split
  · next h =>
    cases h
    rw [@Scope.unwind_frames s.scope s.scope [] rfl]
  · rfl

/-- A run whose blocks all leave their frames has nothing that is taken away in the end. -/
theorem interpretWithin_eq (room fuel : Nat) (program : List Stmt) (scope : Scope) :
    interpretWithin room fuel program scope =
      execAll fuel (Stmt.cutAllAt costs room program) ⟨scope, #[]⟩ :=
  Run.handled_eq (execAll_keeps fuel _ ⟨scope, #[]⟩).depth

theorem execAll_enter_outer (fuel : Nat) (body : List Stmt) (s : State) :
    (execAll fuel body s.enter).2.scope.outer ≠ [] := by
  intro hnil
  have houter := (execAll_keeps fuel body s.enter).outer
  rw [hnil] at houter
  cases houter

end Evaluation

end Lox
