import Lox.Proofs.Evaluation.Lexical

/-!
# Frames are released however a run ends

A run gives back the frames it was given, whether it completes, fails or is broken off. It can be
broken off at any moment. Blocks leave their frames on the way out, unless it is the calls that have
run out: then even leaving a frame can fail, and the scope is unwound to its old depth in the end.
An interrupt that comes while a frame is being entered or left is not considered.
-/

namespace Lox

namespace Scope

/-- The scope afterwards has the same frames: the names in all but the innermost one are the same,
and that one has lost none. -/
structure Released (before after : Scope) : Prop where
  depth : after.depth = before.depth
  outer : after.outer.map Frame.names = before.outer.map Frame.names
  inner : before.inner.names <+: after.inner.names

theorem released_of_names {before after : Scope}
    (houter : after.outer.map Frame.names = before.outer.map Frame.names)
    (hinner : before.inner.names <+: after.inner.names) : Released before after := by
  refine ⟨?_, houter, hinner⟩
  have hlength := congrArg List.length houter
  simpa [depth, frames] using hlength

theorem released_of_shape {before after : Scope} (h : after.shape = before.shape) :
    Released before after := by
  simp only [shape, frames, List.map_cons, List.cons.injEq] at h
  exact released_of_names h.2 (h.1 ▸ List.prefix_rfl)

theorem Released.trans {a b c : Scope} (hab : Released a b) (hbc : Released b c) :
    Released a c :=
  released_of_names (hbc.outer.trans hab.outer) (hab.inner.trans hbc.inner)

theorem released_define (s : Scope) (name : Name) (v : Value) : Released s (s.define name v) := by
  refine released_of_names rfl ?_
  by_cases h : s.inner.has name = true
  · have hnames : (s.define name v).inner.names = s.inner.names := Frame.names_set v h
    exact hnames ▸ List.prefix_rfl
  · rw [define, Frame.names_set_new v (Bool.eq_false_iff.mpr h)]
    exact List.prefix_append _ _

theorem leave_frames {s : Scope} (h : s.outer ≠ []) : s.leave.frames = s.outer := by
  obtain ⟨f, rest, hcons⟩ := List.exists_cons_of_ne_nil h
  simp [leave, leave?, hcons, frames]

end Scope

namespace Evaluation

open Scope (Released released_of_shape)

theorem withValue_released {f : Value → State → Run} (e : Expr) (s : State)
    (hf : ∀ v t, Released t.scope (f v t).2.scope) :
    Released s.scope (withValue e s f).2.scope := by
  have heval : Released s.scope (eval e s.scope).2 := released_of_shape (eval_shape e s.scope)
  unfold withValue
  split
  · next v scope h =>
    rw [h] at heval
    exact heval.trans (hf v { s with scope })
  · next h =>
    rw [h] at heval
    exact heval

theorem andThen_released {before : Scope} {r : Run} {f : State → Run}
    (hr : Released before r.2.scope) (hf : ∀ t, Released t.scope (f t).2.scope) :
    Released before (r.andThen f).2.scope := by
  obtain ⟨outcome, t⟩ := r
  cases outcome with
  | completed => exact hr.trans (hf t)
  | failed => exact hr
  | outOfFuel => exact hr

theorem repeatWhile_released {body : State → Run} (c : Expr)
    (hbody : ∀ t, Released t.scope (body t).2.scope) (n : Nat) (s : State) :
    Released s.scope (repeatWhile c body n s).2.scope := by
  induction n generalizing s with
  | zero => exact released_of_shape rfl
  | succ n ih =>
    rw [repeatWhile_succ]
    refine withValue_released c s fun v t => ?_
    split
    · exact andThen_released (hbody t) ih
    · exact released_of_shape rfl

theorem exec_released (fuel : Nat) : ∀ (stmt : Stmt) (s : State),
    Released s.scope (exec fuel stmt s).2.scope
  | .declare name _, s =>
    withValue_released _ s fun v t => Scope.released_define t.scope name.value v
  | .ifThen c yes, s => by
    refine withValue_released c s fun v t => ?_
    split
    · exact exec_released fuel yes t
    · exact released_of_shape rfl
  | .ifElse c yes no, s => by
    refine withValue_released c s fun v t => ?_
    split
    · exact exec_released fuel yes t
    · exact exec_released fuel no t
  | .loop c body, s => repeatWhile_released c (exec_released fuel body) fuel s
  | .expression _, s | .print _, s | .block _, s | .bare _, s | .unknown _, s | .cut, s =>
    released_of_shape (exec_shape rfl fuel s)

theorem execAll_released (fuel : Nat) (body : List Stmt) (s : State) :
    Released s.scope (execAll fuel body s).2.scope := by
  induction body generalizing s with
  | nil => exact released_of_shape rfl
  | cons stmt rest ih =>
    rw [execAll_cons]
    exact andThen_released (exec_released fuel stmt s) ih

/-- Behind the body of a block there is a frame to leave, so that the outermost one never is. -/
theorem execAll_enter_leave (fuel : Nat) (body : List Stmt) (s : State) :
    (execAll fuel body s.enter).2.scope.leave? =
      some (exec fuel (.block body) s).2.scope := by
  obtain ⟨f, rest, hleave⟩ := List.exists_cons_of_ne_nil (execAll_enter_outer fuel body s)
  rw [exec, inFrame_eq]
  simp [Scope.leave, Scope.leave?, hleave]

inductive BreaksEval : Expr → Scope → Scope → Prop where
  | before {e : Expr} {s : Scope} : BreaksEval e s s
  | behind {e : Expr} {s : Scope} : BreaksEval e s (eval e s).2
  | group {e : Expr} {s t : Scope} (h : BreaksEval e s t) : BreaksEval (.group e) s t
  | unary {op : Token} {r : Expr} {s t : Scope} (h : BreaksEval r s t) :
      BreaksEval (.unary op r) s t
  | binaryLeft {l r : Expr} {op : Token} {s t : Scope} (h : BreaksEval l s t) :
      BreaksEval (.binary l op r) s t
  | binaryRight {l r : Expr} {op : Token} {v : Value} {s mid t : Scope}
      (hl : eval l s = (.ok v, mid)) (h : BreaksEval r mid t) : BreaksEval (.binary l op r) s t
  | logicalLeft {l r : Expr} {op : Token} {s t : Scope} (h : BreaksEval l s t) :
      BreaksEval (.logical l op r) s t
  | logicalRight {l r : Expr} {op : Token} {v : Value} {s mid t : Scope}
      (hl : eval l s = (.ok v, mid)) (hv : decides op v = false) (h : BreaksEval r mid t) :
      BreaksEval (.logical l op r) s t
  | assign {name : Token} {e : Expr} {s t : Scope} (h : BreaksEval e s t) :
      BreaksEval (.assign name e) s t

theorem BreaksEval.shape {e : Expr} {s t : Scope} (h : BreaksEval e s t) : t.shape = s.shape := by
  induction h with
  | before => rfl
  | behind => exact eval_shape _ _
  | group _ ih | unary _ ih | binaryLeft _ ih | logicalLeft _ ih | assign _ ih => exact ih
  | binaryRight hl _ ih => exact ih.trans (eval_ok_shape hl)
  | logicalRight hl _ _ ih => exact ih.trans (eval_ok_shape hl)

def leading? : Stmt → Option Expr
  | .expression e | .print e | .declare _ e | .ifThen e _ | .ifElse e _ _ | .loop e _ => some e
  | _ => none

mutual

/-- The states in which the run of a statement can be broken off. A block leaves its frame on the
way out; if the calls are exhausted, it may fail to. -/
inductive Breaks (exhausted : Prop) (fuel : Nat) : Stmt → State → State → Prop where
  | before {stmt : Stmt} {s : State} : Breaks exhausted fuel stmt s s
  | behind {stmt : Stmt} {s : State} : Breaks exhausted fuel stmt s (exec fuel stmt s).2
  | value {stmt : Stmt} {e : Expr} {s : State} {scope : Scope} (hlead : leading? stmt = some e)
      (h : BreaksEval e s.scope scope) : Breaks exhausted fuel stmt s { s with scope }
  | ifThen {c : Expr} {yes : Stmt} {v : Value} {s t : State} {scope : Scope}
      (hc : eval c s.scope = (.ok v, scope)) (hv : v.truthy = true)
      (h : Breaks exhausted fuel yes { s with scope } t) : Breaks exhausted fuel (.ifThen c yes) s t
  | ifElse {c : Expr} {yes no : Stmt} {v : Value} {s t : State} {scope : Scope}
      (hc : eval c s.scope = (.ok v, scope))
      (h : Breaks exhausted fuel (if v.truthy then yes else no) { s with scope } t) :
      Breaks exhausted fuel (.ifElse c yes no) s t
  | round {c : Expr} {body : Stmt} {v : Value} {s t : State} {scope : Scope}
      (hc : eval c s.scope = (.ok v, scope)) (hv : v.truthy = true)
      (h : Breaks exhausted fuel body { s with scope } t) : Breaks exhausted fuel (.loop c body) s t
  | nextRound {c : Expr} {body : Stmt} {v : Value} {s t u : State} {scope : Scope}
      (hc : eval c s.scope = (.ok v, scope)) (hv : v.truthy = true)
      (hbody : exec fuel body { s with scope } = (.completed, u))
      (h : Breaks exhausted fuel (.loop c body) u t) : Breaks exhausted fuel (.loop c body) s t
  | leftFrame {body : List Stmt} {s t : State} (h : BreaksAll exhausted fuel body s.enter t) :
      Breaks exhausted fuel (.block body) s { t with scope := t.scope.leave }
  | heldFrame {body : List Stmt} {s t : State} (hexhausted : exhausted)
      (h : BreaksAll exhausted fuel body s.enter t) : Breaks exhausted fuel (.block body) s t

inductive BreaksAll (exhausted : Prop) (fuel : Nat) : List Stmt → State → State → Prop where
  | done {s : State} : BreaksAll exhausted fuel [] s s
  | first {stmt : Stmt} {rest : List Stmt} {s t : State} (h : Breaks exhausted fuel stmt s t) :
      BreaksAll exhausted fuel (stmt :: rest) s t
  | later {stmt : Stmt} {rest : List Stmt} {s t u : State}
      (hstmt : exec fuel stmt s = (.completed, u)) (h : BreaksAll exhausted fuel rest u t) :
      BreaksAll exhausted fuel (stmt :: rest) s t

end

/-- The scopes in which interpreting a program can end: by itself, by something that breaks it off,
or because the calls are exhausted, and then it is unwound. -/
inductive Ends (fuel : Nat) (program : List Stmt) (scope : Scope) : Scope → Prop where
  | completed {s : State} (h : execAll fuel program ⟨scope, #[]⟩ = (.completed, s)) :
      Ends fuel program scope s.scope
  | failed {fault : Fault} {s : State}
      (h : execAll fuel program ⟨scope, #[]⟩ = (.failed fault, s)) : Ends fuel program scope s.scope
  | brokenOff {s : State} (h : BreaksAll False fuel program ⟨scope, #[]⟩ s) :
      Ends fuel program scope s.scope
  | exhausted {s : State} (h : BreaksAll True fuel program ⟨scope, #[]⟩ s) :
      Ends fuel program scope (Run.handled scope.depth (.failed .tooMuchNesting, s)).2.scope

/-- Some frames of blocks that were not left, and below them the scope as a run would release it.
There are none of the former unless the calls are exhausted. -/
def Stacked (exhausted : Prop) (before after : Scope) : Prop :=
  ∃ (extra : List Frame) (base : Scope),
    after.frames = extra ++ base.frames ∧ Released before base ∧ (extra ≠ [] → exhausted)

variable {exhausted : Prop}

theorem stacked_of_released {before after : Scope} (h : Released before after) :
    Stacked exhausted before after := ⟨[], after, rfl, h, fun hne => absurd rfl hne⟩

theorem Stacked.after {a b c : Scope} (hab : Released a b) (hbc : Stacked exhausted b c) :
    Stacked exhausted a c := by
  obtain ⟨extra, base, hframes, hbase, hextra⟩ := hbc
  exact ⟨extra, base, hframes, hab.trans hbase, hextra⟩

theorem Stacked.unwind {before after : Scope} (h : Stacked exhausted before after) :
    Released before (after.unwind before.depth) := by
  obtain ⟨extra, base, hframes, hbase, -⟩ := h
  rw [← hbase.depth, Scope.unwind_frames hframes]
  exact hbase

theorem Stacked.released {before after : Scope} (h : Stacked False before after) :
    Released before after := by
  obtain ⟨extra, base, hframes, hbase, hextra⟩ := h
  cases extra with
  | cons => exact (hextra (List.cons_ne_nil _ _)).elim
  | nil =>
    obtain ⟨inner, outer⟩ := after
    obtain ⟨rfl, rfl⟩ := List.cons.inj hframes
    exact hbase

theorem Stacked.below {s t : Scope} (h : Stacked exhausted s.enter t) :
    ∃ (extra : List Frame) (base : Scope),
      t.outer = extra ++ base.frames ∧ base.shape = s.shape ∧ (extra ≠ [] → exhausted) := by
  obtain ⟨extra, base, hframes, hbase, hextra⟩ := h
  have hbelow : base.outer.map Frame.names = s.shape := hbase.outer
  cases houter : base.outer with
  | nil =>
    rw [houter] at hbelow
    cases hbelow
  | cons f rest =>
    rw [houter] at hbelow
    have hbase : base.frames = base.inner :: Scope.frames ⟨f, rest⟩ := by
      rw [Scope.frames, houter]
      rfl
    rw [hbase] at hframes
    cases extra with
    | nil => exact ⟨[], ⟨f, rest⟩, (List.cons.inj hframes).2, hbelow, hextra⟩
    | cons g extra =>
      refine ⟨extra ++ [base.inner], ⟨f, rest⟩, ?_, hbelow, fun _ => hextra (List.cons_ne_nil _ _)⟩
      simpa using (List.cons.inj hframes).2

theorem Stacked.held {s t : Scope} (hexhausted : exhausted) (h : Stacked exhausted s.enter t) :
    Stacked exhausted s t := by
  obtain ⟨extra, base, houter, hshape, -⟩ := h.below
  refine ⟨t.inner :: extra, base, ?_, released_of_shape hshape, fun _ => hexhausted⟩
  rw [Scope.frames, houter]
  rfl

theorem Stacked.left {s t : Scope} (h : Stacked exhausted s.enter t) :
    Stacked exhausted s t.leave := by
  obtain ⟨extra, base, houter, hshape, hextra⟩ := h.below
  refine ⟨extra, base, ?_, released_of_shape hshape, hextra⟩
  rw [Scope.leave_frames, houter]
  rw [houter]
  simp [Scope.frames]

theorem released_value {c : Expr} {v : Value} {s scope : Scope} (h : eval c s = (.ok v, scope)) :
    Released s scope := released_of_shape (eval_ok_shape h)

theorem released_completed {fuel : Nat} {stmt : Stmt} {s t : State}
    (h : exec fuel stmt s = (.completed, t)) : Released s.scope t.scope := by
  have hexec := exec_released fuel stmt s
  rw [h] at hexec
  exact hexec

mutual

theorem Breaks.stacked {fuel : Nat} : ∀ {stmt : Stmt} {s t : State},
    Breaks exhausted fuel stmt s t → Stacked exhausted s.scope t.scope
  | _, _, _, .before => stacked_of_released (released_of_shape rfl)
  | _, _, _, .behind => stacked_of_released (exec_released fuel _ _)
  | _, _, _, .value _ h => stacked_of_released (released_of_shape h.shape)
  | _, _, _, .ifThen hc _ h => .after (released_value hc) h.stacked
  | _, _, _, .ifElse hc h => .after (released_value hc) h.stacked
  | _, _, _, .round hc _ h => .after (released_value hc) h.stacked
  | _, _, _, .nextRound hc _ hbody h =>
    .after ((released_value hc).trans (released_completed hbody)) h.stacked
  | _, _, _, .leftFrame h => h.stacked.left
  | _, _, _, .heldFrame hexhausted h => h.stacked.held hexhausted

theorem BreaksAll.stacked {fuel : Nat} : ∀ {body : List Stmt} {s t : State},
    BreaksAll exhausted fuel body s t → Stacked exhausted s.scope t.scope
  | _, _, _, .done => stacked_of_released (released_of_shape rfl)
  | _, _, _, .first h => h.stacked
  | _, _, _, .later hstmt h => .after (released_completed hstmt) h.stacked

end

theorem Ends.released {fuel : Nat} {program : List Stmt} {scope after : Scope}
    (h : Ends fuel program scope after) : Released scope after := by
  have hrun := execAll_released fuel program ⟨scope, #[]⟩
  cases h with
  | completed h =>
    rw [h] at hrun
    exact hrun
  | failed h =>
    rw [h] at hrun
    exact hrun
  | brokenOff h => exact h.stacked.released
  | exhausted h => exact h.stacked.unwind

theorem unwind_shape {s t base : Scope} {extra : List Frame}
    (hframes : t.frames = extra ++ base.frames) (hshape : base.shape = s.shape) :
    (t.unwind s.depth).shape = s.shape := by
  rw [← (released_of_shape hshape).depth, Scope.unwind_frames hframes]
  exact hshape

/-- Once the scope is unwound, nothing is left of a block that was broken off. -/
theorem Breaks.block_shape {fuel : Nat} {body : List Stmt} {s t : State}
    (h : Breaks exhausted fuel (.block body) s t) :
    (t.scope.unwind s.scope.depth).shape = s.scope.shape := by
  cases h with
  | before => exact @unwind_shape _ _ s.scope [] rfl rfl
  | behind => exact @unwind_shape _ _ _ [] rfl (exec_shape rfl fuel s)
  | value hlead => cases hlead
  | heldFrame _ h =>
    obtain ⟨extra, base, houter, hshape, -⟩ := h.stacked.below
    refine @unwind_shape _ _ base (t.scope.inner :: extra) ?_ hshape
    rw [Scope.frames, houter]
    rfl
  | @leftFrame _ _ t h =>
    obtain ⟨extra, base, houter, hshape, -⟩ := h.stacked.below
    refine @unwind_shape _ _ base extra ?_ hshape
    rw [← houter]
    exact Scope.leave_frames (by simp [houter, Scope.frames])

theorem Breaks.block_shape_left {fuel : Nat} {body : List Stmt} {s t : State}
    (h : Breaks False fuel (.block body) s t) : t.scope.shape = s.scope.shape := by
  have hshape := h.block_shape
  rw [← h.stacked.released.depth, @Scope.unwind_frames t.scope t.scope [] rfl] at hshape
  exact hshape

def Result.Cuts (r full : Result) (broken : Scope → Prop) : Prop :=
  r = full ∨ r.1 = .error .tooMuchNesting ∧ broken r.2

theorem Result.Cuts.imp {full r : Result} {broken broken' : Scope → Prop} (h : r.Cuts full broken)
    (himp : ∀ scope, broken scope → broken' scope) : r.Cuts full broken' :=
  h.imp_right fun hbroken => ⟨hbroken.1, himp _ hbroken.2⟩

theorem Result.Cuts.andThen {full r : Result} {broken : Scope → Prop}
    {f f' : Value → Scope → Result} (h : r.Cuts full broken)
    (hf : ∀ v scope, full = (.ok v, scope) → (f' v scope).Cuts (f v scope) broken) :
    (r.andThen f').Cuts (full.andThen f) broken := by
  obtain ⟨result, scope⟩ := r
  rcases h with rfl | ⟨hfault, hbroken⟩
  · cases result with
    | ok v => exact hf v scope rfl
    | error => exact Or.inl rfl
  · obtain rfl : result = .error .tooMuchNesting := hfault
    exact Or.inr ⟨rfl, hbroken⟩

theorem eval_cuts (costs : Costs) : ∀ (e : Expr) (n : Nat) (scope : Scope),
    (eval (e.cutAt costs n) scope).Cuts (eval e scope) (BreaksEval e scope)
  | e, 0, _ => by cases e <;> exact Or.inr ⟨rfl, .before⟩
  | .literal _, _ + 1, _ | .var _, _ + 1, _ | .unknown _, _ + 1, _ | .cut, _ + 1, _ => Or.inl rfl
  | .group e, _ + 1, scope => (eval_cuts costs e _ scope).imp fun _ => .group
  | .unary _ r, _ + 1, scope =>
    ((eval_cuts costs r _ scope).imp fun _ => .unary).andThen fun _ _ _ => Or.inl rfl
  | .binary l _ r, _ + 1, scope =>
    ((eval_cuts costs l _ scope).imp fun _ => .binaryLeft).andThen fun _ mid hl =>
      ((eval_cuts costs r _ mid).imp fun _ => .binaryRight hl).andThen fun _ _ _ => Or.inl rfl
  | .logical l op r, _ + 1, scope => by
    refine ((eval_cuts costs l _ scope).imp fun _ => .logicalLeft).andThen fun v mid hl => ?_
    cases hdecides : decides op v with
    | true => exact Or.inl rfl
    | false => exact (eval_cuts costs r _ mid).imp fun _ => .logicalRight hl hdecides
  | .assign _ e, _ + 1, scope =>
    ((eval_cuts costs e _ scope).imp fun _ => .assign).andThen fun _ _ _ => Or.inl rfl

def Run.Cuts (r full : Run) (broken : State → Prop) : Prop :=
  r = full ∨ r.1 = .failed .tooMuchNesting ∧ broken r.2

theorem Run.Cuts.imp {full r : Run} {broken broken' : State → Prop} (h : r.Cuts full broken)
    (himp : ∀ s, broken s → broken' s) : r.Cuts full broken' :=
  h.imp_right fun hbroken => ⟨hbroken.1, himp _ hbroken.2⟩

theorem Run.Cuts.andThen {full r : Run} {broken : State → Prop} {f f' : State → Run}
    (h : r.Cuts full broken)
    (hf : ∀ s, full = (.completed, s) → (f' s).Cuts (f s) broken) :
    (r.andThen f').Cuts (full.andThen f) broken := by
  obtain ⟨outcome, s⟩ := r
  rcases h with rfl | ⟨hfault, hbroken⟩
  · cases outcome with
    | completed => exact hf s rfl
    | failed => exact Or.inl rfl
    | outOfFuel => exact Or.inl rfl
  · obtain rfl : outcome = .failed .tooMuchNesting := hfault
    exact Or.inr ⟨rfl, hbroken⟩

theorem withValue_cuts {broken : State → Prop} {f f' : Value → State → Run} (costs : Costs)
    (e : Expr) (n : Nat) (s : State)
    (hbroken : ∀ scope, BreaksEval e s.scope scope → broken { s with scope })
    (hf : ∀ v scope, eval e s.scope = (.ok v, scope) →
      (f' v { s with scope }).Cuts (f v { s with scope }) broken) :
    (withValue (e.cutAt costs n) s f').Cuts (withValue e s f) broken := by
  unfold withValue
  rcases eval_cuts costs e n s.scope with heq | ⟨hfault, hbreaks⟩
  · rw [heq]
    cases heval : eval e s.scope with
    | mk result scope =>
      cases result with
      | ok v => exact hf v scope heval
      | error => exact Or.inl rfl
  · generalize eval (e.cutAt costs n) s.scope = r at hfault hbreaks
    obtain ⟨result, scope⟩ := r
    obtain rfl : result = .error .tooMuchNesting := hfault
    exact Or.inr ⟨rfl, hbroken scope hbreaks⟩

theorem repeatWhile_cuts {fuel : Nat} {body : Stmt} {round : State → Run} (costs : Costs)
    (c : Expr) (m : Nat)
    (hround : ∀ s, (round s).Cuts (exec fuel body s) (Breaks exhausted fuel body s)) (n : Nat)
    (s : State) :
    (repeatWhile (c.cutAt costs m) round n s).Cuts (repeatWhile c (exec fuel body) n s)
      (Breaks exhausted fuel (.loop c body) s) := by
  induction n generalizing s with
  | zero => exact Or.inl rfl
  | succ n ih =>
    rw [repeatWhile_succ, repeatWhile_succ]
    refine withValue_cuts costs c m s (fun _ h => .value rfl h) fun v scope hc => ?_
    split
    · next hv =>
      refine ((hround _).imp fun _ => .round hc hv).andThen fun u hbody => ?_
      exact (ih u).imp fun _ => .nextRound hc hv hbody
    · exact Or.inl rfl

mutual

/-- A statement cut where calls run out runs as the whole one, or as that broken off somewhere. -/
theorem exec_cuts (costs : Costs) (fuel : Nat) : ∀ (stmt : Stmt) (n : Nat) (s : State),
    (exec fuel (stmt.cutAt costs n) s).Cuts (exec fuel stmt s) (Breaks exhausted fuel stmt s)
  | stmt, 0, _ => by cases stmt <;> exact Or.inr ⟨rfl, .before⟩
  | .expression e, _ + 1, s | .print e, _ + 1, s | .declare _ e, _ + 1, s =>
    withValue_cuts costs e _ s (fun _ h => .value rfl h) fun _ _ _ => Or.inl rfl
  | .block body, n + 1, s => by
    rw [Stmt.cutAt, exec, exec, inFrame_eq, inFrame_eq]
    rcases execAll_cuts costs fuel body (n - costs.block) s.enter with heq | ⟨hfault, hbreaks⟩
    · rw [heq]
      exact Or.inl rfl
    · exact Or.inr ⟨hfault, .leftFrame hbreaks⟩
  | .ifThen c yes, _ + 1, s => by
    refine withValue_cuts costs c _ s (fun _ h => .value rfl h) fun v scope hc => ?_
    split
    · next hv => exact (exec_cuts costs fuel yes _ _).imp fun _ => .ifThen hc hv
    · exact Or.inl rfl
  | .ifElse c yes no, _ + 1, s => by
    refine withValue_cuts costs c _ s (fun _ h => .value rfl h) fun v scope hc => ?_
    split
    · next hv =>
      refine (exec_cuts costs fuel yes _ _).imp fun _ h => .ifElse hc ?_
      rwa [if_pos hv]
    · next hv =>
      refine (exec_cuts costs fuel no _ _).imp fun _ h => .ifElse hc ?_
      rwa [if_neg hv]
  | .loop c body, n + 1, s =>
    repeatWhile_cuts costs c _ (exec_cuts costs fuel body (n - costs.statement)) fuel s
  | .bare e, _ + 1, _ => by cases e <;> exact Or.inl rfl
  | .unknown _, _ + 1, _ | .cut, _ + 1, _ => Or.inl rfl

theorem execAll_cuts (costs : Costs) (fuel : Nat) : ∀ (body : List Stmt) (n : Nat) (s : State),
    (execAll fuel (Stmt.cutAllAt costs n body) s).Cuts (execAll fuel body s)
      (BreaksAll exhausted fuel body s)
  | [], _, _ => Or.inl rfl
  | stmt :: rest, n, s => by
    rw [Stmt.cutAllAt, execAll_cons, execAll_cons]
    refine ((exec_cuts costs fuel stmt n s).imp fun _ => .first).andThen fun t hstmt => ?_
    exact (execAll_cuts costs fuel rest n t).imp fun _ => .later hstmt

end

theorem interpretWithin_released (room fuel : Nat) (program : List Stmt) (scope : Scope) :
    Released scope (interpretWithin room fuel program scope).2.scope := by
  rw [interpretWithin_eq]
  exact execAll_released fuel _ ⟨scope, #[]⟩

/-- With so many calls, interpreting a program ends in one of these ways, if it ends. -/
theorem interpretWithin_ends {room fuel : Nat} {program : List Stmt} {scope : Scope}
    (h : (interpretWithin room fuel program scope).1 ≠ .outOfFuel) :
    Ends fuel program scope (interpretWithin room fuel program scope).2.scope := by
  have hcuts := @execAll_cuts True costs fuel program room ⟨scope, #[]⟩
  rcases hcuts with heq | ⟨hfault, hbreaks⟩
  · rw [interpretWithin_eq, heq] at h ⊢
    cases hrun : execAll fuel program ⟨scope, #[]⟩ with
    | mk outcome s =>
      rw [hrun] at h
      cases outcome with
      | completed => exact .completed hrun
      | failed => exact .failed hrun
      | outOfFuel => exact absurd rfl h
  · rw [interpretWithin]
    generalize execAll fuel (Stmt.cutAllAt costs room program) ⟨scope, #[]⟩ = r at hfault hbreaks
    obtain ⟨outcome, s⟩ := r
    obtain rfl : outcome = .failed .tooMuchNesting := hfault
    exact .exhausted hbreaks

/-- Whatever the trees, a run gives back the frames it was given: if it ends by itself or is broken
off, nothing is left to unwind, and if the calls are exhausted anywhere, then once its scope is
unwound. The innermost frame can have gained names, the others have the same ones. Evaluating an
expression changes no names, and of a block no binding is left. -/
theorem scopes_are_released_on_every_exit (fuel : Nat) (scope : Scope) :
    (∀ program after, Ends fuel program scope after → Released scope after) ∧
    (∀ room program, Released scope (interpretWithin room fuel program scope).2.scope ∧
      ((interpretWithin room fuel program scope).1 ≠ .outOfFuel →
        Ends fuel program scope (interpretWithin room fuel program scope).2.scope)) ∧
    (∀ e, (eval e scope).2.shape = scope.shape ∧
      ∀ after, BreaksEval e scope after → after.shape = scope.shape) ∧
    ∀ body printed,
      (execAll fuel body ⟨scope.enter, printed⟩).2.scope.leave? =
        some (exec fuel (.block body) ⟨scope, printed⟩).2.scope ∧
      (exec fuel (.block body) ⟨scope, printed⟩).2.scope.shape = scope.shape ∧
      (∀ s, Breaks False fuel (.block body) ⟨scope, printed⟩ s → s.scope.shape = scope.shape) ∧
      ∀ s, Breaks True fuel (.block body) ⟨scope, printed⟩ s →
        (s.scope.unwind scope.depth).shape = scope.shape := by
  refine ⟨fun program after h => h.released,
    fun room program => ⟨interpretWithin_released room fuel program scope, interpretWithin_ends⟩,
    fun e => ⟨eval_shape e scope, fun after h => h.shape⟩,
    fun body printed => ⟨?_, ?_, fun s h => h.block_shape_left, fun s h => h.block_shape⟩⟩
  · exact execAll_enter_leave fuel body ⟨scope, printed⟩
  · exact exec_shape rfl fuel ⟨scope, printed⟩

/-- The program `var a; { var b; { var c; } }`, broken off in its innermost block, with both blocks
left, and with the calls exhausted and neither left before the scope is unwound. -/
theorem nested_blocks_are_released :
    let name (s : String) : Token := ⟨.identifier, .text s, 1⟩
    let declare (s : String) : Stmt := .declare (name s) (.literal .nil)
    let program := [declare "a", .block [declare "b", .block [declare "c"]]]
    let left : Scope := ⟨[(.text "a", .nil)], []⟩
    let held : Scope := ⟨[(.text "c", .nil)], [[(.text "b", .nil)], [(.text "a", .nil)]]⟩
    BreaksAll False 0 program ⟨.empty, #[]⟩ ⟨left, #[]⟩ ∧
      BreaksAll True 0 program ⟨.empty, #[]⟩ ⟨held, #[]⟩ ∧
      Run.handled 1 (.failed .tooMuchNesting, ⟨held, #[]⟩) =
        (.failed .tooMuchNesting, ⟨left, #[]⟩) ∧
      Ends 0 program .empty left ∧ Released .empty left := by
  intro name declare program left held
  have hleft : BreaksAll False 0 program ⟨.empty, #[]⟩ _ :=
    .later rfl (.first (.leftFrame (.later rfl (.first (.leftFrame (.later rfl .done))))))
  have hheld : BreaksAll True 0 program ⟨.empty, #[]⟩ _ :=
    .later rfl (.first (.heldFrame trivial
      (.later rfl (.first (.heldFrame trivial (.later rfl .done))))))
  have hends : Ends 0 program .empty left := .exhausted hheld
  exact ⟨hleft, hheld, rfl, hends,
    (scopes_are_released_on_every_exit 0 .empty).1 program left hends⟩

end Evaluation

end Lox
