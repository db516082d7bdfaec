import Lox.Proofs.Evaluation.Frames

/-!
# Two runs side by side

When two runs start in states that stand in some relation, and each step keeps the relation and does
the same in both, they end alike and in states that stand in it. The induction over statements is
done here, once for every relation. Two relations follow: an empty frame put in anywhere, as a block
does around statements that declare nothing, and lines that were printed before. With the second a
program that consists of two runs as the first of them and then, from the scope that it leaves, as
the second. A run that ends does not change when there is more fuel.
-/

namespace Lox

def Expr.names : Expr → List Name
  | .literal _ | .unknown _ | .cut => []
  | .group e | .unary _ e => e.names
  | .binary l _ r | .logical l _ r => l.names ++ r.names
  | .var name => [name.value]
  | .assign name e => name.value :: e.names

mutual

def Stmt.names : Stmt → List Name
  | .expression e | .print e | .bare e => e.names
  | .declare name e => name.value :: e.names
  | .block body => Stmt.allNames body
  | .ifThen c yes => c.names ++ yes.names
  | .ifElse c yes no => c.names ++ (yes.names ++ no.names)
  | .loop c body => c.names ++ body.names
  | .unknown _ | .cut => []

def Stmt.allNames : List Stmt → List Name
  | [] => []
  | stmt :: rest => stmt.names ++ Stmt.allNames rest

end

/-- Scopes that stand in the relation answer alike for the name, and do so after assigning to it. -/
structure Scope.Agree (R : Scope → Scope → Prop) (name : Name) : Prop where
  get : ∀ s t, R s t → s.get? name = t.get? name
  assign : ∀ v s t, R s t → Option.Rel R (s.assign? name v) (t.assign? name v)

namespace Evaluation

def Result.Pair (R : Scope → Scope → Prop) (r r' : Result) : Prop := r.1 = r'.1 ∧ R r.2 r'.2

def Run.Pair (R : State → State → Prop) (r r' : Run) : Prop := r.1 = r'.1 ∧ R r.2 r'.2

def Evaluates (R : State → State → Prop) (e : Expr) : Prop :=
  ∀ s t, R s t → Result.Pair (fun scope scope' => R { s with scope } { t with scope := scope' })
    (eval e s.scope) (eval e t.scope)

section

variable {R : Scope → Scope → Prop}

theorem Result.Pair.andThen {r r' : Result} {f : Value → Scope → Result}
    (h : Result.Pair R r r') (hf : ∀ v s t, R s t → Result.Pair R (f v s) (f v t)) :
    Result.Pair R (r.andThen f) (r'.andThen f) := by
  obtain ⟨result, s⟩ := r
  obtain ⟨result', t⟩ := r'
  obtain ⟨rfl, hst⟩ : result = result' ∧ R s t := h
  cases result with
  | ok v => exact hf v s t hst
  | error fault => exact ⟨rfl, hst⟩

theorem lookup_pair {name : Token} (hname : Scope.Agree R name.value) {s t : Scope} (h : R s t) :
    Result.Pair R (lookup name s) (lookup name t) := by
  unfold lookup
  rw [hname.get s t h]
  split
  · exact ⟨rfl, h⟩
  · exact ⟨rfl, h⟩

theorem store_pair {name : Token} (hname : Scope.Agree R name.value) (v : Value) {s t : Scope}
    (h : R s t) : Result.Pair R (store name v s) (store name v t) := by
  have hassign := hname.assign v s t h
  unfold store
  generalize s.assign? name.value v = after at hassign ⊢
  generalize t.assign? name.value v = after' at hassign ⊢
  cases hassign with
  | none => exact ⟨rfl, h⟩
  | some hafter => exact ⟨rfl, hafter⟩

/-- An expression depends on a scope through its names only. -/
theorem eval_pair {e : Expr} (he : ∀ name ∈ e.names, Scope.Agree R name) {s t : Scope}
    (h : R s t) : Result.Pair R (eval e s) (eval e t) := by
  induction e generalizing s t with
  | literal | unknown | cut => exact ⟨rfl, h⟩
  | group _ ih => exact ih he h
  | unary _ _ ih => exact (ih he h).andThen fun _ _ _ hst => ⟨rfl, hst⟩
  | binary _ _ _ ihl ihr =>
    obtain ⟨hl, hr⟩ := List.forall_mem_append.mp he
    apply (ihl hl h).andThen
    intro left s t hst
    exact (ihr hr hst).andThen fun _ _ _ hst => ⟨rfl, hst⟩
  | logical _ _ _ ihl ihr =>
    obtain ⟨hl, hr⟩ := List.forall_mem_append.mp he
    apply (ihl hl h).andThen
    intro left s t hst
    split
    · exact ⟨rfl, hst⟩
    · exact ihr hr hst
  | var => exact lookup_pair (he _ (List.mem_singleton_self _)) h
  | assign _ _ ih =>
    obtain ⟨hname, he⟩ := List.forall_mem_cons.mp he
    exact (ih he h).andThen fun v _ _ hst => store_pair hname v hst

end

section

variable {R : State → State → Prop} {e : Expr} {s t : State}

theorem Run.Pair.andThen {r r' : Run} {f : State → Run} (h : Run.Pair R r r')
    (hf : ∀ s t, R s t → Run.Pair R (f s) (f t)) : Run.Pair R (r.andThen f) (r'.andThen f) := by
  obtain ⟨outcome, s⟩ := r
  obtain ⟨outcome', t⟩ := r'
  obtain ⟨rfl, hst⟩ : outcome = outcome' ∧ R s t := h
  cases outcome with
  | completed => exact hf s t hst
  | failed => exact ⟨rfl, hst⟩
  | outOfFuel => exact ⟨rfl, hst⟩

theorem Evaluates.withValue {f : Value → State → Run} (he : Evaluates R e) (h : R s t)
    (hf : ∀ v s t, R s t → Run.Pair R (f v s) (f v t)) :
    Run.Pair R (withValue e s f) (withValue e t f) := by
  have heval := he s t h
  unfold Evaluation.withValue
  generalize eval e s.scope = r at heval ⊢
  generalize eval e t.scope = r' at heval ⊢
  obtain ⟨result, scope⟩ := r
  obtain ⟨result', scope'⟩ := r'
  obtain ⟨rfl, hst⟩ : result = result' ∧ R { s with scope } { t with scope := scope' } := heval
  cases result with
  | ok v => exact hf v _ _ hst
  | error fault => exact ⟨rfl, hst⟩

theorem Evaluates.repeatWhile {body : State → Run} (he : Evaluates R e)
    (hbody : ∀ s t, R s t → Run.Pair R (body s) (body t)) (n : Nat) (h : R s t) :
    Run.Pair R (repeatWhile e body n s) (repeatWhile e body n t) := by
  induction n generalizing s t with
  | zero => exact ⟨rfl, h⟩
  | succ n ih =>
    rw [repeatWhile_succ, repeatWhile_succ]
    apply he.withValue h
    intro v s t hst
    split
    · exact (hbody s t hst).andThen fun s t hst => ih hst
    · exact ⟨rfl, hst⟩

end

/-- Relations between states that the parts of a run keep, one for each index: a block runs at the
index inside. Names may occur if `P` holds of them, and be declared at an index if `D` does. -/
structure Simulation {ι : Type} (R : ι → State → State → Prop) (inside : ι → ι)
    (P : Name → Prop) (D : ι → Prop) : Prop where
  evaluates : ∀ i e, (∀ name ∈ e.names, P name) → Evaluates (R i) e
  print : ∀ i line s t, R i s t →
    R i { s with printed := s.printed.push line } { t with printed := t.printed.push line }
  define : ∀ i name v s t, D i → P name → R i s t →
    R i { s with scope := s.scope.define name v } { t with scope := t.scope.define name v }
  enter : ∀ i s t, R i s t → R (inside i) s.enter t.enter
  leave : ∀ i s t, s.scope.outer ≠ [] → t.scope.outer ≠ [] → R (inside i) s t →
    R i { s with scope := s.scope.leave } { t with scope := t.scope.leave }
  declares : ∀ i, D (inside i)

section

variable {ι : Type} {R : ι → State → State → Prop} {inside : ι → ι} {P : Name → Prop}
  {D : ι → Prop}

mutual

theorem Simulation.exec (sim : Simulation R inside P D) (fuel : Nat) : ∀ (stmt : Stmt) (i : ι),
    (∀ name ∈ stmt.names, P name) → (stmt.declares = true → D i) →
      ∀ s t, R i s t → Run.Pair (R i) (exec fuel stmt s) (exec fuel stmt t)
  | .expression e, i, hnames, _, _, _, h =>
    (sim.evaluates i e hnames).withValue h fun _ _ _ hst => ⟨rfl, hst⟩
  | .print e, i, hnames, _, _, _, h =>
    (sim.evaluates i e hnames).withValue h fun v s t hst => ⟨rfl, sim.print i v.display s t hst⟩
  | .declare name e, i, hnames, hdeclares, _, _, h => by
    obtain ⟨hname, he⟩ := List.forall_mem_cons.mp hnames
    apply (sim.evaluates i e he).withValue h
    intro v s t hst
    exact ⟨rfl, sim.define i name.value v s t (hdeclares rfl) hname hst⟩
  | .block body, i, hnames, _, s, t, h => by
    obtain ⟨houtcome, hafter⟩ :=
      sim.execAll fuel body (inside i) hnames (fun _ => sim.declares i) s.enter t.enter
        (sim.enter i s t h)
    have hs := execAll_enter_outer fuel body s
    have ht := execAll_enter_outer fuel body t
    rw [Evaluation.exec, Evaluation.exec, inFrame_eq, inFrame_eq]
    exact ⟨houtcome, sim.leave i _ _ hs ht hafter⟩
  | .ifThen c yes, i, hnames, hdeclares, _, _, h => by
    obtain ⟨hc, hyes⟩ := List.forall_mem_append.mp hnames
    apply (sim.evaluates i c hc).withValue h
    intro v s t hst
    split
    · exact sim.exec fuel yes i hyes hdeclares s t hst
    · exact ⟨rfl, hst⟩
  | .ifElse c yes no, i, hnames, hdeclares, _, _, h => by
    obtain ⟨hc, hbranches⟩ := List.forall_mem_append.mp hnames
    obtain ⟨hyes, hno⟩ := List.forall_mem_append.mp hbranches
    apply (sim.evaluates i c hc).withValue h
    intro v s t hst
    split
    · exact sim.exec fuel yes i hyes (fun hd => hdeclares (Bool.or_eq_true_iff.mpr (.inl hd)))
        s t hst
    · exact sim.exec fuel no i hno (fun hd => hdeclares (Bool.or_eq_true_iff.mpr (.inr hd)))
        s t hst
  | .loop c body, i, hnames, hdeclares, _, _, h => by
    obtain ⟨hc, hbody⟩ := List.forall_mem_append.mp hnames
    exact (sim.evaluates i c hc).repeatWhile (sim.exec fuel body i hbody hdeclares) fuel h
  | .bare _, _, _, _, _, _, h | .unknown _, _, _, _, _, _, h | .cut, _, _, _, _, _, h => ⟨rfl, h⟩

theorem Simulation.execAll (sim : Simulation R inside P D) (fuel : Nat) :
    ∀ (body : List Stmt) (i : ι),
      (∀ name ∈ Stmt.allNames body, P name) → (body.any Stmt.declares = true → D i) →
        ∀ s t, R i s t → Run.Pair (R i) (execAll fuel body s) (execAll fuel body t)
  | [], _, _, _, _, _, h => ⟨rfl, h⟩
  | stmt :: rest, i, hnames, hdeclares, s, t, h => by
    obtain ⟨hfirst, hrest⟩ := List.forall_mem_append.mp hnames
    have hdeclares' : stmt.declares = true ∨ rest.any Stmt.declares = true → D i := fun hd =>
      hdeclares (Bool.or_eq_true_iff.mpr hd)
    rw [execAll_cons, execAll_cons]
    apply (sim.exec fuel stmt i hfirst (fun hd => hdeclares' (.inl hd)) s t h).andThen
    exact sim.execAll fuel rest i hrest fun hd => hdeclares' (.inr hd)

end

end

end Evaluation

namespace Scope

def pad : Nat → Scope → Scope
  | 0, s => s.enter
  | k + 1, s => { s with outer := s.outer.insertIdx k [] }

theorem lookupIn_insertIdx (name : Name) (fs : List Frame) (k : Nat) :
    lookupIn name (fs.insertIdx k []) = lookupIn name fs := by
  induction fs generalizing k with
  | nil => cases k <;> rfl
  | cons f fs ih =>
    cases k with
    | zero => rfl
    | succ k => simp only [List.insertIdx_succ_cons, lookupIn, ih]

theorem assignIn_insertIdx (name : Name) (v : Value) (fs : List Frame) (k : Nat) :
    assignIn name v (fs.insertIdx k []) = (assignIn name v fs).map (·.insertIdx k []) := by
  induction fs generalizing k with
  | nil => cases k <;> rfl
  | cons f fs ih =>
    cases k with
    | zero => rfl
    | succ k =>
      simp only [List.insertIdx_succ_cons, assignIn, ih]
      split
      · rfl
      · simp [Function.comp_def]

theorem get_pad (s : Scope) (k : Nat) (name : Name) : (s.pad k).get? name = s.get? name := by
  cases k with
  | zero => rfl
  | succ k => simp only [get?, frames, pad, lookupIn, lookupIn_insertIdx]

theorem assign_pad (s : Scope) (k : Nat) (name : Name) (v : Value) :
    (s.pad k).assign? name v = (s.assign? name v).map (pad k) := by
  cases k with
  | zero =>
    calc (s.pad 0).assign? name v
        = (assignIn name v s.frames).map fun outer => ⟨[], outer⟩ := rfl
      _ = ((s.assign? name v).map frames).map fun outer => ⟨[], outer⟩ := by rw [assign_frames]
      _ = (s.assign? name v).map (pad 0) := by rw [Option.map_map]; rfl
  | succ k =>
    simp only [pad, assign?, assignIn_insertIdx]
    split
    · rfl
    · simp [Function.comp_def, pad]

theorem enter_pad (s : Scope) (k : Nat) : (s.pad k).enter = s.enter.pad (k + 1) := by
  cases k <;> rfl

theorem leave_pad {s : Scope} (h : s.outer ≠ []) (k : Nat) :
    (s.pad (k + 1)).leave = s.leave.pad k := by
  obtain ⟨inner, outer⟩ := s
  obtain ⟨f, rest, rfl⟩ := List.exists_cons_of_ne_nil h
  cases k <;> rfl

theorem agree_pad (k : Nat) (name : Name) : Agree (fun s t => t = s.pad k) name where
  get := by
    rintro s _ rfl
    exact (get_pad s k name).symm
  assign := by
    rintro v s _ rfl
    rw [assign_pad]
    cases s.assign? name v with
    | none => exact .none
    | some after => exact .some rfl

end Scope

namespace Evaluation

def State.pad (k : Nat) (s : State) : State := { s with scope := s.scope.pad k }

def Padded (k : Nat) (s t : State) : Prop := t = s.pad k

theorem evaluates_padded (e : Expr) (k : Nat) : Evaluates (Padded k) e := by
  rintro s _ rfl
  obtain ⟨hresult, hscope⟩ := eval_pair (e := e) (fun name _ => Scope.agree_pad k name) rfl
  exact ⟨hresult, congrArg (State.mk · s.printed) hscope⟩

/-- An empty frame makes no difference to a run. If it is the innermost one, nothing must be
declared in it. -/
theorem padded_simulation :
    Simulation Padded (· + 1) (fun _ => True) (fun k => k ≠ 0) where
  evaluates k e _ := evaluates_padded e k
  print := by
    rintro k line s _ rfl
    rfl
  define := by
    rintro k name v s _ hk - rfl
    obtain ⟨k, rfl⟩ := Nat.exists_eq_succ_of_ne_zero hk
    rfl
  enter := by
    rintro k s _ rfl
    exact congrArg (State.mk · s.printed) (s.scope.enter_pad k)
  leave := by
    rintro k s _ hs - rfl
    exact congrArg (State.mk · s.printed) (Scope.leave_pad hs k)
  declares := Nat.succ_ne_zero

theorem block_eq_execAll {body : List Stmt} (h : body.any Stmt.declares = false) (fuel : Nat)
    (s : State) : exec fuel (.block body) s = execAll fuel body s := by
  have hdeclares : body.any Stmt.declares = true → 0 ≠ 0 := fun hd => by simp [h] at hd
  obtain ⟨houtcome, hafter⟩ :=
    padded_simulation.execAll fuel body 0 (fun _ _ => trivial) hdeclares s s.enter rfl
  rw [exec, inFrame_eq, hafter, ← houtcome]
  rfl

end Evaluation

end Lox

namespace Lox.Evaluation

/-- The second run is the first, unless the first has stopped in the given way. -/
def Run.SameUnless (stop : Outcome) (r r' : Run) : Prop := r.1 ≠ stop → r' = r

theorem Run.SameUnless.andThen {stop : Outcome} (hstop : stop ≠ .completed) {r r' : Run}
    {f f' : State → Run} (hr : r.SameUnless stop r') (hf : ∀ s, (f s).SameUnless stop (f' s)) :
    (r.andThen f).SameUnless stop (r'.andThen f') := by
  intro hother
  obtain ⟨outcome, s⟩ := r
  cases outcome with
  | completed =>
    rw [hr hstop.symm]
    exact hf s hother
  | failed fault =>
    rw [hr hother]
    rfl
  | outOfFuel =>
    rw [hr hother]
    rfl

theorem inFrame_sameUnless {stop : Outcome} (s : State) {f f' : State → Run}
    (hf : (f s.enter).SameUnless stop (f' s.enter)) :
    (inFrame s f).SameUnless stop (inFrame s f') := by
  intro hother
  rw [inFrame_eq, inFrame_eq, hf hother]

def Run.Extends (short long : Run) : Prop := short.1 ≠ .outOfFuel → long = short

theorem Run.Extends.refl (r : Run) : r.Extends r := fun _ => rfl

theorem Run.Extends.andThen {r r' : Run} {f f' : State → Run} (hr : r.Extends r')
    (hf : ∀ s, (f s).Extends (f' s)) : (r.andThen f).Extends (r'.andThen f') :=
  Run.SameUnless.andThen (show Outcome.outOfFuel ≠ .completed from nofun) hr hf

theorem withValue_extends (e : Expr) (s : State) {f f' : Value → State → Run}
    (hf : ∀ v t, (f v t).Extends (f' v t)) : (withValue e s f).Extends (withValue e s f') := by
  unfold withValue
  obtain ⟨result, scope⟩ := eval e s.scope
  cases result with
  | ok v => exact hf v { s with scope }
  | error fault => exact Run.Extends.refl _

theorem inFrame_extends (s : State) {f f' : State → Run} (hf : (f s.enter).Extends (f' s.enter)) :
    (inFrame s f).Extends (inFrame s f') :=
  inFrame_sameUnless s hf

theorem repeatWhile_extends (c : Expr) {body body' : State → Run}
    (hbody : ∀ t, (body t).Extends (body' t)) {n m : Nat} (h : n ≤ m) (s : State) :
    (repeatWhile c body n s).Extends (repeatWhile c body' m s) := by
  induction n generalizing m s with
  | zero => exact fun hended => absurd rfl hended
  | succ n ih =>
    obtain ⟨m, rfl⟩ := Nat.exists_eq_add_of_le' h
    rw [← Nat.add_assoc, repeatWhile_succ, repeatWhile_succ]
    refine withValue_extends c s fun v t => ?_
    split
    · exact (hbody t).andThen (ih (Nat.le_add_left n m))
    · exact Run.Extends.refl _

mutual

theorem exec_extends {n m : Nat} (h : n ≤ m) : ∀ (stmt : Stmt) (s : State),
    (exec n stmt s).Extends (exec m stmt s)
  | .expression e, s | .print e, s | .declare _ e, s =>
    withValue_extends e s fun _ _ => Run.Extends.refl _
  | .block body, s => inFrame_extends s (execAll_extends h body s.enter)
  | .ifThen c yes, s => by
    refine withValue_extends c s fun v t => ?_
    split
    · exact exec_extends h yes t
    · exact Run.Extends.refl _
  | .ifElse c yes no, s => by
    refine withValue_extends c s fun v t => ?_
    split
    · exact exec_extends h yes t
    · exact exec_extends h no t
  | .loop c body, s => repeatWhile_extends c (exec_extends h body) h s
  | .bare _, _ | .unknown _, _ | .cut, _ => Run.Extends.refl _

theorem execAll_extends {n m : Nat} (h : n ≤ m) : ∀ (body : List Stmt) (s : State),
    (execAll n body s).Extends (execAll m body s)
  | [], _ => Run.Extends.refl _
  | stmt :: rest, s => by
    rw [execAll_cons, execAll_cons]
    exact (exec_extends h stmt s).andThen (execAll_extends h rest)

end

theorem interpretWithin_extends (room : Nat) {n m : Nat} (h : n ≤ m) (program : List Stmt)
    (scope : Scope) :
    (interpretWithin room n program scope).Extends (interpretWithin room m program scope) := by
  rw [interpretWithin_eq, interpretWithin_eq]
  exact execAll_extends h _ _

def State.after (lines : Array String) (s : State) : State :=
  { s with printed := lines ++ s.printed }

def Run.after (lines : Array String) (r : Run) : Run := (r.1, r.2.after lines)

def After (lines : Array String) (s t : State) : Prop := t = s.after lines

theorem after_simulation (lines : Array String) :
    Simulation (fun _ : Unit => After lines) id (fun _ => True) (fun _ => True) where
  evaluates := by
    rintro _ e - s _ rfl
    exact ⟨rfl, rfl⟩
  print := by
    rintro _ line s _ rfl
    simp only [After, State.after, Array.append_push]
  define := by
    rintro _ name v s _ - - rfl
    rfl
  enter := by
    rintro _ s _ rfl
    rfl
  leave := by
    rintro _ s _ - - rfl
    rfl
  declares _ := trivial

theorem execAll_append (fuel : Nat) (first second : List Stmt) (s : State) :
    execAll fuel (first ++ second) s = (execAll fuel first s).andThen (execAll fuel second) := by
  induction first generalizing s with
  | nil => rfl
  | cons stmt rest ih =>
    have htail : execAll fuel (rest ++ second) =
        fun t => (execAll fuel rest t).andThen (execAll fuel second) := funext ih
    rw [List.cons_append, execAll_cons, execAll_cons, Run.andThen_assoc, htail]

theorem cutAllAt_append (costs : Costs) (n : Nat) (first second : List Stmt) :
    Stmt.cutAllAt costs n (first ++ second) =
      Stmt.cutAllAt costs n first ++ Stmt.cutAllAt costs n second := by
  induction first with
  | nil => rfl
  | cons stmt rest ih => simp only [List.cons_append, Stmt.cutAllAt, ih]

/-- Behind a program that completes, the next one runs as it would alone from the scope it finds. -/
theorem interpretWithin_append {room fuel : Nat} {first : List Stmt} {scope : Scope} {s : State}
    (h : interpretWithin room fuel first scope = (.completed, s)) (second : List Stmt) :
    interpretWithin room fuel (first ++ second) scope =
      (interpretWithin room fuel second s.scope).after s.printed := by
  have hstate : s = State.after s.printed ⟨s.scope, #[]⟩ := by simp [State.after]
  rw [interpretWithin_eq] at h
  calc interpretWithin room fuel (first ++ second) scope
    _ = execAll fuel (Stmt.cutAllAt costs room second) s := by
      rw [interpretWithin_eq, cutAllAt_append, execAll_append, h]
      rfl
    _ = (interpretWithin room fuel second s.scope).after s.printed := by
      obtain ⟨houtcome, hafter⟩ := (after_simulation s.printed).execAll fuel
        (Stmt.cutAllAt costs room second) () (fun _ _ => trivial) (fun _ => trivial)
        ⟨s.scope, #[]⟩ s hstate
      rw [interpretWithin_eq]
      exact Prod.ext houtcome.symm hafter

end Lox.Evaluation
