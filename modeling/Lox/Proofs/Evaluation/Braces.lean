import Lox.Proofs.Evaluation.Pairs
import Lox.Proofs.Evaluation.Release
import Lox.Proofs.Evaluation.StaticScope

/-!
# Braces without declarations

Braces around statements that declare nothing outside of their own blocks change nothing, but that
they take some of the calls that can be nested. A run that never runs out of calls is the same with
more of them.
-/

namespace Lox

theorem Expr.cutAt_cutAt (costs : Costs) (e : Expr) {n m : Nat} (h : n ≤ m) :
    (e.cutAt costs m).cutAt costs n = e.cutAt costs n := by
  induction e generalizing n m with
  | literal | var | unknown | cut =>
    cases n with
    | zero => cases m <;> rfl
    | succ n =>
      obtain ⟨m, rfl⟩ := Nat.exists_eq_add_of_le' h
      rfl
  | group _ ih | assign _ _ ih =>
    cases n with
    | zero => cases m <;> rfl
    | succ n =>
      obtain ⟨m, rfl⟩ : ∃ k, m = k + 1 := ⟨m - 1, by omega⟩
      simp only [Expr.cutAt, ih (Nat.le_of_succ_le_succ h)]
  | unary _ _ ih =>
    cases n with
    | zero => cases m <;> rfl
    | succ n =>
      obtain ⟨m, rfl⟩ : ∃ k, m = k + 1 := ⟨m - 1, by omega⟩
      simp only [Expr.cutAt, ih (Nat.sub_le_sub_right (Nat.le_of_succ_le_succ h) _)]
  | binary _ _ _ ihl ihr | logical _ _ _ ihl ihr =>
    cases n with
    | zero => cases m <;> rfl
    | succ n =>
      obtain ⟨m, rfl⟩ : ∃ k, m = k + 1 := ⟨m - 1, by omega⟩
      have hle : n - costs.operator ≤ m - costs.operator :=
        Nat.sub_le_sub_right (Nat.le_of_succ_le_succ h) _
      simp only [Expr.cutAt, ihl hle, ihr hle]

mutual

theorem Stmt.cutAt_cutAt (costs : Costs) : ∀ (stmt : Stmt) (n m : Nat), n ≤ m →
    (stmt.cutAt costs m).cutAt costs n = stmt.cutAt costs n
  | stmt, 0, m, _ => by cases stmt <;> cases m <;> rfl
  | .expression _, n + 1, m + 1, h | .print _, n + 1, m + 1, h | .declare _ _, n + 1, m + 1, h => by
    simp only [Stmt.cutAt,
      Expr.cutAt_cutAt costs _ (Nat.sub_le_sub_right (Nat.le_of_succ_le_succ h) costs.statement)]
  | .bare e, n + 1, m + 1, h => by simp only [Stmt.cutAt, Expr.cutAt_cutAt costs e h]
  | .block body, n + 1, m + 1, h => by
    simp only [Stmt.cutAt, Stmt.cutAllAt_cutAllAt costs body _ _
      (Nat.sub_le_sub_right (Nat.le_of_succ_le_succ h) costs.block)]
  | .ifThen _ yes, n + 1, m + 1, h => by
    have hle := Nat.sub_le_sub_right (Nat.le_of_succ_le_succ h) costs.statement
    simp only [Stmt.cutAt, Expr.cutAt_cutAt costs _ hle, Stmt.cutAt_cutAt costs yes _ _ hle]
  | .ifElse _ yes no, n + 1, m + 1, h => by
    have hle := Nat.sub_le_sub_right (Nat.le_of_succ_le_succ h) costs.statement
    simp only [Stmt.cutAt, Expr.cutAt_cutAt costs _ hle, Stmt.cutAt_cutAt costs yes _ _ hle,
      Stmt.cutAt_cutAt costs no _ _ hle]
  | .loop _ body, n + 1, m + 1, h => by
    have hle := Nat.sub_le_sub_right (Nat.le_of_succ_le_succ h) costs.statement
    simp only [Stmt.cutAt, Expr.cutAt_cutAt costs _ hle, Stmt.cutAt_cutAt costs body _ _ hle]
  | .unknown _, _ + 1, _ + 1, _ | .cut, _ + 1, _ + 1, _ => rfl

theorem Stmt.cutAllAt_cutAllAt (costs : Costs) : ∀ (body : List Stmt) (n m : Nat), n ≤ m →
    Stmt.cutAllAt costs n (Stmt.cutAllAt costs m body) = Stmt.cutAllAt costs n body
  | [], _, _, _ => rfl
  | stmt :: rest, n, m, h => by
    simp only [Stmt.cutAllAt, Stmt.cutAt_cutAt costs stmt n m h,
      Stmt.cutAllAt_cutAllAt costs rest n m h]

end

theorem Stmt.any_declares_cutAllAt {body : List Stmt} (h : body.any Stmt.declares = false)
    (costs : Costs) (n : Nat) : (Stmt.cutAllAt costs n body).any Stmt.declares = false := by
  induction body with
  | nil => rfl
  | cons stmt rest ih =>
    rw [List.any_cons, Bool.or_eq_false_iff] at h
    rw [Stmt.cutAllAt, List.any_cons, Stmt.declares_cutAt costs stmt n h.1, ih h.2]
    rfl

namespace Evaluation

/-- The second run is the first, unless the first has run out of calls. -/
def Run.Deepens (shallow deep : Run) : Prop := shallow.SameUnless (.failed .tooMuchNesting) deep

theorem Run.Deepens.refl (r : Run) : r.Deepens r := fun _ => rfl

theorem Run.Deepens.andThen {r r' : Run} {f f' : State → Run} (hr : r.Deepens r')
    (hf : ∀ s, (f s).Deepens (f' s)) : (r.andThen f).Deepens (r'.andThen f') :=
  SameUnless.andThen (show Outcome.failed .tooMuchNesting ≠ .completed from nofun) hr hf

/-- A run that never runs out of calls is the same with more of them. -/
theorem execAll_deepens {n m : Nat} (h : n ≤ m) (costs : Costs) (fuel : Nat) (body : List Stmt)
    (s : State) :
    (execAll fuel (Stmt.cutAllAt costs n body) s).Deepens
      (execAll fuel (Stmt.cutAllAt costs m body) s) := by
  have hcuts := @execAll_cuts False costs fuel (Stmt.cutAllAt costs m body) n s
  rw [Stmt.cutAllAt_cutAllAt costs body n m h] at hcuts
  intro hreached
  rcases hcuts with heq | ⟨hfault, -⟩
  · exact heq.symm
  · exact absurd hfault hreached

theorem block_deepens {body : List Stmt} (h : body.any Stmt.declares = false) (costs : Costs)
    (n fuel : Nat) (s : State) :
    (exec fuel ((Stmt.block body).cutAt costs n) s).Deepens
      (execAll fuel (Stmt.cutAllAt costs n body) s) := by
  cases n with
  | zero => exact fun hreached => absurd rfl hreached
  | succ n =>
    rw [Stmt.cutAt, block_eq_execAll (Stmt.any_declares_cutAllAt h costs _)]
    exact execAll_deepens (by omega) costs fuel body s

/-- Around statements that declare nothing outside of their own blocks, braces change nothing about
what is printed, how the run ends and which frames it leaves. In a program that is run with so many
calls, whatever these cost, they change nothing unless it is with them that the calls run out. -/
theorem braces_without_declarations_are_transparent {body : List Stmt}
    (h : body.any Stmt.declares = false) :
    (∀ fuel s, exec fuel (.block body) s = execAll fuel body s) ∧
      ∀ costs n fuel before after s,
        (execAll fuel (Stmt.cutAllAt costs n (before ++ .block body :: after)) s).Deepens
          (execAll fuel (Stmt.cutAllAt costs n (before ++ (body ++ after))) s) := by
  refine ⟨block_eq_execAll h, fun costs n fuel before after s => ?_⟩
  -- What stands before the braces is the same on both sides, and what stands after them goes on
  -- from the same state.
  have hafter : ∀ t, (execAll fuel (Stmt.cutAllAt costs n (.block body :: after)) t).Deepens
      (execAll fuel (Stmt.cutAllAt costs n (body ++ after)) t) := by
    intro t
    rw [Stmt.cutAllAt, execAll_cons, cutAllAt_append, execAll_append]
    exact (block_deepens h costs n fuel t).andThen fun _ => Run.Deepens.refl _
  rw [cutAllAt_append, cutAllAt_append, execAll_append, execAll_append]
  exact (Run.Deepens.refl _).andThen hafter

/-- The program `while (go) { var old = go; go = false; print old; } print gone;` fails at its last
name, with braces around it and without. -/
theorem braces_around_a_failing_run :
    let name (s : String) (line : Int) : Token := ⟨.identifier, .text s, line⟩
    let round : List Stmt := [.declare (name "old" 1) (.var (name "go" 1)),
      .expression (.assign (name "go" 2) (.literal (.bool false))), .print (.var (name "old" 3))]
    let body : List Stmt :=
      [.loop (.var (name "go" 1)) (.block round), .print (.var (name "gone" 4))]
    let scope : Scope := ⟨[(.text "old", .nil)], [[(.text "go", .bool true)]]⟩
    let after : State := ⟨⟨[(.text "old", .nil)], [[(.text "go", .bool false)]]⟩, #["true"]⟩
    interpret 2 [.block body] scope = (.failed (.misuse .undefinedVariable 4), after) ∧
      interpret 2 body scope = (.failed (.misuse .undefinedVariable 4), after) ∧
      exec 2 (.block body) ⟨scope, #[]⟩ = execAll 2 body ⟨scope, #[]⟩ := by
  intro name round body scope after
  have hbody : body.any Stmt.declares = false := rfl
  have hbraced : interpret 2 [.block body] scope =
      (.failed (.misuse .undefinedVariable 4), after) := rfl
  have hreached : (interpret 2 [.block body] scope).1 ≠ .failed .tooMuchNesting := by
    rw [hbraced]
    exact nofun
  obtain ⟨hsame, hprogram⟩ := braces_without_declarations_are_transparent hbody
  have hbare : interpret 2 (body ++ []) scope = interpret 2 [.block body] scope := by
    rw [interpret, interpret, interpretWithin_eq, interpretWithin_eq]
    rw [interpret, interpretWithin_eq] at hreached
    exact hprogram costs usualRoom 2 [] [] ⟨scope, #[]⟩ hreached
  rw [List.append_nil] at hbare
  exact ⟨hbraced, hbare.trans hbraced, hsame 2 ⟨scope, #[]⟩⟩

def signs : Nat → Expr
  | 0 => .literal (.bool true)
  | k + 1 => .unary ⟨.bang, .nil, 1⟩ (signs k)

theorem eval_signs {k n : Nat} (h : 2 * k < n) (scope : Scope) :
    ∃ b, eval ((signs k).cutAt costs n) scope = (.ok (.bool b), scope) := by
  induction k generalizing n with
  | zero =>
    obtain ⟨n, rfl⟩ := Nat.exists_eq_add_of_lt h
    exact ⟨true, rfl⟩
  | succ k ih =>
    obtain ⟨n, rfl⟩ : ∃ m, n = m + 2 := ⟨n - 2, by omega⟩
    obtain ⟨b, hb⟩ := @ih n (by omega)
    refine ⟨!b, ?_⟩
    have hcut : (signs (k + 1)).cutAt costs (n + 2) =
        .unary ⟨.bang, .nil, 1⟩ ((signs k).cutAt costs n) := rfl
    rw [hcut, eval, hb]
    rfl

theorem eval_signs_deep {k n : Nat} (h : n ≤ 2 * k) (scope : Scope) :
    eval ((signs k).cutAt costs n) scope = (.error .tooMuchNesting, scope) := by
  induction k generalizing n with
  | zero =>
    obtain rfl := Nat.le_zero.mp h
    rfl
  | succ k ih =>
    cases n with
    | zero => rfl
    | succ n =>
      have hle : n - costs.operator ≤ 2 * k := by
        rw [show costs.operator = 1 from rfl]
        omega
      rw [signs, Expr.cutAt, eval, ih hle]
      rfl

/-- Statements that just fit the calls of a run by itself do not fit them any more with braces
around them. -/
theorem braces_are_felt_at_the_last_level :
    let body : List Stmt := [.expression (signs 495)]
    body.any Stmt.declares = false ∧
      (∀ fuel scope, interpret fuel body scope = (.completed, ⟨scope, #[]⟩)) ∧
      ∀ fuel scope,
        interpret fuel [.block body] scope = (.failed .tooMuchNesting, ⟨scope, #[]⟩) := by
  refine ⟨rfl, fun fuel scope => ?_, fun fuel scope => ?_⟩
  · obtain ⟨b, hb⟩ := @eval_signs 495 992 (by decide) scope
    have hbody : Stmt.cutAllAt costs usualRoom [.expression (signs 495)] =
        [.expression ((signs 495).cutAt costs 992)] := rfl
    rw [interpret, interpretWithin_eq, hbody, execAll, exec, withValue, hb]
    rfl
  · have hdeep := @eval_signs_deep 495 990 (by decide) scope.enter
    have hbody : Stmt.cutAllAt costs usualRoom [.block [.expression (signs 495)]] =
        [.block [.expression ((signs 495).cutAt costs 990)]] := rfl
    rw [interpret, interpretWithin_eq, hbody, execAll, exec, inFrame, execAll, exec, withValue]
    simp only [hdeep]
    rfl

end Evaluation

end Lox
