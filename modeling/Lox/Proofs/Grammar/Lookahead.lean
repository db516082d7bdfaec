import Lox.Proofs.Grammar.Completeness

/-!
# One token ahead

A parser is predictive if the tokens that it takes and the one behind them settle how it ends: what
it returns, or its fault and the token that is blamed for it. Everything further on is never looked
at. Each parsing function is predictive if those are that it calls.
-/

namespace Lox.Grammar

inductive Verdict (α : Type) where
  | ok (a : α)
  | target (equals : Token)
  | stuck (fault : Fault)

namespace Verdict

variable {α : Type}

/-- A wrong target is blamed on the equals sign behind it, all else on the token that is next. -/
def result (ctx : Context) (rest : List Token) : Verdict α → Except Failure (α × List Token)
  | ok a => .ok (a, rest)
  | target equals => .error ⟨.assignmentTarget, equals.line, rest⟩
  | stuck fault => .error ⟨fault, lineAt ctx rest, rest⟩

def Fair (seen : List Token) : Verdict α → Prop
  | ok _ => True
  | target equals => equals.kind = .equal ∧ equals ∈ seen
  | stuck fault => fault ≠ .assignmentTarget

theorem Fair.mono {seen more : List Token} {v : Verdict α} (h : v.Fair seen)
    (hsub : seen ⊆ more) : v.Fair more := by
  cases v with
  | ok a => exact h
  | target equals => exact ⟨h.1, hsub h.2⟩
  | stuck fault => exact h

theorem ok_or_fails (β : Type) (v : Verdict α) : (∃ a, v = ok a) ∨
    ∃ v' : Verdict β, (∀ seen, v.Fair seen → v'.Fair seen) ∧
      ∀ ctx rest next, (v.result ctx rest >>= next) = v'.result ctx rest := by
  cases v with
  | ok a => exact Or.inl ⟨a, rfl⟩
  | target equals => exact Or.inr ⟨target equals, fun _ h => h, fun _ _ _ => rfl⟩
  | stuck fault => exact Or.inr ⟨stuck fault, fun _ h => h, fun _ _ _ => rfl⟩

end Verdict

/-- Behind the tokens `used` the parser ends with the verdict if the same token is next. -/
def Settles {α : Type} (p : Context → Parser α) (used rest : List Token) (v : Verdict α) : Prop :=
  ∀ ctx more, more.head? = rest.head? → (used ++ more).length ≤ ctx.size →
    p ctx (used ++ more) = v.result ctx more

/-- On every list the parser settles behind some of its tokens. An equals sign among the tokens
`seen` before may be blamed too. -/
def Predictive {α : Type} (seen : List Token) (p : Context → Parser α) : Prop :=
  ∀ ts, ∃ used rest v, ts = used ++ rest ∧ v.Fair (seen ++ used) ∧ Settles p used rest v

theorem head_append_congr (used : List Token) {rest more : List Token}
    (h : more.head? = rest.head?) : (used ++ more).head? = (used ++ rest).head? := by
  cases used with
  | nil => exact h
  | cons t ts => rfl

theorem take_cases (wanted : List Kind) (head : Option Token) :
    (∃ t, head = some t ∧ t.kind ∈ wanted) ∨
      ∀ ts : List Token, ts.head? = head → take? wanted ts = none := by
  by_cases hhead : ∃ t, head = some t ∧ t.kind ∈ wanted
  · exact Or.inl hhead
  · right
    intro ts hts
    rw [take_eq_none, hts]
    exact fun t ht hk => hhead ⟨t, ht, hk⟩

theorem take_congr {wanted : List Kind} {ts us : List Token} (h : us.head? = ts.head?)
    (hts : take? wanted ts = none) : take? wanted us = none := by
  rw [take_eq_none] at hts ⊢
  rwa [h]

section

variable {α β : Type} {seen : List Token}

theorem Predictive.mono {p : Context → Parser α} (h : Predictive [] p) : Predictive seen p := by
  intro ts
  obtain ⟨used, rest, v, hts, hfair, hsettles⟩ := h ts
  exact ⟨used, rest, v, hts, hfair.mono (List.subset_append_right _ _), hsettles⟩

theorem predictive_ok (a : α) : Predictive seen fun _ ts => .ok (a, ts) := by
  intro ts
  refine ⟨[], ts, .ok a, rfl, trivial, ?_⟩
  intro ctx more _ _
  rfl

theorem predictive_fail {fault : Fault} (hfault : fault ≠ .assignmentTarget) :
    Predictive seen fun ctx => @fail α ctx fault := by
  intro ts
  refine ⟨[], ts, .stuck fault, rfl, hfault, ?_⟩
  intro ctx more _ _
  rfl

/-- Of a sequence, what comes second has taken its first token or left it for the first to see. -/
theorem Predictive.bind {p : Context → Parser α}
    {next : Context → α × List Token → Except Failure (β × List Token)} (hp : Predictive seen p)
    (hnext : ∀ a, Predictive seen fun ctx ts => next ctx (a, ts)) :
    Predictive seen fun ctx ts => p ctx ts >>= next ctx := by
  intro ts
  obtain ⟨used, rest, v, rfl, hfair, hsettles⟩ := hp ts
  rcases v.ok_or_fails β with ⟨a, rfl⟩ | ⟨v', hfair', hends⟩
  · obtain ⟨used', rest', v', rfl, hfair', hsettles'⟩ := hnext a rest
    refine ⟨used ++ used', rest', v', (List.append_assoc ..).symm, ?_, ?_⟩
    · refine hfair'.mono fun t ht => ?_
      simp only [List.mem_append] at ht ⊢
      exact ht.imp_right Or.inr
    · intro ctx more hmore hsize
      rw [List.append_assoc] at hsize ⊢
      dsimp only
      rw [hsettles ctx _ (head_append_congr _ hmore) hsize]
      exact hsettles' ctx more hmore (Nat.le_trans (by simp) hsize)
  · refine ⟨used, rest, v', rfl, hfair' _ hfair, ?_⟩
    intro ctx more hmore hsize
    dsimp only
    rw [hsettles ctx more hmore hsize]
    exact hends ctx more _

theorem Predictive.map {p : Context → Parser α} (hp : Predictive seen p) (f : α → β) :
    Predictive seen fun ctx ts => p ctx ts >>= fun r => .ok (f r.1, r.2) :=
  @Predictive.bind _ _ seen p (fun _ r => .ok (f r.1, r.2)) hp fun a => predictive_ok (f a)

theorem Predictive.of_head {p : Context → Parser α}
    (h : ∀ head : Option Token,
      (∃ q : Context → Parser α, Predictive seen q ∧
        ∀ ctx ts, ts.head? = head → p ctx ts = q ctx ts) ∨
      ∃ (t : Token) (q : Context → Parser α), head = some t ∧ Predictive (seen ++ [t]) q ∧
        ∀ ctx ts, p ctx (t :: ts) = q ctx ts) :
    Predictive seen p := by
  intro ts
  rcases h ts.head? with ⟨q, hq, heq⟩ | ⟨t, q, hhead, hq, heq⟩
  · obtain ⟨used, rest, v, rfl, hfair, hsettles⟩ := hq ts
    refine ⟨used, rest, v, rfl, hfair, ?_⟩
    intro ctx more hmore hsize
    rw [heq ctx _ (head_append_congr _ hmore)]
    exact hsettles ctx more hmore hsize
  · obtain ⟨us, rfl⟩ : ∃ us, ts = t :: us := by
      cases ts with
      | nil => cases hhead
      | cons u us =>
        cases hhead
        exact ⟨us, rfl⟩
    obtain ⟨used, rest, v, rfl, hfair, hsettles⟩ := hq us
    refine ⟨t :: used, rest, v, rfl, ?_, ?_⟩
    · rwa [List.append_assoc] at hfair
    · intro ctx more hmore hsize
      rw [List.cons_append, heq]
      exact hsettles ctx more hmore (Nat.le_of_succ_le hsize)

theorem Predictive.branch {p : Context → Parser α} (wanted : List Kind)
    (yes : Token → Context → Parser α) (no : Context → Parser α)
    (hyes : ∀ t, t.kind ∈ wanted → Predictive (seen ++ [t]) (yes t)) (hno : Predictive seen no)
    (htaken : ∀ ctx t ts, t.kind ∈ wanted → p ctx (t :: ts) = yes t ctx ts)
    (hleft : ∀ ctx ts, take? wanted ts = none → p ctx ts = no ctx ts) : Predictive seen p := by
  apply Predictive.of_head
  intro head
  rcases take_cases wanted head with ⟨t, rfl, ht⟩ | hnone
  · exact Or.inr ⟨t, yes t, rfl, hyes t ht, fun ctx ts => htaken ctx t ts ht⟩
  · exact Or.inl ⟨no, hno, fun ctx ts hts => hleft ctx ts (hnone ts hts)⟩

theorem expect_predictive (kind : Kind) {fault : Fault} (hfault : fault ≠ .assignmentTarget) :
    Predictive seen fun ctx => expect ctx kind fault := by
  refine Predictive.branch [kind] (fun t _ ts => .ok (t, ts)) _ (fun t _ => predictive_ok t)
    (predictive_fail hfault) ?_ ?_
  · intro ctx t ts ht
    rw [expect, take_cons ht]
  · intro ctx ts hts
    rw [expect, hts]

end

section

variable {operand : Context → Parser Expr} (hoperand : Predictive [] operand)

include hoperand

/-- The bound on the number of operators is never met. -/
theorem chain_predictive (operators : List Kind) (join : Expr → Token → Expr → Expr)
    (left : Expr) (ts : List Token) :
    ∃ (used rest : List Token) (v : Verdict Expr), ts = used ++ rest ∧ v.Fair used ∧
      ∀ ctx n more, more.head? = rest.head? → (used ++ more).length ≤ ctx.size →
        (used ++ more).length ≤ n →
        chain operators join (operand ctx) n left (used ++ more) = v.result ctx more := by
  induction hlength : ts.length using Nat.strongRecOn generalizing ts left with
  | _ k ih =>
    subst hlength
    rcases htake : take? operators ts with _ | ⟨op, us⟩
    · refine ⟨[], ts, .ok left, rfl, trivial, ?_⟩
      intro ctx n more hmore _ _
      cases n with
      | zero => rfl
      | succ n =>
        rw [List.nil_append, chain, take_congr hmore htake]
        rfl
    · obtain ⟨rfl, hop⟩ := take_eq_some.mp htake
      obtain ⟨used, rest, v, rfl, hfair, hsettles⟩ := hoperand us
      -- one round, whatever is left of the bound
      have hround : ∀ ctx n more, more.head? = rest.head? →
          (op :: used ++ more).length ≤ ctx.size →
          chain operators join (operand ctx) (n + 1) left (op :: used ++ more) =
            (v.result ctx more >>= fun r =>
              chain operators join (operand ctx) n (join left op r.1) r.2) := by
        intro ctx n more hmore hsize
        rw [List.cons_append, chain, take_cons hop]
        dsimp only
        rw [hsettles ctx more hmore (Nat.le_of_succ_le hsize)]
      have hfew : ∀ {n more}, (op :: used ++ more).length ≤ n →
          ∃ m, n = m + 1 ∧ more.length ≤ m := by
        intro n more hn
        refine ⟨n - 1, ?_, ?_⟩ <;> simp at hn <;> omega
      rcases v.ok_or_fails Expr with ⟨right, rfl⟩ | ⟨v', hfair', hends⟩
      · obtain ⟨used', rest', v', rfl, hfair', hsettles'⟩ :=
          ih rest.length (by rw [List.length_cons, List.length_append]; omega) (join left op right)
            rest rfl
        refine ⟨op :: used ++ used', rest', v', by simp, ?_, ?_⟩
        · exact hfair'.mono (List.subset_append_right _ _)
        · intro ctx n more hmore hsize hn
          rw [List.append_assoc] at hsize hn ⊢
          obtain ⟨m, rfl, hm⟩ := hfew hn
          rw [hround ctx m _ (head_append_congr _ hmore) hsize]
          exact hsettles' ctx m more hmore (Nat.le_trans (by simp; omega) hsize) hm
      · refine ⟨op :: used, rest, v', rfl, ?_, ?_⟩
        · exact (hfair' _ hfair).mono (List.subset_cons_self _ _)
        · intro ctx n more hmore hsize hn
          obtain ⟨m, rfl, -⟩ := hfew hn
          rw [hround ctx m more hmore hsize]
          exact hends ctx more _

theorem tier_predictive (operators : List Kind) (join : Expr → Token → Expr → Expr) :
    Predictive [] fun ctx => tier ctx operators join (operand ctx) := by
  refine Predictive.bind hoperand fun left ts => ?_
  obtain ⟨used, rest, v, hts, hfair, hsettles⟩ := chain_predictive hoperand operators join left ts
  exact ⟨used, rest, v, hts, hfair, fun ctx more hmore hsize =>
    hsettles ctx ctx.size more hmore hsize hsize⟩

theorem disjunction_predictive : Predictive [] fun ctx => disjunction ctx (operand ctx) := by
  have hproduct := tier_predictive hoperand [.slash, .star] .binary
  have hsum := tier_predictive hproduct [.minus, .plus] .binary
  have hcomparison :=
    tier_predictive hsum [.greater, .greaterEqual, .less, .lessEqual] .binary
  have hequality := tier_predictive hcomparison [.bangEqual, .equalEqual] .binary
  have hconjunction := tier_predictive hequality [.and_] .logical
  exact tier_predictive hconjunction [.or_] .logical

end

theorem primary_cases (head : Option Token) :
    (∃ t e, head = some t ∧ ∀ ctx inner ts, primary ctx inner (t :: ts) = .ok (e, ts)) ∨
    (∃ t, head = some t ∧ ∀ ctx inner ts, primary ctx inner (t :: ts) =
      inner ts >>= fun r => expect ctx .rightParen .parenAfterExpression r.2 >>= fun r' =>
        .ok (Expr.group r.1, r'.2)) ∨
    ∀ ctx inner ts, ts.head? = head → primary ctx inner ts = fail ctx .expression ts := by
  cases head with
  | none =>
    refine Or.inr (Or.inr fun ctx inner ts hts => ?_)
    rw [List.head?_eq_none_iff.mp hts]
    rfl
  | some t =>
    rcases hconstant : constant? t with _ | v
    · by_cases hname : t.kind = .identifier
      · refine Or.inl ⟨t, .var t, rfl, fun ctx inner ts => ?_⟩
        simp only [primary, hname]
      by_cases hgroup : t.kind = .leftParen
      · refine Or.inr (Or.inl ⟨t, rfl, fun ctx inner ts => ?_⟩)
        simp only [primary, hgroup]
        rfl
      · refine Or.inr (Or.inr fun ctx inner ts hts => ?_)
        obtain ⟨us, rfl⟩ := List.head?_eq_some_iff.mp hts
        unfold constant? at hconstant
        unfold primary
        split at hconstant <;> simp_all
    · exact Or.inl ⟨t, .literal v, rfl, fun ctx inner ts => primary_constant hconstant ts⟩

theorem primary_predictive {inner : Context → Parser Expr} (hinner : Predictive [] inner) :
    Predictive [] fun ctx => primary ctx (inner ctx) := by
  apply Predictive.of_head
  intro head
  rcases primary_cases head with ⟨t, e, rfl, heq⟩ | ⟨t, rfl, heq⟩ | heq
  · exact Or.inr ⟨t, _, rfl, predictive_ok e, fun ctx ts => heq ctx _ ts⟩
  · refine Or.inr ⟨t, _, rfl, ?_, fun ctx ts => heq ctx (inner ctx) ts⟩
    refine Predictive.bind hinner.mono fun e => ?_
    exact (expect_predictive _ (by decide)).map fun _ => Expr.group e
  · exact Or.inl ⟨_, @predictive_fail _ [] .expression nofun, fun ctx ts hts => heq ctx _ ts hts⟩

theorem assignTo_predictive {equals : Token} (hequals : equals.kind = .equal)
    (target value : Expr) : Predictive [equals] fun _ => assignTo target equals value := by
  intro ts
  cases target with
  | var name =>
    refine ⟨[], ts, .ok (.assign name value), rfl, trivial, ?_⟩
    intro ctx more _ _
    rfl
  | _ =>
    refine ⟨[], ts, .target equals, rfl, ⟨hequals, List.mem_cons_self⟩, ?_⟩
    intro ctx more _ _
    rfl

section

variable {next inner : Context → Parser Expr}

theorem assignment_predictive {operand : Context → Parser Expr} (hoperand : Predictive [] operand)
    (hnext : Predictive [] next) :
    Predictive [] fun ctx => assignment ctx (operand ctx) (next ctx) := by
  refine Predictive.bind (disjunction_predictive hoperand) fun target => ?_
  refine Predictive.branch [.equal]
    (fun equals ctx ts => next ctx ts >>= fun r => assignTo target equals r.1 r.2) _ ?_
    (predictive_ok target) ?_ ?_
  · intro equals hequals
    refine Predictive.bind hnext.mono fun value => ?_
    exact assignTo_predictive (List.mem_singleton.mp hequals) target value
  · intro ctx equals ts hequals
    simp only [take_cons hequals]
  · intro ctx ts hts
    simp only [hts]
    rfl

theorem signedOperand_predictive (hnext : Predictive [] next) (hinner : Predictive [] inner) :
    Predictive [] fun ctx => signedOperand ctx (next ctx) (inner ctx) := by
  refine Predictive.branch [.bang, .minus]
    (fun op ctx ts => next ctx ts >>= fun r => .ok (Expr.unary op r.1, r.2)) _ ?_
    (primary_predictive hinner) ?_ ?_
  · intro op _
    exact hnext.mono.map (Expr.unary op)
  · intro ctx op ts hop
    simp only [signedOperand, take_cons hop]
    rfl
  · intro ctx ts hts
    simp only [signedOperand, hts]

end

theorem expression_signed_predictive (room : Nat) :
    (Predictive [] fun ctx => expression ctx room) ∧
      Predictive [] fun ctx => signed ctx room := by
  refine expression_induction (P := fun room => Predictive [] fun ctx => expression ctx room)
    (Q := fun room => Predictive [] fun ctx => signed ctx room) ?_ ?_ ?_ ?_ room
  · intro room h
    simp only [expression_of_lt _ h]
    exact predictive_fail (by decide)
  · exact fun room hsigned hexpression => assignment_predictive hsigned hexpression
  · exact predictive_fail (by decide)
  · exact fun room hsigned hexpression => signedOperand_predictive hsigned hexpression

theorem expression_predictive (room : Nat) : Predictive [] fun ctx => expression ctx room :=
  (expression_signed_predictive room).1

theorem loopStart_cases (head : Option Token) :
    (∃ t, head = some t ∧ ∀ ctx item ts, loopStart ctx item (t :: ts) = .ok (none, ts)) ∨
    (∃ t, head = some t ∧ ∀ ctx item ts, loopStart ctx item (t :: ts) =
      variableDeclaration ctx item ts >>= fun r => .ok (some r.1, r.2)) ∨
    ∀ ctx item ts, ts.head? = head → loopStart ctx item ts =
      expressionStatement ctx item ts >>= fun r => .ok (some r.1, r.2) := by
  rcases take_cases [.semicolon] head with ⟨t, rfl, ht⟩ | hsemicolon
  · refine Or.inl ⟨t, rfl, fun ctx item ts => ?_⟩
    simp only [loopStart, take_cons ht]
  rcases take_cases [.var_] head with ⟨t, rfl, ht⟩ | hvar
  · refine Or.inr (Or.inl ⟨t, rfl, fun ctx item ts => ?_⟩)
    simp only [loopStart, take_cons ht, hsemicolon (t :: ts) rfl]
    rfl
  · refine Or.inr (Or.inr fun ctx item ts hts => ?_)
    simp only [loopStart, hsemicolon ts hts, hvar ts hts]
    rfl

section

variable {seen : List Token} {item : Context → Parser Expr} (hitem : Predictive [] item)

include hitem

theorem value_predictive : Predictive seen fun ctx => value ctx (item ctx) := by
  refine Predictive.bind hitem.mono fun e => ?_
  refine Predictive.bind (expect_predictive _ (by decide)) fun _ => ?_
  exact predictive_ok e

theorem expressionStatement_predictive :
    Predictive seen fun ctx => expressionStatement ctx (item ctx) :=
  (value_predictive hitem).map Stmt.expression

theorem printStatement_predictive : Predictive seen fun ctx => printStatement ctx (item ctx) :=
  (value_predictive hitem).map Stmt.print

theorem variableDeclaration_predictive :
    Predictive seen fun ctx => variableDeclaration ctx (item ctx) := by
  have hlast : ∀ (seen : List Token) (name : Token) (initial : Expr), Predictive seen fun ctx ts =>
      expect ctx .semicolon .semicolonAfterDeclaration ts >>= fun r =>
        pure (Stmt.declare name initial, r.2) := by
    intro seen name initial
    exact (expect_predictive _ (by decide)).map fun _ => Stmt.declare name initial
  refine Predictive.bind (expect_predictive _ (by decide)) fun name => ?_
  refine Predictive.branch [.equal]
    (fun _ ctx ts => item ctx ts >>= fun r =>
      expect ctx .semicolon .semicolonAfterDeclaration r.2 >>= fun r' =>
        pure (Stmt.declare name r.1, r'.2)) _ ?_ (hlast seen name (.literal .nil)) ?_ ?_
  · intro equals _
    exact Predictive.bind hitem.mono fun initial => hlast _ name initial
  · intro ctx equals ts hequals
    simp only [take_cons hequals]
  · intro ctx ts hts
    simp only [hts]
    rfl

theorem optional_predictive (stop : Kind) :
    Predictive seen fun ctx => optional stop (item ctx) := by
  apply Predictive.of_head
  intro head
  left
  rcases take_cases [stop] head with ⟨t, rfl, ht⟩ | hnone
  · refine ⟨_, predictive_ok none, fun ctx ts hts => ?_⟩
    obtain ⟨us, rfl⟩ := List.head?_eq_some_iff.mp hts
    simp only [optional, take_cons ht]
  · refine ⟨_, hitem.mono.map some, fun ctx ts hts => ?_⟩
    simp only [optional, hnone ts hts]
    rfl

theorem loopStart_predictive : Predictive seen fun ctx => loopStart ctx (item ctx) := by
  apply Predictive.of_head
  intro head
  rcases loopStart_cases head with ⟨t, rfl, heq⟩ | ⟨t, rfl, heq⟩ | heq
  · exact Or.inr ⟨t, _, rfl, predictive_ok none, fun ctx ts => heq ctx _ ts⟩
  · exact Or.inr ⟨t, _, rfl, (variableDeclaration_predictive hitem).map some,
      fun ctx ts => heq ctx _ ts⟩
  · exact Or.inl ⟨_, (expressionStatement_predictive hitem).map some,
      fun ctx ts hts => heq ctx _ ts hts⟩

variable {inner : Context → Parser Stmt} (hinner : Predictive [] inner)

include hinner

theorem declaration_predictive :
    Predictive seen fun ctx => declaration ctx (item ctx) (inner ctx) := by
  refine Predictive.branch [.var_] (fun _ ctx => variableDeclaration ctx (item ctx)) _
    (fun _ _ => variableDeclaration_predictive hitem) hinner.mono ?_ ?_
  · intro ctx word ts hword
    simp only [declaration, take_cons hword]
  · intro ctx ts hts
    simp only [declaration, hts]

theorem forStatement_predictive {first : Context → Parser Expr} (hfirst : Predictive [] first) :
    Predictive seen fun ctx => forStatement ctx (first ctx) (item ctx) (inner ctx) := by
  refine Predictive.bind (expect_predictive _ (by decide)) fun _ => ?_
  refine Predictive.bind (loopStart_predictive hfirst) fun start => ?_
  refine Predictive.bind (optional_predictive hitem _) fun condition => ?_
  refine Predictive.bind (expect_predictive _ (by decide)) fun _ => ?_
  refine Predictive.bind (optional_predictive hitem _) fun step => ?_
  refine Predictive.bind (expect_predictive _ (by decide)) fun _ => ?_
  exact hinner.mono.map fun round => _

theorem whileStatement_predictive :
    Predictive seen fun ctx => whileStatement ctx (item ctx) (inner ctx) := by
  refine Predictive.bind (expect_predictive _ (by decide)) fun _ => ?_
  refine Predictive.bind hitem.mono fun condition => ?_
  refine Predictive.bind (expect_predictive _ (by decide)) fun _ => ?_
  exact hinner.mono.map fun round => _

theorem ifStatement_predictive :
    Predictive seen fun ctx => ifStatement ctx (item ctx) (inner ctx) := by
  refine Predictive.bind (expect_predictive _ (by decide)) fun _ => ?_
  refine Predictive.bind hitem.mono fun condition => ?_
  refine Predictive.bind (expect_predictive _ (by decide)) fun _ => ?_
  refine Predictive.bind hinner.mono fun yes => ?_
  refine Predictive.branch [.else_]
    (fun _ ctx ts => inner ctx ts >>= fun r => .ok (Stmt.ifElse condition yes r.1, r.2)) _
    ?_ (predictive_ok (Stmt.ifThen condition yes)) ?_ ?_
  · intro otherwise _
    exact hinner.mono.map (Stmt.ifElse condition yes)
  · intro ctx otherwise ts helse
    simp only [take_cons helse]
    rfl
  · intro ctx ts hts
    simp only [hts]
    rfl

end

/-- Every declaration takes a token, so that here too the bound is never met. -/
theorem blockBody_predictive {item : Context → Parser Stmt} (hitem : Predictive [] item)
    (hprogress : ∀ ctx ts s rest, item ctx ts = .ok (s, rest) → rest.length < ts.length)
    (ts : List Token) :
    ∃ (used rest : List Token) (v : Verdict (List Stmt)), ts = used ++ rest ∧ v.Fair used ∧
      ∀ ctx n more, more.head? = rest.head? → (used ++ more).length ≤ ctx.size →
        (used ++ more).length ≤ n →
        blockBody ctx (item ctx) n (used ++ more) = v.result ctx more := by
  induction hlength : ts.length using Nat.strongRecOn generalizing ts with
  | _ k ih =>
    subst hlength
    cases ts with
    | nil =>
      refine ⟨[], [], .stuck .braceAfterBlock, rfl, nofun, ?_⟩
      intro ctx n more hmore _ _
      rw [List.head?_eq_none_iff.mp hmore]
      cases n <;> rfl
    | cons t us =>
      by_cases hbrace : t.kind = .rightBrace
      · refine ⟨[t], us, .ok [], rfl, trivial, ?_⟩
        intro ctx n more _ _ hn
        obtain ⟨m, rfl⟩ : ∃ m, n = m + 1 := ⟨n - 1, by simp at hn; omega⟩
        rw [List.singleton_append, blockBody, if_pos hbrace]
        rfl
      · obtain ⟨used, rest, v, hts, hfair, hsettles⟩ := hitem (t :: us)
        -- the first item is the same for every list that goes on alike
        have hround : ∀ ctx n more, more.head? = rest.head? → (used ++ more).length ≤ ctx.size →
            (used ++ more).length ≤ n + 1 →
            blockBody ctx (item ctx) (n + 1) (used ++ more) =
              (v.result ctx more >>= fun r =>
                blockBody ctx (item ctx) n r.2 >>= fun r' => .ok (r.1 :: r'.1, r'.2)) := by
          intro ctx n more hmore hsize _
          have hhead := head_append_congr used hmore
          rw [← hts] at hhead
          obtain ⟨ws, hws⟩ := List.head?_eq_some_iff.mp hhead
          rw [← hsettles ctx more hmore hsize, hws, blockBody, if_neg hbrace]
          rfl
        have hfew : ∀ {n more}, more.head? = rest.head? → (used ++ more).length ≤ n →
            ∃ m, n = m + 1 := by
          intro n more hmore hn
          have hhead := head_append_congr used hmore
          rw [← hts] at hhead
          obtain ⟨ws, hws⟩ := List.head?_eq_some_iff.mp hhead
          rw [hws] at hn
          exact ⟨n - 1, by simp at hn; omega⟩
        rcases v.ok_or_fails (List Stmt) with ⟨s, rfl⟩ | ⟨v', hfair', hends⟩
        · have hsome := hprogress ⟨0, (used ++ rest).length⟩ _ s rest
            (hsettles _ rest rfl (Nat.le_refl _))
          obtain ⟨used', rest', v', rfl, hfair', hsettles'⟩ :=
            ih rest.length (by rw [hts]; exact hsome) rest rfl
          have hlater : ∃ v'' : Verdict (List Stmt), v''.Fair used' ∧ ∀ ctx more,
              (v'.result ctx more >>= fun r' => .ok (s :: r'.1, r'.2)) = v''.result ctx more := by
            rcases v'.ok_or_fails (List Stmt) with ⟨body, rfl⟩ | ⟨v'', hfair'', hends⟩
            · exact ⟨.ok (s :: body), trivial, fun _ _ => rfl⟩
            · exact ⟨v'', hfair'' _ hfair', fun ctx more => hends ctx more _⟩
          obtain ⟨v'', hfair'', hlater⟩ := hlater
          refine ⟨used ++ used', rest', v'', by rw [hts, List.append_assoc], ?_, ?_⟩
          · exact hfair''.mono (List.subset_append_right _ _)
          · intro ctx n more hmore hsize hn
            rw [List.append_assoc] at hsize hn ⊢
            obtain ⟨m, rfl⟩ := hfew (head_append_congr _ hmore) hn
            rw [hround ctx m _ (head_append_congr _ hmore) hsize hn, ← hlater]
            simp only [List.length_append] at hsome hsize hn
            rw [← hsettles' ctx m more hmore (by simp; omega) (by simp; omega)]
            rfl
        · refine ⟨used, rest, v', hts, hfair' _ hfair, ?_⟩
          intro ctx n more hmore hsize hn
          obtain ⟨m, rfl⟩ := hfew hmore hn
          rw [hround ctx m more hmore hsize hn]
          exact hends ctx more _

theorem entry_progress {ctx : Context} {room : Nat} {ts rest : List Token} {s : Stmt}
    (h : entry ctx room ts = .ok (s, rest)) : rest.length < ts.length := by
  obtain ⟨used, rfl, hs⟩ := entry_sound ctx room h
  have hpos := List.length_pos_iff.mpr hs.ne_nil
  rw [List.length_append]
  omega

theorem sentence_predictive {first item : Context → Parser Expr}
    {inner member : Context → Parser Stmt}
    (hfirst : Predictive [] first) (hitem : Predictive [] item) (hinner : Predictive [] inner)
    (hmember : Predictive [] member)
    (hprogress : ∀ ctx ts s rest, member ctx ts = .ok (s, rest) → rest.length < ts.length) :
    Predictive [] fun ctx => sentence ctx (first ctx) (item ctx) (inner ctx) (member ctx) := by
  have hplain : Predictive [] fun ctx => expressionStatement ctx (item ctx) :=
    expressionStatement_predictive hitem
  apply Predictive.of_head
  intro head
  cases head with
  | none =>
    refine Or.inl ⟨_, hplain, fun ctx ts hts => ?_⟩
    rw [List.head?_eq_none_iff.mp hts]
    rfl
  | some t =>
    by_cases hfor : t.kind = .for_
    · refine Or.inr ⟨t, _, rfl, forStatement_predictive hitem hinner hfirst, fun ctx ts => ?_⟩
      simp only [sentence, hfor]
    by_cases hif : t.kind = .if_
    · refine Or.inr ⟨t, _, rfl, ifStatement_predictive hitem hinner, fun ctx ts => ?_⟩
      simp only [sentence, hif]
    by_cases hprint : t.kind = .print_
    · refine Or.inr ⟨t, _, rfl, printStatement_predictive hitem, fun ctx ts => ?_⟩
      simp only [sentence, hprint]
    by_cases hwhile : t.kind = .while_
    · refine Or.inr ⟨t, _, rfl, whileStatement_predictive hitem hinner, fun ctx ts => ?_⟩
      simp only [sentence, hwhile]
    by_cases hbrace : t.kind = .leftBrace
    · have hbody : Predictive [] fun ctx => blockBody ctx (member ctx) ctx.size := by
        intro ts
        obtain ⟨used, rest, v, hts, hfair, hsettles⟩ := blockBody_predictive hmember hprogress ts
        exact ⟨used, rest, v, hts, hfair, fun ctx more hmore hsize =>
          hsettles ctx ctx.size more hmore hsize hsize⟩
      refine Or.inr ⟨t, _, rfl, hbody.mono.map Stmt.block, fun ctx ts => ?_⟩
      simp only [sentence, hbrace]
      rfl
    · refine Or.inl ⟨_, hplain, fun ctx ts hts => ?_⟩
      obtain ⟨us, rfl⟩ := List.head?_eq_some_iff.mp hts
      simp only [sentence]

theorem entry_predictive_of {room : Nat} (h : Predictive [] fun ctx => statement ctx room) :
    Predictive [] fun ctx => entry ctx room :=
  declaration_predictive (expression_predictive (room - 1)) h

theorem statement_predictive (room : Nat) : Predictive [] fun ctx => statement ctx room := by
  refine statement_induction (P := fun room => Predictive [] fun ctx => statement ctx room)
    ?_ ?_ room
  · intro room h
    simp only [statement_of_lt _ h]
    exact predictive_fail (by decide)
  · intro room hinner hmember
    exact sentence_predictive (expression_predictive room) (expression_predictive (room + 1)) hinner
      (entry_predictive_of hmember) fun _ _ _ _ => entry_progress

/-- What is read of a list as one declaration, or how that fails, depends on no more than the next
token behind what is taken. -/
theorem entry_settles (room : Nat) (ts : List Token) :
    ∃ (used rest : List Token) (v : Verdict Stmt), ts = used ++ rest ∧ v.Fair used ∧
      ∀ ctx more, more.head? = rest.head? → (used ++ more).length ≤ ctx.size →
        entry ctx room (used ++ more) = v.result ctx more :=
  entry_predictive_of (statement_predictive room) ts

end Lox.Grammar
