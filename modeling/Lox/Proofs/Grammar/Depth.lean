import Lox.Proofs.Grammar.Soundness

/-!
# How much room is enough

A parenthesis takes fourteen nested calls and no other token takes more, so that a limit of fourteen
for each token and sixteen for the innermost expression is never met. The invariant is about one
call of a parser: it leaves no more tokens than it was given a bound for, and a failure is not one
of nesting.
-/

namespace Lox.Grammar

/-- The parser left at most `k` tokens, and if it failed, then not because of the nesting. -/
def Within {α : Type} (k : Nat) : Except Failure (α × List Token) → Prop
  | .ok (_, rest) => rest.length ≤ k
  | .error failure => failure.rest.length ≤ k ∧ failure.fault ≠ .tooMuchNesting

def StaysWithin {α : Type} (k : Nat) (p : Parser α) : Prop :=
  ∀ ts : List Token, ts.length ≤ k → Within k (p ts)

theorem Within.mono {α : Type} {j k : Nat} {r : Except Failure (α × List Token)} (h : Within j r)
    (hjk : j ≤ k) : Within k r := by
  cases r with
  | ok a => exact Nat.le_trans h hjk
  | error failure => exact ⟨Nat.le_trans h.1 hjk, h.2⟩

theorem Within.bind {α β : Type} {k : Nat} {r : Except Failure (α × List Token)}
    {next : α × List Token → Except Failure (β × List Token)} (h : Within k r)
    (hnext : ∀ a rest, rest.length ≤ k → Within k (next (a, rest))) : Within k (r >>= next) := by
  cases r with
  | ok a => exact hnext a.1 a.2 h
  | error failure => exact h

theorem fail_within {α : Type} {k : Nat} (ctx : Context) {fault : Fault}
    (hfault : fault ≠ .tooMuchNesting) : StaysWithin k (@fail α ctx fault) :=
  fun _ hts => ⟨hts, hfault⟩

theorem take_length {k : Nat} {wanted : List Kind} {ts rest : List Token} {t : Token}
    (hts : ts.length ≤ k) (h : take? wanted ts = some (t, rest)) : rest.length + 1 ≤ k := by
  obtain ⟨rfl, -⟩ := take_eq_some.mp h
  simpa using hts

theorem expect_within {k : Nat} (ctx : Context) (kind : Kind) {fault : Fault}
    (hfault : fault ≠ .tooMuchNesting) : StaysWithin k (expect ctx kind fault) := by
  intro ts hts
  unfold expect
  split
  · next htake =>
    have := take_length hts htake
    exact Nat.le_of_succ_le this
  · exact fail_within ctx hfault ts hts

section

variable {k : Nat} {operand : Parser Expr} (hoperand : StaysWithin k operand)

include hoperand

theorem chain_within (operators : List Kind) (join : Expr → Token → Expr → Expr) (n : Nat)
    (left : Expr) : StaysWithin k (chain operators join operand n left) := by
  induction n generalizing left with
  | zero => exact fun _ hts => hts
  | succ n ih =>
    intro ts hts
    unfold chain
    split
    · exact hts
    · next htake =>
      have := take_length hts htake
      exact (hoperand _ (by omega)).bind fun right rest hrest => ih _ rest hrest

theorem tier_within (ctx : Context) (operators : List Kind)
    (join : Expr → Token → Expr → Expr) : StaysWithin k (tier ctx operators join operand) := by
  intro ts hts
  exact (hoperand ts hts).bind fun left rest hrest =>
    chain_within hoperand operators join ctx.size left rest hrest

theorem disjunction_within (ctx : Context) : StaysWithin k (disjunction ctx operand) := by
  have hproduct : StaysWithin k (product ctx operand) := tier_within hoperand ctx _ _
  have hsum : StaysWithin k (sum ctx operand) := tier_within hproduct ctx _ _
  have hcomparison : StaysWithin k (comparison ctx operand) := tier_within hsum ctx _ _
  have hequality : StaysWithin k (equality ctx operand) := tier_within hcomparison ctx _ _
  have hconjunction : StaysWithin k (conjunction ctx operand) := tier_within hequality ctx _ _
  exact tier_within hconjunction ctx _ _

end

theorem primary_within {k : Nat} (ctx : Context) {inner : Parser Expr}
    (hinner : ∀ j, j < k → StaysWithin j inner) : StaysWithin k (primary ctx inner) := by
  intro ts hts
  unfold primary
  split
  · exact fail_within ctx (by decide) _ hts
  · next t rest =>
    have hrest : rest.length < k := hts
    split
    case h_7 =>
      refine ((hinner _ hrest _ (Nat.le_refl _)).mono (Nat.le_of_lt hrest)).bind ?_
      intro e us hus
      exact (expect_within ctx _ (by decide) us hus).bind fun _ _ hvs => hvs
    case h_8 => exact fail_within ctx (by decide) _ hts
    all_goals exact Nat.le_of_lt hrest

theorem assignment_within {k : Nat} (ctx : Context) {operand next : Parser Expr}
    (hoperand : StaysWithin k operand) (hnext : ∀ j, j < k → StaysWithin j next) :
    StaysWithin k (assignment ctx operand next) := by
  intro ts hts
  refine (disjunction_within hoperand ctx ts hts).bind fun target us hus => ?_
  dsimp only
  split
  · exact hus
  · next equals vs htake =>
    have hvs := take_length hus htake
    refine ((hnext vs.length hvs vs (Nat.le_refl _)).mono (by omega)).bind ?_
    intro value ws hws
    unfold assignTo
    split
    · exact hws
    · exact ⟨hws, nofun⟩

theorem signedOperand_within {k : Nat} (ctx : Context) {next inner : Parser Expr}
    (hnext : ∀ j, j < k → StaysWithin j next) (hinner : ∀ j, j < k → StaysWithin j inner) :
    StaysWithin k (signedOperand ctx next inner) := by
  intro ts hts
  unfold signedOperand
  split
  · next op us htake =>
    have hus := take_length hts htake
    refine ((hnext us.length hus us (Nat.le_refl _)).mono (by omega)).bind ?_
    exact fun _ _ hvs => hvs
  · exact primary_within ctx hinner ts hts

theorem expression_signed_within (ctx : Context) (room : Nat) :
    (∀ k, 14 * k + 14 ≤ room → StaysWithin k (expression ctx room)) ∧
      ∀ k, 14 * k + 1 ≤ room → StaysWithin k (signed ctx room) := by
  refine expression_induction
    (P := fun room => ∀ k, 14 * k + 14 ≤ room → StaysWithin k (expression ctx room))
    (Q := fun room => ∀ k, 14 * k + 1 ≤ room → StaysWithin k (signed ctx room)) ?_ ?_ ?_ ?_ room
  · intro room h k hk
    omega
  · intro room hsigned hexpression k hk
    exact assignment_within ctx (hsigned k (by omega)) fun j hj => hexpression j (by omega)
  · intro k hk
    omega
  · intro room hsigned hexpression k hk
    exact signedOperand_within ctx (fun j hj => hsigned j (by omega))
      fun j hj => hexpression j (by omega)

theorem expression_within (ctx : Context) {room k : Nat} (hk : 14 * k + 14 ≤ room) :
    StaysWithin k (expression ctx room) :=
  (expression_signed_within ctx room).1 k hk

section

variable {k : Nat} {ctx : Context} {item : Parser Expr} (hitem : StaysWithin k item)

include hitem

theorem value_within : StaysWithin k (value ctx item) := by
  intro ts hts
  refine (hitem ts hts).bind fun e us hus => ?_
  exact (expect_within ctx _ (by decide) us hus).bind fun _ _ hvs => hvs

theorem expressionStatement_within : StaysWithin k (expressionStatement ctx item) :=
  fun ts hts => (value_within hitem ts hts).bind fun _ _ hus => hus

theorem printStatement_within : StaysWithin k (printStatement ctx item) :=
  fun ts hts => (value_within hitem ts hts).bind fun _ _ hus => hus

theorem optional_within (stop : Kind) : StaysWithin k (optional stop item) := by
  intro ts hts
  unfold optional
  split
  · exact hts
  · exact (hitem ts hts).bind fun _ _ hus => hus

theorem variableDeclaration_within : StaysWithin k (variableDeclaration ctx item) := by
  intro ts hts
  refine (expect_within ctx _ (by decide) ts hts).bind fun name us hus => ?_
  dsimp only
  split
  · next equals vs htake =>
    have hvs := take_length hus htake
    refine (hitem vs (by omega)).bind fun e ws hws => ?_
    exact (expect_within ctx _ (by decide) ws hws).bind fun _ _ hxs => hxs
  · exact (expect_within ctx _ (by decide) us hus).bind fun _ _ hxs => hxs

theorem loopStart_within : StaysWithin k (loopStart ctx item) := by
  intro ts hts
  unfold loopStart
  split
  · next htake =>
    have := take_length hts htake
    exact Nat.le_of_succ_le this
  · split
    · next us htake =>
      have hus := take_length hts htake
      exact (variableDeclaration_within hitem us (by omega)).bind fun _ _ hvs => hvs
    · exact (expressionStatement_within hitem ts hts).bind fun _ _ hvs => hvs

variable {inner : Parser Stmt} (hinner : StaysWithin k inner)

include hinner

theorem declaration_within : StaysWithin k (declaration ctx item inner) := by
  intro ts hts
  unfold declaration
  split
  · next us htake =>
    have hus := take_length hts htake
    exact variableDeclaration_within hitem us (by omega)
  · exact hinner ts hts

theorem forStatement_within {first : Parser Expr} (hfirst : StaysWithin k first) :
    StaysWithin k (forStatement ctx first item inner) := by
  intro ts hts
  refine (expect_within ctx _ (by decide) ts hts).bind fun _ ts₁ h₁ => ?_
  refine (loopStart_within hfirst ts₁ h₁).bind fun _ ts₂ h₂ => ?_
  refine (optional_within hitem _ ts₂ h₂).bind fun _ ts₃ h₃ => ?_
  refine (expect_within ctx _ (by decide) ts₃ h₃).bind fun _ ts₄ h₄ => ?_
  refine (optional_within hitem _ ts₄ h₄).bind fun _ ts₅ h₅ => ?_
  refine (expect_within ctx _ (by decide) ts₅ h₅).bind fun _ ts₆ h₆ => ?_
  exact (hinner ts₆ h₆).bind fun _ _ h₇ => h₇

theorem whileStatement_within : StaysWithin k (whileStatement ctx item inner) := by
  intro ts hts
  refine (expect_within ctx _ (by decide) ts hts).bind fun _ ts₁ h₁ => ?_
  refine (hitem ts₁ h₁).bind fun _ ts₂ h₂ => ?_
  refine (expect_within ctx _ (by decide) ts₂ h₂).bind fun _ ts₃ h₃ => ?_
  exact (hinner ts₃ h₃).bind fun _ _ h₄ => h₄

theorem ifStatement_within : StaysWithin k (ifStatement ctx item inner) := by
  intro ts hts
  refine (expect_within ctx _ (by decide) ts hts).bind fun _ ts₁ h₁ => ?_
  refine (hitem ts₁ h₁).bind fun _ ts₂ h₂ => ?_
  refine (expect_within ctx _ (by decide) ts₂ h₂).bind fun _ ts₃ h₃ => ?_
  refine (hinner ts₃ h₃).bind fun _ ts₄ h₄ => ?_
  dsimp only
  split
  · exact h₄
  · next htake =>
    have := take_length h₄ htake
    exact (hinner _ (by omega)).bind fun _ _ h₅ => h₅

end

theorem blockBody_within {k : Nat} (ctx : Context) {item : Parser Stmt}
    (hitem : StaysWithin k item) (n : Nat) : StaysWithin k (blockBody ctx item n) := by
  induction n with
  | zero => exact fun ts hts => fail_within ctx (by decide) ts hts
  | succ n ih =>
    intro ts hts
    cases ts with
    | nil => exact fail_within ctx (by decide) [] hts
    | cons t ts =>
      unfold blockBody
      split
      · exact Nat.le_of_succ_le hts
      · refine (hitem _ hts).bind fun s us hus => ?_
        exact (ih us hus).bind fun _ _ hvs => hvs

/-- What follows the first word of a statement has one token less, which pays for its room. -/
theorem sentence_within {k : Nat} (ctx : Context) {first item : Parser Expr}
    {inner member : Parser Stmt} (hfirst : ∀ j, j < k → StaysWithin j first)
    (hitem : ∀ j, j ≤ k → StaysWithin j item) (hinner : ∀ j, j < k → StaysWithin j inner)
    (hmember : ∀ j, j < k → StaysWithin j member) :
    StaysWithin k (sentence ctx first item inner member) := by
  intro ts hts
  have hplain : Within k (expressionStatement ctx item ts) :=
    expressionStatement_within (hitem k (Nat.le_refl _)) ts hts
  unfold sentence
  split
  · exact hplain
  · next t us =>
    obtain ⟨j, rfl⟩ : ∃ j, k = j + 1 := ⟨k - 1, by simp at hts; omega⟩
    have hj : j < j + 1 := Nat.lt_succ_self j
    have hus : us.length ≤ j := by simpa using hts
    have hfew : StaysWithin j item := hitem j (Nat.le_of_lt hj)
    split
    · exact (forStatement_within hfew (hinner j hj) (hfirst j hj) us hus).mono (by omega)
    · exact (ifStatement_within hfew (hinner j hj) us hus).mono (by omega)
    · exact (printStatement_within hfew us hus).mono (by omega)
    · exact (whileStatement_within hfew (hinner j hj) us hus).mono (by omega)
    · refine Within.mono (j := j) ?_ (by omega)
      exact (blockBody_within ctx (hmember j hj) _ us hus).bind fun _ _ h => h
    · exact hplain

theorem entry_within_of {k : Nat} (ctx : Context) {room : Nat} (hk : 14 * k + 15 ≤ room)
    (h : StaysWithin k (statement ctx room)) : StaysWithin k (entry ctx room) :=
  declaration_within (expression_within ctx (by omega)) h

theorem statement_within (ctx : Context) (room : Nat) :
    ∀ k, 14 * k + 16 ≤ room → StaysWithin k (statement ctx room) := by
  refine statement_induction
    (P := fun room => ∀ k, 14 * k + 16 ≤ room → StaysWithin k (statement ctx room)) ?_ ?_ room
  · intro room h k hk
    omega
  · intro room hinner hmember k hk
    refine sentence_within ctx (fun j hj => expression_within ctx (by omega))
      (fun j hj => expression_within ctx (by omega)) (fun j hj => hinner j (by omega))
      fun j hj => ?_
    exact entry_within_of ctx (by omega) (hmember j (by omega))

theorem entry_within (ctx : Context) {room k : Nat} (hk : 14 * k + 16 ≤ room) :
    StaysWithin k (entry ctx room) :=
  entry_within_of ctx (by omega) (statement_within ctx room k hk)

theorem resume_length (last : Token) (ts : List Token) : (resume last ts).length ≤ ts.length := by
  induction ts generalizing last with
  | nil => exact Nat.le_refl _
  | cons t ts ih =>
    unfold resume
    split
    · exact Nat.le_refl _
    · exact Nat.le_succ_of_le (ih t)

theorem synchronize_length (ts : List Token) : (synchronize ts).length ≤ ts.length := by
  cases ts with
  | nil => exact Nat.le_refl _
  | cons t ts => exact Nat.le_succ_of_le (resume_length t ts)

theorem declarations_within (ctx : Context) {room k : Nat} (hk : 14 * k + 16 ≤ room) (n : Nat)
    {ts : List Token} (hts : ts.length ≤ k) :
    ∀ e ∈ (declarations ctx room n ts).2, e.fault ≠ .tooMuchNesting := by
  have hitem : StaysWithin k (entry ctx room) := entry_within ctx hk
  induction n generalizing ts with
  | zero => exact nofun
  | succ n ih =>
    cases ts with
    | nil => exact nofun
    | cons t ts =>
      have hwithin := hitem _ hts
      unfold declarations
      split
      · next s rest hs =>
        rw [hs] at hwithin
        exact ih hwithin
      · next failure hs =>
        rw [hs] at hwithin
        rw [if_neg hwithin.2]
        intro e he
        rcases List.mem_cons.mp he with rfl | he
        · exact hwithin.2
        · exact ih (Nat.le_trans (synchronize_length _) hwithin.1) e he

def Exhausted (r : Except Errors (List Stmt)) : Prop :=
  ∃ errors, r = .error errors ∧ ∃ e ∈ errors.toList, e.fault = .tooMuchNesting

theorem not_exhausted {room : Nat} {tokens : List Token}
    (h : 14 * (body tokens).length + 16 ≤ room) : ¬ Exhausted (parseWithin room tokens) := by
  rintro ⟨errors, heq, e, he, hfault⟩
  unfold parseWithin at heq
  dsimp only at heq
  split at heq
  · cases heq
  · next first others hdeclarations =>
    cases heq
    have hwithin := declarations_within ⟨endLine tokens, (body tokens).length⟩ h
      (body tokens).length (Nat.le_refl _) e
    rw [hdeclarations] at hwithin
    exact hwithin he hfault

end Lox.Grammar
