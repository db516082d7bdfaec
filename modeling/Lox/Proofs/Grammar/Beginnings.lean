import Lox.Proofs.Grammar.Viability

/-!
# Every parsing function is viable

For each function of the parser, from the operands up to the declarations: what it has taken when it
is stuck is the beginning of something that it reads, whatever the limit on the nesting, and what it
has read it reads again. A bound on a repetition is first shown to be as good as any other that is
not less than the number of tokens.
-/

namespace Lox.Grammar

section

variable {α β : Type}

theorem bind_congr_ok {ε : Type} {first : Except ε α} {next next' : α → Except ε β}
    (h : ∀ a, first = .ok a → next a = next' a) : first >>= next = first >>= next' := by
  cases first with
  | error fault => rfl
  | ok a => exact h a rfl

theorem Sound.shorter {p : Parser α} {spells : List Token → α → Prop} (h : Sound p spells)
    {ts rest : List Token} {a : α} (ha : p ts = .ok (a, rest)) : rest.length ≤ ts.length := by
  obtain ⟨used, rfl, -⟩ := h ha
  rw [List.length_append]
  exact Nat.le_add_left _ _

theorem Sound.takes {p : Parser α} {spells : List Token → α → Prop} (h : Sound p spells)
    (hne : ∀ ts a, spells ts a → ts ≠ []) : Takes p := by
  intro ts a rest ha
  obtain ⟨used, rfl, hused⟩ := h ha
  have hpos := List.length_pos_iff.mpr (hne used a hused)
  rw [List.length_append]
  omega

end

theorem chain_none {operators : List Kind} {ts : List Token} (h : take? operators ts = none)
    (join : Expr → Token → Expr → Expr) (operand : Parser Expr) (n : Nat) (left : Expr) :
    chain operators join operand n left ts = .ok (left, ts) := by
  cases n with
  | zero => rfl
  | succ n => simp only [chain, h]

theorem chain_bound (operators : List Kind) (join : Expr → Token → Expr → Expr)
    {operand : Parser Expr}
    (hoperand : ∀ ts e rest, operand ts = .ok (e, rest) → rest.length ≤ ts.length) {n m : Nat}
    {left : Expr} {ts : List Token} (hn : ts.length ≤ n) (hm : ts.length ≤ m) :
    chain operators join operand n left ts = chain operators join operand m left ts := by
  induction n generalizing m left ts with
  | zero =>
    obtain rfl := List.length_eq_zero_iff.mp (Nat.le_zero.mp hn)
    rw [chain_none rfl, chain_none rfl]
  | succ n ih =>
    cases htake : take? operators ts with
    | none => rw [chain_none htake, chain_none htake]
    | some found =>
      obtain ⟨op, us⟩ := found
      obtain ⟨rfl, -⟩ := take_eq_some.mp htake
      obtain ⟨m, rfl⟩ : ∃ k, m = k + 1 := ⟨m - 1, by simp at hm; omega⟩
      simp only [List.length_cons, Nat.add_le_add_iff_right] at hn hm
      simp only [chain, htake]
      apply bind_congr_ok
      rintro ⟨right, rest⟩ hright
      have hrest := hoperand us right rest hright
      exact ih (Nat.le_trans hrest hn) (Nat.le_trans hrest hm)

theorem blockBody_bound (ctx : Context) {item : Parser Stmt} (hitem : Takes item) {n m : Nat}
    {ts : List Token} (hn : ts.length ≤ n) (hm : ts.length ≤ m) :
    blockBody ctx item n ts = blockBody ctx item m ts := by
  induction n generalizing m ts with
  | zero =>
    obtain rfl := List.length_eq_zero_iff.mp (Nat.le_zero.mp hn)
    cases m <;> rfl
  | succ n ih =>
    cases ts with
    | nil => cases m <;> rfl
    | cons t us =>
      obtain ⟨m, rfl⟩ : ∃ k, m = k + 1 := ⟨m - 1, by simp at hm; omega⟩
      simp only [blockBody]
      by_cases hbrace : t.kind = .rightBrace
      · rw [if_pos hbrace, if_pos hbrace]
      · rw [if_neg hbrace, if_neg hbrace]
        apply bind_congr_ok
        rintro ⟨s, rest⟩ hs
        have hshorter := hitem _ s rest hs
        dsimp only
        rw [ih (m := m) (by omega) (by omega)]

theorem parserAt_sound (ctx : Context) (room : Nat) (level : Level) :
    Sound (parserAt ctx room level) (Phrase level) := by
  have hsign := (expression_signed_sound ctx room).2
  have hproduct := tier_sound ctx .product nofun hsign
  have hsum := tier_sound ctx .sum nofun hproduct
  have hcomparison := tier_sound ctx .comparison nofun hsum
  have hequality := tier_sound ctx .equality nofun hcomparison
  have hconjunction := tier_sound ctx .conjunction nofun hequality
  cases level with
  | assignment => exact expression_sound ctx room
  | disjunction => exact tier_sound ctx .disjunction nofun hconjunction
  | conjunction => exact hconjunction
  | equality => exact hequality
  | comparison => exact hcomparison
  | sum => exact hsum
  | product => exact hproduct
  | sign => exact hsign
  | primary => exact primary_sound (expression_sound ctx room)

theorem Level.operators_prolong (level : Level) : level.operators ⊆ prolonging := by
  cases level <;> decide

theorem Phrase.loosen {ts : List Token} {e : Expr} (h : Phrase .primary ts e) (level : Level) :
    Phrase level ts e := by
  have hsign : Phrase .sign ts e := .operand nofun h
  have hproduct : Phrase .product ts e := .operand nofun hsign
  have hsum : Phrase .sum ts e := .operand nofun hproduct
  have hcomparison : Phrase .comparison ts e := .operand nofun hsum
  have hequality : Phrase .equality ts e := .operand nofun hcomparison
  have hconjunction : Phrase .conjunction ts e := .operand nofun hequality
  have hdisjunction : Phrase .disjunction ts e := .operand nofun hconjunction
  cases level <;> first | assumption | exact .operand nofun hdisjunction

theorem nil_phrase (level : Level) : Phrase level [filler .nil_] (.literal .nil) :=
  (Phrase.constant rfl).loosen level

theorem quiet_nil_word : Quiet [filler .nil_] := quiet_filler (by decide)

theorem Level.startable (level : Level) :
    Startable fun ctx room => parserAt ctx room level := by
  refine ⟨[filler .nil_], quiet_nil_word, Or.inl ⟨.literal .nil, ?_⟩⟩
  intro ctx room more hsize hmore
  refine (nil_phrase level).complete.1 room more hsize (hmore.take_none ?_)
  cases level <;> decide

section

variable {ctx₀ : Context} {room₀ size : Nat}

def tail (level : Level) (left : Expr) : Family Expr := fun ctx room ts =>
  chain level.operators level.join (parserAt ctx room level.tighter) ts.length left ts

theorem tail_viable {level : Level}
    (h : Viable ctx₀ room₀ size fun ctx room => parserAt ctx room level.tighter)
    (left : Expr) : Viable ctx₀ room₀ size (tail level left) := by
  have hshorter : ∀ ctx room ts e rest,
      parserAt ctx room level.tighter ts = .ok (e, rest) → rest.length ≤ ts.length :=
    fun ctx room ts e rest => (parserAt_sound ctx room level.tighter).shorter
  -- each round takes its operator, which leaves fewer tokens for the next
  induction size using Nat.strongRecOn generalizing left with
  | _ size ih =>
    refine Viable.branch level.operators
      (fun op ctx room ts => parserAt ctx room level.tighter ts >>= fun r =>
        tail level (level.join left op r.1) ctx room r.2)
      (fun _ _ ts => .ok (left, ts)) ?_ (viable_ok left) (Or.inl level.operators_prolong) ?_ ?_
    · intro op _ k hk
      have hoperand := h.mono (Nat.le_of_lt hk)
      exact hoperand.bind fun right => ih k hk hoperand (level.join left op right)
    · intro ctx room op ts hop
      simp only [tail, List.length_cons, chain, take_cons hop]
      apply bind_congr_ok
      rintro ⟨right, rest⟩ hright
      exact chain_bound _ _ (hshorter ctx room) (hshorter _ _ _ _ _ hright) (Nat.le_refl _)
    · intro ctx room ts hts
      exact chain_none hts _ _ _ _

theorem parserAt_viable {level : Level} (hlevel : level.operators ≠ []) (hsize : size ≤ ctx₀.size)
    (h : Viable ctx₀ room₀ size fun ctx room => parserAt ctx room level.tighter) :
    Viable ctx₀ room₀ size fun ctx room => parserAt ctx room level := by
  have hsequence : Viable ctx₀ room₀ size fun ctx room ts =>
      parserAt ctx room level.tighter ts >>= fun r => tail level r.1 ctx room r.2 :=
    h.bind fun left => tail_viable h left
  refine hsequence.of_eq hsize fun ctx room ts hts => ?_
  rw [parserAt_tier hlevel]
  apply bind_congr_ok
  rintro ⟨left, rest⟩ hleft
  have hshorter : ∀ ts e rest,
      parserAt ctx room level.tighter ts = .ok (e, rest) → rest.length ≤ ts.length :=
    fun ts e rest => (parserAt_sound ctx room level.tighter).shorter
  exact chain_bound _ _ hshorter (Nat.le_trans (hshorter _ _ _ hleft) hts) (Nat.le_refl _)

theorem disjunction_viable (hsize : size ≤ ctx₀.size)
    (h : Viable ctx₀ room₀ size fun ctx room => signed ctx room) :
    Viable ctx₀ room₀ size fun ctx room => disjunction ctx (signed ctx room) := by
  have hproduct := @parserAt_viable _ _ _ .product nofun hsize h
  have hsum := @parserAt_viable _ _ _ .sum nofun hsize hproduct
  have hcomparison := @parserAt_viable _ _ _ .comparison nofun hsize hsum
  have hequality := @parserAt_viable _ _ _ .equality nofun hsize hcomparison
  have hconjunction := @parserAt_viable _ _ _ .conjunction nofun hsize hequality
  exact @parserAt_viable _ _ _ .disjunction nofun hsize hconjunction

theorem primary_viable (h : Viable ctx₀ room₀ size fun ctx room => expression ctx room) :
    Viable ctx₀ room₀ size fun ctx room => primary ctx (expression ctx room) := by
  have hstarts : Startable fun ctx room => primary ctx (expression ctx room) :=
    Level.startable .primary
  apply Viable.of_head hstarts
  intro head
  rcases primary_cases head with ⟨t, e, rfl, heq⟩ | ⟨t, rfl, heq⟩ | heq
  · refine Or.inr (Or.inl ⟨t, _, rfl, fun _ _ => viable_ok e, fun ctx room ts => ?_⟩)
    exact heq ctx _ ts
  · refine Or.inr (Or.inl ⟨t, _, rfl, fun k hk => ?_, fun ctx room ts =>
      heq ctx (expression ctx room) ts⟩)
    refine (h.mono (Nat.le_of_lt hk)).bind fun e => ?_
    exact (expect_viable .parenAfterExpression (by decide)).map fun _ => Expr.group e
  · exact Or.inl fun ts hts => ⟨_, heq ctx₀ _ ts hts, rfl⟩

theorem assignTo_viable (target value : Expr) (equals : Token) :
    Viable ctx₀ room₀ size fun _ _ => assignTo target equals value := by
  cases target with
  | var name => exact viable_ok (Expr.assign name value)
  | _ =>
    refine ⟨⟨[], quiet_nil, Or.inr fun _ _ _ _ _ => Or.inl ⟨equals.line, rfl⟩⟩, nofun, ?_⟩
    rintro ts _ _ ⟨⟩ htarget
    exact absurd rfl htarget

section

variable (hsize : size ≤ ctx₀.size)
  (hsigned : Viable ctx₀ room₀ size fun ctx room => signed ctx room)

include hsigned

include hsize in
theorem assignment_viable {next : Family Expr} (hnext : Viable ctx₀ room₀ size next) :
    Viable ctx₀ room₀ size fun ctx room => assignment ctx (signed ctx room) (next ctx room) := by
  refine (disjunction_viable hsize hsigned).bind fun target => ?_
  refine Viable.branch [.equal]
    (fun equals ctx room ts => next ctx room ts >>= fun r => assignTo target equals r.1 r.2)
    (fun _ _ ts => .ok (target, ts)) ?_ (viable_ok target) (Or.inl (by decide)) ?_ ?_
  · intro equals _ k hk
    exact (hnext.mono (Nat.le_of_lt hk)).bind fun value => assignTo_viable target value equals
  · intro ctx room equals ts hequals
    simp only [take_cons hequals]
  · intro ctx room ts hts
    simp only [hts]
    rfl

theorem signedOperand_viable
    (hexpression : Viable ctx₀ room₀ size fun ctx room => expression ctx room) :
    Viable ctx₀ room₀ size fun ctx room =>
      signedOperand ctx (signed ctx room) (expression ctx room) := by
  refine Viable.branch [.bang, .minus]
    (fun op ctx room ts => signed ctx room ts >>= fun r => .ok (Expr.unary op r.1, r.2))
    (fun ctx room => primary ctx (expression ctx room)) ?_ (primary_viable hexpression)
    (Or.inr ⟨(Level.startable .sign).at (· + 1), ?_⟩) ?_ ?_
  · intro op _ k hk
    exact (hsigned.mono (Nat.le_of_lt hk)).map (Expr.unary op)
  · refine (parserAt_sound ctx₀ room₀ .primary).takes fun ts e he => ?_
    obtain ⟨t, us, rfl, -⟩ := he.head
    exact List.cons_ne_nil _ _
  · intro ctx room op ts hop
    simp only [signedOperand, take_cons hop]
    rfl
  · intro ctx room ts hts
    simp only [signedOperand, hts]

end

theorem expression_signed_viable (hsize : size ≤ ctx₀.size) (room : Nat) :
    (Viable ctx₀ room size fun ctx room => expression ctx room) ∧
      Viable ctx₀ room size fun ctx room => signed ctx room := by
  have hstarts := Level.startable .assignment
  have hnone : ∀ room < 13, ∀ ctx ts, Exhausts (expression ctx room ts) := by
    intro room h ctx ts
    rw [expression_of_lt ctx h]
    exact exhausts_fail ctx ts
  refine expression_induction
    (P := fun room => Viable ctx₀ room size fun ctx room => expression ctx room)
    (Q := fun room => Viable ctx₀ room size fun ctx room => signed ctx room) ?_ ?_ ?_ ?_ room
  · exact fun room h => viable_of_exhausts (hnone room h ctx₀) hstarts
  · intro room hsigned hexpression
    have hnext : Viable ctx₀ room size fun ctx room => expression ctx (room + 12) :=
      hexpression.at (· + 12)
    exact (assignment_viable hsize hsigned hnext).deepen (fun _ _ _ => rfl) hnone hstarts
  · exact viable_of_exhausts (fun ts => exhausts_fail ctx₀ ts) (Level.startable .sign)
  · intro room hsigned hexpression
    refine (signedOperand_viable hsigned hexpression).deepen (fun _ _ _ => rfl) ?_
      (Level.startable .sign)
    intro room h ctx ts
    obtain rfl := Nat.lt_one_iff.mp h
    exact exhausts_fail ctx ts

theorem expression_viable (hsize : size ≤ ctx₀.size) :
    Viable ctx₀ room₀ size fun ctx room => expression ctx room :=
  (expression_signed_viable hsize room₀).1

theorem Takes.map {α β : Type} {p : Parser α} (h : Takes p) (f : α → β) :
    Takes fun ts => p ts >>= fun r => .ok (f r.1, r.2) := by
  intro ts b rest hb
  obtain ⟨⟨a, us⟩, ha, hnext⟩ := ok_of_bind hb
  cases hnext
  exact h ts a us ha

theorem value_viable (hsize : size ≤ ctx₀.size) :
    Viable ctx₀ room₀ size fun ctx room => value ctx (expression ctx room) := by
  refine (expression_viable hsize).bind fun e => ?_
  exact (expect_viable .semicolonAfterValue (by decide)).map fun _ => e

theorem expressionStatement_viable (hsize : size ≤ ctx₀.size) :
    Viable ctx₀ room₀ size fun ctx room => expressionStatement ctx (expression ctx room) :=
  (value_viable hsize).map Stmt.expression

theorem expressionStatement_takes (ctx : Context) (room : Nat) :
    Takes (expressionStatement ctx (expression ctx room)) := by
  refine (expressionStatement_sound (expression_sound ctx room)).takes ?_
  rintro ts s ⟨e, he, -⟩
  obtain ⟨t, us, rfl, -⟩ := he.head
  exact List.cons_ne_nil _ _

theorem printStatement_viable (hsize : size ≤ ctx₀.size) :
    Viable ctx₀ room₀ size fun ctx room => printStatement ctx (expression ctx room) :=
  (value_viable hsize).map Stmt.print

theorem variableDeclaration_viable (hsize : size ≤ ctx₀.size) :
    Viable ctx₀ room₀ size fun ctx room => variableDeclaration ctx (expression ctx room) := by
  have hlast : ∀ (k : Nat) (name : Token) (initial : Expr),
      Viable ctx₀ room₀ k fun ctx _ ts =>
        expect ctx .semicolon .semicolonAfterDeclaration ts >>= fun r =>
          pure (Stmt.declare name initial, r.2) := by
    intro k name initial
    exact (expect_viable _ (by decide)).map fun _ => Stmt.declare name initial
  refine (expect_viable .variableName (by decide)).bind fun name => ?_
  refine Viable.branch [.equal]
    (fun _ ctx room ts => expression ctx room ts >>= fun r =>
      expect ctx .semicolon .semicolonAfterDeclaration r.2 >>= fun r' =>
        pure (Stmt.declare name r.1, r'.2)) _ ?_ (hlast size name (.literal .nil))
    (Or.inl (by decide)) ?_ ?_
  · intro equals _ k hk
    exact (expression_viable (Nat.le_trans (Nat.le_of_lt hk) hsize)).bind fun initial =>
      hlast k name initial
  · intro ctx room equals ts hequals
    simp only [take_cons hequals]
  · intro ctx room ts hts
    simp only [hts]
    rfl

theorem loopStart_viable (hsize : size ≤ ctx₀.size) :
    Viable ctx₀ room₀ size fun ctx room => loopStart ctx (expression ctx room) := by
  have hstarts : Startable fun ctx room => loopStart ctx (expression ctx room) :=
    ⟨[filler .semicolon], quiet_filler (by decide), Or.inl ⟨none, fun _ _ _ _ _ => .ok⟩⟩
  apply Viable.of_head hstarts
  intro head
  right
  rcases loopStart_cases head with ⟨t, rfl, heq⟩ | ⟨t, rfl, heq⟩ | heq
  · refine Or.inl ⟨t, _, rfl, fun _ _ => viable_ok none, fun ctx room ts => ?_⟩
    exact heq ctx _ ts
  · refine Or.inl ⟨t, _, rfl, fun k hk => ?_, fun ctx room ts =>
      heq ctx (expression ctx room) ts⟩
    have hfew := Nat.le_trans (Nat.le_of_lt hk) hsize
    exact (variableDeclaration_viable hfew).map some
  · exact Or.inr ⟨_, (expressionStatement_viable hsize).map some,
      fun ctx room ts hts => heq ctx _ ts hts,
      Or.inl ((expressionStatement_takes ctx₀ room₀).map some)⟩

def clause (stop : Kind) (fault : Fault) : Family (Option Expr) := fun ctx room ts =>
  optional stop (expression ctx room) ts >>= fun r =>
    expect ctx stop fault r.2 >>= fun r' => .ok (r.1, r'.2)

theorem clause_viable (hsize : size ≤ ctx₀.size) {stop : Kind} (fault : Fault)
    (hstop : stop ∉ .eof :: prolonging) : Viable ctx₀ room₀ size (clause stop fault) := by
  have htaken : ∀ ctx room t ts, t.kind ∈ [stop] →
      clause stop fault ctx room (t :: ts) = .ok (none, ts) := by
    intro ctx room t ts ht
    have hmark : expect ctx stop fault (t :: ts) = .ok (t, ts) :=
      expect_eq_ok.mpr ⟨rfl, List.mem_singleton.mp ht⟩
    simp only [clause, optional, take_cons ht]
    change (expect ctx stop fault (t :: ts) >>= _) = _
    rw [hmark]
    rfl
  have hstarts : Startable (clause stop fault) := by
    refine ⟨[filler stop], quiet_filler hstop, Or.inl ⟨none, fun ctx room more _ _ => Or.inl ?_⟩⟩
    exact htaken ctx room _ more (List.mem_singleton.mpr rfl)
  refine Viable.branch [stop] (fun _ _ _ ts => .ok (none, ts))
    (fun ctx room ts => expression ctx room ts >>= fun r =>
      expect ctx stop fault r.2 >>= fun r' => .ok (some r.1, r'.2))
    (fun _ _ _ _ => viable_ok none) ?_ (Or.inr ⟨hstarts, ?_⟩) htaken ?_
  · refine (expression_viable hsize).bind fun e => ?_
    exact (expect_viable fault hstop).map fun _ => some e
  · intro ts e rest he
    obtain ⟨⟨f, us⟩, hf, hnext⟩ := ok_of_bind he
    obtain ⟨⟨mark, vs⟩, hmark, hlast⟩ := ok_of_bind hnext
    cases hlast
    obtain ⟨rfl, -⟩ := expect_eq_ok.mp hmark
    exact (expression_sound ctx₀ room₀).shorter hf
  · intro ctx room ts hts
    simp only [clause, optional, hts]
    cases expression ctx room ts <;> rfl

section

variable (hsize : size ≤ ctx₀.size) {inner : Family Stmt} (hinner : Viable ctx₀ room₀ size inner)

include hsize hinner

theorem forStatement_viable : Viable ctx₀ room₀ size fun ctx room =>
    forStatement ctx (expression ctx (room - 1)) (expression ctx room) (inner ctx room) := by
  have hstart : Viable ctx₀ room₀ size fun ctx room => loopStart ctx (expression ctx (room - 1)) :=
    (loopStart_viable hsize).at (· - 1)
  have hsequence : Viable ctx₀ room₀ size fun ctx room ts =>
      expect ctx .leftParen .parenAfterFor ts >>= fun left =>
        loopStart ctx (expression ctx (room - 1)) left.2 >>= fun start =>
          clause .semicolon .semicolonAfterLoopCondition ctx room start.2 >>= fun condition =>
            clause .rightParen .parenAfterForClauses ctx room condition.2 >>= fun step =>
              inner ctx room step.2 >>= fun round =>
                .ok (Stmt.forLoop start.1 condition.1 step.1 round.1, round.2) := by
    refine (expect_viable .parenAfterFor (by decide)).bind fun _ => ?_
    refine hstart.bind fun start => ?_
    dsimp only
    refine (clause_viable hsize _ (by decide)).bind fun condition => ?_
    dsimp only
    refine (clause_viable hsize _ (by decide)).bind fun step => ?_
    exact hinner.map fun round => Stmt.forLoop start condition step round
  refine hsequence.of_eq hsize fun ctx room ts _ => ?_
  simp only [forStatement, clause, bind_assoc]
  rfl

theorem whileStatement_viable : Viable ctx₀ room₀ size fun ctx room =>
    whileStatement ctx (expression ctx room) (inner ctx room) := by
  refine (expect_viable .parenAfterWhile (by decide)).bind fun _ => ?_
  refine (expression_viable hsize).bind fun condition => ?_
  refine (expect_viable .parenAfterCondition (by decide)).bind fun _ => ?_
  exact hinner.map fun round => _

theorem ifStatement_viable : Viable ctx₀ room₀ size fun ctx room =>
    ifStatement ctx (expression ctx room) (inner ctx room) := by
  refine (expect_viable .parenAfterIf (by decide)).bind fun _ => ?_
  refine (expression_viable hsize).bind fun condition => ?_
  refine (expect_viable .parenAfterIfCondition (by decide)).bind fun _ => ?_
  refine hinner.bind fun yes => ?_
  refine Viable.branch [.else_]
    (fun _ ctx room ts => inner ctx room ts >>= fun r =>
      .ok (Stmt.ifElse condition yes r.1, r.2))
    (fun _ _ ts => .ok (Stmt.ifThen condition yes, ts)) ?_ (viable_ok _) (Or.inl (by decide)) ?_ ?_
  · intro otherwise _ k hk
    exact (hinner.mono (Nat.le_of_lt hk)).map (Stmt.ifElse condition yes)
  · intro ctx room otherwise ts helse
    simp only [take_cons helse]
    rfl
  · intro ctx room ts hts
    simp only [hts]
    rfl

end

theorem statement_takes (ctx : Context) (room : Nat) : Takes (statement ctx room) := by
  intro ts s rest hs
  obtain ⟨ending, used, rfl, hused, -⟩ := statement_sound ctx room hs
  obtain ⟨t, us, rfl, -⟩ := hused.head
  rw [List.cons_append, List.length_cons, List.length_append]
  omega

theorem nil_terminated : Terminated [filler .nil_, filler .semicolon] (.literal .nil) :=
  Terminated.intro (nil_phrase .assignment) rfl

theorem quiet_nil_terminated : Quiet [filler .nil_, filler .semicolon] :=
  quiet_nil_word.append (quiet_filler (by decide : Kind.semicolon ∉ _))

theorem statement_startable : Startable fun ctx room => statement ctx room := by
  refine ⟨_, quiet_nil_terminated, Or.inl ⟨.expression (.literal .nil), ?_⟩⟩
  intro ctx room more hsize _
  exact statement_expression room nil_terminated hsize

theorem entry_startable : Startable fun ctx room => entry ctx room := by
  refine ⟨_, quiet_nil_terminated, Or.inl ⟨.expression (.literal .nil), ?_⟩⟩
  intro ctx room more hsize _
  exact statement_expression room nil_terminated hsize

theorem entry_viable (hsize : size ≤ ctx₀.size)
    (h : Viable ctx₀ room₀ size fun ctx room => statement ctx room) :
    Viable ctx₀ room₀ size fun ctx room => entry ctx room := by
  refine Viable.branch [.var_]
    (fun _ ctx room => variableDeclaration ctx (expression ctx (room - 1))) _ ?_ h
    (Or.inr ⟨entry_startable, statement_takes ctx₀ room₀⟩) ?_ ?_
  · intro word _ k hk
    exact (variableDeclaration_viable (Nat.le_trans (Nat.le_of_lt hk) hsize)).at (· - 1)
  · intro ctx room word ts hword
    simp only [entry, declaration, take_cons hword]
  · intro ctx room ts hts
    simp only [entry, declaration, hts]

def items : Family (List Stmt) := fun ctx room ts => blockBody ctx (entry ctx room) ts.length ts

theorem items_viable (h : Viable ctx₀ room₀ size fun ctx room => entry ctx room) :
    Viable ctx₀ room₀ size items := by
  have hitem : ∀ ctx room, Takes (entry ctx room) := fun ctx room ts s rest => entry_progress
  have hstarts : Startable items :=
    ⟨[filler .rightBrace], quiet_filler (by decide), Or.inl ⟨[], fun _ _ _ _ _ => .ok⟩⟩
  induction size using Nat.strongRecOn with
  | _ size ih =>
    apply Viable.of_head hstarts
    intro head
    cases head with
    | none =>
      refine Or.inl fun ts hts => ⟨⟨.braceAfterBlock, lineAt ctx₀ ts, ts⟩, ?_, rfl⟩
      rw [List.head?_eq_none_iff.mp hts]
      rfl
    | some t =>
      right
      by_cases hbrace : t.kind = .rightBrace
      · refine Or.inl ⟨t, _, rfl, fun _ _ => viable_ok [], fun ctx room ts => ?_⟩
        simp only [items, List.length_cons, blockBody, if_pos hbrace]
      · refine Or.inr ⟨fun ctx room ts =>
          entry ctx room ts >>= fun r =>
            items ctx room r.2 >>= fun r' => .ok (r.1 :: r'.1, r'.2), ?_, ?_, Or.inl ?_⟩
        · refine h.bind_left (fun s => ?_) ?_
          · exact @Startable.bind _ _ items (fun _ _ r => .ok (s :: r.1, r.2)) hstarts
              fun body => (viable_ok (s :: body) : Viable ctx₀ room₀ size _).starts
          intro ts s rest hts hs
          have hk := Nat.lt_of_lt_of_le (hitem _ _ _ _ _ hs) hts
          exact (ih rest.length hk (h.mono (Nat.le_of_lt hk))).map (s :: ·)
        · intro ctx room ts hts
          obtain ⟨us, rfl⟩ := List.head?_eq_some_iff.mp hts
          simp only [items, List.length_cons, blockBody, if_neg hbrace]
          apply bind_congr_ok
          rintro ⟨s, rest⟩ hs
          have hshorter := Nat.le_of_lt_succ (hitem ctx room _ s rest hs)
          dsimp only
          rw [blockBody_bound ctx (hitem ctx room) hshorter (Nat.le_refl _)]
          rfl
        · intro ts body rest hbody
          obtain ⟨⟨s, us⟩, hs, hnext⟩ := ok_of_bind hbody
          obtain ⟨⟨later, vs⟩, hlater, hlast⟩ := ok_of_bind hnext
          cases hlast
          obtain ⟨used, right, rfl, -⟩ := blockBody_sound (entry_sound ctx₀ room₀) _ hlater
          have hshorter := hitem ctx₀ room₀ ts s _ hs
          simp only [List.length_append, List.length_cons] at hshorter ⊢
          omega

theorem block_viable (hsize : size ≤ ctx₀.size)
    (h : Viable ctx₀ room₀ size fun ctx room => statement ctx room) :
    Viable ctx₀ room₀ size fun ctx room => blockBody ctx (entry ctx room) ctx.size := by
  refine (items_viable (entry_viable hsize h)).of_eq hsize fun ctx room ts hts => ?_
  exact blockBody_bound ctx (fun _ _ _ => entry_progress) hts (Nat.le_refl _)

/-- The parts of a statement have their own limits, each in terms of what is left beside the calls
that every statement takes. -/
def sentences : Family Stmt := fun ctx room =>
  sentence ctx (expression ctx room) (expression ctx (room + 1)) (statement ctx (room + 1))
    (entry ctx room)

theorem sentences_viable (hsize : size ≤ ctx₀.size)
    (hinner : Viable ctx₀ (room₀ + 1) size fun ctx room => statement ctx room)
    (hmember : Viable ctx₀ room₀ size fun ctx room => statement ctx room) :
    Viable ctx₀ room₀ size sentences := by
  have hfew : ∀ k < size, k ≤ ctx₀.size := fun k hk => Nat.le_trans (Nat.le_of_lt hk) hsize
  have hplain : Viable ctx₀ room₀ size fun ctx room =>
      expressionStatement ctx (expression ctx (room + 1)) :=
    (expressionStatement_viable hsize).at (· + 1)
  have hstarts : Startable sentences := statement_startable.at (· + 3)
  apply Viable.of_head hstarts
  intro head
  right
  cases head with
  | none =>
    refine Or.inr ⟨_, hplain, fun ctx room ts hts => ?_,
      Or.inl (expressionStatement_takes ctx₀ (room₀ + 1))⟩
    rw [List.head?_eq_none_iff.mp hts]
    rfl
  | some t =>
    by_cases hfor : t.kind = .for_
    · refine Or.inl ⟨t, _, rfl, fun k hk => (forStatement_viable (hfew k hk)
        (hinner.mono (Nat.le_of_lt hk))).at (· + 1), fun ctx room ts => ?_⟩
      simp only [sentences, sentence, hfor, Nat.add_sub_cancel]
    by_cases hif : t.kind = .if_
    · refine Or.inl ⟨t, _, rfl, fun k hk => (ifStatement_viable (hfew k hk)
        (hinner.mono (Nat.le_of_lt hk))).at (· + 1), fun ctx room ts => ?_⟩
      simp only [sentences, sentence, hif]
    by_cases hprint : t.kind = .print_
    · refine Or.inl ⟨t, _, rfl, fun k hk => (printStatement_viable (hfew k hk)).at (· + 1),
        fun ctx room ts => ?_⟩
      simp only [sentences, sentence, hprint]
    by_cases hwhile : t.kind = .while_
    · refine Or.inl ⟨t, _, rfl, fun k hk => (whileStatement_viable (hfew k hk)
        (hinner.mono (Nat.le_of_lt hk))).at (· + 1), fun ctx room ts => ?_⟩
      simp only [sentences, sentence, hwhile]
    by_cases hbrace : t.kind = .leftBrace
    · refine Or.inl ⟨t, _, rfl, fun k hk =>
        (block_viable (hfew k hk) (hmember.mono (Nat.le_of_lt hk))).map Stmt.block,
        fun ctx room ts => ?_⟩
      simp only [sentences, sentence, hbrace]
      rfl
    · refine Or.inr ⟨_, hplain, fun ctx room ts hts => ?_,
        Or.inl (expressionStatement_takes ctx₀ (room₀ + 1))⟩
      obtain ⟨us, rfl⟩ := List.head?_eq_some_iff.mp hts
      simp only [sentences, sentence]

theorem statement_viable (hsize : size ≤ ctx₀.size) (room : Nat) :
    Viable ctx₀ room size fun ctx room => statement ctx room := by
  have hnone : ∀ room < 3, ∀ ctx ts, Exhausts (statement ctx room ts) := by
    intro room h ctx ts
    rw [statement_of_lt ctx h]
    exact exhausts_fail ctx ts
  refine statement_induction
    (P := fun room => Viable ctx₀ room size fun ctx room => statement ctx room) ?_ ?_ room
  · exact fun room h => viable_of_exhausts (hnone room h ctx₀) statement_startable
  · intro room hinner hmember
    exact (sentences_viable hsize hinner hmember).deepen (fun _ _ _ => rfl) hnone
      statement_startable

end

end Lox.Grammar
