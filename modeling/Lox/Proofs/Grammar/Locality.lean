import Lox.Proofs.Grammar.Exactness

/-!
# What follows does not matter

A parser that has read something off the front of the tokens reads the same when more tokens follow,
at the same room. An expression needs a token behind it to show where it ends. A statement ends in
a token of its own, and only an `else` could be taken for a part of it. So programs can be joined.
-/

namespace Lox.Grammar

/-- A result with `used` tokens fewer than `k` left, at least, is also the second result but for
`more` tokens behind what is left, if `seen` tokens are. -/
def Ahead {α : Type} (more : List Token) (used seen k : Nat)
    (r r' : Except Failure (α × List Token)) : Prop :=
  ∀ a rest, r = .ok (a, rest) →
    rest.length + used ≤ k ∧ (seen ≤ rest.length → r' = .ok (a, rest ++ more))

/-- What the first parser reads off at most `size` tokens, the second reads with `more` behind. -/
def Local {α : Type} (size : Nat) (more : List Token) (used seen : Nat) (p p' : Parser α) : Prop :=
  ∀ ts : List Token, ts.length ≤ size →
    Ahead more used seen ts.length (p ts) (p' (ts ++ more))

section

variable {α β : Type} {more : List Token} {used seen k : Nat}

theorem Ahead.error {failure : Failure} {r' : Except Failure (α × List Token)} :
    Ahead more used seen k (.error failure) r' := nofun

theorem Ahead.ok {a : α} {rest : List Token} (h : rest.length + used ≤ k) :
    Ahead more used seen k (.ok (a, rest)) (.ok (a, rest ++ more)) := by
  intro b left heq
  cases heq
  exact ⟨h, fun _ => rfl⟩

theorem Ahead.mono {r r' : Except Failure (α × List Token)} {j : Nat}
    (h : Ahead more used seen j r r') (hk : j ≤ k) : Ahead more used seen k r r' := by
  intro a rest heq
  obtain ⟨hlength, hsame⟩ := h a rest heq
  exact ⟨Nat.le_trans hlength hk, hsame⟩

theorem Ahead.unseen {r r' : Except Failure (α × List Token)} (h : Ahead more 1 0 k r r') :
    Ahead more 0 1 k r r' := by
  intro a rest heq
  obtain ⟨hlength, hsame⟩ := h a rest heq
  exact ⟨Nat.le_of_succ_le hlength, fun _ => hsame (Nat.zero_le _)⟩

theorem Ahead.loosen {r r' : Except Failure (α × List Token)} (h : Ahead more 1 0 k r r') :
    Ahead more 0 0 k r r' := by
  intro a rest heq
  obtain ⟨hlength, hsame⟩ := h a rest heq
  exact ⟨Nat.le_of_succ_le hlength, hsame⟩

theorem Ahead.of_nil {r r' : Except Failure (α × List Token)} (h : Ahead more used seen 0 r r')
    (hpos : 0 < used + seen) (r'' : Except Failure (α × List Token)) :
    Ahead more used seen 0 r r'' := by
  intro a rest heq
  obtain ⟨hlength, -⟩ := h a rest heq
  exact ⟨hlength, fun hrest => by omega⟩

section

variable {r r' : Except Failure (α × List Token)}
  {next next' : α × List Token → Except Failure (β × List Token)}

/-- The first part of a sequence has to see no more than what the second takes and sees. -/
theorem Ahead.bind {used₁ seen₁ used₂ : Nat} (hseen : seen₁ ≤ used₂ + seen)
    (hused : used ≤ used₁ + used₂) (h : Ahead more used₁ seen₁ k r r')
    (hnext : ∀ a mid, mid.length + used₁ ≤ k →
      Ahead more used₂ seen mid.length (next (a, mid)) (next' (a, mid ++ more))) :
    Ahead more used seen k (r >>= next) (r' >>= next') := by
  intro b rest heq
  obtain ⟨⟨a, mid⟩, hfirst, hsecond⟩ := ok_of_bind heq
  obtain ⟨hmid, hsame⟩ := h a mid hfirst
  obtain ⟨hrest, hlater⟩ := hnext a mid hmid b rest hsecond
  refine ⟨by omega, fun hleft => ?_⟩
  rw [hsame (by omega)]
  exact hlater hleft

theorem Ahead.bind_seeing (h : Ahead more 0 1 k r r')
    (hnext : ∀ a mid, mid.length ≤ k →
      Ahead more 0 1 mid.length (next (a, mid)) (next' (a, mid ++ more))) :
    Ahead more 0 1 k (r >>= next) (r' >>= next') :=
  Ahead.bind (Nat.le_refl _) (Nat.le_refl _) h hnext

theorem Ahead.bind_taking (h : Ahead more 0 1 k r r')
    (hnext : ∀ a mid, mid.length ≤ k →
      Ahead more 1 0 mid.length (next (a, mid)) (next' (a, mid ++ more))) :
    Ahead more 1 0 k (r >>= next) (r' >>= next') :=
  Ahead.bind (Nat.le_refl _) (Nat.le_refl _) h hnext

theorem Ahead.taken_bind (h : Ahead more 1 0 k r r')
    (hnext : ∀ a mid, mid.length < k →
      Ahead more 0 0 mid.length (next (a, mid)) (next' (a, mid ++ more))) :
    Ahead more 1 0 k (r >>= next) (r' >>= next') :=
  Ahead.bind (Nat.le_refl _) (Nat.le_refl _) h hnext

end

end

theorem expect_local (size : Nat) (more : List Token) (ctx ctx' : Context) (kind : Kind)
    (fault : Fault) : Local size more 1 0 (expect ctx kind fault) (expect ctx' kind fault) := by
  intro ts _ t rest h
  obtain ⟨rfl, hkind⟩ := expect_eq_ok.mp h
  exact ⟨Nat.le_refl _, fun _ => expect_eq_ok.mpr ⟨rfl, hkind⟩⟩

section

variable {more : List Token} {ctx ctx' : Context} (hsize : ctx.size ≤ ctx'.size)

section

variable {operand operand' : Parser Expr} (hoperand : Local ctx.size more 0 1 operand operand')

include hoperand in
theorem chain_ahead (operators : List Kind) (join : Expr → Token → Expr → Expr) {n n' : Nat}
    (hn : n ≤ n') (left : Expr) {ts : List Token} (hts : ts.length ≤ n)
    (hctx : ts.length ≤ ctx.size) :
    Ahead more 0 1 ts.length (chain operators join operand n left ts)
      (chain operators join operand' n' left (ts ++ more)) := by
  induction n generalizing n' left ts with
  | zero =>
    obtain rfl := List.length_eq_zero_iff.mp (Nat.le_zero.mp hts)
    exact (Ahead.ok (Nat.le_refl _)).of_nil Nat.one_pos _
  | succ n ih =>
    obtain ⟨n', rfl⟩ : ∃ m, n' = m + 1 := ⟨n' - 1, by omega⟩
    cases ts with
    | nil => exact (Ahead.ok (Nat.le_refl _)).of_nil Nat.one_pos _
    | cons op us =>
      simp only [List.length_cons] at hts hctx
      unfold chain
      by_cases hop : op.kind ∈ operators
      · rw [List.cons_append, take_cons hop, take_cons hop]
        refine Ahead.mono (Ahead.bind_seeing (hoperand us (by omega)) fun right mid hmid => ?_)
          (Nat.le_succ _)
        exact ih (by omega) _ (by omega) (by omega)
      · rw [List.cons_append, take_cons_none hop, take_cons_none hop]
        exact Ahead.ok (Nat.le_refl _)

include hsize hoperand

theorem tier_local (operators : List Kind) (join : Expr → Token → Expr → Expr) :
    Local ctx.size more 0 1 (tier ctx operators join operand)
      (tier ctx' operators join operand') := by
  intro ts hts
  refine Ahead.bind_seeing (hoperand ts hts) fun left mid hmid => ?_
  have hlength : mid.length ≤ ctx.size := by omega
  exact chain_ahead hoperand operators join hsize left hlength hlength

theorem disjunction_local :
    Local ctx.size more 0 1 (disjunction ctx operand) (disjunction ctx' operand') := by
  have hproduct : Local ctx.size more 0 1 (product ctx operand) (product ctx' operand') :=
    tier_local hsize hoperand _ _
  have hsum : Local ctx.size more 0 1 (sum ctx operand) (sum ctx' operand') :=
    tier_local hsize hproduct _ _
  have hcomparison : Local ctx.size more 0 1 (comparison ctx operand) (comparison ctx' operand') :=
    tier_local hsize hsum _ _
  have hequality : Local ctx.size more 0 1 (equality ctx operand) (equality ctx' operand') :=
    tier_local hsize hcomparison _ _
  have hconjunction :
      Local ctx.size more 0 1 (conjunction ctx operand) (conjunction ctx' operand') :=
    tier_local hsize hequality _ _
  exact tier_local hsize hconjunction _ _

end

theorem primary_local {inner inner' : Parser Expr} (hinner : Local ctx.size more 0 1 inner inner') :
    Local ctx.size more 0 1 (primary ctx inner) (primary ctx' inner') := by
  intro ts hts
  cases ts with
  | nil => exact Ahead.error
  | cons t us =>
    have hus : us.length + 0 ≤ (t :: us).length := Nat.le_succ _
    unfold primary
    dsimp only [List.cons_append]
    split
    case h_7 =>
      simp only [List.length_cons] at hts
      refine Ahead.mono (Ahead.unseen ?_) (Nat.le_succ _)
      refine Ahead.bind_taking (hinner us (by omega)) fun e mid hmid => ?_
      refine Ahead.taken_bind (expect_local ctx.size more ctx ctx' _ _ mid (by omega)) ?_
      exact fun _ _ _ => Ahead.ok (Nat.le_refl _)
    case h_8 => exact Ahead.error
    all_goals exact Ahead.ok hus

include hsize

theorem assignment_local {operand operand' next next' : Parser Expr}
    (hoperand : Local ctx.size more 0 1 operand operand')
    (hnext : Local ctx.size more 0 1 next next') :
    Local ctx.size more 0 1 (assignment ctx operand next) (assignment ctx' operand' next') := by
  intro ts hts
  refine Ahead.bind_seeing (disjunction_local hsize hoperand ts hts) fun target mid hmid => ?_
  dsimp only
  cases mid with
  | nil => exact (Ahead.ok (Nat.le_refl _)).of_nil Nat.one_pos _
  | cons equals us =>
    simp only [List.length_cons] at hmid
    by_cases hequals : equals.kind ∈ [Kind.equal]
    · rw [List.cons_append, take_cons hequals, take_cons hequals]
      refine Ahead.mono (Ahead.bind_seeing (hnext us (by omega)) fun value rest hrest => ?_)
        (Nat.le_succ _)
      dsimp only
      unfold assignTo
      split
      · exact Ahead.ok (Nat.le_refl _)
      · exact Ahead.error
    · rw [List.cons_append, take_cons_none hequals, take_cons_none hequals]
      exact Ahead.ok (Nat.le_refl _)

omit hsize in
theorem signedOperand_local {next next' inner inner' : Parser Expr}
    (hnext : Local ctx.size more 0 1 next next') (hinner : Local ctx.size more 0 1 inner inner') :
    Local ctx.size more 0 1 (signedOperand ctx next inner) (signedOperand ctx' next' inner') := by
  intro ts hts
  have hprimary := @primary_local _ ctx ctx' _ _ hinner
  unfold signedOperand
  cases ts with
  | nil => exact (hprimary [] hts).of_nil Nat.one_pos _
  | cons op us =>
    by_cases hop : op.kind ∈ [Kind.bang, .minus]
    · rw [List.cons_append, take_cons hop, take_cons hop]
      simp only [List.length_cons] at hts
      refine Ahead.mono (Ahead.bind_seeing (hnext us (by omega)) fun right rest hrest => ?_)
        (Nat.le_succ _)
      exact Ahead.ok (Nat.le_refl _)
    · rw [List.cons_append, take_cons_none hop, take_cons_none hop]
      exact hprimary _ hts

theorem expression_signed_local (room : Nat) :
    Local ctx.size more 0 1 (expression ctx room) (expression ctx' room) ∧
      Local ctx.size more 0 1 (signed ctx room) (signed ctx' room) := by
  refine expression_induction
    (P := fun room => Local ctx.size more 0 1 (expression ctx room) (expression ctx' room))
    (Q := fun room => Local ctx.size more 0 1 (signed ctx room) (signed ctx' room)) ?_ ?_ ?_ ?_ room
  · intro room h
    rw [expression_of_lt ctx h]
    exact fun _ _ => Ahead.error
  · exact fun room hsigned hexpression => assignment_local hsize hsigned hexpression
  · exact fun _ _ => Ahead.error
  · exact fun room hsigned hexpression => signedOperand_local hsigned hexpression

theorem expression_local (room : Nat) :
    Local ctx.size more 0 1 (expression ctx room) (expression ctx' room) :=
  (expression_signed_local hsize room).1

end

section

variable {size : Nat} {more : List Token} {ctx ctx' : Context} {item item' : Parser Expr}
  (hitem : Local size more 0 1 item item')

include hitem

theorem value_local : Local size more 1 0 (value ctx item) (value ctx' item') := by
  intro ts hts
  refine Ahead.bind_taking (hitem ts hts) fun e us hus => ?_
  refine Ahead.taken_bind (expect_local size more ctx ctx' _ _ us (by omega)) fun _ vs _ => ?_
  exact Ahead.ok (Nat.le_refl _)

theorem expressionStatement_local :
    Local size more 1 0 (expressionStatement ctx item) (expressionStatement ctx' item') := by
  intro ts hts
  exact Ahead.taken_bind (value_local hitem ts hts) fun _ us _ => Ahead.ok (Nat.le_refl _)

theorem printStatement_local :
    Local size more 1 0 (printStatement ctx item) (printStatement ctx' item') := by
  intro ts hts
  exact Ahead.taken_bind (value_local hitem ts hts) fun _ us _ => Ahead.ok (Nat.le_refl _)

theorem optional_local (stop : Kind) :
    Local size more 0 1 (optional stop item) (optional stop item') := by
  intro ts hts
  have hpresent : Ahead more 0 1 ts.length (item ts >>= fun r => pure (some r.1, r.2))
      (item' (ts ++ more) >>= fun r => pure (some r.1, r.2)) :=
    Ahead.bind_seeing (hitem ts hts) fun _ us _ => Ahead.ok (Nat.le_refl _)
  unfold optional
  cases ts with
  | nil => exact hpresent.of_nil Nat.one_pos _
  | cons t us =>
    by_cases ht : t.kind ∈ [stop]
    · rw [List.cons_append, take_cons ht, take_cons ht]
      exact Ahead.ok (Nat.le_refl _)
    · rw [List.cons_append, take_cons_none ht, take_cons_none ht]
      exact hpresent

theorem variableDeclaration_local :
    Local size more 1 0 (variableDeclaration ctx item) (variableDeclaration ctx' item') := by
  intro ts hts
  have hlast : ∀ (name : Token) (initial : Expr) (us : List Token), us.length ≤ size →
      Ahead more 1 0 us.length
        (expect ctx .semicolon .semicolonAfterDeclaration us >>= fun r =>
          pure (Stmt.declare name initial, r.2))
        (expect ctx' .semicolon .semicolonAfterDeclaration (us ++ more) >>= fun r =>
          pure (Stmt.declare name initial, r.2)) := fun _ _ us hus =>
    Ahead.taken_bind (expect_local size more ctx ctx' _ _ us hus) fun _ vs _ =>
      Ahead.ok (Nat.le_refl _)
  refine Ahead.taken_bind (expect_local size more ctx ctx' _ _ ts hts) fun name us hus => ?_
  refine Ahead.loosen ?_
  dsimp only
  cases us with
  | nil => exact (hlast name (.literal .nil) [] (Nat.zero_le _)).of_nil Nat.one_pos _
  | cons equals vs =>
    simp only [List.length_cons] at hus
    by_cases hequals : equals.kind ∈ [Kind.equal]
    · rw [List.cons_append, take_cons hequals, take_cons hequals]
      refine Ahead.mono (Ahead.bind_taking (hitem vs (by omega)) fun initial ws hws => ?_)
        (Nat.le_succ _)
      exact hlast name initial ws (by omega)
    · rw [List.cons_append, take_cons_none hequals, take_cons_none hequals]
      exact hlast name (.literal .nil) _ (by simp only [List.length_cons]; omega)

theorem loopStart_local : Local size more 1 0 (loopStart ctx item) (loopStart ctx' item') := by
  intro ts hts
  have hplain : Ahead more 1 0 ts.length
      (expressionStatement ctx item ts >>= fun r => pure (some r.1, r.2))
      (expressionStatement ctx' item' (ts ++ more) >>= fun r => pure (some r.1, r.2)) :=
    Ahead.taken_bind (expressionStatement_local hitem ts hts) fun _ us _ =>
      Ahead.ok (Nat.le_refl _)
  unfold loopStart
  cases ts with
  | nil => exact hplain.of_nil Nat.one_pos _
  | cons t us =>
    simp only [List.length_cons] at hts
    by_cases hsemicolon : t.kind ∈ [Kind.semicolon]
    · rw [List.cons_append, take_cons hsemicolon, take_cons hsemicolon]
      exact Ahead.ok (Nat.le_refl _)
    · rw [List.cons_append, take_cons_none hsemicolon, take_cons_none hsemicolon]
      by_cases hvar : t.kind ∈ [Kind.var_]
      · rw [take_cons hvar, take_cons hvar]
        refine Ahead.mono (Ahead.taken_bind (variableDeclaration_local hitem us (by omega))
          fun s vs hvs => ?_) (Nat.le_succ _)
        exact Ahead.ok (Nat.le_refl _)
      · rw [take_cons_none hvar, take_cons_none hvar]
        exact hplain

variable {inner inner' : Parser Stmt} (hinner : Local size more 1 0 inner inner')

include hinner

theorem declaration_local :
    Local size more 1 0 (declaration ctx item inner) (declaration ctx' item' inner') := by
  intro ts hts
  unfold declaration
  cases ts with
  | nil => exact (hinner [] hts).of_nil Nat.one_pos _
  | cons t us =>
    by_cases hvar : t.kind ∈ [Kind.var_]
    · rw [List.cons_append, take_cons hvar, take_cons hvar]
      simp only [List.length_cons] at hts
      exact (variableDeclaration_local hitem us (by omega)).mono (Nat.le_succ _)
    · rw [List.cons_append, take_cons_none hvar, take_cons_none hvar]
      exact hinner _ hts

theorem forStatement_local {first first' : Parser Expr}
    (hfirst : Local size more 0 1 first first') :
    Local size more 1 0 (forStatement ctx first item inner)
      (forStatement ctx' first' item' inner') := by
  intro ts hts
  refine Ahead.taken_bind (expect_local size more ctx ctx' _ _ ts hts) fun _ ts₁ h₁ =>
    Ahead.loosen ?_
  refine Ahead.taken_bind (loopStart_local hfirst ts₁ (by omega)) fun _ ts₂ h₂ => Ahead.loosen ?_
  refine Ahead.bind_taking (optional_local hitem _ ts₂ (by omega)) fun _ ts₃ h₃ => ?_
  refine Ahead.taken_bind (expect_local size more ctx ctx' _ _ ts₃ (by omega)) fun _ ts₄ h₄ =>
    Ahead.loosen ?_
  refine Ahead.bind_taking (optional_local hitem _ ts₄ (by omega)) fun _ ts₅ h₅ => ?_
  refine Ahead.taken_bind (expect_local size more ctx ctx' _ _ ts₅ (by omega)) fun _ ts₆ h₆ =>
    Ahead.loosen ?_
  exact Ahead.taken_bind (hinner ts₆ (by omega)) fun _ ts₇ h₇ => Ahead.ok (Nat.le_refl _)

theorem whileStatement_local :
    Local size more 1 0 (whileStatement ctx item inner) (whileStatement ctx' item' inner') := by
  intro ts hts
  refine Ahead.taken_bind (expect_local size more ctx ctx' _ _ ts hts) fun _ ts₁ h₁ =>
    Ahead.loosen ?_
  refine Ahead.bind_taking (hitem ts₁ (by omega)) fun _ ts₂ h₂ => ?_
  refine Ahead.taken_bind (expect_local size more ctx ctx' _ _ ts₂ (by omega)) fun _ ts₃ h₃ =>
    Ahead.loosen ?_
  exact Ahead.taken_bind (hinner ts₃ (by omega)) fun _ ts₄ h₄ => Ahead.ok (Nat.le_refl _)

/-- The branch of an `if` may be the last thing read: then the `else` to look for is at the head of
what follows. -/
theorem ifStatement_local (hmore : take? [.else_] more = none) :
    Local size more 1 0 (ifStatement ctx item inner) (ifStatement ctx' item' inner') := by
  intro ts hts
  refine Ahead.taken_bind (expect_local size more ctx ctx' _ _ ts hts) fun _ ts₁ h₁ =>
    Ahead.loosen ?_
  refine Ahead.bind_taking (hitem ts₁ (by omega)) fun c ts₂ h₂ => ?_
  refine Ahead.taken_bind (expect_local size more ctx ctx' _ _ ts₂ (by omega)) fun _ ts₃ h₃ =>
    Ahead.loosen ?_
  refine Ahead.taken_bind (hinner ts₃ (by omega)) fun yes ts₄ h₄ => ?_
  dsimp only
  cases ts₄ with
  | nil =>
    rw [List.nil_append, hmore]
    exact Ahead.ok (Nat.le_refl _)
  | cons otherwise us =>
    simp only [List.length_cons] at h₄
    by_cases helse : otherwise.kind ∈ [Kind.else_]
    · rw [List.cons_append, take_cons helse, take_cons helse]
      refine Ahead.mono (Ahead.loosen ?_) (Nat.le_succ _)
      refine Ahead.taken_bind (hinner us (by omega)) fun no vs hvs => ?_
      exact Ahead.ok (Nat.le_refl _)
    · rw [List.cons_append, take_cons_none helse, take_cons_none helse]
      exact Ahead.ok (Nat.le_refl _)

end

theorem blockBody_local {size : Nat} {more : List Token} (ctx ctx' : Context)
    {item item' : Parser Stmt} (hitem : Local size more 1 0 item item') {n n' : Nat}
    (hn : n ≤ n') : Local size more 1 0 (blockBody ctx item n) (blockBody ctx' item' n') := by
  induction n generalizing n' with
  | zero => exact fun _ _ => Ahead.error
  | succ n ih =>
    obtain ⟨n', rfl⟩ : ∃ m, n' = m + 1 := ⟨n' - 1, by omega⟩
    intro ts hts
    cases ts with
    | nil => exact Ahead.error
    | cons t us =>
      have hrest := hitem _ hts
      rw [List.cons_append] at hrest ⊢
      unfold blockBody
      by_cases hbrace : t.kind = .rightBrace
      · rw [if_pos hbrace, if_pos hbrace]
        exact Ahead.ok (Nat.le_refl _)
      · rw [if_neg hbrace, if_neg hbrace]
        refine Ahead.taken_bind hrest fun s vs hvs => Ahead.loosen ?_
        refine Ahead.taken_bind (ih (by omega) vs (by omega)) fun body ws hws => ?_
        exact Ahead.ok (Nat.le_refl _)

section

variable {more : List Token} {ctx ctx' : Context} (hsize : ctx.size ≤ ctx'.size)
  (hmore : take? [.else_] more = none)

include hsize

theorem entry_local_of {room : Nat}
    (h : Local ctx.size more 1 0 (statement ctx room) (statement ctx' room)) :
    Local ctx.size more 1 0 (entry ctx room) (entry ctx' room) :=
  declaration_local (expression_local hsize (room - 1)) h

include hmore

theorem sentence_local {first first' item item' : Parser Expr}
    {inner inner' member member' : Parser Stmt}
    (hfirst : Local ctx.size more 0 1 first first') (hitem : Local ctx.size more 0 1 item item')
    (hinner : Local ctx.size more 1 0 inner inner')
    (hmember : Local ctx.size more 1 0 member member') :
    Local ctx.size more 1 0 (sentence ctx first item inner member)
      (sentence ctx' first' item' inner' member') := by
  intro ts hts
  have hplain := @expressionStatement_local _ _ ctx ctx' _ _ hitem ts hts
  unfold sentence
  cases ts with
  | nil => exact hplain.of_nil Nat.one_pos _
  | cons t us =>
    have hus : us.length ≤ ctx.size := Nat.le_of_succ_le hts
    have hlength : us.length ≤ (t :: us).length := Nat.le_succ _
    dsimp only [List.cons_append]
    split
    · exact (forStatement_local hitem hinner hfirst us hus).mono hlength
    · exact (ifStatement_local hitem hinner hmore us hus).mono hlength
    · exact (printStatement_local hitem us hus).mono hlength
    · exact (whileStatement_local hitem hinner us hus).mono hlength
    · have hbody := blockBody_local ctx ctx' hmember hsize us hus
      refine Ahead.mono (Ahead.taken_bind hbody fun _ vs _ => ?_) hlength
      exact Ahead.ok (Nat.le_refl _)
    · exact hplain

theorem statement_local (room : Nat) :
    Local ctx.size more 1 0 (statement ctx room) (statement ctx' room) := by
  refine statement_induction
    (P := fun room => Local ctx.size more 1 0 (statement ctx room) (statement ctx' room)) ?_ ?_ room
  · intro room h
    rw [statement_of_lt ctx h]
    exact fun _ _ => Ahead.error
  · intro room hinner hmember
    exact sentence_local hsize hmore (expression_local hsize room)
      (expression_local hsize (room + 1)) hinner (entry_local_of hsize hmember)

theorem entry_local (room : Nat) :
    Local ctx.size more 1 0 (entry ctx room) (entry ctx' room) :=
  entry_local_of hsize (statement_local hsize hmore room)

end

theorem declarations_local {more : List Token} {ctx ctx' : Context} (hsize : ctx.size ≤ ctx'.size)
    (hmore : take? [.else_] more = none) {room n n' : Nat} {ts : List Token}
    {program : List Stmt} (hctx : ts.length ≤ ctx.size) (hn : ts.length ≤ n)
    (hn' : (ts ++ more).length ≤ n') (h : declarations ctx room n ts = (program, [])) :
    ∃ m, more.length ≤ m ∧ declarations ctx' room n' (ts ++ more) =
      (program ++ (declarations ctx' room m more).1, (declarations ctx' room m more).2) := by
  have hitem : Local ctx.size more 1 0 (entry ctx room) (entry ctx' room) :=
    entry_local hsize hmore room
  induction n generalizing n' ts program with
  | zero =>
    obtain rfl := List.length_eq_zero_iff.mp (Nat.le_zero.mp hn)
    cases h
    exact ⟨n', hn', rfl⟩
  | succ n ih =>
    cases ts with
    | nil =>
      cases h
      exact ⟨n', hn', rfl⟩
    | cons t us =>
      obtain ⟨n', rfl⟩ : ∃ m, n' = m + 1 := ⟨n' - 1, by simp at hn'; omega⟩
      have hfirst := hitem _ hctx
      unfold declarations at h
      split at h
      · next s rest hs =>
        obtain ⟨hrest, hsame⟩ := hfirst s rest hs
        simp only [List.length_cons, List.length_append, List.cons_append]
          at hctx hn hn' hrest hsame
        rcases hstatements : declarations ctx room n rest with ⟨statements, errors⟩
        rw [hstatements] at h
        cases h
        obtain ⟨m, hm, hlater⟩ := @ih n' _ _ (by omega) (by omega)
          (by simp only [List.length_append]; omega) hstatements
        refine ⟨m, hm, ?_⟩
        simp only [List.cons_append, declarations, hsame (Nat.zero_le _), hlater]
      · split at h <;> cases h

theorem body_append_body (ts us : List Token) : body (body ts ++ us) = body ts ++ body us := by
  have hall : (body ts).all (fun t => decide (t.kind ≠ .eof)) = true := List.all_takeWhile
  exact List.takeWhile_append_of_pos (List.all_eq_true.mp hall)

theorem parseWithin_eq_ok {room : Nat} {ts : List Token} {program : List Stmt} :
    parseWithin room ts = .ok program ↔
      declarations ⟨endLine ts, (body ts).length⟩ room (body ts).length (body ts) =
        (program, []) := by
  unfold parseWithin
  dsimp only
  split
  · next heq => simp [heq]
  · next heq => simp [heq]

/-- Two programs that are each read alone are read as one with the end mark of the first left out,
at the same limit on the nesting. -/
theorem parseWithin_append {room : Nat} {ts us : List Token} {first second : List Stmt}
    (hfirst : parseWithin room ts = .ok first) (hsecond : parseWithin room us = .ok second) :
    parseWithin room (body ts ++ us) = .ok (first ++ second) := by
  have hmore : take? [.else_] (body us) = none := by
    simpa using (parseWithin_sound hsecond).no_else (rfl : take? [.else_] [] = none)
  rw [parseWithin_eq_ok] at hfirst hsecond ⊢
  rw [body_append_body]
  generalize hctx : Context.mk (endLine (body ts ++ us)) (body ts ++ body us).length = ctx
  have hsize : (body ts).length ≤ ctx.size ∧ (body us).length ≤ ctx.size := by
    simp [← hctx]
  obtain ⟨m, hm, hjoined⟩ := declarations_local hsize.1 hmore (Nat.le_refl _) (Nat.le_refl _)
    (Nat.le_refl _) hfirst
  -- The second program is all there is, so that nothing follows it.
  obtain ⟨m', -, hlast⟩ := @declarations_local [] _ _ hsize.2 rfl _ _ m _ _ (Nat.le_refl _)
    (Nat.le_refl _) (by simpa using hm) hsecond
  have hnil : declarations ctx room m' [] = ([], []) := by cases m' <;> rfl
  rw [List.append_nil, hnil, List.append_nil] at hlast
  rw [hjoined, hlast]

def Ended (ts : List Token) : Prop :=
  ∃ us t, ts = us ++ [t] ∧ (t.kind = .semicolon ∨ t.kind = .rightBrace)

theorem Ended.append {ts : List Token} (h : Ended ts) (us : List Token) : Ended (us ++ ts) := by
  obtain ⟨vs, t, rfl, ht⟩ := h
  exact ⟨us ++ vs, t, (List.append_assoc ..).symm, ht⟩

theorem Ended.cons {ts : List Token} (h : Ended ts) (t : Token) : Ended (t :: ts) := h.append [t]

theorem Terminated.ended {ts : List Token} {e : Expr} (h : Terminated ts e) : Ended ts := by
  obtain ⟨-, hsemicolon⟩ := h
  exact ⟨_, _, rfl, Or.inl hsemicolon⟩

theorem Variable.ended {ts : List Token} {s : Stmt} (h : Variable ts s) : Ended ts := by
  cases h with
  | bare _ hsemicolon => exact ⟨[_], _, rfl, Or.inl hsemicolon⟩
  | initialized _ _ he => exact (he.ended.cons _).cons _

theorem Statement.ended {d : Dialect} {ending : Ending} {ts : List Token} {s : Stmt}
    (h : Statement d ending ts s) : Ended ts := by
  cases h with
  | expression he => exact he.ended
  | print _ he => exact he.ended.cons _
  | ifThen _ _ _ _ hs | ifElse _ _ _ _ _ _ _ hs | loop _ _ _ _ hs | forLoop _ _ _ _ _ _ _ hs =>
    have hlast := Statement.ended hs
    exact (hlast.cons _).append _
  | block _ _ hright => exact ⟨_, _, rfl, Or.inr hright⟩
termination_by ts.length
decreasing_by all_goals simp; omega

theorem Program.ended {d : Dialect} {ts : List Token} {program : List Stmt}
    (h : Program d ts program) : ts = [] ∨ Ended ts := by
  cases h with
  | nil => exact Or.inl rfl
  | declaration _ hs hrest =>
    rcases Program.ended hrest with rfl | hended
    · exact Or.inr (by simpa using hs.ended.cons _)
    · exact Or.inr (hended.append _)
  | statement hs hrest =>
    rcases Program.ended hrest with rfl | hended
    · exact Or.inr (by simpa using hs.ended)
    · exact Or.inr (hended.append _)
termination_by program.length

end Lox.Grammar
