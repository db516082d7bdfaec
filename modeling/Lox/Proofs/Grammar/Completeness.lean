import Lox.Proofs.Grammar.Soundness

/-!
# What the grammar derives is read

A parser that meets the tokens of a derivation returns its tree and leaves what follows, provided
that what follows cannot extend it. Running out of room is kept apart in every statement, so that
the result holds for each limit on the nesting; the last section shows which limit is never met.
-/

namespace Lox.Grammar

def Exhausts {α : Type} (r : Except Failure α) : Prop :=
  ∃ failure, r = .error failure ∧ failure.fault = .tooMuchNesting

/-- The parser returns the result and what is left, unless the nesting is too deep. -/
def Reaches {α : Type} (r : Except Failure (α × List Token)) (a : α) (rest : List Token) : Prop :=
  r = .ok (a, rest) ∨ Exhausts r

theorem Exhausts.bind {α β : Type} {r : Except Failure α} (h : Exhausts r)
    (next : α → Except Failure β) : Exhausts (r >>= next) := by
  obtain ⟨failure, rfl, hfault⟩ := h
  exact ⟨failure, rfl, hfault⟩

theorem Reaches.bind {α β : Type} {r : Except Failure (α × List Token)} {a : α} {b : β}
    {rest left : List Token} {next : α × List Token → Except Failure (β × List Token)}
    (h : Reaches r a rest) (hnext : Reaches (next (a, rest)) b left) :
    Reaches (r >>= next) b left := by
  rcases h with rfl | h
  · exact hnext
  · exact Or.inr (h.bind next)

theorem Reaches.ok {α : Type} {a : α} {rest : List Token} :
    Reaches (.ok (a, rest)) a rest := Or.inl rfl

theorem exhausts_fail {α : Type} (ctx : Context) (ts : List Token) :
    Exhausts (@fail α ctx .tooMuchNesting ts) := ⟨_, rfl, rfl⟩

theorem take_eq_none {wanted : List Kind} {ts : List Token} :
    take? wanted ts = none ↔ ∀ t ∈ ts.head?, t.kind ∉ wanted := by
  cases ts with
  | nil => simp [take?]
  | cons t ts => simp [take?]

theorem take_none_of_subset {few many : List Kind} {ts : List Token} (hsub : few ⊆ many)
    (h : take? many ts = none) : take? few ts = none := by
  rw [take_eq_none] at h ⊢
  exact fun t ht hk => h t ht (hsub hk)

theorem take_cons {wanted : List Kind} {t : Token} {ts : List Token} (h : t.kind ∈ wanted) :
    take? wanted (t :: ts) = some (t, ts) := by
  simp [take?, h]

theorem take_cons_none {wanted : List Kind} {t : Token} {ts : List Token} (h : t.kind ∉ wanted) :
    take? wanted (t :: ts) = none := by
  simp [take?, h]

theorem take_head_none {wanted heads : List Kind} {t : Token} (ht : t.kind ∈ heads)
    (hdisjoint : ∀ kind ∈ heads, kind ∉ wanted) (ts : List Token) :
    take? wanted (t :: ts) = none :=
  take_cons_none (hdisjoint _ ht)

def Level.extensions : Level → List Kind
  | assignment => .equal :: disjunction.operators ++ conjunction.operators ++ equality.operators ++
      comparison.operators ++ sum.operators ++ product.operators
  | disjunction => disjunction.operators ++ conjunction.operators ++ equality.operators ++
      comparison.operators ++ sum.operators ++ product.operators
  | conjunction => conjunction.operators ++ equality.operators ++ comparison.operators ++
      sum.operators ++ product.operators
  | equality => equality.operators ++ comparison.operators ++ sum.operators ++ product.operators
  | comparison => comparison.operators ++ sum.operators ++ product.operators
  | sum => sum.operators ++ product.operators
  | product => product.operators
  | sign | primary => []

theorem Level.operators_subset (level : Level) : level.operators ⊆ level.extensions := by
  cases level <;> decide

theorem Level.tighter_subset (level : Level) : level.tighter.extensions ⊆ level.extensions := by
  cases level <;> decide

theorem Level.operators_disjoint (level : Level) :
    ∀ kind ∈ level.operators, kind ∉ level.tighter.extensions := by
  cases level <;> decide

def parserAt (ctx : Context) (room : Nat) : Level → Parser Expr
  | .assignment => expression ctx room
  | .disjunction => disjunction ctx (signed ctx room)
  | .conjunction => conjunction ctx (signed ctx room)
  | .equality => equality ctx (signed ctx room)
  | .comparison => comparison ctx (signed ctx room)
  | .sum => sum ctx (signed ctx room)
  | .product => product ctx (signed ctx room)
  | .sign => signed ctx room
  | .primary => primary ctx (expression ctx room)

theorem parserAt_tier {level : Level} (hlevel : level.operators ≠ []) (ctx : Context)
    (room : Nat) :
    parserAt ctx room level =
      tier ctx level.operators level.join (parserAt ctx room level.tighter) := by
  cases level with
  | assignment | sign | primary => exact absurd rfl hlevel
  | _ => rfl

/-- The parser of the level reads the expression off the tokens, whatever follows them. -/
def Complete (ctx : Context) (level : Level) (ts : List Token) (e : Expr) : Prop :=
  ∀ room rest, (ts ++ rest).length ≤ ctx.size → take? level.extensions rest = none →
    Reaches (parserAt ctx room level (ts ++ rest)) e rest

/-- Behind the tokens the parser of a tier is about to look for one more operator. -/
def Chained (ctx : Context) (level : Level) (ts : List Token) (e : Expr) : Prop :=
  ∀ room rest, (ts ++ rest).length ≤ ctx.size → take? level.tighter.extensions rest = none →
    (∃ n, rest.length ≤ n ∧ parserAt ctx room level (ts ++ rest) =
      chain level.operators level.join (parserAt ctx room level.tighter) n e rest) ∨
    Exhausts (parserAt ctx room level (ts ++ rest))

theorem Chained.complete {ctx : Context} {level : Level} {ts : List Token} {e : Expr}
    (h : Chained ctx level ts e) : Complete ctx level ts e := by
  intro room rest hsize hrest
  rcases h room rest hsize (take_none_of_subset level.tighter_subset hrest) with ⟨n, -, heq⟩ | h
  · left
    rw [heq]
    cases n with
    | zero => rfl
    | succ n => simp [chain, take_none_of_subset level.operators_subset hrest]
  · exact Or.inr h

theorem Complete.chained {ctx : Context} (level : Level) (hlevel : level.operators ≠ [])
    {ts : List Token} {e : Expr} (h : Complete ctx level.tighter ts e) :
    Chained ctx level ts e := by
  intro room rest hsize hrest
  rw [parserAt_tier hlevel]
  rcases h room rest hsize hrest with heq | hex
  · left
    refine ⟨ctx.size, by simp at hsize; omega, ?_⟩
    simp [tier, heq, bind, Except.bind]
  · exact Or.inr (hex.bind _)

theorem Chained.join {ctx : Context} {level : Level} {ls rs : List Token} {l r : Expr} {op : Token}
    (hop : op.kind ∈ level.operators) (hl : Chained ctx level ls l)
    (hr : Complete ctx level.tighter rs r) :
    Chained ctx level (ls ++ op :: rs) (level.join l op r) := by
  intro room rest hsize hrest
  have hstop : take? level.tighter.extensions (op :: (rs ++ rest)) = none :=
    take_cons_none (level.operators_disjoint _ hop)
  have hsplit : ls ++ op :: rs ++ rest = ls ++ op :: (rs ++ rest) := by simp
  rw [hsplit] at hsize ⊢
  rcases hl room (op :: (rs ++ rest)) hsize hstop with ⟨n, hn, heq⟩ | hex
  · rw [heq]
    obtain ⟨n, rfl⟩ : ∃ m, n = m + 1 := ⟨n - 1, by simp at hn; omega⟩
    simp only [chain, take_cons hop]
    have hlength : (rs ++ rest).length ≤ ctx.size := by simp at hsize ⊢; omega
    rcases hr room rest hlength hrest with hright | hex
    · left
      refine ⟨n, by simp at hn; omega, ?_⟩
      simp [hright, bind, Except.bind]
    · exact Or.inr (hex.bind _)
  · exact Or.inr hex

theorem primary_constant {ctx : Context} {inner : Parser Expr} {t : Token} {v : Value}
    (h : constant? t = some v) (rest : List Token) :
    primary ctx inner (t :: rest) = .ok (.literal v, rest) := by
  unfold constant? at h
  unfold primary
  split at h <;> simp_all

theorem expect_cons {ctx : Context} {kind : Kind} {fault : Fault} {t : Token}
    (h : t.kind = kind) (rest : List Token) :
    Reaches (expect ctx kind fault (t :: rest)) t rest :=
  Or.inl (expect_eq_ok.mpr ⟨rfl, h⟩)

theorem primary_group {ctx : Context} {room : Nat} {left right : Token} {ts rest : List Token}
    {e : Expr} (hleft : left.kind = .leftParen) (hright : right.kind = .rightParen)
    (he : Reaches (expression ctx room (ts ++ right :: rest)) e (right :: rest)) :
    Reaches (primary ctx (expression ctx room) (left :: ts ++ [right] ++ rest)) (.group e)
      rest := by
  have hsplit : left :: ts ++ [right] ++ rest = left :: (ts ++ right :: rest) := by simp
  rw [hsplit]
  simp only [primary, hleft]
  exact he.bind ((expect_cons hright rest).bind .ok)

theorem signed_sign {ctx : Context} {room : Nat} {op : Token} {ts rest : List Token} {e : Expr}
    (hop : op.kind = .bang ∨ op.kind = .minus)
    (he : ∀ room, Reaches (signed ctx room (ts ++ rest)) e rest) :
    Reaches (signed ctx room (op :: ts ++ rest)) (.unary op e) rest := by
  cases room with
  | zero => exact Or.inr (exhausts_fail ctx _)
  | succ room =>
    have htake : take? [.bang, .minus] (op :: (ts ++ rest)) = some (op, ts ++ rest) :=
      take_cons (by simpa using hop)
    simp only [List.cons_append, signed, signedOperand, htake]
    exact (he room).bind .ok

theorem signed_primary {ctx : Context} {room : Nat} {ts rest : List Token} {e : Expr}
    (h : Phrase .primary ts e)
    (he : ∀ room, Reaches (primary ctx (expression ctx room) (ts ++ rest)) e rest) :
    Reaches (signed ctx room (ts ++ rest)) e rest := by
  cases room with
  | zero => exact Or.inr (exhausts_fail ctx _)
  | succ room =>
    obtain ⟨t, us, rfl, ht⟩ := h.head_primary
    have htake : take? [.bang, .minus] (t :: us ++ rest) = none :=
      take_head_none ht (by decide) _
    simp only [signed, signedOperand, htake]
    exact he room

theorem expression_operand {ctx : Context} {room : Nat} {ts rest : List Token} {e : Expr}
    (hrest : take? Level.assignment.extensions rest = none)
    (he : ∀ room, Reaches (disjunction ctx (signed ctx room) (ts ++ rest)) e rest) :
    Reaches (expression ctx room (ts ++ rest)) e rest := by
  rcases expression_cases ctx room with hnone | ⟨m, n, hread⟩
  · rw [hnone]
    exact Or.inr (exhausts_fail ctx _)
  · have htake : take? [.equal] rest = none := take_none_of_subset (by decide) hrest
    rw [hread]
    refine (he m).bind ?_
    simp only [htake]
    exact .ok

/-- The name before the equals sign is read as an expression first, and its tree is then seen to
be no more than a name. -/
theorem expression_assign {ctx : Context} {room : Nat} {name equals : Token}
    {ts rest : List Token} {e : Expr} (hequals : equals.kind = .equal)
    (hname : Complete ctx .disjunction [name] (.var name))
    (hsize : (name :: equals :: ts ++ rest).length ≤ ctx.size)
    (he : ∀ room, Reaches (expression ctx room (ts ++ rest)) e rest) :
    Reaches (expression ctx room (name :: equals :: ts ++ rest)) (.assign name e) rest := by
  rcases expression_cases ctx room with hnone | ⟨m, n, hread⟩
  · rw [hnone]
    exact Or.inr (exhausts_fail ctx _)
  · have hstop : take? Level.disjunction.extensions (equals :: (ts ++ rest)) = none :=
      take_cons_none (by rw [hequals]; decide)
    have htarget := hname m (equals :: (ts ++ rest)) hsize hstop
    have htake : take? [.equal] (equals :: (ts ++ rest)) = some (equals, ts ++ rest) :=
      take_cons (by simp [hequals])
    rw [hread]
    refine htarget.bind ?_
    simp only [htake]
    exact (he n).bind .ok

theorem Complete.disjunction {ctx : Context} {ts : List Token} {e : Expr}
    (h : Complete ctx .sign ts e) : Complete ctx .disjunction ts e := by
  have hproduct := (Complete.chained .product nofun h).complete
  have hsum := (Complete.chained .sum nofun hproduct).complete
  have hcomparison := (Complete.chained .comparison nofun hsum).complete
  have hequality := (Complete.chained .equality nofun hcomparison).complete
  have hconjunction := (Complete.chained .conjunction nofun hequality).complete
  exact (Complete.chained .disjunction nofun hconjunction).complete

theorem name_complete (ctx : Context) {name : Token} (hname : name.kind = .identifier) :
    Complete ctx .primary [name] (.var name) := by
  intro room rest _ _
  left
  simp [parserAt, primary, hname]

theorem name_signed (ctx : Context) {name : Token} (hname : name.kind = .identifier) :
    Complete ctx .sign [name] (.var name) := by
  intro room rest hsize hrest
  exact signed_primary (.name hname) fun room => name_complete ctx hname room rest hsize hrest

theorem Phrase.complete {ctx : Context} {level : Level} {ts : List Token} {e : Expr}
    (h : Phrase level ts e) :
    Complete ctx level ts e ∧ (level.operators ≠ [] → Chained ctx level ts e) := by
  induction h with
  | assign hname hequals _ ih =>
    refine ⟨fun room rest hsize hrest => ?_, fun hne => absurd rfl hne⟩
    refine expression_assign hequals (name_signed ctx hname).disjunction hsize fun room => ?_
    exact ih.1 room rest (by simp at hsize ⊢; omega) hrest
  | join hop _ _ ihl ihr =>
    have hchained := (ihl.2 (List.ne_nil_of_mem hop)).join hop ihr.1
    exact ⟨hchained.complete, fun _ => hchained⟩
  | sign hop _ ih =>
    refine ⟨fun room rest hsize hrest => ?_, fun hne => absurd rfl hne⟩
    refine signed_sign hop fun room => ?_
    exact ih.1 room rest (by simp at hsize ⊢; omega) hrest
  | constant ht =>
    refine ⟨fun room rest _ _ => ?_, fun hne => absurd rfl hne⟩
    exact Or.inl (primary_constant ht rest)
  | name ht => exact ⟨name_complete ctx ht, fun hne => absurd rfl hne⟩
  | group hleft _ hright ih =>
    refine ⟨fun room rest hsize _ => ?_, fun hne => absurd rfl hne⟩
    refine primary_group hleft hright (ih.1 room _ (by simp at hsize ⊢; omega) ?_)
    exact take_cons_none (by rw [hright]; decide)
  | @operand level ts e hlevel he ih =>
    by_cases htier : level.operators = []
    · refine ⟨fun room rest hsize hrest => ?_, fun hne => absurd htier hne⟩
      have hinner := fun room =>
        ih.1 room rest hsize (take_none_of_subset level.tighter_subset hrest)
      cases level with
      | assignment => exact expression_operand hrest hinner
      | sign => exact signed_primary he hinner
      | primary => exact absurd rfl hlevel
      | _ => cases htier
    · have hchained := ih.1.chained level htier
      exact ⟨hchained.complete, fun _ => hchained⟩

theorem expression_complete {ctx : Context} {ts rest : List Token} {e : Expr}
    (h : Phrase .assignment ts e) (room : Nat) (hsize : (ts ++ rest).length ≤ ctx.size)
    (hrest : take? Level.assignment.extensions rest = none) :
    Reaches (expression ctx room (ts ++ rest)) e rest :=
  h.complete.1 room rest hsize hrest

def marks : List Kind := [.semicolon, .rightParen]

theorem take_mark {mark : Token} (h : mark.kind ∈ marks) (rest : List Token) :
    take? Level.assignment.extensions (mark :: rest) = none :=
  take_head_none h (by decide) rest

section

variable {ctx : Context} (room : Nat) {ts rest : List Token}

theorem value_complete {e : Expr} (h : Terminated ts e) (hsize : (ts ++ rest).length ≤ ctx.size) :
    Reaches (value ctx (expression ctx room) (ts ++ rest)) e rest := by
  obtain ⟨he, hsemicolon⟩ := h
  rw [List.append_assoc] at hsize ⊢
  have hstop := take_mark (by rw [hsemicolon]; decide) rest
  exact (expression_complete he room hsize hstop).bind ((expect_cons hsemicolon rest).bind .ok)

theorem expressionStatement_complete {e : Expr} (h : Terminated ts e)
    (hsize : (ts ++ rest).length ≤ ctx.size) :
    Reaches (expressionStatement ctx (expression ctx room) (ts ++ rest)) (.expression e) rest :=
  (value_complete room h hsize).bind .ok

theorem variableDeclaration_complete {s : Stmt} (h : Variable ts s)
    (hsize : (ts ++ rest).length ≤ ctx.size) :
    Reaches (variableDeclaration ctx (expression ctx room) (ts ++ rest)) s rest := by
  cases h with
  | @bare name semicolon hname hsemicolon =>
    change Reaches (variableDeclaration ctx _ (name :: semicolon :: rest)) _ _
    refine (expect_cons hname _).bind ?_
    dsimp only
    rw [take_cons_none (by simp [hsemicolon])]
    exact (expect_cons hsemicolon rest).bind .ok
  | @initialized name equals us e hname hequals he =>
    obtain @⟨us, semicolon, _, he, hsemicolon⟩ := he
    change Reaches (variableDeclaration ctx _ (name :: equals :: (us ++ [semicolon] ++ rest))) _ _
    refine (expect_cons hname _).bind ?_
    dsimp only
    rw [take_cons (by simp [hequals]), List.append_assoc]
    have hstop := take_mark (by rw [hsemicolon]; decide) rest
    refine (expression_complete he room ?_ hstop).bind ?_
    · simp at hsize ⊢; omega
    · exact (expect_cons hsemicolon rest).bind .ok

theorem optional_complete {stop : Kind} (hstop : stop ∈ marks) {e : Option Expr} (h : Clause ts e)
    {mark : Token} (hmark : mark.kind = stop) (hsize : (ts ++ mark :: rest).length ≤ ctx.size) :
    Reaches (optional stop (expression ctx room) (ts ++ mark :: rest)) e (mark :: rest) := by
  cases h with
  | missing =>
    simp only [optional, List.nil_append, take_cons (List.mem_singleton.mpr hmark)]
    exact .ok
  | present he =>
    obtain ⟨t, us, rfl, ht⟩ := he.head
    have htake : take? [stop] (t :: us ++ mark :: rest) = none := by
      refine take_cons_none fun hk => ?_
      rw [List.mem_singleton.mp hk] at ht
      exact absurd hstop ((by decide : ∀ kind ∈ expressionStarts, kind ∉ marks) _ ht)
    simp only [optional, htake]
    exact (expression_complete he room hsize (take_mark (hmark ▸ hstop) rest)).bind .ok

theorem loopStart_complete {start : Option Stmt} (h : Start spoken ts start)
    (hsize : (ts ++ rest).length ≤ ctx.size) :
    Reaches (loopStart ctx (expression ctx room) (ts ++ rest)) start rest := by
  cases h with
  | missing hsemicolon =>
    simp only [loopStart, List.cons_append, List.nil_append,
      take_cons (List.mem_singleton.mpr hsemicolon)]
    exact .ok
  | expression he =>
    obtain ⟨t, us, rfl, ht⟩ := he.head
    have hsemicolon : take? [.semicolon] (t :: us ++ rest) = none := take_head_none ht (by decide) _
    have hvar : take? [.var_] (t :: us ++ rest) = none := take_head_none ht (by decide) _
    simp only [loopStart, hsemicolon, hvar]
    exact (expressionStatement_complete room he hsize).bind .ok
  | @introduced word us _ _ hword hs =>
    have hsemicolon : take? [.semicolon] (word :: us ++ rest) = none :=
      take_cons_none (by simp [hword])
    have hvar : take? [.var_] (word :: us ++ rest) = some (word, us ++ rest) :=
      take_cons (by simp [hword])
    simp only [loopStart, hsemicolon, hvar]
    exact (variableDeclaration_complete room hs (by simp at hsize ⊢; omega)).bind .ok
  | plain hd => cases hd

theorem statement_expression {e : Expr} (h : Terminated ts e)
    (hsize : (ts ++ rest).length ≤ ctx.size) :
    Reaches (statement ctx room (ts ++ rest)) (.expression e) rest := by
  rcases statement_cases ctx room with hnone | ⟨j, k, m, n, hread⟩
  · rw [hnone]
    exact Or.inr (exhausts_fail ctx _)
  · have hplain := expressionStatement_complete k h hsize
    obtain ⟨t, us, rfl, ht⟩ := h.head
    rw [hread]
    dsimp only [List.cons_append, sentence]
    split
    case h_6 => exact hplain
    all_goals next hk => rw [hk] at ht; exact absurd ht (by decide)

theorem statement_print {word : Token} (hword : word.kind = .print_) {e : Expr}
    (h : Terminated ts e) (hsize : (word :: ts ++ rest).length ≤ ctx.size) :
    Reaches (statement ctx room (word :: ts ++ rest)) (.print e) rest := by
  rcases statement_cases ctx room with hnone | ⟨j, k, m, n, hread⟩
  · rw [hnone]
    exact Or.inr (exhausts_fail ctx _)
  · simp only [List.cons_append, hread, sentence, hword]
    exact (value_complete k h (by simp at hsize ⊢; omega)).bind .ok

variable {word left right : Token} {cs : List Token} {c : Expr} {s : Stmt}

theorem statement_loop (hword : word.kind = .while_) (hleft : left.kind = .leftParen)
    (hc : Phrase .assignment cs c) (hright : right.kind = .rightParen)
    (hsize : (word :: left :: cs ++ right :: ts).length ≤ ctx.size)
    (hs : ∀ room, Reaches (statement ctx room ts) s rest) :
    Reaches (statement ctx room (word :: left :: cs ++ right :: ts)) (.loop c s) rest := by
  rcases statement_cases ctx room with hnone | ⟨j, k, m, n, hread⟩
  · rw [hnone]
    exact Or.inr (exhausts_fail ctx _)
  · have hstop := take_mark (by rw [hright]; decide) ts
    simp only [List.cons_append, hread, sentence, hword]
    refine (expect_cons hleft _).bind ?_
    refine (expression_complete hc k (by simp at hsize ⊢; omega) hstop).bind ?_
    refine (expect_cons hright _).bind ?_
    exact (hs m).bind .ok

theorem statement_ifThen (hword : word.kind = .if_) (hleft : left.kind = .leftParen)
    (hc : Phrase .assignment cs c) (hright : right.kind = .rightParen)
    (hsize : (word :: left :: cs ++ right :: ts).length ≤ ctx.size)
    (hs : ∀ room, Reaches (statement ctx room ts) s rest) (hrest : take? [.else_] rest = none) :
    Reaches (statement ctx room (word :: left :: cs ++ right :: ts)) (.ifThen c s) rest := by
  rcases statement_cases ctx room with hnone | ⟨j, k, m, n, hread⟩
  · rw [hnone]
    exact Or.inr (exhausts_fail ctx _)
  · have hstop := take_mark (by rw [hright]; decide) ts
    simp only [List.cons_append, hread, sentence, hword]
    refine (expect_cons hleft _).bind ?_
    refine (expression_complete hc k (by simp at hsize ⊢; omega) hstop).bind ?_
    refine (expect_cons hright _).bind ?_
    refine (hs m).bind ?_
    simp only [hrest]
    exact .ok

theorem statement_ifElse (hword : word.kind = .if_) (hleft : left.kind = .leftParen)
    (hc : Phrase .assignment cs c) (hright : right.kind = .rightParen)
    (hsize : (word :: left :: cs ++ right :: ts).length ≤ ctx.size) {otherwise : Token}
    {us : List Token} {t : Stmt} (helse : otherwise.kind = .else_)
    (hs : ∀ room, Reaches (statement ctx room ts) s (otherwise :: us))
    (ht : ∀ room, Reaches (statement ctx room us) t rest) :
    Reaches (statement ctx room (word :: left :: cs ++ right :: ts)) (.ifElse c s t) rest := by
  rcases statement_cases ctx room with hnone | ⟨j, k, m, n, hread⟩
  · rw [hnone]
    exact Or.inr (exhausts_fail ctx _)
  · have hstop := take_mark (by rw [hright]; decide) ts
    simp only [List.cons_append, hread, sentence, hword]
    refine (expect_cons hleft _).bind ?_
    refine (expression_complete hc k (by simp at hsize ⊢; omega) hstop).bind ?_
    refine (expect_cons hright _).bind ?_
    refine (hs m).bind ?_
    simp only [take_cons (List.mem_singleton.mpr helse)]
    exact (ht m).bind .ok

theorem statement_forLoop {semicolon : Token} {ss es : List Token} {start : Option Stmt}
    {condition step : Option Expr} (hword : word.kind = .for_) (hleft : left.kind = .leftParen)
    (hstart : Start spoken ss start) (hc : Clause cs condition)
    (hsemicolon : semicolon.kind = .semicolon) (he : Clause es step)
    (hright : right.kind = .rightParen)
    (hsize : (word :: left :: ss ++ cs ++ semicolon :: es ++ right :: ts).length ≤ ctx.size)
    (hs : ∀ room, Reaches (statement ctx room ts) s rest) :
    Reaches (statement ctx room (word :: left :: ss ++ cs ++ semicolon :: es ++ right :: ts))
      (unrolled start condition step s) rest := by
  rcases statement_cases ctx room with hnone | ⟨j, k, m, n, hread⟩
  · rw [hnone]
    exact Or.inr (exhausts_fail ctx _)
  · have hsplit : word :: left :: ss ++ cs ++ semicolon :: es ++ right :: ts =
        word :: left :: (ss ++ (cs ++ semicolon :: (es ++ right :: ts))) := by simp
    rw [hsplit] at hsize ⊢
    rw [← forLoop_eq_unrolled]
    simp only [hread, sentence, hword]
    refine (expect_cons hleft _).bind ?_
    refine (loopStart_complete j hstart (by simp at hsize ⊢; omega)).bind ?_
    refine (optional_complete k (by decide) hc hsemicolon (by simp at hsize ⊢; omega)).bind ?_
    refine (expect_cons hsemicolon _).bind ?_
    refine (optional_complete k (by decide) he hright (by simp at hsize ⊢; omega)).bind ?_
    refine (expect_cons hright _).bind ?_
    exact (hs m).bind .ok

theorem statement_block {body : List Stmt} (hleft : left.kind = .leftBrace)
    (hbody : ∀ room, Reaches (blockBody ctx (entry ctx room) ctx.size ts) body rest) :
    Reaches (statement ctx room (left :: ts)) (.block body) rest := by
  rcases statement_cases ctx room with hnone | ⟨j, k, m, n, hread⟩
  · rw [hnone]
    exact Or.inr (exhausts_fail ctx _)
  · simp only [hread, sentence, hleft]
    exact (hbody n).bind .ok

end

/-- No program and no block goes on with an `else`, so the last statement before it is whole. -/
theorem Program.no_else {d : Dialect} {ts : List Token} {body : List Stmt} (h : Program d ts body)
    {rest : List Token} (hrest : take? [.else_] rest = none) :
    take? [.else_] (ts ++ rest) = none := by
  rcases h.head with rfl | ⟨t, us, rfl, ht⟩
  · exact hrest
  · exact take_head_none ht (by decide) _

theorem entry_statement {ctx : Context} {room : Nat} {d : Dialect} {ending : Ending}
    {ts : List Token} {s : Stmt} (h : Statement d ending ts s) (rest : List Token) :
    entry ctx room (ts ++ rest) = statement ctx room (ts ++ rest) := by
  obtain ⟨t, us, rfl, ht⟩ := h.head
  have htake : take? [.var_] (t :: us ++ rest) = none := take_head_none ht (by decide) _
  simp only [entry, declaration, htake]

theorem entry_variable {ctx : Context} {room : Nat} {word : Token} {ts rest : List Token}
    {s : Stmt} (hword : word.kind = .var_) (hs : Variable ts s)
    (hsize : (word :: ts ++ rest).length ≤ ctx.size) :
    Reaches (entry ctx room (word :: ts ++ rest)) s rest := by
  have htake : take? [.var_] (word :: ts ++ rest) = some (word, ts ++ rest) :=
    take_cons (List.mem_singleton.mpr hword)
  simp only [entry, declaration, htake]
  exact variableDeclaration_complete (room - 1) hs (by simp at hsize ⊢; omega)

theorem blockBody_cons {ctx : Context} {item : Parser Stmt} {n : Nat} {ts us rest : List Token}
    {s : Stmt} {body : List Stmt} (hhead : ∃ t vs, ts = t :: vs ∧ t.kind ≠ .rightBrace)
    (hs : Reaches (item ts) s us) (hbody : Reaches (blockBody ctx item n us) body rest) :
    Reaches (blockBody ctx item (n + 1) ts) (s :: body) rest := by
  obtain ⟨t, vs, rfl, ht⟩ := hhead
  simp only [blockBody, ht, ↓reduceIte]
  exact hs.bind (hbody.bind .ok)

mutual

theorem Statement.complete {ctx : Context} {ending : Ending} {ts : List Token} {s : Stmt} :
    Statement spoken ending ts s → ∀ (room : Nat) (rest : List Token),
      (ts ++ rest).length ≤ ctx.size → (ending = .dangling → take? [.else_] rest = none) →
      Reaches (statement ctx room (ts ++ rest)) s rest
  | .expression he, room, _, hsize, _ => statement_expression room he hsize
  | .print hword he, room, _, hsize, _ => statement_print room hword he hsize
  | .ifThen hword hleft hc hright hs, room, rest, hsize, hrest => by
    rw [List.append_assoc, List.cons_append] at hsize ⊢
    refine statement_ifThen room hword hleft hc hright hsize (fun room => ?_) (hrest rfl)
    exact hs.complete room rest (by simp at hsize ⊢; omega) fun _ => hrest rfl
  | .ifElse hword hleft hc hright hs hinner helse ht, room, rest, hsize, hrest => by
    rw [List.append_assoc, List.append_assoc, List.cons_append, List.cons_append] at hsize ⊢
    refine statement_ifElse room hword hleft hc hright hsize helse
      (fun room => hs.complete room _ (by simp at hsize ⊢; omega) fun hdangling => ?_)
      fun room => ht.complete room rest (by simp at hsize ⊢; omega) hrest
    rw [hinner rfl] at hdangling
    cases hdangling
  | .loop hword hleft hc hright hs, room, rest, hsize, hrest => by
    rw [List.append_assoc, List.cons_append] at hsize ⊢
    refine statement_loop room hword hleft hc hright hsize fun room => ?_
    exact hs.complete room rest (by simp at hsize ⊢; omega) hrest
  | .forLoop hword hleft hstart hc hsemicolon he hright hs, room, rest, hsize, hrest => by
    rw [List.append_assoc, List.cons_append] at hsize ⊢
    refine statement_forLoop room hword hleft hstart hc hsemicolon he hright hsize fun room => ?_
    exact hs.complete room rest (by simp at hsize ⊢; omega) hrest
  | .block hleft hbody hright, room, rest, hsize, _ => by
    rw [List.append_assoc, List.cons_append] at hsize ⊢
    refine statement_block room hleft fun room => ?_
    exact hbody.complete room ctx.size hright rest (by simp at hsize ⊢; omega) (Nat.le_refl _)

theorem Program.complete {ctx : Context} {ts : List Token} {body : List Stmt} :
    Program spoken ts body → ∀ (room n : Nat) {right : Token}, right.kind = .rightBrace →
      ∀ rest : List Token, (ts ++ right :: rest).length ≤ n → n ≤ ctx.size →
      Reaches (blockBody ctx (entry ctx room) n (ts ++ right :: rest)) body rest
  | .nil, _, 0, _, _, _, hsize, _ => by simp at hsize
  | .nil, room, n + 1, right, hright, rest, _, _ => by
    left
    simp [blockBody, hright]
  | .declaration hword hs hrest, room, 0, _, _, _, hsize, _ => by simp at hsize
  | .declaration hword hs hrest, room, n + 1, right, hright, rest, hsize, hn => by
    rw [List.append_assoc] at hsize ⊢
    refine blockBody_cons ⟨_, _, rfl, by simp [hword]⟩
      (entry_variable hword hs (by omega)) ?_
    exact hrest.complete room n hright rest (by simp at hsize ⊢; omega) (by omega)
  | .statement hs hrest, room, 0, _, _, _, hsize, _ => by simp at hsize
  | .statement hs hrest, room, n + 1, right, hright, rest, hsize, hn => by
    rw [List.append_assoc] at hsize ⊢
    obtain ⟨t, us, hts, ht⟩ := hs.head
    have hstop := hrest.no_else (take_cons_none (by simp [hright]) : take? _ (right :: rest) = none)
    refine blockBody_cons ⟨t, _, by rw [hts]; rfl, fun hk => ?_⟩ ?_
      (hrest.complete room n hright rest ?_ (by omega))
    · rw [hk] at ht
      exact absurd ht (by decide)
    · rw [entry_statement hs]
      exact hs.complete room _ (by omega) fun _ => hstop
    · rw [hts] at hsize
      simp at hsize ⊢
      omega

end

end Lox.Grammar
