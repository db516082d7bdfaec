import Lox.Proofs.Grammar.Derivation

/-!
# What the parser accepts

Each parsing function takes tokens that spell its result off the front of the list. For statements
the tokens left behind matter too: behind a dangling statement there is no `else`, since the `if` at
its end would have taken it.
-/

namespace Lox.Grammar

theorem ok_of_bind {ε α β : Type} {first : Except ε α} {next : α → Except ε β} {b : β}
    (h : first >>= next = .ok b) : ∃ a, first = .ok a ∧ next a = .ok b := by
  cases first with
  | error fault => cases h
  | ok a => exact ⟨a, rfl, h⟩

theorem take_eq_some {wanted : List Kind} {ts rest : List Token} {t : Token} :
    take? wanted ts = some (t, rest) ↔ ts = t :: rest ∧ t.kind ∈ wanted := by
  cases ts with
  | nil => simp [take?]
  | cons u us =>
    simp only [take?]
    split
    · constructor
      · intro h; cases h; exact ⟨rfl, ‹_›⟩
      · rintro ⟨h, -⟩; cases h; rfl
    · constructor
      · intro h; cases h
      · rintro ⟨h, hk⟩; cases h; contradiction

theorem expect_eq_ok {ctx : Context} {kind : Kind} {fault : Fault} {ts rest : List Token}
    {t : Token} : expect ctx kind fault ts = .ok (t, rest) ↔ ts = t :: rest ∧ t.kind = kind := by
  unfold expect
  split
  · next u us h =>
    obtain ⟨rfl, hk⟩ := take_eq_some.mp h
    simp only [List.mem_singleton] at hk
    constructor
    · intro h; cases h; exact ⟨rfl, hk⟩
    · rintro ⟨h, -⟩; cases h; rfl
  · next h =>
    constructor
    · intro h; cases h
    · rintro ⟨rfl, hk⟩
      simp [take?, hk] at h

/-- Whatever the parser takes off the front of the tokens spells what it returns. -/
def Sound {α : Type} (p : Parser α) (spells : List Token → α → Prop) : Prop :=
  ∀ ⦃ts : List Token⦄ ⦃a : α⦄ ⦃rest : List Token⦄, p ts = .ok (a, rest) →
    ∃ used, ts = used ++ rest ∧ spells used a

theorem chain_sound {level : Level} {operand : Parser Expr}
    (hoperand : Sound operand (Phrase level.tighter)) (n : Nat) {ls : List Token} {l : Expr}
    (hl : Phrase level ls l) {ts rest : List Token} {e : Expr}
    (h : chain level.operators level.join operand n l ts = .ok (e, rest)) :
    ∃ used, ts = used ++ rest ∧ Phrase level (ls ++ used) e := by
  induction n generalizing ls l ts with
  | zero =>
    cases h
    exact ⟨[], rfl, by simpa using hl⟩
  | succ n ih =>
    unfold chain at h
    split at h
    · cases h
      exact ⟨[], rfl, by simpa using hl⟩
    · next op us htake =>
      obtain ⟨rfl, hop⟩ := take_eq_some.mp htake
      obtain ⟨⟨r, vs⟩, hright, hnext⟩ := ok_of_bind h
      obtain ⟨rs, rfl, hr⟩ := hoperand hright
      obtain ⟨used, rfl, he⟩ := ih (.join hop hl hr) hnext
      exact ⟨op :: rs ++ used, by simp, by simpa using he⟩

theorem tier_sound (ctx : Context) (level : Level) (hlevel : level ≠ .primary)
    {operand : Parser Expr} (hoperand : Sound operand (Phrase level.tighter)) :
    Sound (tier ctx level.operators level.join operand) (Phrase level) := by
  intro ts e rest h
  obtain ⟨⟨l, us⟩, hleft, hnext⟩ := ok_of_bind h
  obtain ⟨ls, rfl, hl⟩ := hoperand hleft
  obtain ⟨used, rfl, he⟩ := chain_sound hoperand ctx.size (.operand hlevel hl) hnext
  exact ⟨ls ++ used, by simp, he⟩

theorem disjunction_sound (ctx : Context) {operand : Parser Expr}
    (hoperand : Sound operand (Phrase .sign)) :
    Sound (disjunction ctx operand) (Phrase .disjunction) := by
  have hproduct := tier_sound ctx .product nofun hoperand
  have hsum := tier_sound ctx .sum nofun hproduct
  have hcomparison := tier_sound ctx .comparison nofun hsum
  have hequality := tier_sound ctx .equality nofun hcomparison
  have hconjunction := tier_sound ctx .conjunction nofun hequality
  exact tier_sound ctx .disjunction nofun hconjunction

theorem primary_sound {ctx : Context} {inner : Parser Expr}
    (hinner : Sound inner (Phrase .assignment)) : Sound (primary ctx inner) (Phrase .primary) := by
  intro ts e rest h
  unfold primary at h
  split at h
  · cases h
  · next t us =>
    split at h
    · next hk => cases h; exact ⟨[t], rfl, .constant (by simp [constant?, hk])⟩
    · next hk => cases h; exact ⟨[t], rfl, .constant (by simp [constant?, hk])⟩
    · next hk => cases h; exact ⟨[t], rfl, .constant (by simp [constant?, hk])⟩
    · next hk => cases h; exact ⟨[t], rfl, .constant (by simp [constant?, hk])⟩
    · next hk => cases h; exact ⟨[t], rfl, .constant (by simp [constant?, hk])⟩
    · next hk => cases h; exact ⟨[t], rfl, .name hk⟩
    · next hk =>
      obtain ⟨⟨f, vs⟩, hf, hnext⟩ := ok_of_bind h
      obtain ⟨⟨right, ws⟩, hright, hlast⟩ := ok_of_bind hnext
      cases hlast
      obtain ⟨used, rfl, he⟩ := hinner hf
      obtain ⟨rfl, hkind⟩ := expect_eq_ok.mp hright
      exact ⟨t :: used ++ [right], by simp, .group hk he hkind⟩
    · cases h

/-- Nothing but a bare name is spelled by the tokens of a name. -/
theorem Phrase.eq_name {level : Level} {ts : List Token} {name : Token}
    (h : Phrase level ts (.var name)) : ts = [name] ∧ name.kind = .identifier := by
  generalize he : Expr.var name = e at h
  induction h with
  | name ht => cases he; exact ⟨rfl, ht⟩
  | operand _ _ ih => exact ih he
  | @join level =>
    cases level <;> cases he
  | _ => cases he

theorem assignTo_sound {target value e : Expr} {equals : Token} {ls ts rest : List Token}
    (hl : Phrase .disjunction ls target) (hequals : equals.kind = .equal)
    (hv : Phrase .assignment ts value) {us : List Token}
    (h : assignTo target equals value us = .ok (e, rest)) :
    us = rest ∧ Phrase .assignment (ls ++ equals :: ts) e := by
  unfold assignTo at h
  split at h
  · cases h
    obtain ⟨rfl, hname⟩ := hl.eq_name
    exact ⟨rfl, .assign hname hequals hv⟩
  · cases h

theorem assignment_sound (ctx : Context) {operand next : Parser Expr}
    (hoperand : Sound operand (Phrase .sign)) (hnext : Sound next (Phrase .assignment)) :
    Sound (assignment ctx operand next) (Phrase .assignment) := by
  intro ts e rest h
  obtain ⟨⟨target, us⟩, htarget, hbehind⟩ := ok_of_bind h
  obtain ⟨ls, rfl, hl⟩ := disjunction_sound ctx hoperand htarget
  dsimp only at hbehind
  split at hbehind
  · cases hbehind
    exact ⟨ls, rfl, .operand nofun hl⟩
  · next equals vs htake =>
    obtain ⟨rfl, hequals⟩ := take_eq_some.mp htake
    obtain ⟨⟨value, ws⟩, hvalue, hlast⟩ := ok_of_bind hbehind
    obtain ⟨rs, rfl, hv⟩ := hnext hvalue
    obtain ⟨rfl, he⟩ := assignTo_sound hl (List.mem_singleton.mp hequals) hv hlast
    exact ⟨_, by simp, he⟩

theorem signedOperand_sound (ctx : Context) {next inner : Parser Expr}
    (hnext : Sound next (Phrase .sign)) (hinner : Sound inner (Phrase .assignment)) :
    Sound (signedOperand ctx next inner) (Phrase .sign) := by
  intro ts e rest h
  unfold signedOperand at h
  split at h
  · next op us htake =>
    obtain ⟨rfl, hop⟩ := take_eq_some.mp htake
    obtain ⟨⟨right, vs⟩, hright, hlast⟩ := ok_of_bind h
    cases hlast
    obtain ⟨rs, rfl, hr⟩ := hnext hright
    exact ⟨op :: rs, rfl, .sign (by simpa using hop) hr⟩
  · obtain ⟨used, rfl, he⟩ := primary_sound hinner h
    exact ⟨used, rfl, .operand nofun he⟩

theorem fail_sound {α : Type} (ctx : Context) (fault : Fault) (spells : List Token → α → Prop) :
    Sound (fail ctx fault) spells := by
  intro _ _ _ h
  cases h

theorem expression_signed_sound (ctx : Context) (room : Nat) :
    Sound (expression ctx room) (Phrase .assignment) ∧
      Sound (signed ctx room) (Phrase .sign) := by
  refine expression_induction (P := fun room => Sound (expression ctx room) _)
    (Q := fun room => Sound (signed ctx room) _) ?_ ?_ ?_ ?_ room
  · intro room h
    rw [expression_of_lt ctx h]
    exact fail_sound ctx _ _
  · exact fun room hsigned hexpression => assignment_sound ctx hsigned hexpression
  · exact fail_sound ctx _ _
  · exact fun room hsigned hexpression => signedOperand_sound ctx hsigned hexpression

theorem expression_sound (ctx : Context) (room : Nat) :
    Sound (expression ctx room) (Phrase .assignment) :=
  (expression_signed_sound ctx room).1

def spoken : Dialect := ⟨true, true⟩

section

variable {ctx : Context} {item : Parser Expr} (hitem : Sound item (Phrase .assignment))

include hitem

theorem value_sound : Sound (value ctx item) Terminated := by
  intro ts e rest h
  obtain ⟨⟨f, us⟩, hf, hnext⟩ := ok_of_bind h
  obtain ⟨⟨semicolon, vs⟩, hsemicolon, hlast⟩ := ok_of_bind hnext
  cases hlast
  obtain ⟨used, rfl, he⟩ := hitem hf
  obtain ⟨rfl, hkind⟩ := expect_eq_ok.mp hsemicolon
  exact ⟨used ++ [semicolon], by simp, .intro he hkind⟩

theorem optional_sound (stop : Kind) : Sound (optional stop item) Clause := by
  intro ts e rest h
  unfold optional at h
  split at h
  · cases h
    exact ⟨[], rfl, .missing⟩
  · obtain ⟨⟨f, us⟩, hf, hnext⟩ := ok_of_bind h
    cases hnext
    obtain ⟨used, rfl, he⟩ := hitem hf
    exact ⟨used, rfl, .present he⟩

theorem expressionStatement_sound :
    Sound (expressionStatement ctx item)
      (fun ts s => ∃ e, Terminated ts e ∧ s = .expression e) := by
  intro ts s rest h
  obtain ⟨⟨e, us⟩, he, hnext⟩ := ok_of_bind h
  cases hnext
  obtain ⟨used, rfl, hused⟩ := value_sound hitem he
  exact ⟨used, rfl, e, hused, rfl⟩

theorem variableDeclaration_sound : Sound (variableDeclaration ctx item) Variable := by
  intro ts s rest h
  obtain ⟨⟨name, us⟩, hname, hnext⟩ := ok_of_bind h
  obtain ⟨rfl, hkind⟩ := expect_eq_ok.mp hname
  dsimp only at hnext
  split at hnext
  · next equals vs htake =>
    obtain ⟨rfl, hequals⟩ := take_eq_some.mp htake
    obtain ⟨⟨e, ws⟩, he, hnext⟩ := ok_of_bind hnext
    obtain ⟨⟨semicolon, xs⟩, hsemicolon, hlast⟩ := ok_of_bind hnext
    cases hlast
    obtain ⟨rfl, hend⟩ := expect_eq_ok.mp hsemicolon
    obtain ⟨used, rfl, hused⟩ := hitem he
    refine ⟨name :: equals :: (used ++ [semicolon]), by simp, ?_⟩
    exact .initialized hkind (List.mem_singleton.mp hequals) (.intro hused hend)
  · obtain ⟨⟨e, ws⟩, he, hnext⟩ := ok_of_bind hnext
    cases he
    obtain ⟨⟨semicolon, xs⟩, hsemicolon, hlast⟩ := ok_of_bind hnext
    cases hlast
    obtain ⟨rfl, hend⟩ := expect_eq_ok.mp hsemicolon
    exact ⟨[name, semicolon], rfl, .bare hkind hend⟩

theorem loopStart_sound : Sound (loopStart ctx item) (Start spoken) := by
  intro ts start rest h
  unfold loopStart at h
  split at h
  · next semicolon us htake =>
    cases h
    obtain ⟨rfl, hend⟩ := take_eq_some.mp htake
    exact ⟨[semicolon], rfl, .missing (List.mem_singleton.mp hend)⟩
  · split at h
    · next word us htake =>
      obtain ⟨rfl, hword⟩ := take_eq_some.mp htake
      obtain ⟨⟨s, vs⟩, hs, hnext⟩ := ok_of_bind h
      cases hnext
      obtain ⟨used, rfl, hused⟩ := variableDeclaration_sound hitem hs
      exact ⟨word :: used, rfl, .introduced rfl (List.mem_singleton.mp hword) hused⟩
    · obtain ⟨⟨s, vs⟩, hs, hnext⟩ := ok_of_bind h
      cases hnext
      obtain ⟨used, rfl, e, hused, rfl⟩ := expressionStatement_sound hitem hs
      exact ⟨used, rfl, .expression hused⟩

end

structure Loop where
  start : Option Stmt
  condition : Option Expr
  step : Option Expr
  body : Stmt

def Loop.tree (loop : Loop) : Stmt :=
  Stmt.forLoop loop.start loop.condition loop.step loop.body

inductive Loop.Spelled (loop : Loop) (ending : Ending) : List Token → Prop where
  | intro {left semicolon right : Token} {ss cs es us : List Token} (hleft : left.kind = .leftParen)
      (hstart : Start spoken ss loop.start) (hcondition : Clause cs loop.condition)
      (hsemicolon : semicolon.kind = .semicolon) (hstep : Clause es loop.step)
      (hright : right.kind = .rightParen) (hbody : Statement spoken ending us loop.body) :
      loop.Spelled ending (left :: ss ++ cs ++ semicolon :: es ++ right :: us)

theorem forLoop_eq_unrolled (start : Option Stmt) (condition step : Option Expr) (body : Stmt) :
    Stmt.forLoop start condition step body = unrolled start condition step body := by
  cases start <;> cases step <;> rfl

/-- What a parser of statements takes spells what it returns, and no `else` follows that could
have been taken too. -/
def SoundStatement (p : Parser Stmt) : Prop :=
  ∀ ⦃ts : List Token⦄ ⦃s : Stmt⦄ ⦃rest : List Token⦄, p ts = .ok (s, rest) →
    ∃ ending used, ts = used ++ rest ∧ Statement spoken ending used s ∧
      (ending = .dangling → take? [.else_] rest = none)

section

variable {ctx : Context} {item : Parser Expr} {inner : Parser Stmt}
  (hitem : Sound item (Phrase .assignment)) (hinner : SoundStatement inner) {word : Token}

include hitem hinner

theorem forStatement_parts {first : Parser Expr} (hfirst : Sound first (Phrase .assignment))
    {ts rest : List Token} {s : Stmt}
    (h : forStatement ctx first item inner ts = .ok (s, rest)) :
    ∃ (loop : Loop) (ending : Ending) (used : List Token), ts = used ++ rest ∧
      loop.Spelled ending used ∧ s = loop.tree ∧
      (ending = .dangling → take? [.else_] rest = none) := by
  obtain ⟨⟨left, ts₁⟩, pleft, h₁⟩ := ok_of_bind h
  obtain ⟨⟨start, ts₂⟩, pstart, h₂⟩ := ok_of_bind h₁
  obtain ⟨⟨condition, ts₃⟩, pcondition, h₃⟩ := ok_of_bind h₂
  obtain ⟨⟨semicolon, ts₄⟩, psemicolon, h₄⟩ := ok_of_bind h₃
  obtain ⟨⟨step, ts₅⟩, pstep, h₅⟩ := ok_of_bind h₄
  obtain ⟨⟨right, ts₆⟩, pright, h₆⟩ := ok_of_bind h₅
  obtain ⟨⟨body, ts₇⟩, pbody, h₇⟩ := ok_of_bind h₆
  cases h₇
  obtain ⟨rfl, hleft⟩ := expect_eq_ok.mp pleft
  obtain ⟨ss, rfl, hstart⟩ := loopStart_sound hfirst pstart
  obtain ⟨cs, rfl, hcondition⟩ := optional_sound hitem .semicolon pcondition
  obtain ⟨rfl, hsemicolon⟩ := expect_eq_ok.mp psemicolon
  obtain ⟨es, rfl, hstep⟩ := optional_sound hitem .rightParen pstep
  obtain ⟨rfl, hright⟩ := expect_eq_ok.mp pright
  obtain ⟨ending, us, rfl, hbody, hend⟩ := hinner pbody
  refine ⟨⟨start, condition, step, body⟩, ending,
    left :: ss ++ cs ++ semicolon :: es ++ right :: us, by simp, ?_, rfl, hend⟩
  exact .intro hleft hstart hcondition hsemicolon hstep hright hbody

theorem forStatement_sound {first : Parser Expr} (hfirst : Sound first (Phrase .assignment))
    (hword : word.kind = .for_) {ts rest : List Token} {s : Stmt}
    (h : forStatement ctx first item inner ts = .ok (s, rest)) :
    ∃ ending used, ts = used ++ rest ∧ Statement spoken ending (word :: used) s ∧
      (ending = .dangling → take? [.else_] rest = none) := by
  obtain ⟨loop, ending, used, rfl, hspelled, rfl, hend⟩ := forStatement_parts hitem hinner hfirst h
  refine ⟨ending, used, rfl, ?_, hend⟩
  cases hspelled with
  | intro hleft hstart hcondition hsemicolon hstep hright hbody =>
    rw [Loop.tree, forLoop_eq_unrolled]
    exact .forLoop hword hleft hstart hcondition hsemicolon hstep hright hbody

theorem whileStatement_sound (hword : word.kind = .while_) {ts rest : List Token} {s : Stmt}
    (h : whileStatement ctx item inner ts = .ok (s, rest)) :
    ∃ ending used, ts = used ++ rest ∧ Statement spoken ending (word :: used) s ∧
      (ending = .dangling → take? [.else_] rest = none) := by
  obtain ⟨⟨left, ts₁⟩, pleft, h₁⟩ := ok_of_bind h
  obtain ⟨⟨condition, ts₂⟩, pcondition, h₂⟩ := ok_of_bind h₁
  obtain ⟨⟨right, ts₃⟩, pright, h₃⟩ := ok_of_bind h₂
  obtain ⟨⟨body, ts₄⟩, pbody, h₄⟩ := ok_of_bind h₃
  cases h₄
  obtain ⟨rfl, hleft⟩ := expect_eq_ok.mp pleft
  obtain ⟨cs, rfl, hcondition⟩ := hitem pcondition
  obtain ⟨rfl, hright⟩ := expect_eq_ok.mp pright
  obtain ⟨ending, us, rfl, hbody, hend⟩ := hinner pbody
  exact ⟨ending, left :: cs ++ right :: us, by simp,
    .loop hword hleft hcondition hright hbody, hend⟩

theorem ifStatement_sound (hword : word.kind = .if_) {ts rest : List Token} {s : Stmt}
    (h : ifStatement ctx item inner ts = .ok (s, rest)) :
    ∃ ending used, ts = used ++ rest ∧ Statement spoken ending (word :: used) s ∧
      (ending = .dangling → take? [.else_] rest = none) := by
  obtain ⟨⟨left, ts₁⟩, pleft, h₁⟩ := ok_of_bind h
  obtain ⟨⟨condition, ts₂⟩, pcondition, h₂⟩ := ok_of_bind h₁
  obtain ⟨⟨right, ts₃⟩, pright, h₃⟩ := ok_of_bind h₂
  obtain ⟨⟨yes, ts₄⟩, pyes, h₄⟩ := ok_of_bind h₃
  obtain ⟨rfl, hleft⟩ := expect_eq_ok.mp pleft
  obtain ⟨cs, rfl, hcondition⟩ := hitem pcondition
  obtain ⟨rfl, hright⟩ := expect_eq_ok.mp pright
  obtain ⟨between, us, rfl, hyes, hbetween⟩ := hinner pyes
  dsimp only at h₄
  split at h₄
  · next htake =>
    cases h₄
    exact ⟨.dangling, left :: cs ++ right :: us, by simp,
      .ifThen hword hleft hcondition hright hyes, fun _ => htake⟩
  · next otherwise vs htake =>
    obtain ⟨⟨no, ts₅⟩, pno, h₅⟩ := ok_of_bind h₄
    cases h₅
    obtain ⟨ending, ws, rfl, hno, hend⟩ := hinner pno
    -- A first branch that dangles would have taken the `else` itself.
    have hclosed : between = .closed := by
      cases between with
      | closed => rfl
      | dangling =>
        rw [hbetween rfl] at htake
        cases htake
    obtain ⟨rfl, helse⟩ := take_eq_some.mp htake
    exact ⟨ending, left :: cs ++ right :: us ++ otherwise :: ws, by simp,
      .ifElse hword hleft hcondition hright hyes (fun _ => hclosed)
        (List.mem_singleton.mp helse) hno, hend⟩

end

def Declared (ts : List Token) (s : Stmt) : Prop :=
  (∃ word us, ts = word :: us ∧ word.kind = .var_ ∧ Variable us s) ∨
    ∃ ending, Statement spoken ending ts s

theorem Declared.cons {ts us : List Token} {s : Stmt} {body : List Stmt} (h : Declared ts s)
    (hbody : Program spoken us body) : Program spoken (ts ++ us) (s :: body) := by
  rcases h with ⟨word, vs, rfl, hword, hs⟩ | ⟨ending, hs⟩
  · exact .declaration hword hs hbody
  · exact .statement hs hbody

theorem declaration_sound {ctx : Context} {item : Parser Expr} {inner : Parser Stmt}
    (hitem : Sound item (Phrase .assignment)) (hinner : SoundStatement inner) :
    Sound (declaration ctx item inner) Declared := by
  intro ts s rest h
  unfold declaration at h
  split at h
  · next word us htake =>
    obtain ⟨rfl, hword⟩ := take_eq_some.mp htake
    obtain ⟨used, rfl, hs⟩ := variableDeclaration_sound hitem h
    exact ⟨word :: used, rfl, Or.inl ⟨word, used, rfl, List.mem_singleton.mp hword, hs⟩⟩
  · obtain ⟨ending, used, rfl, hs, -⟩ := hinner h
    exact ⟨used, rfl, Or.inr ⟨ending, hs⟩⟩

theorem blockBody_sound {ctx : Context} {item : Parser Stmt} (hitem : Sound item Declared)
    (n : Nat) {ts rest : List Token} {body : List Stmt}
    (h : blockBody ctx item n ts = .ok (body, rest)) :
    ∃ used right, ts = used ++ right :: rest ∧ right.kind = .rightBrace ∧
      Program spoken used body := by
  induction n generalizing ts body with
  | zero => cases h
  | succ n ih =>
    cases ts with
    | nil => cases h
    | cons t ts =>
      unfold blockBody at h
      split at h
      · next hright =>
        cases h
        exact ⟨[], t, rfl, hright, .nil⟩
      · obtain ⟨⟨s, us⟩, hs, hnext⟩ := ok_of_bind h
        obtain ⟨⟨later, vs⟩, hlater, hlast⟩ := ok_of_bind hnext
        cases hlast
        obtain ⟨first, hfirst, hdeclared⟩ := hitem hs
        obtain ⟨used, right, rfl, hright, hused⟩ := ih hlater
        exact ⟨first ++ used, right, by simpa using hfirst, hright, hdeclared.cons hused⟩

theorem sentence_sound (ctx : Context) {first item : Parser Expr} {inner member : Parser Stmt}
    (hfirst : Sound first (Phrase .assignment)) (hitem : Sound item (Phrase .assignment))
    (hinner : SoundStatement inner) (hmember : Sound member Declared) :
    SoundStatement (sentence ctx first item inner member) := by
  intro ts s rest h
  have hplain : expressionStatement ctx item ts = .ok (s, rest) →
      ∃ ending used, ts = used ++ rest ∧ Statement spoken ending used s ∧
        (ending = .dangling → take? [.else_] rest = none) := by
    intro hs
    obtain ⟨used, rfl, e, he, rfl⟩ := expressionStatement_sound hitem hs
    exact ⟨.closed, used, rfl, .expression he, nofun⟩
  unfold sentence at h
  split at h
  · exact hplain h
  · next t us =>
    split at h
    · next hk =>
      obtain ⟨ending, used, rfl, hs⟩ := forStatement_sound hitem hinner hfirst hk h
      exact ⟨ending, t :: used, rfl, hs⟩
    · next hk =>
      obtain ⟨ending, used, rfl, hs⟩ := ifStatement_sound hitem hinner hk h
      exact ⟨ending, t :: used, rfl, hs⟩
    · next hk =>
      obtain ⟨⟨e, vs⟩, he, hnext⟩ := ok_of_bind h
      cases hnext
      obtain ⟨used, rfl, hused⟩ := value_sound hitem he
      exact ⟨.closed, t :: used, rfl, .print hk hused, nofun⟩
    · next hk =>
      obtain ⟨ending, used, rfl, hs⟩ := whileStatement_sound hitem hinner hk h
      exact ⟨ending, t :: used, rfl, hs⟩
    · next hk =>
      obtain ⟨⟨body, vs⟩, hbody, hnext⟩ := ok_of_bind h
      cases hnext
      obtain ⟨used, right, rfl, hright, hused⟩ := blockBody_sound hmember ctx.size hbody
      exact ⟨.closed, t :: used ++ [right], by simp, .block hk hused hright, nofun⟩
    · exact hplain h

theorem entry_sound_of (ctx : Context) {room : Nat} (h : SoundStatement (statement ctx room)) :
    Sound (entry ctx room) Declared :=
  declaration_sound (expression_sound ctx (room - 1)) h

theorem statement_sound (ctx : Context) (room : Nat) : SoundStatement (statement ctx room) := by
  refine statement_induction (P := fun room => SoundStatement (statement ctx room)) ?_ ?_ room
  · intro room h
    rw [statement_of_lt ctx h]
    intro _ _ _ hread
    cases hread
  · intro room hinner hmember
    exact sentence_sound ctx (expression_sound ctx room) (expression_sound ctx (room + 1)) hinner
      (entry_sound_of ctx hmember)

theorem entry_sound (ctx : Context) (room : Nat) : Sound (entry ctx room) Declared :=
  entry_sound_of ctx (statement_sound ctx room)

theorem Declared.ne_nil {ts : List Token} {s : Stmt} (h : Declared ts s) : ts ≠ [] := by
  rcases h with ⟨word, us, rfl, -⟩ | ⟨ending, hs⟩
  · exact List.cons_ne_nil _ _
  · obtain ⟨t, us, rfl, -⟩ := hs.head
    exact List.cons_ne_nil _ _

theorem declarations_sound (ctx : Context) (room n : Nat) {ts : List Token} {program : List Stmt}
    (hn : ts.length ≤ n) (h : declarations ctx room n ts = (program, [])) :
    Program spoken ts program := by
  induction n generalizing ts program with
  | zero =>
    cases List.length_eq_zero_iff.mp (Nat.le_zero.mp hn)
    cases h
    exact .nil
  | succ n ih =>
    cases ts with
    | nil => cases h; exact .nil
    | cons t ts =>
      unfold declarations at h
      split at h
      · next s rest hs =>
        obtain ⟨used, hused, hdeclared⟩ := entry_sound ctx room hs
        have hlength : rest.length ≤ n := by
          have hpos := List.length_pos_iff.mpr hdeclared.ne_nil
          have hsum := congrArg List.length hused
          simp only [List.length_cons, List.length_append] at hn hsum
          omega
        simp only [Prod.mk.injEq] at h
        obtain ⟨rfl, hnone⟩ := h
        rw [hused]
        exact hdeclared.cons (ih hlength (Prod.ext rfl hnone))
      · split at h <;> simp at h

/-- A program that is read without an error is spelled by the tokens before the end mark. -/
theorem parseWithin_sound {room : Nat} {tokens : List Token} {program : List Stmt}
    (h : parseWithin room tokens = .ok program) : Program spoken (body tokens) program := by
  unfold parseWithin at h
  dsimp only at h
  split at h
  · next statements hs =>
    cases h
    exact declarations_sound _ _ _ (Nat.le_refl _) hs
  · cases h

end Lox.Grammar
