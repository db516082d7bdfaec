import Lox.Grammar.Parser

/-!
# The grammar of programs

Which tokens spell which tree, without a parser. Expressions come in levels from loose to tight:
assignments and signs nest to the right, the tiers between them lean to the left. Statements are
classed by their ending, since an `else` behind a statement that ends in an `if` without one could
be taken for either. A dialect settles the two points on which readings of the grammar differ.
-/

namespace Lox.Grammar

inductive Level where
  | assignment | disjunction | conjunction | equality | comparison | sum | product | sign | primary
  deriving DecidableEq, Repr

namespace Level

def tighter : Level → Level
  | assignment => disjunction
  | disjunction => conjunction
  | conjunction => equality
  | equality => comparison
  | comparison => sum
  | sum => product
  | product => sign
  | sign | primary => primary

def operators : Level → List Kind
  | disjunction => [.or_]
  | conjunction => [.and_]
  | equality => [.bangEqual, .equalEqual]
  | comparison => [.greater, .greaterEqual, .less, .lessEqual]
  | sum => [.minus, .plus]
  | product => [.slash, .star]
  | assignment | sign | primary => []

def join : Level → Expr → Token → Expr → Expr
  | disjunction | conjunction => .logical
  | _ => .binary

end Level

def constant? (t : Token) : Option Value :=
  match t.kind with
  | .true_ => some (.bool true)
  | .false_ => some (.bool false)
  | .nil_ => some .nil
  | .number | .string => some t.value
  | _ => none

/-- The tokens spell the expression at the level. Only a bare name can be assigned to. -/
inductive Phrase : Level → List Token → Expr → Prop where
  | assign {name equals : Token} {ts : List Token} {e : Expr}
      (hname : name.kind = .identifier) (hequals : equals.kind = .equal)
      (he : Phrase .assignment ts e) :
      Phrase .assignment (name :: equals :: ts) (.assign name e)
  | join {level : Level} {op : Token} {ls rs : List Token} {l r : Expr}
      (hop : op.kind ∈ level.operators) (hl : Phrase level ls l)
      (hr : Phrase level.tighter rs r) :
      Phrase level (ls ++ op :: rs) (level.join l op r)
  | sign {op : Token} {ts : List Token} {e : Expr} (hop : op.kind = .bang ∨ op.kind = .minus)
      (he : Phrase .sign ts e) :
      Phrase .sign (op :: ts) (.unary op e)
  | constant {t : Token} {v : Value} (ht : constant? t = some v) :
      Phrase .primary [t] (.literal v)
  | name {t : Token} (ht : t.kind = .identifier) :
      Phrase .primary [t] (.var t)
  | group {left right : Token} {ts : List Token} {e : Expr} (hleft : left.kind = .leftParen)
      (he : Phrase .assignment ts e) (hright : right.kind = .rightParen) :
      Phrase .primary (left :: ts ++ [right]) (.group e)
  | operand {level : Level} {ts : List Token} {e : Expr} (hlevel : level ≠ .primary)
      (he : Phrase level.tighter ts e) :
      Phrase level ts e

inductive Clause : List Token → Option Expr → Prop where
  | missing : Clause [] none
  | present {ts : List Token} {e : Expr} (he : Phrase .assignment ts e) : Clause ts (some e)

inductive Terminated : List Token → Expr → Prop where
  | intro {ts : List Token} {semicolon : Token} {e : Expr} (he : Phrase .assignment ts e)
      (hsemicolon : semicolon.kind = .semicolon) :
      Terminated (ts ++ [semicolon]) e

/-- A variable with or without an initial value, less the word that introduces it. -/
inductive Variable : List Token → Stmt → Prop where
  | bare {name semicolon : Token} (hname : name.kind = .identifier)
      (hsemicolon : semicolon.kind = .semicolon) :
      Variable [name, semicolon] (.declare name (.literal .nil))
  | initialized {name equals : Token} {ts : List Token} {e : Expr}
      (hname : name.kind = .identifier) (hequals : equals.kind = .equal) (he : Terminated ts e) :
      Variable (name :: equals :: ts) (.declare name e)

/-- Where readings of the grammar differ: whether the word `var` introduces the variable of a loop
head, and whether an `else` has to join the nearest `if` that can take it. -/
structure Dialect where
  loopWord : Bool
  nearestElse : Bool
  deriving DecidableEq, Repr

inductive Start (d : Dialect) : List Token → Option Stmt → Prop where
  | missing {semicolon : Token} (hsemicolon : semicolon.kind = .semicolon) :
      Start d [semicolon] none
  | expression {ts : List Token} {e : Expr} (he : Terminated ts e) :
      Start d ts (some (.expression e))
  | introduced {word : Token} {ts : List Token} {s : Stmt} (hd : d.loopWord = true)
      (hword : word.kind = .var_) (hs : Variable ts s) :
      Start d (word :: ts) (some s)
  | plain {ts : List Token} {s : Stmt} (hd : d.loopWord = false) (hs : Variable ts s) :
      Start d ts (some s)

def unrolled (start : Option Stmt) (condition step : Option Expr) (body : Stmt) : Stmt :=
  let c := condition.getD (.literal (.bool true))
  match start, step with
  | none, none => .loop c body
  | none, some e => .loop c (.block [body, .expression e])
  | some s, none => .block [s, .loop c body]
  | some s, some e => .block [s, .loop c (.block [body, .expression e])]

/-- Whether a statement ends in an `if` that has no `else` and could still take one. -/
inductive Ending where
  | closed
  | dangling
  deriving DecidableEq, Repr

def Dialect.allows (d : Dialect) (ending : Ending) : Prop :=
  d.nearestElse = true → ending = .closed

mutual

/-- The tokens spell the statement, which has the given ending. -/
inductive Statement (d : Dialect) : Ending → List Token → Stmt → Prop where
  | expression {ts : List Token} {e : Expr} (he : Terminated ts e) :
      Statement d .closed ts (.expression e)
  | print {word : Token} {ts : List Token} {e : Expr} (hword : word.kind = .print_)
      (he : Terminated ts e) :
      Statement d .closed (word :: ts) (.print e)
  | ifThen {word left right : Token} {cs ts : List Token} {c : Expr} {s : Stmt} {ending : Ending}
      (hword : word.kind = .if_) (hleft : left.kind = .leftParen) (hc : Phrase .assignment cs c)
      (hright : right.kind = .rightParen) (hs : Statement d ending ts s) :
      Statement d .dangling (word :: left :: cs ++ right :: ts) (.ifThen c s)
  | ifElse {word left right otherwise : Token} {cs ts us : List Token} {c : Expr} {s t : Stmt}
      {inner ending : Ending} (hword : word.kind = .if_) (hleft : left.kind = .leftParen)
      (hc : Phrase .assignment cs c) (hright : right.kind = .rightParen)
      (hs : Statement d inner ts s) (hinner : d.allows inner) (helse : otherwise.kind = .else_)
      (ht : Statement d ending us t) :
      Statement d ending (word :: left :: cs ++ right :: ts ++ otherwise :: us) (.ifElse c s t)
  | loop {word left right : Token} {cs ts : List Token} {c : Expr} {s : Stmt} {ending : Ending}
      (hword : word.kind = .while_) (hleft : left.kind = .leftParen) (hc : Phrase .assignment cs c)
      (hright : right.kind = .rightParen) (hs : Statement d ending ts s) :
      Statement d ending (word :: left :: cs ++ right :: ts) (.loop c s)
  | forLoop {word left semicolon right : Token} {ss cs es ts : List Token} {start : Option Stmt}
      {condition step : Option Expr} {s : Stmt} {ending : Ending} (hword : word.kind = .for_)
      (hleft : left.kind = .leftParen) (hstart : Start d ss start) (hc : Clause cs condition)
      (hsemicolon : semicolon.kind = .semicolon) (he : Clause es step)
      (hright : right.kind = .rightParen) (hs : Statement d ending ts s) :
      Statement d ending (word :: left :: ss ++ cs ++ semicolon :: es ++ right :: ts)
        (unrolled start condition step s)
  | block {left right : Token} {ts : List Token} {body : List Stmt} (hleft : left.kind = .leftBrace)
      (hbody : Program d ts body) (hright : right.kind = .rightBrace) :
      Statement d .closed (left :: ts ++ [right]) (.block body)

inductive Program (d : Dialect) : List Token → List Stmt → Prop where
  | nil : Program d [] []
  | declaration {word : Token} {ts us : List Token} {s : Stmt} {rest : List Stmt}
      (hword : word.kind = .var_) (hs : Variable ts s) (hrest : Program d us rest) :
      Program d (word :: ts ++ us) (s :: rest)
  | statement {ending : Ending} {ts us : List Token} {s : Stmt} {rest : List Stmt}
      (hs : Statement d ending ts s) (hrest : Program d us rest) :
      Program d (ts ++ us) (s :: rest)

end

def constants : List Kind := [.true_, .false_, .nil_, .number, .string]

def expressionStarts : List Kind := [.bang, .minus] ++ constants ++ [.identifier, .leftParen]

def statementHeads : List Kind :=
  [.for_, .if_, .print_, .while_, .leftBrace] ++ expressionStarts

theorem constant_kind {t : Token} {v : Value} (h : constant? t = some v) :
    t.kind ∈ constants := by
  unfold constant? at h
  split at h <;> simp_all [constants]

theorem Phrase.head {level : Level} {ts : List Token} {e : Expr} (h : Phrase level ts e) :
    ∃ t us, ts = t :: us ∧ t.kind ∈ expressionStarts := by
  induction h with
  | assign hname => exact ⟨_, _, rfl, by simp [expressionStarts, hname]⟩
  | join _ _ _ ihl _ =>
    obtain ⟨t, us, rfl, ht⟩ := ihl
    exact ⟨t, _, rfl, ht⟩
  | sign hop => exact ⟨_, _, rfl, by rcases hop with h | h <;> simp [expressionStarts, h]⟩
  | constant ht =>
    have hk := List.mem_append_right [Kind.bang, .minus] (constant_kind ht)
    exact ⟨_, _, rfl, List.mem_append_left _ hk⟩
  | name ht => exact ⟨_, _, rfl, by simp [expressionStarts, ht]⟩
  | group hleft => exact ⟨_, _, rfl, by simp [expressionStarts, hleft]⟩
  | operand _ _ ih => exact ih

theorem Phrase.head_primary {ts : List Token} {e : Expr} (h : Phrase .primary ts e) :
    ∃ t us, ts = t :: us ∧ t.kind ∈ constants ++ [.identifier, .leftParen] := by
  cases h with
  | join hop => simp [Level.operators] at hop
  | constant ht => exact ⟨_, _, rfl, List.mem_append_left _ (constant_kind ht)⟩
  | name ht => exact ⟨_, _, rfl, by simp [ht]⟩
  | group hleft => exact ⟨_, _, rfl, by simp [hleft]⟩
  | operand hlevel => exact absurd rfl hlevel

theorem Terminated.head {ts : List Token} {e : Expr} (h : Terminated ts e) :
    ∃ t us, ts = t :: us ∧ t.kind ∈ expressionStarts := by
  obtain ⟨he, -⟩ := h
  obtain ⟨t, us, rfl, ht⟩ := he.head
  exact ⟨t, _, rfl, ht⟩

theorem Statement.head {d : Dialect} {ending : Ending} {ts : List Token} {s : Stmt}
    (h : Statement d ending ts s) : ∃ t us, ts = t :: us ∧ t.kind ∈ statementHeads := by
  cases h with
  | expression he =>
    obtain ⟨t, us, rfl, ht⟩ := he.head
    exact ⟨t, us, rfl, List.mem_append_right _ ht⟩
  | print hword => exact ⟨_, _, rfl, by simp [statementHeads, hword]⟩
  | ifThen hword => exact ⟨_, _, rfl, by simp [statementHeads, hword]⟩
  | ifElse hword => exact ⟨_, _, rfl, by simp [statementHeads, hword]⟩
  | loop hword => exact ⟨_, _, rfl, by simp [statementHeads, hword]⟩
  | forLoop hword => exact ⟨_, _, rfl, by simp [statementHeads, hword]⟩
  | block hleft => exact ⟨_, _, rfl, by simp [statementHeads, hleft]⟩

theorem Program.head {d : Dialect} {ts : List Token} {body : List Stmt} (h : Program d ts body) :
    ts = [] ∨ ∃ t us, ts = t :: us ∧ t.kind ∈ .var_ :: statementHeads := by
  cases h with
  | nil => exact Or.inl rfl
  | declaration hword => exact Or.inr ⟨_, _, rfl, by simp [hword]⟩
  | statement hs =>
    obtain ⟨t, us, rfl, ht⟩ := hs.head
    exact Or.inr ⟨t, _, rfl, List.mem_cons_of_mem _ ht⟩

/-- An `else` behind a dangling statement can be moved to an `if` inside it. -/
theorem Statement.absorb_else {d : Dialect} {last : Ending} {us : List Token} {t : Stmt}
    {otherwise : Token} (helse : otherwise.kind = .else_) (ht : Statement d last us t) :
    ∀ {ending : Ending} {ts : List Token} {s : Stmt}, Statement d ending ts s →
      ending = .dangling → ∃ joined whole, Statement d joined (ts ++ otherwise :: us) whole
  -- The `if` that takes it is the innermost one at the end, whose branch is closed.
  | _, _, _, .expression _, hending => nomatch hending
  | _, _, _, .print _ _, hending => nomatch hending
  | _, _, _, .block _ _ _, hending => nomatch hending
  | _, _, _, @Statement.ifThen _ _ _ _ _ _ _ _ branch hword hleft hc hright hs, _ => by
    cases hbranch : branch with
    | closed => exact ⟨_, _, .ifElse hword hleft hc hright hs (fun _ => hbranch) helse ht⟩
    | dangling =>
      obtain ⟨joined, whole, hwhole⟩ := absorb_else helse ht hs hbranch
      exact ⟨_, _, by simpa using Statement.ifThen hword hleft hc hright hwhole⟩
  | _, _, _, .ifElse hword hleft hc hright hs hinner helse' ht', hending => by
    obtain ⟨joined, whole, hwhole⟩ := absorb_else helse ht ht' hending
    exact ⟨_, _, by simpa using Statement.ifElse hword hleft hc hright hs hinner helse' hwhole⟩
  | _, _, _, .loop hword hleft hc hright hs, hending => by
    obtain ⟨joined, whole, hwhole⟩ := absorb_else helse ht hs hending
    exact ⟨_, _, by simpa using Statement.loop hword hleft hc hright hwhole⟩
  | _, _, _, .forLoop hword hleft hstart hc hsemicolon he hright hs, hending => by
    obtain ⟨joined, whole, hwhole⟩ := absorb_else helse ht hs hending
    exact ⟨_, _, by simpa using Statement.forLoop hword hleft hstart hc hsemicolon he hright hwhole⟩

def Dialect.nearest (d : Dialect) : Dialect := { d with nearestElse := true }

def Dialect.loose (d : Dialect) : Dialect := { d with nearestElse := false }

theorem Start.congr {d : Dialect} {ts : List Token} {start : Option Stmt} (h : Start d ts start)
    (d' : Dialect) (hd : d'.loopWord = d.loopWord) : Start d' ts start := by
  cases h with
  | missing hsemicolon => exact .missing hsemicolon
  | expression he => exact .expression he
  | introduced hword hkind hs => exact .introduced (hd.trans hword) hkind hs
  | plain hword hs => exact .plain (hd.trans hword) hs

mutual

/-- Whatever is a statement at all is one with every `else` at the nearest `if`. -/
theorem Statement.nearest {d : Dialect} {ending : Ending} {ts : List Token} {s : Stmt} :
    Statement d ending ts s → ∃ joined whole, Statement d.nearest joined ts whole
  | .expression he => ⟨_, _, .expression he⟩
  | .print hword he => ⟨_, _, .print hword he⟩
  | .ifThen hword hleft hc hright hs => by
    obtain ⟨joined, whole, hwhole⟩ := hs.nearest
    exact ⟨_, _, .ifThen hword hleft hc hright hwhole⟩
  | .ifElse hword hleft hc hright hs _ helse ht => by
    obtain ⟨inner, yes, hyes⟩ := hs.nearest
    obtain ⟨last, no, hno⟩ := ht.nearest
    exact Statement.absorb_else helse hno (.ifThen hword hleft hc hright hyes) rfl
  | .loop hword hleft hc hright hs => by
    obtain ⟨joined, whole, hwhole⟩ := hs.nearest
    exact ⟨_, _, .loop hword hleft hc hright hwhole⟩
  | .forLoop hword hleft hstart hc hsemicolon he hright hs => by
    obtain ⟨joined, whole, hwhole⟩ := hs.nearest
    have hstart' := hstart.congr d.nearest rfl
    exact ⟨_, _, .forLoop hword hleft hstart' hc hsemicolon he hright hwhole⟩
  | .block hleft hbody hright => by
    obtain ⟨body, hbody⟩ := hbody.nearest
    exact ⟨_, _, .block hleft hbody hright⟩

theorem Program.nearest {d : Dialect} {ts : List Token} {body : List Stmt} :
    Program d ts body → ∃ whole, Program d.nearest ts whole
  | .nil => ⟨_, .nil⟩
  | .declaration hword hs hrest => by
    obtain ⟨rest, hrest⟩ := hrest.nearest
    exact ⟨_, .declaration hword hs hrest⟩
  | .statement hs hrest => by
    obtain ⟨joined, whole, hwhole⟩ := hs.nearest
    obtain ⟨rest, hrest⟩ := hrest.nearest
    exact ⟨_, .statement hwhole hrest⟩

end

mutual

theorem Statement.loose {d : Dialect} {ending : Ending} {ts : List Token} {s : Stmt} :
    Statement d ending ts s → Statement d.loose ending ts s
  | .expression he => .expression he
  | .print hword he => .print hword he
  | .ifThen hword hleft hc hright hs => .ifThen hword hleft hc hright hs.loose
  | .ifElse hword hleft hc hright hs _ helse ht =>
    .ifElse hword hleft hc hright hs.loose nofun helse ht.loose
  | .loop hword hleft hc hright hs => .loop hword hleft hc hright hs.loose
  | .forLoop hword hleft hstart hc hsemicolon he hright hs =>
    .forLoop hword hleft (hstart.congr d.loose rfl) hc hsemicolon he hright hs.loose
  | .block hleft hbody hright => .block hleft hbody.loose hright

theorem Program.loose {d : Dialect} {ts : List Token} {body : List Stmt} :
    Program d ts body → Program d.loose ts body
  | .nil => .nil
  | .declaration hword hs hrest => .declaration hword hs hrest.loose
  | .statement hs hrest => .statement hs.loose hrest.loose

end

end Lox.Grammar
