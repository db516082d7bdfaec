import Lox.Proofs.Grammar.Soundness
import Lox.Proofs.Lexer.Joining
import Lox.Proofs.Session.Ending

/-!
# Braces come in pairs

The braces of a program form a balanced word: each closes one that was opened before it, and none is
left open. A line that completes a program is therefore never answered with a request for more.
-/

namespace Lox

def Kind.isBrace (kind : Kind) : Bool := kind = .leftBrace || kind = .rightBrace

namespace Token

def count (kind : Kind) (ts : List Token) : Nat := ts.countP (·.kind = kind)

/-- Every closing brace has an opening one before it, and every opening one is closed. -/
structure Balanced (ts : List Token) : Prop where
  within : ∀ us, us <+: ts → count .rightBrace us ≤ count .leftBrace us
  closed : count .rightBrace ts = count .leftBrace ts

@[simp] theorem count_nil (kind : Kind) : count kind [] = 0 := rfl

@[simp] theorem count_cons (kind : Kind) (t : Token) (ts : List Token) :
    count kind (t :: ts) = count kind ts + if t.kind = kind then 1 else 0 := by
  simp [count, List.countP_cons]

@[simp] theorem count_append (kind : Kind) (ts us : List Token) :
    count kind (ts ++ us) = count kind ts + count kind us := List.countP_append

end Token

theorem Session.openBraces_eq_count (ts : List Token) :
    openBraces ts = (Token.count .leftBrace ts : Int) - Token.count .rightBrace ts := by
  -- the fold carries what was open before
  suffices hfold : ∀ n : Int, ts.foldl (fun n t =>
      if t.kind = .leftBrace then n + 1 else if t.kind = .rightBrace then n - 1 else n) n =
      n + ((Token.count .leftBrace ts : Int) - Token.count .rightBrace ts) by
    rw [openBraces, hfold]
    omega
  induction ts with
  | nil => simp
  | cons t ts ih =>
    intro n
    rw [List.foldl_cons, ih, Token.count_cons, Token.count_cons]
    by_cases hleft : t.kind = .leftBrace
    · simp [hleft]
      omega
    · by_cases hright : t.kind = .rightBrace
      · simp [hright]
        omega
      · simp [hleft, hright]

@[simp] theorem Session.openBraces_append (ts us : List Token) :
    openBraces (ts ++ us) = openBraces ts + openBraces us := by
  simp only [openBraces_eq_count, Token.count_append]
  omega

namespace Token

def Braceless (ts : List Token) : Prop := ∀ t ∈ ts, t.kind.isBrace = false

theorem Braceless.nil : Braceless [] := List.forall_mem_nil _

theorem Braceless.cons {t : Token} {kind : Kind} {ts : List Token} (ht : t.kind = kind)
    (hkind : kind.isBrace = false) (hts : Braceless ts) : Braceless (t :: ts) := by
  subst ht
  intro u hu
  rcases List.mem_cons.mp hu with rfl | hu
  · exact hkind
  · exact hts u hu

theorem Braceless.single {t : Token} {kind : Kind} (ht : t.kind = kind)
    (hkind : kind.isBrace = false) : Braceless [t] :=
  .cons ht hkind .nil

theorem Braceless.append {ts us : List Token} (hts : Braceless ts) (hus : Braceless us) :
    Braceless (ts ++ us) := by
  intro t ht
  rcases List.mem_append.mp ht with ht | ht
  · exact hts t ht
  · exact hus t ht

theorem Braceless.count_eq_zero {ts : List Token} (h : Braceless ts) {kind : Kind}
    (hkind : kind.isBrace = true) : count kind ts = 0 := by
  apply List.countP_eq_zero.mpr
  intro t ht hcount
  have hother := h t ht
  rw [of_decide_eq_true hcount, hkind] at hother
  cases hother

namespace Balanced

theorem openBraces_eq_zero {ts : List Token} (h : Balanced ts) : Session.openBraces ts = 0 := by
  rw [Session.openBraces_eq_count, h.closed]
  omega

theorem of_braceless {ts : List Token} (h : Braceless ts) : Balanced ts where
  within := by
    intro us hus
    have hfew : Braceless us := fun t ht => h t (hus.subset ht)
    rw [hfew.count_eq_zero rfl]
    exact Nat.zero_le _
  closed := by rw [h.count_eq_zero rfl, h.count_eq_zero rfl]

theorem append {ts us : List Token} (hts : Balanced ts) (hus : Balanced us) :
    Balanced (ts ++ us) where
  within := by
    intro vs hvs
    rcases List.prefix_or_prefix_of_prefix hvs (List.prefix_append ts us) with hfirst | ⟨ws, rfl⟩
    · exact hts.within vs hfirst
    · have hsecond := hus.within ws ((List.prefix_append_right_inj ts).mp hvs)
      rw [count_append, count_append, hts.closed]
      omega
  closed := by rw [count_append, count_append, hts.closed, hus.closed]

theorem cons {t : Token} {kind : Kind} {ts : List Token} (ht : t.kind = kind)
    (hkind : kind.isBrace = false) (hts : Balanced ts) : Balanced (t :: ts) :=
  (of_braceless (Braceless.single ht hkind)).append hts

theorem enclose {left right : Token} {ts : List Token} (hleft : left.kind = .leftBrace)
    (hright : right.kind = .rightBrace) (hts : Balanced ts) : Balanced (left :: ts ++ [right]) where
  within := by
    intro us hus
    rcases List.prefix_cons_iff.mp hus with rfl | ⟨vs, rfl, hvs⟩
    · simp
    · rcases List.prefix_concat_iff.mp hvs with rfl | hvs
      · simp [hleft, hright, hts.closed]
      · have hbody := hts.within vs hvs
        simp [hleft]
        omega
  closed := by simp [hleft, hright, hts.closed]

end Balanced

end Token

namespace Grammar

open Token (Balanced Braceless)

theorem Phrase.braceless {level : Level} {ts : List Token} {e : Expr} (h : Phrase level ts e) :
    Braceless ts := by
  induction h with
  | assign hname hequals _ ih =>
    exact .cons hname rfl (.cons hequals rfl ih)
  | @join level _ _ _ _ _ hop _ _ ihl ihr =>
    have hplain : ∀ kind ∈ level.operators, kind.isBrace = false := by
      cases level <;> decide
    exact ihl.append (.cons rfl (hplain _ hop) ihr)
  | sign hop _ ih =>
    rcases hop with hop | hop
    · exact .cons hop rfl ih
    · exact .cons hop rfl ih
  | constant ht =>
    have hplain : ∀ kind ∈ constants, kind.isBrace = false := by decide
    exact .single rfl (hplain _ (constant_kind ht))
  | name ht => exact .single ht rfl
  | group hleft _ hright ih =>
    exact .cons hleft rfl (ih.append (.single hright rfl))
  | operand _ _ ih => exact ih

theorem Clause.braceless {ts : List Token} {e : Option Expr} (h : Clause ts e) : Braceless ts := by
  cases h with
  | missing => exact .nil
  | present he => exact he.braceless

theorem Terminated.braceless {ts : List Token} {e : Expr} (h : Terminated ts e) :
    Braceless ts := by
  obtain ⟨he, hsemicolon⟩ := h
  exact he.braceless.append (.single hsemicolon rfl)

theorem Variable.braceless {ts : List Token} {s : Stmt} (h : Variable ts s) : Braceless ts := by
  cases h with
  | bare hname hsemicolon =>
    exact .cons hname rfl (.single hsemicolon rfl)
  | initialized hname hequals he =>
    exact .cons hname rfl (.cons hequals rfl he.braceless)

theorem Start.braceless {d : Dialect} {ts : List Token} {start : Option Stmt}
    (h : Start d ts start) : Braceless ts := by
  cases h with
  | missing hsemicolon => exact .single hsemicolon rfl
  | expression he => exact he.braceless
  | introduced _ hword hs => exact .cons hword rfl hs.braceless
  | plain _ hs => exact hs.braceless

theorem head_braceless {word left right : Token} {kind : Kind} {cs : List Token} {c : Expr}
    (hword : word.kind = kind) (hkind : kind.isBrace = false) (hleft : left.kind = .leftParen)
    (hc : Phrase .assignment cs c) (hright : right.kind = .rightParen) :
    Braceless (word :: left :: cs ++ [right]) :=
  .cons hword hkind (.cons hleft rfl
    (hc.braceless.append (.single hright rfl)))

mutual

theorem Statement.balanced {d : Dialect} {ending : Ending} {ts : List Token} {s : Stmt} :
    Statement d ending ts s → Balanced ts
  | .expression he => .of_braceless he.braceless
  | .print hword he => .of_braceless (.cons hword rfl he.braceless)
  | .ifThen hword hleft hc hright hs => by
    have hhead := head_braceless hword rfl hleft hc hright
    simpa using (Balanced.of_braceless hhead).append hs.balanced
  | .ifElse hword hleft hc hright hs _ helse ht => by
    have hhead := head_braceless hword rfl hleft hc hright
    have hlast := Balanced.cons helse rfl ht.balanced
    simpa using (Balanced.of_braceless hhead).append (hs.balanced.append hlast)
  | .loop hword hleft hc hright hs => by
    have hhead := head_braceless hword rfl hleft hc hright
    simpa using (Balanced.of_braceless hhead).append hs.balanced
  | .forLoop hword hleft hstart hc hsemicolon he hright hs => by
    have hstep := he.braceless.append (Braceless.single hright rfl)
    have hclauses := hc.braceless.append (.cons hsemicolon rfl hstep)
    have hhead := Braceless.cons hword rfl
      (.cons hleft rfl (hstart.braceless.append hclauses))
    simpa using (Balanced.of_braceless hhead).append hs.balanced
  | .block hleft hbody hright => hbody.balanced.enclose hleft hright

theorem Program.balanced {d : Dialect} {ts : List Token} {program : List Stmt} :
    Program d ts program → Balanced ts
  | .nil => .of_braceless .nil
  | .declaration hword hs hrest =>
    (Balanced.of_braceless (.cons hword rfl hs.braceless)).append hrest.balanced
  | .statement hs hrest => hs.balanced.append hrest.balanced

end

theorem parseWithin_balanced {room : Nat} {tokens : List Token} {program : List Stmt}
    (h : parseWithin room tokens = .ok program) : Balanced (body tokens) :=
  (parseWithin_sound h).balanced

end Grammar

namespace Session

theorem read_of_scan {source : String} {tokens : List Token} (h : Lexer.scan source = .ok tokens) :
    Lexer.read (Lexer.start source) = ⟨tokens, none⟩ := by
  unfold Lexer.scan at h
  split at h
  · next heq =>
    cases h
    exact heq
  · cases h

theorem openBraces_body {source : String} {tokens : List Token}
    (h : Lexer.scan source = .ok tokens) :
    openBraces tokens = openBraces (Grammar.body tokens) := by
  obtain ⟨cut, hcut, -, rfl⟩ := Lexer.exists_cut_of_scan h
  rw [hcut.body_tokens, Lexer.Cut.tokens, openBraces_append]
  exact Int.add_zero _

theorem openBraces_of_parse {room : Nat} {source : String} {program : List Stmt}
    (h : parse room source = .ok program) :
    openBraces (Lexer.read (Lexer.start source)).tokens = 0 := by
  obtain ⟨tokens, hscan, hread⟩ := parse_eq_ok.mp h
  rw [read_of_scan hscan, openBraces_body hscan]
  exact (Grammar.parseWithin_balanced hread).openBraces_eq_zero

/-- The braces of whatever the parser accepts are balanced, whatever room it has for nested calls.
So a line that completes a program is the last that is waited for. -/
theorem complete_programs_are_not_withheld :
    (∀ (room : Nat) (tokens : List Token) (program : List Stmt),
      Grammar.parseWithin room tokens = .ok program → Token.Balanced (Grammar.body tokens)) ∧
    ∀ (room : Nat) (pending line : String) (program : List Stmt),
      parse room (accumulate pending line).1 = .ok program →
        (accumulate pending line).2 = false := by
  constructor
  · intro room tokens program h
    exact Grammar.parseWithin_balanced h
  · intro room pending line program h
    have hclosed := openBraces_of_parse h
    apply decide_eq_false
    intro hopen
    exact Int.lt_irrefl 0 (hclosed ▸ hopen)

/-- Two blocks are pending, and a text and a comment with braces of their own. -/
theorem closing_line_is_the_last :
    let pending := "if (nil) \x7b // \x7b\n\x7b print \"\x7d\";\n"
    let source := pending ++ "\x7d\x7d\n"
    let tokens : List Token :=
      [⟨.if_, .nil, 1⟩, ⟨.leftParen, .nil, 1⟩, ⟨.nil_, .nil, 1⟩, ⟨.rightParen, .nil, 1⟩,
       ⟨.leftBrace, .nil, 1⟩, ⟨.leftBrace, .nil, 2⟩, ⟨.print_, .nil, 2⟩,
       ⟨.string, .text "\x7d", 2⟩, ⟨.semicolon, .nil, 2⟩, ⟨.rightBrace, .nil, 3⟩,
       ⟨.rightBrace, .nil, 3⟩, ⟨.eof, .nil, 4⟩]
    let program : List Stmt :=
      [.ifThen (.literal .nil) (.block [.block [.print (.literal (.text "\x7d"))]])]
    Lexer.scan source = .ok tokens ∧ Grammar.parseWithin 986 tokens = .ok program ∧
      Token.Balanced (Grammar.body tokens) ∧ parse 993 source = .ok program ∧
      accumulate pending "\x7d\x7d" = (source, false) := by
  intro pending source tokens program
  have hread : Lexer.read (Lexer.start source) = ⟨tokens, none⟩ := by decide +kernel
  have hscan : Lexer.scan source = .ok tokens := by rw [Lexer.scan, hread]
  have hparse : Grammar.parseWithin 986 tokens = .ok program := rfl
  have hprogram : parse 993 source = .ok program := parse_eq_ok.mpr ⟨tokens, hscan, hparse⟩
  have hlast := complete_programs_are_not_withheld.2 _ pending "\x7d\x7d" program hprogram
  exact ⟨hscan, hparse, complete_programs_are_not_withheld.1 _ _ _ hparse, hprogram,
    Prod.ext rfl hlast⟩

end Session

end Lox
