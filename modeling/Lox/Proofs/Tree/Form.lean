import Lox.Proofs.Grammar.Vocabulary
import Lox.Proofs.Layout.Independence
import Lox.Proofs.Lexer.Respelling
import Lox.Proofs.Session.Ending

/-!
# Forms in parentheses

A form is an atom, or a head with parts behind it, all between parentheses. As a row of token
contents it is read in only one way, whatever stands behind it. A tree that the parser built has a
form of its own, apart from the lines of its tokens. It has only tokens of the source in it, and
only constants that such tokens stand for.
-/

namespace Lox

/-- A token's content alone, or behind a head the forms of its parts. -/
inductive Form where
  | atom (content : Kind × Value)
  | node (head : Kind × Value) (parts : List Form)

namespace Form

mutual

def flatten : Form → List (Kind × Value)
  | atom content => [content]
  | node head parts => (.leftParen, .nil) :: head :: flattenAll parts ++ [(.rightParen, .nil)]

def flattenAll : List Form → List (Kind × Value)
  | [] => []
  | form :: rest => form.flatten ++ flattenAll rest

end

mutual

def Proper : Form → Prop
  | atom content => content.1 ≠ .leftParen ∧ content.1 ≠ .rightParen
  | node _ parts => AllProper parts

def AllProper : List Form → Prop
  | [] => True
  | form :: rest => form.Proper ∧ AllProper rest

end

/-- Nothing, or something behind a closing parenthesis: no further part. -/
def Closed (rest : List (Kind × Value)) : Prop := ∀ c ∈ rest.head?, c.1 = .rightParen

theorem Proper.not_closed {form : Form} (h : form.Proper) (rest : List (Kind × Value)) :
    ¬ Closed (form.flatten ++ rest) := by
  intro hclosed
  cases form with
  | atom content => exact h.2 (hclosed content rfl)
  | node head parts => exact absurd (hclosed (.leftParen, .nil) rfl) (by decide)

mutual

theorem flatten_append_inj : ∀ {a b : Form} {u v : List (Kind × Value)}, a.Proper → b.Proper →
    a.flatten ++ u = b.flatten ++ v → a = b ∧ u = v
  | atom c, atom d, u, v, _, _, h => by
    obtain ⟨rfl, rfl⟩ := List.cons.inj h
    exact ⟨rfl, rfl⟩
  | atom c, node _ _, _, _, ha, _, h => by
    have hc : c = (.leftParen, .nil) := (List.cons.inj h).1
    exact absurd (congrArg Prod.fst hc) ha.1
  | node _ _, atom d, _, _, _, hb, h => by
    have hd : (.leftParen, .nil) = d := (List.cons.inj h).1
    exact absurd (congrArg Prod.fst hd.symm) hb.1
  | node head parts, node head' parts', u, v, ha, hb, h => by
    simp only [flatten, List.cons_append, List.append_assoc, List.cons.injEq, true_and] at h
    obtain ⟨rfl, h⟩ := h
    have hclosed : ∀ w, Closed ((.rightParen, .nil) :: w) := fun w c hc => by
      cases hc
      rfl
    obtain ⟨rfl, hrest⟩ := flattenAll_append_inj ha hb (hclosed u) (hclosed v) h
    exact ⟨rfl, (List.cons.inj hrest).2⟩

/-- A row of forms ends where no further part follows. -/
theorem flattenAll_append_inj : ∀ {as bs : List Form} {u v : List (Kind × Value)}, AllProper as →
    AllProper bs → Closed u → Closed v → flattenAll as ++ u = flattenAll bs ++ v →
    as = bs ∧ u = v
  | [], [], _, _, _, _, _, _, h => ⟨rfl, h⟩
  | [], b :: bs, u, v, _, hb, hu, _, h => by
    rw [flattenAll, flattenAll, List.nil_append, List.append_assoc] at h
    exact absurd (h ▸ hu) (hb.1.not_closed _)
  | a :: as, [], u, v, ha, _, _, hv, h => by
    rw [flattenAll, flattenAll, List.nil_append, List.append_assoc] at h
    exact absurd (h ▸ hv) (ha.1.not_closed _)
  | a :: as, b :: bs, u, v, ha, hb, hu, hv, h => by
    rw [flattenAll, flattenAll, List.append_assoc, List.append_assoc] at h
    obtain ⟨rfl, hrest⟩ := flatten_append_inj ha.1 hb.1 h
    obtain ⟨rfl, rfl⟩ := flattenAll_append_inj ha.2 hb.2 hu hv hrest
    exact ⟨rfl, rfl⟩

end

theorem flattenAll_inj {as bs : List Form} (ha : AllProper as) (hb : AllProper bs)
    (h : flattenAll as = flattenAll bs) : as = bs := by
  have hclosed : Closed [] := nofun
  exact (flattenAll_append_inj ha hb hclosed hclosed (by rw [h])).1

end Form

def Value.content : Value → Kind × Value
  | .nil => (.nil_, .nil)
  | .bool b => (if b then .true_ else .false_, .nil)
  | .number x => (.number, .number x)
  | .text s => (.string, .text s)

open Form

theorem Token.kind_content (t : Token) : t.content.1 = t.kind := rfl

def Expr.form : Expr → Form
  | .literal v => atom v.content
  | .group e => node (.identifier, .text "group") [e.form]
  | .unary op r => node op.content [r.form]
  | .binary l op r | .logical l op r => node op.content [l.form, r.form]
  | .var name => atom name.content
  | .assign name e => node (.equal, .nil) [atom name.content, e.form]
  | .unknown _ | .cut => atom (.eof, .nil)

mutual

def Stmt.form : Stmt → Form
  | .expression e => node (.semicolon, .nil) [e.form]
  | .print e => node (.print_, .nil) [e.form]
  | .declare name e => node (.var_, .nil) [atom name.content, e.form]
  | .block body => node (.identifier, .text "block") (Stmt.forms body)
  | .ifThen c yes => node (.if_, .nil) [c.form, yes.form]
  | .ifElse c yes no => node (.if_, .nil) [c.form, yes.form, no.form]
  | .loop c body => node (.while_, .nil) [c.form, body.form]
  | .bare e => e.form
  | .unknown _ | .cut => atom (.eof, .nil)

def Stmt.forms : List Stmt → List Form
  | [] => []
  | stmt :: rest => stmt.form :: Stmt.forms rest

end

theorem Value.kind_content (v : Value) :
    v.content.1 ∈ [Kind.nil_, .true_, .false_, .number, .string] := by
  cases v with
  | bool b => cases b <;> simp [Value.content]
  | nil | number | text => simp [Value.content]

theorem Value.content_proper (v : Value) : (atom v.content).Proper := by
  have hkinds : ∀ kind ∈ [Kind.nil_, .true_, .false_, .number, .string],
      kind ≠ .leftParen ∧ kind ≠ .rightParen := by decide
  exact hkinds _ v.kind_content

theorem Token.name_proper {t : Token} (h : t.kind = .identifier) : (atom t.content).Proper := by
  rw [Form.Proper, Token.kind_content, h]
  exact ⟨by decide, by decide⟩

theorem Expr.Known.form_proper {e : Expr} (h : e.Known) : e.form.Proper := by
  induction e with
  | literal v => exact v.content_proper
  | group _ ih => exact ⟨ih h, trivial⟩
  | unary _ _ ih => exact ⟨ih h.2, trivial⟩
  | binary _ _ _ ihl ihr | logical _ _ _ ihl ihr => exact ⟨ihl h.2.1, ihr h.2.2, trivial⟩
  | var => exact Token.name_proper h
  | assign _ _ ih => exact ⟨Token.name_proper h.1, ih h.2, trivial⟩
  | unknown => exact h.elim
  | cut => exact ⟨by decide, by decide⟩

mutual

theorem Stmt.Known.form_proper : ∀ {stmt : Stmt}, stmt.Known → stmt.form.Proper
  | .expression _, h | .print _, h => ⟨Expr.Known.form_proper h, trivial⟩
  | .declare _ _, h => ⟨Token.name_proper h.1, h.2.form_proper, trivial⟩
  | .block _, h => Stmt.AllKnown.forms_proper h
  | .ifThen _ _, h => ⟨h.1.form_proper, Stmt.Known.form_proper h.2, trivial⟩
  | .ifElse _ _ _, h =>
    ⟨h.1.form_proper, Stmt.Known.form_proper h.2.1, Stmt.Known.form_proper h.2.2, trivial⟩
  | .loop _ _, h => ⟨h.1.form_proper, Stmt.Known.form_proper h.2, trivial⟩
  | .bare _, h | .unknown _, h => h.elim
  | .cut, _ => ⟨by decide, by decide⟩

theorem Stmt.AllKnown.forms_proper : ∀ {body : List Stmt}, Stmt.AllKnown body →
    AllProper (Stmt.forms body)
  | [], _ => trivial
  | _ :: _, h => ⟨Stmt.Known.form_proper h.1, Stmt.AllKnown.forms_proper h.2⟩

end

def nowhere : Int → Int := fun _ => 0

namespace Form

def token (content : Kind × Value) : Token := ⟨content.1, content.2, 0⟩

def constant : Kind × Value → Value
  | (.nil_, _) => .nil
  | (.true_, _) => .bool true
  | (.false_, _) => .bool false
  | (_, value) => value

def name : Form → Token
  | atom content => token content
  | node head _ => token head

def toExpr : Form → Expr
  | atom content =>
    if content.1 = .identifier then .var (token content)
    else if content.1 = .eof then .cut
    else .literal (constant content)
  | node head [r] =>
    if head.1 = .identifier then .group r.toExpr else .unary (token head) r.toExpr
  | node head [l, r] =>
    if head.1 = .equal then .assign l.name r.toExpr
    else if head.1 = .or_ ∨ head.1 = .and_ then .logical l.toExpr (token head) r.toExpr
    else .binary l.toExpr (token head) r.toExpr
  | node _ _ => .cut

mutual

def toStmt : Form → Stmt
  | node (.semicolon, _) [e] => .expression e.toExpr
  | node (.print_, _) [e] => .print e.toExpr
  | node (.var_, _) [name, e] => .declare name.name e.toExpr
  | node (.if_, _) [c, yes] => .ifThen c.toExpr yes.toStmt
  | node (.if_, _) [c, yes, no] => .ifElse c.toExpr yes.toStmt no.toStmt
  | node (.while_, _) [c, body] => .loop c.toExpr body.toStmt
  | node (.identifier, _) parts => .block (toStmts parts)
  | _ => .cut

def toStmts : List Form → List Stmt
  | [] => []
  | form :: rest => form.toStmt :: toStmts rest

end

theorem constant_content (v : Value) : constant v.content = v := by
  cases v with
  | bool b => cases b <;> rfl
  | _ => rfl

theorem token_content (t : Token) : token t.content = t.mapLine nowhere := rfl

theorem name_content (t : Token) : (atom t.content).name = t.mapLine nowhere := rfl

end Form

theorem Expr.Known.toExpr_form {e : Expr} (h : e.Known) : e.form.toExpr = e.mapLines nowhere := by
  have hbinary : ∀ kind ∈ binaryKinds, kind ≠ .equal ∧ ¬ (kind = .or_ ∨ kind = .and_) := by decide
  have hconstant : ∀ kind ∈ [Kind.nil_, .true_, .false_, .number, .string],
      kind ≠ .identifier ∧ kind ≠ .eof := by decide
  induction e with
  | literal v =>
    have hname := hconstant _ v.kind_content
    rw [Expr.form, Form.toExpr, if_neg hname.1, if_neg hname.2, constant_content, Expr.mapLines]
  | group _ ih => rw [Expr.form, Form.toExpr, if_pos rfl, ih h, Expr.mapLines]
  | unary op _ ih =>
    have hop : op.kind ≠ .identifier := by
      rcases h.1 with hkind | hkind <;> rw [hkind] <;> decide
    rw [Expr.form, Form.toExpr, Token.kind_content, if_neg hop, ih h.2, token_content,
      Expr.mapLines]
  | binary _ op _ ihl ihr =>
    obtain ⟨hequal, hlogical⟩ := hbinary _ h.1
    rw [Expr.form, Form.toExpr, Token.kind_content, if_neg hequal, if_neg hlogical, ihl h.2.1,
      ihr h.2.2, token_content, Expr.mapLines]
  | logical _ op _ ihl ihr =>
    have hequal : op.kind ≠ .equal := by
      rcases h.1 with hkind | hkind <;> rw [hkind] <;> decide
    rw [Expr.form, Form.toExpr, Token.kind_content, if_neg hequal, if_pos h.1, ihl h.2.1,
      ihr h.2.2, token_content, Expr.mapLines]
  | var name =>
    have hname : name.kind = .identifier := h
    rw [Expr.form, Form.toExpr, Token.kind_content, if_pos hname, token_content, Expr.mapLines]
  | assign name _ ih =>
    rw [Expr.form, Form.toExpr, if_pos rfl, name_content, ih h.2, Expr.mapLines]
  | unknown => exact h.elim
  | cut => rfl

mutual

theorem Stmt.Known.toStmt_form : ∀ {stmt : Stmt}, stmt.Known →
    stmt.form.toStmt = stmt.mapLines nowhere
  | .expression _, h | .print _, h => by
    rw [Stmt.form, Form.toStmt, Expr.Known.toExpr_form h, Stmt.mapLines]
  | .declare _ _, h => by
    rw [Stmt.form, Form.toStmt, name_content, h.2.toExpr_form, Stmt.mapLines]
  | .block _, h => by
    rw [Stmt.form, Form.toStmt, Stmt.AllKnown.toStmts_forms h, Stmt.mapLines]
  | .ifThen _ _, h => by
    rw [Stmt.form, Form.toStmt, h.1.toExpr_form, Stmt.Known.toStmt_form h.2, Stmt.mapLines]
  | .ifElse _ _ _, h => by
    rw [Stmt.form, Form.toStmt, h.1.toExpr_form, Stmt.Known.toStmt_form h.2.1,
      Stmt.Known.toStmt_form h.2.2, Stmt.mapLines]
  | .loop _ _, h => by
    rw [Stmt.form, Form.toStmt, h.1.toExpr_form, Stmt.Known.toStmt_form h.2, Stmt.mapLines]
  | .bare _, h | .unknown _, h => h.elim
  | .cut, _ => rfl

theorem Stmt.AllKnown.toStmts_forms : ∀ {body : List Stmt}, Stmt.AllKnown body →
    Form.toStmts (Stmt.forms body) = Stmt.mapAllLines nowhere body
  | [], _ => rfl
  | _ :: _, h => by
    rw [Stmt.forms, Form.toStmts, Stmt.Known.toStmt_form h.1, Stmt.AllKnown.toStmts_forms h.2,
      Stmt.mapAllLines]

end

open Lexer (Spelled)

/-- The value is a constant of the language: a number is written without a sign or a point, and text
has no quote in it. -/
def Value.IsConstant : Value → Prop
  | .nil | .bool _ => True
  | .number x => ∃ n, Number.ofNat? n = some x
  | .text s => '"' ∉ s.toList

/-- Every token in the tree is spelled somehow, every literal is a constant, and no branch is cut
off. -/
def Expr.IsSpelled : Expr → Prop
  | .literal v => v.IsConstant
  | .group e => e.IsSpelled
  | .unary op r => Spelled op ∧ r.IsSpelled
  | .binary l op r | .logical l op r => Spelled op ∧ l.IsSpelled ∧ r.IsSpelled
  | .var name => Spelled name
  | .assign name e => Spelled name ∧ e.IsSpelled
  | .unknown _ | .cut => False

mutual

def Stmt.IsSpelled : Stmt → Prop
  | .expression e | .print e => e.IsSpelled
  | .declare name e => Spelled name ∧ e.IsSpelled
  | .block body => Stmt.AllSpelled body
  | .ifThen c yes => c.IsSpelled ∧ yes.IsSpelled
  | .ifElse c yes no => c.IsSpelled ∧ yes.IsSpelled ∧ no.IsSpelled
  | .loop c body => c.IsSpelled ∧ body.IsSpelled
  | .bare _ | .unknown _ | .cut => False

def Stmt.AllSpelled : List Stmt → Prop
  | [] => True
  | stmt :: rest => stmt.IsSpelled ∧ Stmt.AllSpelled rest

end

namespace Grammar

theorem constant_spelled {t : Token} {v : Value} (h : constant? t = some v) (ht : Spelled t) :
    v.IsConstant := by
  obtain ⟨kind, value, line⟩ := t
  obtain ⟨lex, hlex⟩ := ht
  cases hlex with
  | fixed hspelling =>
    cases kind <;> cases h <;> trivial
  | @text body hbody =>
    cases h
    rw [Value.IsConstant, String.toList_ofList]
    exact hbody
  | number _ _ hx =>
    cases h
    exact ⟨_, hx⟩
  | name => cases h

theorem Level.join_spelled {level : Level} {l r : Expr} {op : Token} (hop : Spelled op)
    (hl : l.IsSpelled) (hr : r.IsSpelled) : (level.join l op r).IsSpelled := by
  cases level <;> exact ⟨hop, hl, hr⟩

theorem Phrase.spelled {level : Level} {ts : List Token} {e : Expr} (h : Phrase level ts e)
    (hts : ∀ t ∈ ts, Spelled t) : e.IsSpelled := by
  induction h with
  | assign _ _ _ ih => exact ⟨hts _ (by simp), ih fun t ht => hts t (by simp [ht])⟩
  | join _ _ _ ihl ihr =>
    refine Level.join_spelled (hts _ (by simp)) (ihl fun t ht => hts t (by simp [ht])) ?_
    exact ihr fun t ht => hts t (by simp [ht])
  | sign _ _ ih => exact ⟨hts _ (by simp), ih fun t ht => hts t (by simp [ht])⟩
  | constant ht => exact constant_spelled ht (hts _ (by simp))
  | name => exact hts _ (by simp)
  | group _ _ _ ih => exact ih fun t ht => hts t (by simp [ht])
  | operand _ _ ih => exact ih hts

theorem Terminated.spelled {ts : List Token} {e : Expr} (h : Terminated ts e)
    (hts : ∀ t ∈ ts, Spelled t) : e.IsSpelled := by
  obtain ⟨he, -⟩ := h
  exact he.spelled fun t ht => hts t (by simp [ht])

theorem Variable.spelled {ts : List Token} {s : Stmt} (h : Variable ts s)
    (hts : ∀ t ∈ ts, Spelled t) : s.IsSpelled := by
  cases h with
  | bare => exact ⟨hts _ (by simp), trivial⟩
  | initialized _ _ he => exact ⟨hts _ (by simp), he.spelled fun t ht => hts t (by simp [ht])⟩

theorem Start.spelled {d : Dialect} {ts : List Token} {s : Stmt} (h : Start d ts (some s))
    (hts : ∀ t ∈ ts, Spelled t) : s.IsSpelled := by
  cases h with
  | expression he => exact he.spelled hts
  | introduced _ _ hs => exact hs.spelled fun t ht => hts t (by simp [ht])
  | plain _ hs => exact hs.spelled hts

theorem Clause.spelled {ts : List Token} {e : Expr} (h : Clause ts (some e))
    (hts : ∀ t ∈ ts, Spelled t) : e.IsSpelled := by
  cases h with
  | present he => exact he.spelled hts

theorem Clause.condition_spelled {ts : List Token} {condition : Option Expr}
    (h : Clause ts condition) (hts : ∀ t ∈ ts, Spelled t) :
    (condition.getD (.literal (.bool true))).IsSpelled := by
  cases condition with
  | none => trivial
  | some c => exact h.spelled hts

mutual

theorem Statement.spelled {d : Dialect} : ∀ {ending : Ending} {ts : List Token} {s : Stmt},
    Statement d ending ts s → (∀ t ∈ ts, Spelled t) → s.IsSpelled
  | _, _, _, .expression he, hts => he.spelled hts
  | _, _, _, .print _ he, hts => he.spelled fun t ht => hts t (by simp [ht])
  | _, _, _, .ifThen _ _ hc _ hs, hts =>
    ⟨hc.spelled fun t ht => hts t (by simp [ht]), hs.spelled fun t ht => hts t (by simp [ht])⟩
  | _, _, _, .ifElse _ _ hc _ hs _ _ hno, hts =>
    ⟨hc.spelled fun t ht => hts t (by simp [ht]), hs.spelled fun t ht => hts t (by simp [ht]),
      hno.spelled fun t ht => hts t (by simp [ht])⟩
  | _, _, _, .loop _ _ hc _ hs, hts =>
    ⟨hc.spelled fun t ht => hts t (by simp [ht]), hs.spelled fun t ht => hts t (by simp [ht])⟩
  | _, _, _, .block _ hbody _, hts => hbody.spelled fun t ht => hts t (by simp [ht])
  | _, _, _, @Statement.forLoop _ _ _ _ _ _ _ _ _ start _ step _ _ _ _ hstart hc _ he _ hs,
      hts => by
    have hcondition := hc.condition_spelled fun t ht => hts t (by simp [ht])
    have hbody := hs.spelled fun t ht => hts t (by simp [ht])
    cases start <;> cases step
    · exact ⟨hcondition, hbody⟩
    · exact ⟨hcondition, hbody, he.spelled fun t ht => hts t (by simp [ht]), trivial⟩
    · exact ⟨hstart.spelled fun t ht => hts t (by simp [ht]), ⟨hcondition, hbody⟩, trivial⟩
    · exact ⟨hstart.spelled fun t ht => hts t (by simp [ht]),
        ⟨hcondition, hbody, he.spelled fun t ht => hts t (by simp [ht]), trivial⟩, trivial⟩

theorem Program.spelled {d : Dialect} : ∀ {ts : List Token} {program : List Stmt},
    Program d ts program → (∀ t ∈ ts, Spelled t) → Stmt.AllSpelled program
  | _, _, .nil, _ => trivial
  | _, _, .declaration _ hs hrest, hts =>
    ⟨hs.spelled fun t ht => hts t (by simp [ht]), hrest.spelled fun t ht => hts t (by simp [ht])⟩
  | _, _, .statement hs hrest, hts =>
    ⟨hs.spelled fun t ht => hts t (by simp [ht]), hrest.spelled fun t ht => hts t (by simp [ht])⟩

end

end Grammar

theorem Session.parse_spelled {room : Nat} {source : String} {program : List Stmt}
    (h : Session.parse room source = .ok program) : Stmt.AllSpelled program := by
  obtain ⟨tokens, hscan, hread⟩ := parse_eq_ok.mp h
  exact (Grammar.parseWithin_sound hread).spelled (Lexer.scan_body hscan).1

end Lox
