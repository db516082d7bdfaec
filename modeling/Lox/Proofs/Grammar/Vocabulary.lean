import Lox.Proofs.Evaluation.Frames
import Lox.Proofs.Grammar.Soundness
import Lox.Tree

/-!
# Trees from the parser are understood

The parser builds trees only from nodes for which there is a rule, with operators that the rules
know. Cutting a tree keeps it so. Running such a tree stops early only through a misuse in the
program or through too much nesting, and writing it only through too much nesting.
-/

namespace Lox

def binaryKinds : List Kind :=
  [.equalEqual, .bangEqual, .plus, .minus, .star, .slash, .greater, .greaterEqual, .less,
   .lessEqual]

/-- Every node and every operator has a rule, and names stand where names belong. The mark of a
branch that was cut off may stand anywhere. -/
def Expr.Known : Expr → Prop
  | .literal _ => True
  | .group e => e.Known
  | .unary op r => (op.kind = .bang ∨ op.kind = .minus) ∧ r.Known
  | .binary l op r => op.kind ∈ binaryKinds ∧ l.Known ∧ r.Known
  | .logical l op r => (op.kind = .or_ ∨ op.kind = .and_) ∧ l.Known ∧ r.Known
  | .var name => name.kind = .identifier
  | .assign name e => name.kind = .identifier ∧ e.Known
  | .unknown _ => False
  | .cut => True

mutual

def Stmt.Known : Stmt → Prop
  | .expression e | .print e => e.Known
  | .declare name e => name.kind = .identifier ∧ e.Known
  | .block body => Stmt.AllKnown body
  | .ifThen c yes => c.Known ∧ yes.Known
  | .ifElse c yes no => c.Known ∧ yes.Known ∧ no.Known
  | .loop c body => c.Known ∧ body.Known
  | .bare _ | .unknown _ => False
  | .cut => True

def Stmt.AllKnown : List Stmt → Prop
  | [] => True
  | stmt :: rest => stmt.Known ∧ Stmt.AllKnown rest

end

theorem Expr.Known.cutAt {e : Expr} (h : e.Known) (costs : Costs) (n : Nat) :
    (e.cutAt costs n).Known := by
  induction e generalizing n with
  | literal | var | unknown | cut =>
    cases n with
    | zero => trivial
    | succ n => exact h
  | group _ ih =>
    cases n with
    | zero => trivial
    | succ n => exact ih h _
  | unary _ _ ih | assign _ _ ih =>
    cases n with
    | zero => trivial
    | succ n => exact ⟨h.1, ih h.2 _⟩
  | binary _ _ _ ihl ihr | logical _ _ _ ihl ihr =>
    cases n with
    | zero => trivial
    | succ n => exact ⟨h.1, ihl h.2.1 _, ihr h.2.2 _⟩

mutual

theorem Stmt.Known.cutAt (costs : Costs) : ∀ (stmt : Stmt) (n : Nat),
    stmt.Known → (stmt.cutAt costs n).Known
  | stmt, 0, _ => by cases stmt <;> trivial
  | .expression _, _ + 1, h | .print _, _ + 1, h => Expr.Known.cutAt h costs _
  | .declare _ _, _ + 1, h => ⟨h.1, h.2.cutAt costs _⟩
  | .block body, _ + 1, h => Stmt.AllKnown.cutAllAt costs body _ h
  | .ifThen _ yes, _ + 1, h => ⟨h.1.cutAt costs _, Stmt.Known.cutAt costs yes _ h.2⟩
  | .ifElse _ yes no, _ + 1, h =>
    ⟨h.1.cutAt costs _, Stmt.Known.cutAt costs yes _ h.2.1, Stmt.Known.cutAt costs no _ h.2.2⟩
  | .loop _ body, _ + 1, h => ⟨h.1.cutAt costs _, Stmt.Known.cutAt costs body _ h.2⟩
  | .bare _, _ + 1, h | .unknown _, _ + 1, h => h.elim
  | .cut, _ + 1, _ => trivial

theorem Stmt.AllKnown.cutAllAt (costs : Costs) : ∀ (body : List Stmt) (n : Nat),
    Stmt.AllKnown body → Stmt.AllKnown (Stmt.cutAllAt costs n body)
  | [], _, _ => trivial
  | stmt :: rest, n, h =>
    ⟨Stmt.Known.cutAt costs stmt n h.1, Stmt.AllKnown.cutAllAt costs rest n h.2⟩

end

namespace Grammar

theorem Level.join_known {level : Level} {l r : Expr} {op : Token} (hop : op.kind ∈ level.operators)
    (hl : l.Known) (hr : r.Known) : (level.join l op r).Known := by
  have htier : ∀ kind ∈ level.operators, kind ∈ binaryKinds ∨ kind = .or_ ∨ kind = .and_ := by
    cases level <;> decide
  cases level with
  | assignment | sign | primary => cases hop
  | disjunction => exact ⟨Or.inl (List.mem_singleton.mp hop), hl, hr⟩
  | conjunction => exact ⟨Or.inr (List.mem_singleton.mp hop), hl, hr⟩
  | equality | comparison | sum | product =>
    refine ⟨(htier _ hop).resolve_right fun h => ?_, hl, hr⟩
    rcases h with h | h <;> rw [h] at hop <;> exact absurd hop (by decide)

theorem Phrase.known {level : Level} {ts : List Token} {e : Expr} (h : Phrase level ts e) :
    e.Known := by
  induction h with
  | assign hname _ _ ih => exact ⟨hname, ih⟩
  | join hop _ _ ihl ihr => exact Level.join_known hop ihl ihr
  | sign hop _ ih => exact ⟨hop, ih⟩
  | constant => trivial
  | name ht => exact ht
  | group _ _ _ ih => exact ih
  | operand _ _ ih => exact ih

theorem Terminated.known {ts : List Token} {e : Expr} (h : Terminated ts e) : e.Known := by
  obtain ⟨he, -⟩ := h
  exact he.known

theorem Variable.known {ts : List Token} {s : Stmt} (h : Variable ts s) : s.Known := by
  cases h with
  | bare hname => exact ⟨hname, trivial⟩
  | initialized hname _ he => exact ⟨hname, he.known⟩

theorem Start.known {d : Dialect} {ts : List Token} {s : Stmt} (h : Start d ts (some s)) :
    s.Known := by
  cases h with
  | expression he => exact he.known
  | introduced _ _ hs => exact hs.known
  | plain _ hs => exact hs.known

theorem Clause.known {ts : List Token} {e : Expr} (h : Clause ts (some e)) : e.Known := by
  cases h with
  | present he => exact he.known

theorem Clause.condition_known {ts : List Token} {condition : Option Expr}
    (h : Clause ts condition) : (condition.getD (.literal (.bool true))).Known := by
  cases condition with
  | none => trivial
  | some c => exact h.known

mutual

theorem Statement.known {d : Dialect} : ∀ {ending : Ending} {ts : List Token} {s : Stmt},
    Statement d ending ts s → s.Known
  | _, _, _, .expression he => he.known
  | _, _, _, .print _ he => he.known
  | _, _, _, .ifThen _ _ hc _ hs => ⟨hc.known, hs.known⟩
  | _, _, _, .ifElse _ _ hc _ hs _ _ ht => ⟨hc.known, hs.known, ht.known⟩
  | _, _, _, .loop _ _ hc _ hs => ⟨hc.known, hs.known⟩
  | _, _, _, .block _ hbody _ => hbody.known
  | _, _, _, @Statement.forLoop _ _ _ _ _ _ _ _ _ start _ step _ _ _ _ hstart hc _ he _ hs => by
    have hcondition := hc.condition_known
    cases start <;> cases step
    · exact ⟨hcondition, hs.known⟩
    · exact ⟨hcondition, hs.known, he.known, trivial⟩
    · exact ⟨hstart.known, ⟨hcondition, hs.known⟩, trivial⟩
    · exact ⟨hstart.known, ⟨hcondition, hs.known, he.known, trivial⟩, trivial⟩

theorem Program.known {d : Dialect} : ∀ {ts : List Token} {program : List Stmt},
    Program d ts program → Stmt.AllKnown program
  | _, _, .nil => trivial
  | _, _, .declaration _ hs hrest => ⟨hs.known, hrest.known⟩
  | _, _, .statement hs hrest => ⟨hs.known, hrest.known⟩

end

end Grammar

namespace Evaluation

/-- A misuse in the program, or too much nesting. -/
def Fault.Foreseen : Fault → Prop
  | .misuse .. | .tooMuchNesting => True
  | _ => False

def Result.Foreseen (r : Result) : Prop := ∀ fault, r.1 = .error fault → fault.Foreseen

def Run.Foreseen (r : Run) : Prop := ∀ fault, r.1 = .failed fault → fault.Foreseen

theorem Result.andThen_foreseen {r : Result} {f : Value → Scope → Result} (hr : r.Foreseen)
    (hf : ∀ v scope, (f v scope).Foreseen) : (r.andThen f).Foreseen := by
  obtain ⟨result, scope⟩ := r
  cases result with
  | ok v => exact hf v scope
  | error => exact hr

theorem applyUnary_foreseen (op : Token) (v : Value) (scope : Scope) :
    Result.Foreseen (applyUnary op v, scope) := by
  unfold applyUnary
  intro fault h
  split at h <;> cases h
  trivial

theorem applyNumeric_foreseen {kind : Kind} (h : kind ∈ binaryKinds) (hequal : kind ≠ .equalEqual)
    (hunequal : kind ≠ .bangEqual) (hplus : kind ≠ .plus) (x y : Float) (scope : Scope) :
    Result.Foreseen (applyNumeric kind x y, scope) := by
  intro fault hfault
  cases kind with
  | slash =>
    obtain ⟨z, hz⟩ := applyNumeric_slash x y
    rw [hz] at hfault
    cases hfault
  | _ => contradiction

theorem applyPlus_foreseen (op : Token) (left right : Value) (scope : Scope) :
    Result.Foreseen (applyPlus op left right, scope) := by
  unfold applyPlus
  intro fault h
  split at h <;> cases h
  trivial

theorem applyBinary_foreseen {op : Token} (hop : op.kind ∈ binaryKinds) (left right : Value)
    (scope : Scope) : Result.Foreseen (applyBinary op left right, scope) := by
  unfold applyBinary
  split
  · exact nofun
  · exact nofun
  · exact applyPlus_foreseen op left right scope
  · next hequal hunequal hplus =>
    unfold applyToNumbers
    split
    · exact applyNumeric_foreseen hop hequal hunequal hplus _ _ scope
    · intro fault h
      cases h
      trivial
    · intro fault h
      cases h
      trivial

theorem lookup_foreseen (name : Token) (scope : Scope) : (lookup name scope).Foreseen := by
  unfold lookup
  intro fault h
  split at h <;> cases h
  trivial

theorem store_foreseen (name : Token) (v : Value) (scope : Scope) :
    (store name v scope).Foreseen := by
  unfold store
  intro fault h
  split at h <;> cases h
  trivial

theorem eval_foreseen {e : Expr} (h : e.Known) (scope : Scope) : (eval e scope).Foreseen := by
  induction e generalizing scope with
  | literal => exact nofun
  | group inner ih => exact ih h scope
  | unary op r ih =>
    exact Result.andThen_foreseen (ih h.2 scope) fun v mid => applyUnary_foreseen op v mid
  | binary l op r ihl ihr =>
    refine Result.andThen_foreseen (ihl h.2.1 scope) fun left mid => ?_
    refine Result.andThen_foreseen (ihr h.2.2 mid) fun right last => ?_
    exact applyBinary_foreseen h.1 left right last
  | logical l op r ihl ihr =>
    refine Result.andThen_foreseen (ihl h.2.1 scope) fun left mid => ?_
    split
    · exact nofun
    · exact ihr h.2.2 mid
  | var name => exact lookup_foreseen name scope
  | assign name e ih => exact Result.andThen_foreseen (ih h.2 scope) (store_foreseen name)
  | unknown => exact h.elim
  | cut =>
    intro fault hfault
    cases hfault
    trivial

theorem withValue_foreseen {e : Expr} (h : e.Known) (s : State) {f : Value → State → Run}
    (hf : ∀ v t, (f v t).Foreseen) : (withValue e s f).Foreseen := by
  have heval := eval_foreseen h s.scope
  unfold withValue
  split
  · exact hf _ _
  · next fault scope hfail =>
    rw [hfail] at heval
    intro other hother
    cases hother
    exact heval fault rfl

theorem Run.andThen_foreseen {r : Run} {f : State → Run} (hr : r.Foreseen)
    (hf : ∀ t, (f t).Foreseen) : (r.andThen f).Foreseen := by
  obtain ⟨outcome, t⟩ := r
  cases outcome with
  | completed => exact hf t
  | failed => exact hr
  | outOfFuel => exact hr

theorem repeatWhile_foreseen {c : Expr} (h : c.Known) {body : State → Run}
    (hbody : ∀ t, (body t).Foreseen) (n : Nat) (s : State) :
    (repeatWhile c body n s).Foreseen := by
  induction n generalizing s with
  | zero => exact nofun
  | succ n ih =>
    rw [repeatWhile_succ]
    refine withValue_foreseen h s fun v t => ?_
    split
    · exact Run.andThen_foreseen (hbody t) ih
    · exact nofun

mutual

theorem exec_foreseen (fuel : Nat) : ∀ (stmt : Stmt) (s : State), stmt.Known →
    (exec fuel stmt s).Foreseen
  | .expression _, s, h | .print _, s, h => withValue_foreseen h s fun _ _ => nofun
  | .declare _ _, s, h => withValue_foreseen h.2 s fun _ _ => nofun
  | .block body, s, h => execAll_foreseen fuel body s.enter h
  | .ifThen _ yes, s, h => by
    refine withValue_foreseen h.1 s fun v t => ?_
    split
    · exact exec_foreseen fuel yes t h.2
    · exact nofun
  | .ifElse _ yes no, s, h => by
    refine withValue_foreseen h.1 s fun v t => ?_
    split
    · exact exec_foreseen fuel yes t h.2.1
    · exact exec_foreseen fuel no t h.2.2
  | .loop _ body, s, h =>
    repeatWhile_foreseen h.1 (fun t => exec_foreseen fuel body t h.2) fuel s
  | .bare _, _, h | .unknown _, _, h => h.elim
  | .cut, s, _ => by
    intro fault hfault
    cases hfault
    trivial

theorem execAll_foreseen (fuel : Nat) : ∀ (body : List Stmt) (s : State), Stmt.AllKnown body →
    (execAll fuel body s).Foreseen
  | [], _, _ => nofun
  | stmt :: rest, s, h => by
    rw [execAll_cons]
    exact Run.andThen_foreseen (exec_foreseen fuel stmt s h.1) fun t =>
      execAll_foreseen fuel rest t h.2

end

end Evaluation

namespace Printer

def Writes (r : Except Fault String) : Prop := ∀ fault, r = .error fault → fault = .tooMuchNesting

theorem Writes.bind {r : Except Fault String} {next : String → Except Fault String} (h : Writes r)
    (hnext : ∀ text, Writes (next text)) : Writes (r >>= next) := by
  cases r with
  | ok text => exact hnext text
  | error => exact h

theorem writes_ok (text : String) : Writes (.ok text) := nofun

theorem writes_spell {t : Token} (h : t.kind ≠ .number) : Writes (spell t) := by
  have hwritable : t.isWritable = true := by simp [Token.isWritable, h]
  rw [spell, if_pos hwritable]
  exact writes_ok _

end Printer

open Printer

theorem Expr.Known.writes {e : Expr} (h : e.Known) : Writes e.render := by
  have hbinary : ∀ kind ∈ binaryKinds, kind ≠ .number := by decide
  induction e with
  | literal => exact writes_ok _
  | group _ ih => exact (ih h).bind fun _ => writes_ok _
  | unary op _ ih =>
    have hop : op.kind ≠ .number := by rcases h.1 with hk | hk <;> simp [hk]
    exact (writes_spell hop).bind fun _ => (ih h.2).bind fun _ => writes_ok _
  | binary _ op _ ihl ihr =>
    exact (writes_spell (hbinary _ h.1)).bind fun _ => (ihl h.2.1).bind fun _ =>
      (ihr h.2.2).bind fun _ => writes_ok _
  | logical _ op _ ihl ihr =>
    have hop : op.kind ≠ .number := by rcases h.1 with hk | hk <;> simp [hk]
    exact (writes_spell hop).bind fun _ => (ihl h.2.1).bind fun _ =>
      (ihr h.2.2).bind fun _ => writes_ok _
  | var name =>
    have hname : name.kind = .identifier := h
    exact writes_spell (by simp [hname])
  | assign _ _ ih =>
    exact (writes_spell (by simp [h.1])).bind fun _ => (ih h.2).bind fun _ => writes_ok _
  | unknown => exact h.elim
  | cut =>
    intro fault hfault
    cases hfault
    rfl

theorem Stmt.AllKnown.isLine {body : List Stmt} (h : Stmt.AllKnown body) :
    body.all Stmt.isLine = true := by
  induction body with
  | nil => rfl
  | cons stmt rest ih =>
    have hstmt : stmt.isLine = true := by
      cases stmt with
      | bare => exact h.1.elim
      | _ => rfl
    simp [hstmt, ih h.2]

mutual

theorem Stmt.Known.writes : ∀ (stmt : Stmt) (level : Int), stmt.Known → Writes (stmt.render level)
  | .expression _, _, h | .print _, _, h => (Expr.Known.writes h).bind fun _ => writes_ok _
  | .declare _ _, _, h =>
    (writes_spell (by simp [h.1])).bind fun _ => h.2.writes.bind fun _ => writes_ok _
  | .block body, level, h => by
    refine (Stmt.AllKnown.writes body (level + 1) h).bind fun lines => ?_
    rw [if_pos h.isLine]
    exact writes_ok _
  | .ifThen _ yes, level, h =>
    h.1.writes.bind fun _ => (Stmt.Known.writes yes (level + 1) h.2).bind fun _ => writes_ok _
  | .ifElse _ yes no, level, h =>
    h.1.writes.bind fun _ => (Stmt.Known.writes yes (level + 1) h.2.1).bind fun _ =>
      (Stmt.Known.writes no (level + 1) h.2.2).bind fun _ => writes_ok _
  | .loop _ body, level, h =>
    h.1.writes.bind fun _ => (Stmt.Known.writes body (level + 1) h.2).bind fun _ => writes_ok _
  | .bare _, _, h | .unknown _, _, h => h.elim
  | .cut, _, _ => by
    intro fault hfault
    cases hfault
    rfl

theorem Stmt.AllKnown.writes : ∀ (body : List Stmt) (level : Int), Stmt.AllKnown body →
    Writes (Stmt.renderAll level body)
  | [], _, _ => writes_ok _
  | stmt :: rest, level, h =>
    (Stmt.Known.writes stmt level h.1).bind fun _ =>
      (Stmt.AllKnown.writes rest level h.2).bind fun _ => writes_ok _

end

end Lox
