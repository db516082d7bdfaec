import Lox.Program
import Lox.Proofs.Session.Failures
import Lox.Proofs.Tree.Form

/-!
# A printed tree determines the program

The text of a tree is itself made of gaps and lexemes, so it can be scanned, and its tokens are the
form of the tree. A form is read in one way only and has only one tree, so no two programs are
printed alike.
-/

namespace Lox

namespace Lexer

def Stops (rest : List Char) : Prop := ∀ c ∈ rest.head?, c = ' ' ∨ c = '\n' ∨ c = ')'

/-- Before a stop, the text is read as tokens with the given contents. -/
def Reads (text : List Char) (contents : List (Kind × Value)) : Prop :=
  ∀ rest line, Stops rest → ∃ later,
    (read ⟨line, text ++ rest⟩).tokens.map Token.content =
      contents ++ (read ⟨later, rest⟩).tokens.map Token.content

theorem prolongs_stop (kind : Kind) {c : Char} (h : c = ' ' ∨ c = '\n' ∨ c = ')') :
    prolongs kind c = false := by
  rcases h with rfl | rfl | rfl <;> cases kind <;> decide

theorem Stops.append {a b : List Char} (ha : Stops a) (hb : Stops b) : Stops (a ++ b) := by
  cases a with
  | nil => exact hb
  | cons c cs => exact ha

theorem Spelling.read_content {lex rest : List Char} {kind : Kind} {value : Value}
    (h : Spelling lex kind value) (hrest : Whole kind rest) (line : Nat) :
    ∃ later, (read ⟨line, lex ++ rest⟩).tokens.map Token.content =
      (kind, value) :: (read ⟨later, rest⟩).tokens.map Token.content := by
  have hread := @read_piece ⟨[], lex, kind, value⟩ rest .nil h hrest line
  simp only [Piece.chars, List.nil_append] at hread
  exact ⟨_, by rw [hread]; rfl⟩

theorem Spelling.reads {lex : List Char} {kind : Kind} {value : Value}
    (h : Spelling lex kind value) : Reads lex [(kind, value)] :=
  fun _ line hrest => h.read_content (fun c hc => prolongs_stop kind (hrest c hc)) line

theorem reads_nil : Reads [] [] := fun _ line _ => ⟨line, rfl⟩

theorem Reads.gap {gap text : List Char} {contents : List (Kind × Value)}
    (h : Reads text contents) (hgap : Gap gap) : Reads (gap ++ text) contents := by
  intro rest line hrest
  rw [List.append_assoc, read_gap hgap]
  exact h rest _ hrest

theorem Reads.append {a b : List Char} {xs ys : List (Kind × Value)} (ha : Reads a xs)
    (hb : Reads b ys) (hstops : Stops b) : Reads (a ++ b) (xs ++ ys) := by
  intro rest line hrest
  obtain ⟨mid, hmid⟩ := ha (b ++ rest) line (hstops.append hrest)
  obtain ⟨later, hlater⟩ := hb rest mid hrest
  exact ⟨later, by rw [List.append_assoc, hmid, hlater, List.append_assoc]⟩

/-- The text has the forms as its parts, each behind a space or on a new line. -/
structure Parts (text : List Char) (forms : List Form) : Prop where
  stops : Stops text
  reads : Reads text (Form.flattenAll forms)

theorem Parts.nil : Parts [] [] := ⟨nofun, reads_nil⟩

theorem Reads.part {text rest : List Char} {form : Form} {forms : List Form} {c : Char}
    (h : Reads text form.flatten) (hc : c = ' ' ∨ c = '\n') (hrest : Parts rest forms) :
    Parts (c :: text ++ rest) (form :: forms) := by
  have hblank : Text.isBlank c = true := by rcases hc with rfl | rfl <;> decide
  refine ⟨?_, (h.gap (.blank hblank .nil)).append hrest.reads hrest.stops⟩
  rintro d hd
  cases hd
  exact hc.imp_right Or.inl

theorem Reads.spaced {text rest : List Char} {form : Form} {forms : List Form}
    (h : Reads text form.flatten) (hrest : Parts rest forms) :
    Parts (' ' :: text ++ rest) (form :: forms) := h.part (Or.inl rfl) hrest

theorem Reads.lined {text rest : List Char} {form : Form} {forms : List Form}
    (h : Reads text form.flatten) (hrest : Parts rest forms) :
    Parts ('\n' :: text ++ rest) (form :: forms) := h.part (Or.inr rfl) hrest

theorem Reads.opened {text : List Char} {contents : List (Kind × Value)}
    (h : Reads text contents) : Reads ('(' :: text) ((.leftParen, .nil) :: contents) := by
  intro rest line hrest
  have hopen : Spelling ['('] .leftParen .nil := @Spelling.fixed .leftParen "(" rfl (by decide)
  obtain ⟨mid, hmid⟩ := hopen.read_content (fun _ _ => rfl) line
  obtain ⟨later, hlater⟩ := h rest mid hrest
  refine ⟨later, ?_⟩
  rw [List.cons_append, ← List.singleton_append, hmid, hlater]
  rfl

theorem Reads.closed {text : List Char} {contents : List (Kind × Value)}
    (h : Reads text contents) : Reads (text ++ [')']) (contents ++ [(.rightParen, .nil)]) := by
  have hclose : Spelling [')'] .rightParen .nil := @Spelling.fixed .rightParen ")" rfl (by decide)
  refine h.append hclose.reads ?_
  rintro c hc
  cases hc
  exact Or.inr (Or.inr rfl)

theorem Spelling.reads_node {lex parts : List Char} {kind : Kind} {value : Value}
    {forms : List Form} (h : Spelling lex kind value) (hparts : Parts parts forms) :
    Reads ('(' :: (lex ++ parts ++ [')'])) (Form.node (kind, value) forms).flatten :=
  (h.reads.append hparts.reads hparts.stops).closed.opened

theorem Reads.unique {text : List Char} {xs ys : List (Kind × Value)} (hx : Reads text xs)
    (hy : Reads text ys) : xs = ys := by
  obtain ⟨_, hx⟩ := hx [] 1 nofun
  obtain ⟨_, hy⟩ := hy [] 1 nofun
  have hend : ∀ line, (read ⟨line, []⟩).tokens.map Token.content = [(.eof, .nil)] := fun line => by
    rw [read_end .nil]
    rfl
  rw [hend] at hx hy
  exact List.append_cancel_right (hx.symm.trans hy)

theorem Spelled.spell {t : Token} (h : Spelled t) (hkind : t.kind ≠ .string ∧ t.kind ≠ .number) :
    ∃ text, Printer.spell t = .ok text ∧ Spelling text.toList t.kind t.value := by
  have hwritable : t.isWritable = true := by simp [Token.isWritable, hkind.2]
  have hwritten := h.written
  rw [Token.written, if_neg hkind.1] at hwritten
  exact ⟨t.lexeme, if_pos hwritable, hwritten⟩

theorem Spelled.reads_name {name : Token} (h : Spelled name) (hname : name.kind = .identifier) :
    ∃ text, Printer.spell name = .ok text ∧
      Reads text.toList (Form.atom name.content).flatten := by
  obtain ⟨text, htext, hspelling⟩ := h.spell (by rw [hname]; decide)
  exact ⟨text, htext, hspelling.reads⟩

end Lexer

open Lexer

theorem Value.IsConstant.spelling {v : Value} (h : v.IsConstant) :
    Spelling v.literal.toList v.content.1 v.content.2 := by
  cases v with
  | nil => exact .fixed rfl (by decide)
  | bool b => cases b <;> exact .fixed rfl (by decide)
  | number x =>
    obtain ⟨n, hn⟩ := h
    obtain ⟨digits, hdisplay, hne, hdigits, hx⟩ := Number.display_ofNat hn
    have hliteral : (Value.number x).literal.toList = digits := by
      simp [Value.literal, Value.display, hdisplay]
    rw [hliteral]
    exact .number hne hdigits hx
  | text s =>
    have hliteral : (Value.text s).literal.toList = '"' :: s.toList ++ ['"'] := by
      simp [Value.literal]
    have hspelling := @Spelling.text s.toList h
    rw [String.ofList_toList] at hspelling
    rw [hliteral]
    exact hspelling

theorem spelling_word {word : String} {c : Char} {cs : List Char} (hword : word.toList = c :: cs)
    (hc : Text.startsName c = true) (hcs : ∀ d ∈ cs, Text.continuesName d = true)
    (hfree : ∀ kind : Kind, kind ≠ .eof → kind.spelling? ≠ some word) :
    Spelling word.toList .identifier (.text word) := by
  have hlist : word = String.ofList (c :: cs) := by rw [← hword, String.ofList_toList]
  rw [hlist, String.toList_ofList]
  exact .name hc hcs (hlist ▸ hfree)

theorem spelling_group : Spelling "group".toList .identifier (.text "group") :=
  spelling_word rfl (by decide) (List.all_eq_true.mp (by decide)) fun kind _ h => by
    cases kind <;> exact absurd h (by decide)

theorem spelling_block : Spelling "block".toList .identifier (.text "block") :=
  spelling_word rfl (by decide) (List.all_eq_true.mp (by decide)) fun kind _ h => by
    cases kind <;> exact absurd h (by decide)

theorem Expr.reads_binary {l r : Expr} {op : Token} (h : Spelled op)
    (hop : op.kind ≠ .string ∧ op.kind ≠ .number)
    (hl : ∃ text, l.render = .ok text ∧ Reads text.toList l.form.flatten)
    (hr : ∃ text, r.render = .ok text ∧ Reads text.toList r.form.flatten) :
    ∃ text, (Expr.binary l op r).render = .ok text ∧
      Reads text.toList (Expr.binary l op r).form.flatten := by
  obtain ⟨sign, hsign, hspelling⟩ := h.spell hop
  obtain ⟨left, hleft, hreads⟩ := hl
  obtain ⟨right, hright, hreads'⟩ := hr
  refine ⟨_, by rw [Expr.render, hsign, hleft, hright]; rfl, ?_⟩
  simpa [Expr.form, Token.content] using hspelling.reads_node (hreads.spaced (hreads'.spaced .nil))

theorem Expr.reads_form {e : Expr} (hknown : e.Known) (h : e.IsSpelled) :
    ∃ text, e.render = .ok text ∧ Reads text.toList e.form.flatten := by
  have hbinary : ∀ kind ∈ binaryKinds, kind ≠ .string ∧ kind ≠ .number := by decide
  induction e with
  | literal v => exact ⟨v.literal, rfl, h.spelling.reads⟩
  | group e ih =>
    obtain ⟨text, htext, hreads⟩ := ih hknown h
    refine ⟨_, by rw [Expr.render, htext]; rfl, ?_⟩
    simpa [Expr.form] using spelling_group.reads_node (hreads.spaced .nil)
  | unary op r ih =>
    have hop : op.kind ≠ .string ∧ op.kind ≠ .number := by
      rcases hknown.1 with hkind | hkind <;> rw [hkind] <;> decide
    obtain ⟨sign, hsign, hspelling⟩ := h.1.spell hop
    obtain ⟨text, htext, hreads⟩ := ih hknown.2 h.2
    refine ⟨_, by rw [Expr.render, hsign, htext]; rfl, ?_⟩
    simpa [Expr.form, Token.content] using hspelling.reads_node (hreads.spaced .nil)
  | binary l op r ihl ihr =>
    exact reads_binary h.1 (hbinary _ hknown.1) (ihl hknown.2.1 h.2.1) (ihr hknown.2.2 h.2.2)
  | logical l op r ihl ihr =>
    have hop : op.kind ≠ .string ∧ op.kind ≠ .number := by
      rcases hknown.1 with hkind | hkind <;> rw [hkind] <;> decide
    exact reads_binary h.1 hop (ihl hknown.2.1 h.2.1) (ihr hknown.2.2 h.2.2)
  | var name => exact h.reads_name hknown
  | assign name e ih =>
    obtain ⟨target, htarget, hreads⟩ := h.1.reads_name hknown.1
    obtain ⟨text, htext, hreads'⟩ := ih hknown.2 h.2
    have hequal : Spelling "=".toList .equal .nil := .fixed rfl (by decide)
    refine ⟨_, by rw [Expr.render, htarget, htext]; rfl, ?_⟩
    simpa [Expr.form] using hequal.reads_node (hreads.spaced (hreads'.spaced .nil))
  | unknown | cut => exact h.elim

theorem indentation_gap (level : Int) : Gap (Printer.indentation level).toList := by
  rw [Printer.indentation, String.toList_ofList]
  induction 4 * level.toNat with
  | zero => exact .nil
  | succ n ih => exact .blank (by decide) ih

theorem Lexer.Spelling.reads_indented {lex parts : List Char} {kind : Kind} {value : Value}
    {forms : List Form} (level : Int) (h : Spelling lex kind value) (hparts : Parts parts forms) :
    Reads ((Printer.indentation level).toList ++ '(' :: (lex ++ parts ++ [')']))
      (Form.node (kind, value) forms).flatten :=
  (h.reads_node hparts).gap (indentation_gap level)

mutual

theorem Stmt.reads_form (level : Int) : ∀ {stmt : Stmt}, stmt.Known → stmt.IsSpelled →
    ∃ text, stmt.render level = .ok text ∧ Reads text.toList stmt.form.flatten
  | .expression e, hknown, h => by
    obtain ⟨text, htext, hreads⟩ := Expr.reads_form hknown h
    have hhead : Spelling ";".toList .semicolon .nil := .fixed rfl (by decide)
    refine ⟨_, by rw [Stmt.render, htext]; rfl, ?_⟩
    simpa [Stmt.form] using hhead.reads_indented level (hreads.spaced .nil)
  | .print e, hknown, h => by
    obtain ⟨text, htext, hreads⟩ := Expr.reads_form hknown h
    have hhead : Spelling "print".toList .print_ .nil := .fixed rfl (by decide)
    refine ⟨_, by rw [Stmt.render, htext]; rfl, ?_⟩
    simpa [Stmt.form] using hhead.reads_indented level (hreads.spaced .nil)
  | .declare name e, hknown, h => by
    obtain ⟨target, htarget, hreads⟩ := h.1.reads_name hknown.1
    obtain ⟨text, htext, hreads'⟩ := Expr.reads_form hknown.2 h.2
    have hhead : Spelling "var".toList .var_ .nil := .fixed rfl (by decide)
    refine ⟨_, by rw [Stmt.render, htarget, htext]; rfl, ?_⟩
    simpa [Stmt.form] using hhead.reads_indented level (hreads.spaced (hreads'.spaced .nil))
  | .block body, hknown, h => by
    obtain ⟨text, htext, hparts⟩ := Stmt.reads_forms (level + 1) hknown h
    refine ⟨_, by rw [Stmt.render, htext]; exact if_pos (Stmt.AllKnown.isLine hknown), ?_⟩
    simpa [Stmt.form] using spelling_block.reads_indented level hparts
  | .ifThen c yes, hknown, h => by
    obtain ⟨text, htext, hreads⟩ := Expr.reads_form hknown.1 h.1
    obtain ⟨text', htext', hreads'⟩ := Stmt.reads_form (level + 1) hknown.2 h.2
    have hhead : Spelling "if".toList .if_ .nil := .fixed rfl (by decide)
    refine ⟨_, by rw [Stmt.render, htext, htext']; rfl, ?_⟩
    simpa [Stmt.form] using hhead.reads_indented level (hreads.spaced (hreads'.lined .nil))
  | .ifElse c yes no, hknown, h => by
    obtain ⟨text, htext, hreads⟩ := Expr.reads_form hknown.1 h.1
    obtain ⟨text', htext', hreads'⟩ := Stmt.reads_form (level + 1) hknown.2.1 h.2.1
    obtain ⟨text'', htext'', hreads''⟩ := Stmt.reads_form (level + 1) hknown.2.2 h.2.2
    have hhead : Spelling "if".toList .if_ .nil := .fixed rfl (by decide)
    refine ⟨_, by rw [Stmt.render, htext, htext', htext'']; rfl, ?_⟩
    simpa [Stmt.form] using
      hhead.reads_indented level (hreads.spaced (hreads'.lined (hreads''.lined .nil)))
  | .loop c body, hknown, h => by
    obtain ⟨text, htext, hreads⟩ := Expr.reads_form hknown.1 h.1
    obtain ⟨text', htext', hreads'⟩ := Stmt.reads_form (level + 1) hknown.2 h.2
    have hhead : Spelling "while".toList .while_ .nil := .fixed rfl (by decide)
    refine ⟨_, by rw [Stmt.render, htext, htext']; rfl, ?_⟩
    simpa [Stmt.form] using hhead.reads_indented level (hreads.spaced (hreads'.lined .nil))
  | .bare _, _, h | .unknown _, _, h | .cut, _, h => h.elim

theorem Stmt.reads_forms (level : Int) : ∀ {body : List Stmt}, Stmt.AllKnown body →
    Stmt.AllSpelled body →
    ∃ text, Stmt.renderAll level body = .ok text ∧ Parts text.toList (Stmt.forms body)
  | [], _, _ => ⟨"", rfl, .nil⟩
  | stmt :: rest, hknown, h => by
    obtain ⟨text, htext, hreads⟩ := Stmt.reads_form level hknown.1 h.1
    obtain ⟨text', htext', hparts⟩ := Stmt.reads_forms level hknown.2 h.2
    refine ⟨_, by rw [Stmt.renderAll, htext, htext']; rfl, ?_⟩
    simpa [Stmt.forms] using hreads.lined hparts

end

namespace Printer

def Kept (r r' : Except Fault String) : Prop := ∀ text, r = .ok text → r' = .ok text

theorem Kept.rfl {r : Except Fault String} : Kept r r := fun _ h => h

theorem Kept.bind {r r' : Except Fault String} {f g : String → Except Fault String}
    (h : Kept r r') (hnext : ∀ text, Kept (f text) (g text)) : Kept (r >>= f) (r' >>= g) := by
  intro text hfirst
  obtain ⟨part, hpart, hrest⟩ := Grammar.ok_of_bind hfirst
  rw [h part hpart]
  exact hnext part text hrest

theorem kept_cut (r : Except Fault String) : Kept Expr.cut.render r := nofun

end Printer

open Printer

theorem Expr.render_cutAt (e : Expr) (n : Nat) : Kept (e.cutAt costs n).render e.render := by
  induction e generalizing n with
  | literal | var | unknown | cut =>
    cases n with
    | zero => exact kept_cut _
    | succ n => exact Kept.rfl
  | group _ ih =>
    cases n with
    | zero => exact kept_cut _
    | succ n => exact (ih _).bind fun _ => Kept.rfl
  | unary _ _ ih | assign _ _ ih =>
    cases n with
    | zero => exact kept_cut _
    | succ n => exact Kept.rfl.bind fun _ => (ih _).bind fun _ => Kept.rfl
  | binary _ _ _ ihl ihr | logical _ _ _ ihl ihr =>
    cases n with
    | zero => exact kept_cut _
    | succ n =>
      exact Kept.rfl.bind fun _ => (ihl _).bind fun _ => (ihr _).bind fun _ => Kept.rfl

mutual

theorem Stmt.Known.render_cutAt : ∀ (stmt : Stmt) (n : Nat) (level : Int), stmt.Known →
    Kept ((stmt.cutAt costs n).render level) (stmt.render level)
  | stmt, 0, _, _ => by
    cases stmt <;> exact nofun
  | .expression e, _ + 1, _, _ | .print e, _ + 1, _, _ =>
    (e.render_cutAt _).bind fun _ => Kept.rfl
  | .declare _ e, _ + 1, _, _ => Kept.rfl.bind fun _ => (e.render_cutAt _).bind fun _ => Kept.rfl
  | .block body, _ + 1, level, h => by
    refine (Stmt.AllKnown.renderAll_cutAllAt body _ (level + 1) h).bind fun text => ?_
    rw [if_pos (Stmt.AllKnown.isLine (Stmt.AllKnown.cutAllAt costs body _ h)),
      if_pos (Stmt.AllKnown.isLine h)]
    exact Kept.rfl
  | .ifThen c yes, _ + 1, level, h =>
    (c.render_cutAt _).bind fun _ =>
      (Stmt.Known.render_cutAt yes _ (level + 1) h.2).bind fun _ => Kept.rfl
  | .ifElse c yes no, _ + 1, level, h =>
    (c.render_cutAt _).bind fun _ =>
      (Stmt.Known.render_cutAt yes _ (level + 1) h.2.1).bind fun _ =>
        (Stmt.Known.render_cutAt no _ (level + 1) h.2.2).bind fun _ => Kept.rfl
  | .loop c body, _ + 1, level, h =>
    (c.render_cutAt _).bind fun _ =>
      (Stmt.Known.render_cutAt body _ (level + 1) h.2).bind fun _ => Kept.rfl
  | .bare _, _ + 1, _, h | .unknown _, _ + 1, _, h => h.elim
  | .cut, _ + 1, _, _ => Kept.rfl

theorem Stmt.AllKnown.renderAll_cutAllAt : ∀ (body : List Stmt) (n : Nat) (level : Int),
    Stmt.AllKnown body →
    Kept (Stmt.renderAll level (Stmt.cutAllAt costs n body)) (Stmt.renderAll level body)
  | [], _, _, _ => Kept.rfl
  | stmt :: rest, n, level, h =>
    (Stmt.Known.render_cutAt stmt n level h.1).bind fun _ =>
      (Stmt.AllKnown.renderAll_cutAllAt rest n level h.2).bind fun _ => Kept.rfl

end

/-- The same program, but for the lines of its tokens. -/
def Stmt.Alike (p q : List Stmt) : Prop := Stmt.mapAllLines nowhere p = Stmt.mapAllLines nowhere q

/-- A tree that is written within a limit is written without one in the same way. -/
theorem Stmt.AllKnown.renders {room : Nat} {program : List Stmt} {texts : List String}
    (h : Stmt.AllKnown program) (htexts : program.map (Stmt.textWithin room) = texts.map .ok) :
    program.map (Stmt.render 0) = texts.map .ok := by
  induction program generalizing texts with
  | nil => exact htexts
  | cons stmt rest ih =>
    obtain ⟨text, later, rfl, htext, hlater⟩ := List.map_eq_cons_iff.mp htexts.symm
    have hrender := Stmt.Known.render_cutAt stmt room 0 h.1 text htext.symm
    rw [List.map_cons, List.map_cons, hrender, ih h.2 hlater.symm]

theorem Stmt.exists_renders {program : List Stmt} (hknown : Stmt.AllKnown program)
    (h : Stmt.AllSpelled program) :
    ∃ texts : List String, program.map (Stmt.render 0) = texts.map .ok := by
  induction program with
  | nil => exact ⟨[], rfl⟩
  | cons stmt rest ih =>
    obtain ⟨text, htext, -⟩ := Stmt.reads_form 0 hknown.1 h.1
    obtain ⟨texts, htexts⟩ := ih hknown.2 h.2
    exact ⟨text :: texts, by rw [List.map_cons, List.map_cons, htext, htexts]⟩

theorem Stmt.reads_lines {program : List Stmt} {texts : List String}
    (hknown : Stmt.AllKnown program) (h : Stmt.AllSpelled program)
    (htexts : program.map (Stmt.render 0) = texts.map .ok) :
    Reads (Lox.Program.writeLines texts).toList (Form.flattenAll (Stmt.forms program)) := by
  induction program generalizing texts with
  | nil =>
    rw [List.map_eq_nil_iff.mp htexts.symm]
    exact reads_nil
  | cons stmt rest ih =>
    obtain ⟨text, later, rfl, htext, hlater⟩ := List.map_eq_cons_iff.mp htexts.symm
    obtain ⟨text', htext', hreads⟩ := Stmt.reads_form 0 hknown.1 h.1
    cases htext.trans htext'
    have hrest := @Reads.gap ['\n'] _ _ (ih hknown.2 h.2 hlater.symm) (.blank (by decide) .nil)
    have hlines : (Lox.Program.writeLines (text :: later)).toList =
        text.toList ++ (['\n'] ++ (Lox.Program.writeLines later).toList) := by
      simp [Lox.Program.writeLines]
    rw [hlines]
    refine hreads.append hrest ?_
    rintro c hc
    cases hc
    exact Or.inr (Or.inl rfl)

theorem Stmt.alike_of_lines {p q : List Stmt} {texts texts' : List String}
    (hp : Stmt.AllKnown p) (hq : Stmt.AllKnown q) (hp' : Stmt.AllSpelled p)
    (hq' : Stmt.AllSpelled q) (htexts : p.map (Stmt.render 0) = texts.map .ok)
    (htexts' : q.map (Stmt.render 0) = texts'.map .ok)
    (h : Lox.Program.writeLines texts = Lox.Program.writeLines texts') : Stmt.Alike p q := by
  have hreads := Stmt.reads_lines hp hp' htexts
  have hreads' := Stmt.reads_lines hq hq' htexts'
  rw [h] at hreads
  have hforms := Form.flattenAll_inj hp.forms_proper hq.forms_proper (hreads.unique hreads')
  rw [Stmt.Alike, ← hp.toStmts_forms, ← hq.toStmts_forms, hforms]

theorem Stmt.map_mapAllLines {α : Type} {g : Stmt → α} {f : Int → Int}
    (h : ∀ stmt, g (stmt.mapLines f) = g stmt) (p : List Stmt) :
    (Stmt.mapAllLines f p).map g = p.map g := by
  induction p with
  | nil => rfl
  | cons stmt rest ih => rw [Stmt.mapAllLines, List.map_cons, List.map_cons, h, ih]

theorem Stmt.Alike.map_eq {α : Type} {g : Stmt → α} {p q : List Stmt} (h : Stmt.Alike p q)
    (hg : ∀ stmt, g (stmt.mapLines nowhere) = g stmt) : p.map g = q.map g := by
  rw [← Stmt.map_mapAllLines hg p, h, Stmt.map_mapAllLines hg q]

/-- Two sources have the same printed trees just if they have the same program, apart from lines.
The lines that are printed in the place of running a program, in whatever room there is for nested
calls, tell it from any other as well. -/
theorem printed_trees_determine_program {m n : Nat} {a b : String} {p q : List Stmt}
    (ha : Session.parse m a = .ok p) (hb : Session.parse n b = .ok q) :
    (p.map (Stmt.render 0) = q.map (Stmt.render 0) ↔ Stmt.Alike p q) ∧
      ∀ room texts texts', p.map (Stmt.textWithin room) = texts.map .ok →
        q.map (Stmt.textWithin room) = texts'.map .ok →
        (texts = texts' ↔ Stmt.Alike p q) ∧
        (Lox.Program.writeLines texts = Lox.Program.writeLines texts' ↔ Stmt.Alike p q) := by
  have hp := Session.parse_known ha
  have hq := Session.parse_known hb
  have hp' := Session.parse_spelled ha
  have hq' := Session.parse_spelled hb
  constructor
  · constructor
    · intro h
      obtain ⟨texts, htexts⟩ := Stmt.exists_renders hp hp'
      exact Stmt.alike_of_lines hp hq hp' hq' htexts (h ▸ htexts) rfl
    · intro h
      exact h.map_eq fun stmt => Stmt.render_mapLines nowhere stmt 0
  · intro room texts texts' htexts htexts'
    have hlines : Lox.Program.writeLines texts = Lox.Program.writeLines texts' → Stmt.Alike p q :=
      Stmt.alike_of_lines hp hq hp' hq' (hp.renders htexts) (hq.renders htexts')
    have hsame : Stmt.Alike p q → texts = texts' := fun h => by
      have hmap := h.map_eq (Stmt.textWithin_mapLines nowhere room)
      rw [htexts, htexts'] at hmap
      exact (List.map_inj_right fun _ _ => Except.ok.inj).mp hmap
    exact ⟨⟨fun h => hlines (congrArg _ h), hsame⟩, hlines, fun h => congrArg _ (hsame h)⟩

/-- A loop with three clauses and the loop it stands for, on other lines, around a text that looks
like a piece of a tree. -/
theorem loops_printed_alike :
    let a := "for (;x;) print - \") (; x)\";"
    let b := "while (x)\n  print -\") (; x)\";"
    let loop (line : Int) : Stmt := .loop (.var ⟨.identifier, .text "x", 1⟩)
      (.print (.unary ⟨.minus, .nil, line⟩ (.literal (.text ") (; x)"))))
    let texts := ["(while x\n    (print (- \") (; x)\")))"]
    Session.parse 40 a = .ok [loop 1] ∧ Session.parse 40 b = .ok [loop 2] ∧
      [loop 1].map (Stmt.textWithin 9) = texts.map .ok ∧
      [loop 2].map (Stmt.textWithin 9) = texts.map .ok ∧
      Stmt.Alike [loop 1] [loop 2] := by
  intro a b loop texts
  have hread : Lexer.read (Lexer.start a) =
      ⟨[⟨.for_, .nil, 1⟩, ⟨.leftParen, .nil, 1⟩, ⟨.semicolon, .nil, 1⟩,
        ⟨.identifier, .text "x", 1⟩, ⟨.semicolon, .nil, 1⟩, ⟨.rightParen, .nil, 1⟩,
        ⟨.print_, .nil, 1⟩, ⟨.minus, .nil, 1⟩, ⟨.string, .text ") (; x)", 1⟩,
        ⟨.semicolon, .nil, 1⟩, ⟨.eof, .nil, 1⟩], none⟩ := by
    decide +kernel
  have hread' : Lexer.read (Lexer.start b) =
      ⟨[⟨.while_, .nil, 1⟩, ⟨.leftParen, .nil, 1⟩, ⟨.identifier, .text "x", 1⟩,
        ⟨.rightParen, .nil, 1⟩, ⟨.print_, .nil, 2⟩, ⟨.minus, .nil, 2⟩,
        ⟨.string, .text ") (; x)", 2⟩, ⟨.semicolon, .nil, 2⟩, ⟨.eof, .nil, 2⟩], none⟩ := by
    decide +kernel
  have ha : Session.parse 40 a = .ok [loop 1] := by
    rw [Session.parse, Lexer.scan, hread]
    rfl
  have hb : Session.parse 40 b = .ok [loop 2] := by
    rw [Session.parse, Lexer.scan, hread']
    rfl
  have htexts : [loop 1].map (Stmt.textWithin 9) = texts.map .ok := rfl
  have htexts' : [loop 2].map (Stmt.textWithin 9) = texts.map .ok := rfl
  have hsame := (printed_trees_determine_program ha hb).2 9 texts texts htexts htexts'
  exact ⟨ha, hb, htexts, htexts', hsame.1.mp rfl⟩

end Lox
