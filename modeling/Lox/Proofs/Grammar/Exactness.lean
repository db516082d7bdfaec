import Lox.Proofs.Grammar.Completeness
import Lox.Proofs.Grammar.Depth

/-!
# The parser reads exactly the grammar

Soundness and completeness together: for every limit on the nesting that is not met, the tokens
before the end mark are read as the tree that they spell, and rejected if they spell none.
-/

namespace Lox.Grammar

theorem declarations_cons {ctx : Context} {room n : Nat} {ts rest : List Token} {s : Stmt}
    {program : List Stmt} (hts : ts ≠ [])
    (hs : Reaches (entry ctx room ts) s rest)
    (hrest : declarations ctx room n rest = (program, []) ∨
      ∃ e ∈ (declarations ctx room n rest).2, e.fault = .tooMuchNesting) :
    declarations ctx room (n + 1) ts = (s :: program, []) ∨
      ∃ e ∈ (declarations ctx room (n + 1) ts).2, e.fault = .tooMuchNesting := by
  obtain ⟨t, us, rfl⟩ := List.exists_cons_of_ne_nil hts
  rcases hs with hs | ⟨failure, hs, hfault⟩
  · simp only [declarations, hs]
    rcases hrest with hrest | hrest
    · exact Or.inl (by rw [hrest])
    · exact Or.inr hrest
  · right
    simp [declarations, hs, hfault]

theorem declarations_complete {ctx : Context} {ts : List Token} {program : List Stmt} :
    Program spoken ts program → ∀ room n : Nat, ts.length ≤ n → n ≤ ctx.size →
      declarations ctx room n ts = (program, []) ∨
        ∃ e ∈ (declarations ctx room n ts).2, e.fault = .tooMuchNesting
  | .nil, _, 0, _, _ => Or.inl rfl
  | .nil, _, _ + 1, _, _ => Or.inl rfl
  | .declaration _ _ _, _, 0, hn, _ => by simp at hn
  | .declaration hword hs hrest, room, n + 1, hn, hsize => by
    refine declarations_cons (List.cons_ne_nil _ _) (entry_variable hword hs (by omega)) ?_
    exact declarations_complete hrest room n (by simp at hn; omega) (by omega)
  | .statement hs hrest, room, n, hn, hsize => by
    obtain ⟨t, us, hts, -⟩ := hs.head
    have hstop := hrest.no_else (rfl : take? [.else_] [] = none)
    rw [List.append_nil] at hstop
    obtain ⟨n, rfl⟩ : ∃ m, n = m + 1 := ⟨n - 1, by simp [hts] at hn; omega⟩
    refine declarations_cons (by simp [hts]) ?_
      (declarations_complete hrest room n (by simp [hts] at hn; omega) (by omega))
    rw [entry_statement hs]
    exact hs.complete room _ (by omega) fun _ => hstop

theorem parseWithin_complete {room : Nat} {tokens : List Token} {program : List Stmt}
    (h : Program spoken (body tokens) program)
    (hroom : ¬ Exhausted (parseWithin room tokens)) : parseWithin room tokens = .ok program := by
  have hread := @declarations_complete ⟨endLine tokens, (body tokens).length⟩ _ _ h room
    (body tokens).length (Nat.le_refl _) (Nat.le_refl _)
  unfold parseWithin at hroom ⊢
  dsimp only at hroom ⊢
  rcases hread with hread | ⟨e, he, hfault⟩
  · rw [hread]
  · split
    · next hnone =>
      rw [hnone] at he
      cases he
    · next first others hread =>
      rw [hread] at hroom he
      exact absurd ⟨_, rfl, e, he, hfault⟩ hroom

theorem body_append {ts : List Token} {mark : Token} (hts : ∀ t ∈ ts, t.kind ≠ .eof)
    (hmark : mark.kind = .eof) : body (ts ++ [mark]) = ts := by
  unfold body
  rw [List.takeWhile_append_of_pos (by simpa using hts)]
  simp [hmark]

theorem program_loose_iff_nearest {ts : List Token} :
    (∃ program, Program spoken.loose ts program) ↔ ∃ program, Program spoken ts program := by
  constructor
  · rintro ⟨program, h⟩
    exact h.nearest
  · rintro ⟨program, h⟩
    exact ⟨program, h.loose⟩

/-- Where the nesting does not exhaust the parser, a program is returned iff the tokens spell it
with every `else` at the nearest `if`, and errors are returned iff the tokens spell no program even
if an `else` may belong to any `if`. -/
theorem parser_reads_exactly_the_grammar {room : Nat} {ts : List Token} {mark : Token}
    (hts : ∀ t ∈ ts, t.kind ≠ .eof) (hmark : mark.kind = .eof)
    (hroom : ¬ Exhausted (parseWithin room (ts ++ [mark]))) :
    (∀ program, parseWithin room (ts ++ [mark]) = .ok program ↔ Program spoken ts program) ∧
      ((∃ errors, parseWithin room (ts ++ [mark]) = .error errors) ↔
        ¬ ∃ program, Program spoken.loose ts program) := by
  have hbody := body_append hts hmark
  have hexact : ∀ program,
      parseWithin room (ts ++ [mark]) = .ok program ↔ Program spoken ts program := by
    intro program
    constructor
    · intro h
      exact hbody ▸ parseWithin_sound h
    · intro h
      exact parseWithin_complete (by rw [hbody]; exact h) hroom
  refine ⟨hexact, ?_⟩
  rw [program_loose_iff_nearest]
  constructor
  · rintro ⟨errors, herror⟩ ⟨program, hprogram⟩
    rw [(hexact program).mpr hprogram] at herror
    cases herror
  · intro hnone
    cases hread : parseWithin room (ts ++ [mark]) with
    | ok program => exact absurd ⟨program, (hexact program).mp hread⟩ hnone
    | error errors => exact ⟨errors, rfl⟩

/-- The `else` of a nested `if` belongs to the inner one. -/
theorem parser_reads_nested_if :
    let ts : List Token :=
      [⟨.if_, .nil, 1⟩, ⟨.leftParen, .nil, 1⟩, ⟨.identifier, .text "a", 1⟩, ⟨.rightParen, .nil, 1⟩,
       ⟨.if_, .nil, 1⟩, ⟨.leftParen, .nil, 1⟩, ⟨.identifier, .text "b", 1⟩, ⟨.rightParen, .nil, 1⟩,
       ⟨.identifier, .text "x", 2⟩, ⟨.equal, .nil, 2⟩, ⟨.nil_, .nil, 2⟩, ⟨.semicolon, .nil, 2⟩,
       ⟨.else_, .nil, 3⟩, ⟨.leftBrace, .nil, 3⟩, ⟨.rightBrace, .nil, 3⟩]
    (∀ t ∈ ts, t.kind ≠ .eof) ∧ ¬ Exhausted (parse (ts ++ [⟨.eof, .nil, 3⟩])) ∧
      Program spoken ts
        [.ifThen (.var ⟨.identifier, .text "a", 1⟩)
          (.ifElse (.var ⟨.identifier, .text "b", 1⟩)
            (.expression (.assign ⟨.identifier, .text "x", 2⟩ (.literal .nil))) (.block []))] := by
  intro ts
  have hts : ∀ t ∈ ts, t.kind ≠ .eof := by decide
  have hroom : ¬ Exhausted (parse (ts ++ [⟨.eof, .nil, 3⟩])) := not_exhausted (by decide)
  exact ⟨hts, hroom, ((parser_reads_exactly_the_grammar hts rfl hroom).1 _).mp rfl⟩

theorem Variable.head {ts : List Token} {s : Stmt} (h : Variable ts s) :
    ∃ t us, ts = t :: us ∧ t.kind = .identifier := by
  cases h with
  | bare hname => exact ⟨_, _, rfl, hname⟩
  | initialized hname => exact ⟨_, _, rfl, hname⟩

theorem Start.head_plain {d : Dialect} (hd : d.loopWord = false) {ts : List Token}
    {start : Option Stmt} (h : Start d ts start) : ∃ t us, ts = t :: us ∧ t.kind ≠ .var_ := by
  cases h with
  | missing hsemicolon => exact ⟨_, _, rfl, by simp [hsemicolon]⟩
  | expression he =>
    obtain ⟨t, us, rfl, ht⟩ := he.head
    refine ⟨t, us, rfl, fun hk => ?_⟩
    rw [hk] at ht
    exact absurd ht (by decide)
  | introduced hword => simp [hd] at hword
  | plain _ hs =>
    obtain ⟨t, us, rfl, ht⟩ := hs.head
    exact ⟨t, us, rfl, by simp [ht]⟩

theorem Statement.for_head {d : Dialect} (hd : d.loopWord = false) {ending : Ending}
    {ts us : List Token} {s : Stmt} {word : Token} (h : Statement d ending ts s)
    (hts : ts = word :: us) (hword : word.kind = .for_) :
    ∃ left t vs, us = left :: t :: vs ∧ t.kind ≠ .var_ := by
  cases h with
  | forLoop _ _ hstart =>
    obtain ⟨t, vs, rfl, ht⟩ := hstart.head_plain hd
    cases hts
    exact ⟨_, t, _, rfl, ht⟩
  | expression he =>
    obtain ⟨t, vs, rfl, ht⟩ := he.head
    cases hts
    rw [hword] at ht
    exact absurd ht (by decide)
  | print hk | ifThen hk | ifElse hk | loop hk | block hk =>
    cases hts
    rw [hword] at hk
    cases hk

theorem Program.for_head {d : Dialect} (hd : d.loopWord = false) {ts rest : List Token}
    {program : List Stmt} {word left t : Token} (h : Program d ts program)
    (hts : ts = word :: left :: t :: rest) (hword : word.kind = .for_) : t.kind ≠ .var_ := by
  cases h with
  | nil => cases hts
  | declaration hk =>
    obtain ⟨rfl, -⟩ := List.cons.inj hts
    rw [hword] at hk
    cases hk
  | statement hs =>
    obtain ⟨first, us, rfl, -⟩ := hs.head
    obtain ⟨rfl, hus⟩ := List.cons.inj hts
    obtain ⟨left', t', vs, rfl, ht⟩ := hs.for_head hd rfl hword
    cases hus
    exact ht

/-- The grammar as it stands where a loop head may hold the rule for a variable and not the word. -/
def wordless : Dialect := ⟨false, false⟩

/-- A loop that declares its variable is read, although the grammar without the word rejects it. -/
theorem loop_variable_needs_its_word :
    let ts : List Token :=
      [⟨.for_, .nil, 1⟩, ⟨.leftParen, .nil, 1⟩, ⟨.var_, .nil, 1⟩, ⟨.identifier, .text "i", 1⟩,
       ⟨.semicolon, .nil, 1⟩, ⟨.semicolon, .nil, 1⟩, ⟨.rightParen, .nil, 1⟩, ⟨.print_, .nil, 1⟩,
       ⟨.identifier, .text "i", 1⟩, ⟨.semicolon, .nil, 1⟩]
    (¬ ∃ program, Program wordless ts program) ∧
      ∃ program, parse (ts ++ [⟨.eof, .nil, 1⟩]) = .ok program := by
  intro ts
  refine ⟨?_, _, rfl⟩
  rintro ⟨program, h⟩
  exact h.for_head rfl rfl rfl rfl

end Lox.Grammar
