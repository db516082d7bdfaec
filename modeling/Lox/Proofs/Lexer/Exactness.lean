import Lox.Proofs.Lexer.Lexeme

/-!
# The reader accepts exactly the lexical grammar

Every text has one cut that cannot be carried further. Reading the text gives the tokens which that
cut spells, or the fault at which it is stuck.
-/

namespace Lox.Lexer

theorem next_settled {gap : List Char} {c : Char} {cs : List Char} (hgap : Gap gap)
    (h : Settled (c :: cs)) (line : Nat) :
    next ⟨line, gap ++ c :: cs⟩ = lexeme (line + gap.count '\n') c cs := by
  simp only [next, skipGap_gap hgap, skipGap_settled h]

theorem next_end {gap : List Char} (hgap : Gap gap) (line : Nat) :
    next ⟨line, gap⟩ = make .eof .nil (line + gap.count '\n') [] := by
  have hskip := skipGap_gap hgap line []
  rw [List.append_nil, skipGap] at hskip
  simp only [next, hskip]

theorem next_piece {p : Piece} {rest : List Char} (hgap : Gap p.gap)
    (h : Spelling p.lexeme p.kind p.value) (hrest : Whole p.kind rest) (line : Nat) :
    next ⟨line, p.chars ++ rest⟩ =
      make p.kind p.value (line + p.chars.count '\n') rest := by
  obtain ⟨c, cs, hlexeme, hread⟩ := h.lexeme_whole (line + p.gap.count '\n') hrest
  have hsettled := h.settled hrest
  rw [hlexeme, List.cons_append] at hsettled
  have hchars : p.chars ++ rest = p.gap ++ c :: (cs ++ rest) := by
    rw [Piece.chars, hlexeme, List.append_assoc]
    rfl
  rw [hchars, next_settled hgap hsettled, hread, Piece.chars, List.count_append, Nat.add_assoc]

theorem number_of_digit {c : Char} (h : Text.isDigit c = true) :
    ∃ x, Number.ofNat? (Number.digitsValue [c]) = some x := by
  have hrange := Text.isDigit_has h
  simp only [Text.Ranges.has, List.any_cons, List.any_nil, Bool.or_false, Bool.and_eq_true,
    decide_eq_true_eq] at hrange
  have hsmall : ∀ n ≤ 9, (Number.ofNat? n).isSome = true := by decide
  have hvalue : Number.digitsValue [c] ≤ 9 := by
    have hzero : '0'.toNat = 48 := rfl
    simp only [Number.digitsValue, List.foldl_cons, List.foldl_nil, hzero]
    omega
  exact Option.isSome_iff_exists.mp (hsmall _ hvalue)

theorem exists_spelling {c : Char} (h : starts c = true) :
    ∃ rest kind value, Spelling (c :: rest) kind value := by
  have hwhole : StartsWhole [c] → ∃ rest kind value, Spelling (c :: rest) kind value := by
    rintro ⟨lex, rest, kind, value, hchars, hspelling, -⟩
    obtain ⟨d, ds, rfl, -⟩ := hspelling.head
    obtain ⟨rfl, -⟩ := List.cons.inj hchars
    exact ⟨ds, kind, value, hspelling⟩
  have hblank : Text.isBlank c = false := Bool.eq_false_iff.mpr fun hc => by
    rw [isBlank_starts hc] at h
    exact Bool.false_ne_true h
  simp only [starts, Bool.or_eq_true, Option.isSome_iff_exists, beq_iff_eq] at h
  rcases h with (((⟨kind, hkind⟩ | ⟨⟨alone, paired⟩, hpair⟩) | rfl) | hdigit) | hletter
  · exact hwhole (single_starts_whole hkind (settled_cons hblank (by simp)))
  · exact hwhole (pair_starts_whole hpair [])
  · exact ⟨_, _, _, @Spelling.text [] (by simp)⟩
  · obtain ⟨x, hx⟩ := number_of_digit hdigit
    exact ⟨[], _, _, .number (by simp) (by simpa using hdigit) hx⟩
  · exact hwhole (letter_starts_whole hletter)

theorem Stuck.ne_nil {rest : List Char} {fault : Fault} (h : Stuck rest fault) : rest ≠ [] := by
  cases h <;> simp_all

theorem settled_digit {c : Char} {cs : List Char} (h : Text.isDigit c = true) :
    Settled (c :: cs) := by
  refine settled_cons (Bool.eq_false_iff.mpr fun hblank => ?_) ?_
  · rw [Text.isBlank_isDigit hblank] at h
    exact Bool.false_ne_true h
  · rintro rfl
    exact absurd h (by decide)

theorem Stuck.settled {rest : List Char} {fault : Fault} (h : Stuck rest fault)
    (hfault : fault ≠ .unterminatedComment) : Settled rest := by
  cases h with
  | comment => exact absurd rfl hfault
  | text => exact settled_cons (by decide) fun h => absurd h (by decide)
  | number hne hdigits =>
    obtain ⟨c, cs, rfl⟩ := List.exists_cons_of_ne_nil hne
    exact settled_digit (hdigits c List.mem_cons_self)
  | nul => exact settled_cons (by decide) fun h => absurd h (by decide)
  | character hblank _ hstart =>
    refine settled_cons hblank ?_
    rintro rfl
    obtain ⟨rest, kind, value, hspelling⟩ := exists_spelling (show starts '/' = true by decide)
    exact absurd hspelling (hstart rest kind value)

def Onward (rest left : List Char) : Prop := ∃ used, rest = used ++ left ∧ '\n' ∉ used

theorem Stuck.lexeme_fails {c : Char} {cs : List Char} {fault : Fault} (line : Nat)
    (h : Stuck (c :: cs) fault) (hfault : fault ≠ .unterminatedComment) :
    ∃ left, Onward (c :: cs) left ∧ lexeme line c cs = .error ⟨fault, ⟨line, left⟩⟩ := by
  generalize hrest : c :: cs = rest at h ⊢
  cases h with
  | comment => exact absurd rfl hfault
  | text hcs =>
    cases hrest
    exact ⟨_, ⟨['"'], rfl, by decide⟩, text_unclosed hcs line⟩
  | @number digits rest hne hdigits hwhole hx =>
    obtain ⟨d, ds, rfl⟩ := List.exists_cons_of_ne_nil hne
    cases hrest
    refine ⟨rest, ⟨_, rfl, fun hfeed => absurd (hdigits '\n' hfeed) (by decide)⟩, ?_⟩
    rw [List.append_eq, lexeme_digit line _ (hdigits c List.mem_cons_self),
      number_overflow line (fun d hd => hdigits d (List.mem_cons_of_mem c hd)) hwhole hx]
  | nul =>
    cases hrest
    exact ⟨_, ⟨['\x00'], rfl, by decide⟩, lexeme_other line _ (by decide)⟩
  | character hblank hnul hstart =>
    cases hrest
    have hstarts : starts c = false := Bool.eq_false_iff.mpr fun hc => by
      obtain ⟨rest, kind, value, hspelling⟩ := exists_spelling hc
      exact hstart rest kind value hspelling
    have hfeed : '\n' ∉ [c] := by
      intro hmem
      rw [← List.mem_singleton.mp hmem] at hblank
      exact absurd hblank (by decide)
    refine ⟨cs, ⟨[c], rfl, hfeed⟩, ?_⟩
    rw [lexeme_other line _ hstarts, if_neg hnul]

/-- Reading fails where the text is stuck, on the line of that place. -/
theorem next_stuck {gap rest : List Char} {fault : Fault} (hgap : Gap gap)
    (h : Stuck rest fault) (line : Nat) :
    ∃ left, Onward rest left ∧
      next ⟨line, gap ++ rest⟩ = .error ⟨fault, ⟨line + gap.count '\n', left⟩⟩ := by
  by_cases hfault : fault = .unterminatedComment
  · subst hfault
    cases h with
    | @comment cs hcs =>
      refine ⟨'/' :: '/' :: cs, ⟨[], rfl, List.not_mem_nil⟩, ?_⟩
      simp only [next, skipGap_gap hgap, skipGap_unended hcs]
  · have hsettled := h.settled hfault
    obtain ⟨c, cs, rfl⟩ := List.exists_cons_of_ne_nil h.ne_nil
    rw [next_settled hgap hsettled]
    exact h.lexeme_fails _ hfault

theorem Spelling.ne_eof {lex : List Char} {kind : Kind} {value : Value}
    (h : Spelling lex kind value) : kind ≠ .eof := by
  cases h with
  | fixed _ hkind => exact hkind
  | text => decide
  | number => decide
  | name => decide

theorem read_eq (p : Place) :
    read p =
      match next p with
      | .error failure => ⟨[], some failure⟩
      | .ok (t, q) =>
        if t.kind = .eof then ⟨[t], none⟩ else ⟨t :: (read q).tokens, (read q).failure⟩ := by
  rw [read]
  split
  · next hfail => rw [hfail]
  · next hok =>
    rw [hok]
    split <;> simp_all

theorem read_piece {p : Piece} {rest : List Char} (hgap : Gap p.gap)
    (h : Spelling p.lexeme p.kind p.value) (hrest : Whole p.kind rest) (line : Nat) :
    read ⟨line, p.chars ++ rest⟩ =
      ⟨⟨p.kind, p.value, (line + p.chars.count '\n' : Nat)⟩ ::
        (read ⟨line + p.chars.count '\n', rest⟩).tokens,
       (read ⟨line + p.chars.count '\n', rest⟩).failure⟩ := by
  rw [read_eq, next_piece hgap h hrest line]
  exact if_neg h.ne_eof

theorem read_pieces {pieces : List Piece} {after : List Char} (h : WellCut pieces after)
    (line : Nat) :
    read ⟨line, piecesChars pieces ++ after⟩ =
      ⟨tokensFrom line pieces ++ (read ⟨line + (piecesChars pieces).count '\n', after⟩).tokens,
       (read ⟨line + (piecesChars pieces).count '\n', after⟩).failure⟩ := by
  induction pieces generalizing line with
  | nil => rfl
  | cons p ps ih =>
    obtain ⟨hgap, hspelling, hwhole, hps⟩ := h
    have hchars : piecesChars (p :: ps) = p.chars ++ piecesChars ps := List.flatMap_cons
    rw [hchars, List.append_assoc, read_piece hgap hspelling hwhole, ih hps, List.count_append,
      ← Nat.add_assoc]
    rfl

theorem read_cut {cut : Cut} {text : List Char} (h : cut.Of text) :
    read ⟨1, text⟩ =
      ⟨tokensFrom 1 cut.pieces ++
        (read ⟨1 + (piecesChars cut.pieces).count '\n', cut.gap ++ cut.rest⟩).tokens,
       (read ⟨1 + (piecesChars cut.pieces).count '\n', cut.gap ++ cut.rest⟩).failure⟩ := by
  rw [h.covers]
  exact read_pieces h.pieces 1

theorem read_end {gap : List Char} (hgap : Gap gap) (line : Nat) :
    read ⟨line, gap⟩ = ⟨[⟨.eof, .nil, (line + gap.count '\n' : Nat)⟩], none⟩ := by
  rw [read_eq, next_end hgap line]
  rfl

theorem read_of_cut {cut : Cut} {source : String} (h : cut.Of source.toList)
    (hrest : cut.rest = []) : read (start source) = ⟨cut.tokens, none⟩ := by
  have hread := read_cut h
  rw [hrest, List.append_nil, read_end h.gap, Nat.add_assoc, ← List.count_append] at hread
  exact hread

theorem scan_of_cut {cut : Cut} {source : String} (h : cut.Of source.toList)
    (hrest : cut.rest = []) : scan source = .ok cut.tokens := by
  simp only [scan, read_of_cut h hrest]

theorem read_of_stuck {cut : Cut} {source : String} {fault : Fault} (h : cut.Of source.toList)
    (hstuck : Stuck cut.rest fault) :
    ∃ left, read (start source) =
      ⟨tokensFrom 1 cut.pieces, some ⟨fault, ⟨cut.line, left⟩⟩⟩ := by
  obtain ⟨left, -, hnext⟩ := next_stuck h.gap hstuck (1 + (piecesChars cut.pieces).count '\n')
  have hfail : read ⟨1 + (piecesChars cut.pieces).count '\n', cut.gap ++ cut.rest⟩ =
      ⟨[], some ⟨fault, ⟨cut.line, left⟩⟩⟩ := by
    rw [Cut.line, List.count_append, ← Nat.add_assoc, read_eq, hnext]
  have hread := read_cut h
  rw [hfail, List.append_nil] at hread
  exact ⟨left, hread⟩

theorem scan_of_stuck {cut : Cut} {source : String} {fault : Fault} (h : cut.Of source.toList)
    (hstuck : Stuck cut.rest fault) :
    ∃ left, scan source = .error ⟨fault, ⟨cut.line, left⟩⟩ := by
  obtain ⟨left, hread⟩ := read_of_stuck h hstuck
  exact ⟨left, by simp only [scan, hread]⟩

theorem Cut.Of.cons {p : Piece} {cut : Cut} {text : List Char} (hgap : Gap p.gap)
    (hspelling : Spelling p.lexeme p.kind p.value) (hwhole : Whole p.kind text)
    (h : cut.Of text) : Cut.Of ⟨p :: cut.pieces, cut.gap, cut.rest⟩ (p.chars ++ text) where
  covers := by
    rw [h.covers]
    simp [piecesChars]
  pieces := by
    refine ⟨hgap, hspelling, ?_, h.pieces⟩
    rw [← h.covers]
    exact hwhole
  gap := h.gap

theorem exists_halted_cut (text : List Char) : ∃ cut : Cut, cut.Of text ∧ Halted cut.rest := by
  induction hlength : text.length using Nat.strongRecOn generalizing text with
  | _ n ih =>
    subst hlength
    obtain ⟨gap, rest, rfl, hgap, hrest⟩ := exists_gap text
    have hstop (hhalted : Halted rest) :
        ∃ cut : Cut, cut.Of (gap ++ rest) ∧ Halted cut.rest :=
      ⟨⟨[], gap, rest⟩, ⟨rfl, trivial, hgap⟩, hhalted⟩
    rcases hrest with hsettled | hstuck
    · cases rest with
      | nil => exact hstop (Or.inl rfl)
      | cons c cs =>
        rcases starts_whole_or_stuck hsettled with hwhole | hstuck
        · obtain ⟨lex, after, kind, value, hchars, hspelling, hwhole⟩ := hwhole
          have hshorter : after.length < (gap ++ c :: cs).length := by
            obtain ⟨d, ds, rfl, -⟩ := hspelling.head
            rw [hchars]
            simp
            omega
          obtain ⟨cut, hcut, hhalted⟩ := ih after.length hshorter after rfl
          refine ⟨⟨⟨gap, lex, kind, value⟩ :: cut.pieces, cut.gap, cut.rest⟩, ?_, hhalted⟩
          have hof := @Cut.Of.cons ⟨gap, lex, kind, value⟩ cut after hgap hspelling hwhole hcut
          rw [hchars, ← List.append_assoc]
          exact hof
        · exact hstop (Or.inr hstuck)
    · exact hstop (Or.inr ⟨_, hstuck⟩)

theorem Resting.gap_unique {gap gap' rest rest' : List Char} (hgap : Gap gap) (hgap' : Gap gap')
    (hrest : Resting rest) (hrest' : Resting rest') (h : gap ++ rest = gap' ++ rest') :
    gap = gap' ∧ rest = rest' := by
  -- skipping the gap reports what is left of the text, whether it fails or not
  have hleft : ∀ {g r : List Char}, Gap g → Resting r →
      ∃ line, skipGap 1 (g ++ r) = .ok ⟨line, r⟩ ∨
        skipGap 1 (g ++ r) = .error ⟨.unterminatedComment, ⟨line, r⟩⟩ := by
    intro g r hg hr
    rw [skipGap_gap hg]
    rcases hr.skip with hskip | hskip
    · exact ⟨_, Or.inl (hskip _)⟩
    · exact ⟨_, Or.inr (hskip _)⟩
  obtain ⟨line, hskip⟩ := hleft hgap hrest
  obtain ⟨line', hskip'⟩ := hleft hgap' hrest'
  rw [h] at hskip
  have heq : rest = rest' := by
    rcases hskip with hskip | hskip <;> rcases hskip' with hskip' | hskip' <;>
      (rw [hskip] at hskip'; cases hskip'; try rfl)
  subst heq
  exact ⟨List.append_cancel_right h, rfl⟩

theorem Halted.resting {rest : List Char} (h : Halted rest) : Resting rest := by
  rcases h with rfl | ⟨fault, h⟩
  · exact Or.inl trivial
  · by_cases hfault : fault = .unterminatedComment
    · subst hfault
      exact Or.inr h
    · exact Or.inl (h.settled hfault)

theorem whole_unique {lex lex' rest rest' : List Char} {kind kind' : Kind} {value value' : Value}
    (h : Spelling lex kind value) (hrest : Whole kind rest) (h' : Spelling lex' kind' value')
    (hrest' : Whole kind' rest') (heq : lex ++ rest = lex' ++ rest') :
    lex = lex' ∧ kind = kind' ∧ value = value' ∧ rest = rest' := by
  obtain ⟨c, cs, rfl, hread⟩ := h.lexeme_whole 1 hrest
  obtain ⟨d, ds, rfl, hread'⟩ := h'.lexeme_whole 1 hrest'
  obtain ⟨rfl, htail⟩ := List.cons.inj heq
  rw [List.append_eq, List.append_eq] at htail
  rw [htail, hread'] at hread
  simp only [make, Except.ok.injEq, Prod.mk.injEq, Token.mk.injEq, Place.mk.injEq] at hread
  obtain ⟨⟨rfl, rfl, -⟩, -, rfl⟩ := hread
  exact ⟨List.append_cancel_right heq, rfl, rfl, rfl⟩

theorem Halted.not_whole {rest : List Char} (h : Halted rest) : ¬ StartsWhole rest := by
  rintro ⟨lex, after, kind, value, rfl, hspelling, hwhole⟩
  have hok := @next_piece ⟨[], lex, kind, value⟩ after .nil hspelling hwhole 1
  rw [Piece.chars, List.nil_append] at hok
  rcases h with h | ⟨fault, h⟩
  · obtain ⟨c, cs, rfl, -⟩ := hspelling.head
    cases h
  · obtain ⟨left, -, hfail⟩ := next_stuck .nil h 1
    rw [List.nil_append, hok] at hfail
    cases hfail

theorem Halted.no_piece {gap rest after : List Char} {p : Piece} (hrest : Halted rest)
    (hgap : Gap gap) (hgap' : Gap p.gap) (hspelling : Spelling p.lexeme p.kind p.value)
    (hwhole : Whole p.kind after) : gap ++ rest ≠ p.gap ++ (p.lexeme ++ after) := by
  intro h
  have hresting : Resting (p.lexeme ++ after) := Or.inl (hspelling.settled hwhole)
  obtain ⟨-, rfl⟩ := Resting.gap_unique hgap hgap' hrest.resting hresting h
  exact hrest.not_whole ⟨_, _, _, _, rfl, hspelling, hwhole⟩

theorem pieces_cons_append (p : Piece) (ps : List Piece) (after : List Char) :
    piecesChars (p :: ps) ++ after = p.gap ++ (p.lexeme ++ (piecesChars ps ++ after)) := by
  simp [piecesChars, Piece.chars]

theorem pieces_unique {ps qs : List Piece} {gap gap' rest rest' : List Char}
    (hps : WellCut ps (gap ++ rest)) (hqs : WellCut qs (gap' ++ rest')) (hgap : Gap gap)
    (hgap' : Gap gap') (hrest : Halted rest) (hrest' : Halted rest')
    (h : piecesChars ps ++ (gap ++ rest) = piecesChars qs ++ (gap' ++ rest')) :
    ps = qs ∧ gap = gap' ∧ rest = rest' := by
  induction ps generalizing qs with
  | nil =>
    cases qs with
    | nil => exact ⟨rfl, Resting.gap_unique hgap hgap' hrest.resting hrest'.resting h⟩
    | cons q qs =>
      obtain ⟨hqgap, hqspelling, hqwhole, -⟩ := hqs
      rw [pieces_cons_append] at h
      exact absurd h (hrest.no_piece hgap hqgap hqspelling hqwhole)
  | cons p ps ih =>
    obtain ⟨hpgap, hpspelling, hpwhole, hps⟩ := hps
    rw [pieces_cons_append] at h
    cases qs with
    | nil => exact absurd h.symm (hrest'.no_piece hgap' hpgap hpspelling hpwhole)
    | cons q qs =>
      obtain ⟨hqgap, hqspelling, hqwhole, hqs⟩ := hqs
      rw [pieces_cons_append] at h
      -- Both gaps end where a lexeme starts, so they are as long, and then so are the lexemes.
      obtain ⟨hgaps, hlexemes⟩ := Resting.gap_unique hpgap hqgap
        (Or.inl (hpspelling.settled hpwhole)) (Or.inl (hqspelling.settled hqwhole)) h
      obtain ⟨hlexeme, hkind, hvalue, hafter⟩ :=
        whole_unique hpspelling hpwhole hqspelling hqwhole hlexemes
      obtain ⟨rfl, hend⟩ := ih hps hqs hafter
      refine ⟨?_, hend⟩
      cases p
      cases q
      simp_all

/-- Two cuts of one text that cannot be carried further are the same. -/
theorem Cut.Of.unique {a b : Cut} {text : List Char} (ha : a.Of text) (hb : b.Of text)
    (hrest : Halted a.rest) (hrest' : Halted b.rest) : a = b := by
  obtain ⟨hpieces, hgap, hleft⟩ := pieces_unique ha.pieces hb.pieces ha.gap hb.gap hrest hrest'
    (ha.covers.symm.trans hb.covers)
  cases a
  cases b
  simp_all

/-- A source is scanned into tokens iff it can be cut into gaps and whole lexemes to its end, and
the tokens are those that the cut spells. It fails iff some cut is stuck before the end, with the
fault and on the line of that place. Both kinds of cut are unique. -/
theorem scanner_reads_exactly_the_lexical_grammar (source : String) :
    (∀ tokens, scan source = .ok tokens ↔
      ∃ cut : Cut, cut.Of source.toList ∧ cut.rest = [] ∧ tokens = cut.tokens) ∧
    (∀ fault line, (∃ left, scan source = .error ⟨fault, ⟨line, left⟩⟩) ↔
      ∃ cut : Cut, cut.Of source.toList ∧ Stuck cut.rest fault ∧ line = cut.line) ∧
    ∃ cut : Cut, (cut.Of source.toList ∧ Halted cut.rest) ∧
      ∀ other : Cut, other.Of source.toList → Halted other.rest → other = cut := by
  obtain ⟨cut, hcut, hhalted⟩ := exists_halted_cut source.toList
  refine ⟨fun tokens => ⟨fun h => ?_, ?_⟩, fun fault line => ⟨?_, ?_⟩,
    cut, ⟨hcut, hhalted⟩, fun other hother hrest => hother.unique hcut hrest hhalted⟩
  · rcases hhalted with hrest | ⟨fault, hstuck⟩
    · rw [scan_of_cut hcut hrest] at h
      exact ⟨cut, hcut, hrest, (Except.ok.inj h).symm⟩
    · obtain ⟨left, hfail⟩ := scan_of_stuck hcut hstuck
      rw [hfail] at h
      cases h
  · rintro ⟨cut, hcut, hrest, rfl⟩
    exact scan_of_cut hcut hrest
  · rintro ⟨left, h⟩
    rcases hhalted with hrest | ⟨fault, hstuck⟩
    · rw [scan_of_cut hcut hrest] at h
      cases h
    · obtain ⟨left, hfail⟩ := scan_of_stuck hcut hstuck
      rw [hfail] at h
      cases h
      exact ⟨cut, hcut, hstuck, rfl⟩
  · rintro ⟨cut, hcut, hstuck, rfl⟩
    exact scan_of_stuck hcut hstuck

end Lox.Lexer
