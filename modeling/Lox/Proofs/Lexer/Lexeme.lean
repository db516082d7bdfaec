import Lox.Proofs.Lexer.Cut

/-!
# Gaps and lexemes, one at a time

Reading a gap and reading a lexeme agree with the lexical grammar: what is cut off whole is read as
it is cut, and a text that does not end has a next lexeme or is stuck.
-/

namespace Lox.Lexer

def Settled : List Char → Prop
  | '/' :: '/' :: _ => False
  | c :: _ => Text.isBlank c = false
  | [] => True

theorem skipGap_blank {c : Char} (line : Nat) (cs : List Char) (hc : Text.isBlank c = true) :
    skipGap line (c :: cs) = skipGap (line + [c].count '\n') cs := by
  by_cases hfeed : c = '\n'
  · subst hfeed
    rw [skipGap]
    rfl
  · have hslash : c ≠ '/' := by
      rintro rfl
      exact absurd hc (by decide)
    rw [skipGap.eq_def]
    simp [hfeed, hslash, hc]

theorem skipGap_comment {body : List Char} (line : Nat) (cs : List Char) (hbody : '\n' ∉ body) :
    skipGap line ('/' :: '/' :: body ++ '\n' :: cs) = skipGap (line + 1) cs := by
  have hdrop : (body ++ '\n' :: cs).dropWhile (· ≠ '\n') = '\n' :: cs := by
    rw [List.dropWhile_append_of_pos]
    · simp
    · intro c hc
      simpa using ne_of_mem_of_not_mem hc hbody
  have hcontains : (body ++ '\n' :: cs).contains '\n' = true := by simp
  rw [List.cons_append, List.cons_append, skipGap, if_pos hcontains, hdrop, skipGap]

theorem skipGap_gap {gap : List Char} (h : Gap gap) (line : Nat) (rest : List Char) :
    skipGap line (gap ++ rest) = skipGap (line + gap.count '\n') rest := by
  induction h generalizing line with
  | nil => rfl
  | @blank c cs hc _ ih =>
    rw [List.cons_append, skipGap_blank line _ hc, ih, Nat.add_assoc, ← List.count_append]
    rfl
  | @comment body cs hbody _ ih =>
    have hcount : ('/' :: '/' :: body ++ '\n' :: cs).count '\n' = 1 + cs.count '\n' := by
      simp [List.count_eq_zero.mpr hbody, Nat.add_comm]
    have happend : ('/' :: '/' :: body ++ '\n' :: cs) ++ rest =
        '/' :: '/' :: body ++ '\n' :: (cs ++ rest) := by simp
    rw [happend, skipGap_comment line _ hbody, ih, hcount, Nat.add_assoc]

theorem skipGap_settled {rest : List Char} (h : Settled rest) (line : Nat) :
    skipGap line rest = .ok ⟨line, rest⟩ := by
  unfold Settled at h
  split at h
  · exact h.elim
  · next c cs hslash =>
    have hfeed : c ≠ '\n' := by
      rintro rfl
      exact absurd h (by decide)
    rw [skipGap.eq_def]
    split
    · contradiction
    · next heq => exact absurd (List.cons.inj heq).1 hfeed
    · next heq => exact (hslash _ (List.cons.inj heq).1 (List.cons.inj heq).2).elim
    · next heq =>
      obtain ⟨rfl, rfl⟩ := List.cons.inj heq
      simp [h]
  · rw [skipGap]

theorem skipGap_unended {cs : List Char} (h : '\n' ∉ cs) (line : Nat) :
    skipGap line ('/' :: '/' :: cs) =
      .error ⟨.unterminatedComment, ⟨line, '/' :: '/' :: cs⟩⟩ := by
  rw [skipGap, if_neg (by simpa using h)]

/-- A gap ends here: nothing of a gap follows, or a comment that does not end. -/
def Resting (rest : List Char) : Prop := Settled rest ∨ Stuck rest .unterminatedComment

theorem exists_gap (text : List Char) :
    ∃ gap rest, text = gap ++ rest ∧ Gap gap ∧ Resting rest := by
  induction h : text.length using Nat.strongRecOn generalizing text with
  | _ n ih =>
    subst h
    by_cases hsettled : Settled text
    · exact ⟨[], text, rfl, .nil, Or.inl hsettled⟩
    unfold Settled at hsettled
    split at hsettled
    · next cs =>
      by_cases hend : '\n' ∈ cs
      · obtain ⟨body, after, rfl, hbody⟩ := List.eq_append_cons_of_mem hend
        obtain ⟨gap, rest, rfl, hgap, hrest⟩ := ih after.length (by simp; omega) after rfl
        exact ⟨_, rest, by simp, .comment hbody hgap, hrest⟩
      · exact ⟨[], _, rfl, .nil, Or.inr (.comment hend)⟩
    · next c cs _ =>
      obtain ⟨gap, rest, rfl, hgap, hrest⟩ := ih cs.length (by simp) cs rfl
      exact ⟨c :: gap, rest, rfl, .blank (by simpa using hsettled) hgap, hrest⟩
    · exact absurd trivial hsettled

theorem Resting.skip {rest : List Char} (h : Resting rest) :
    (∀ line, skipGap line rest = .ok ⟨line, rest⟩) ∨
      ∀ line, skipGap line rest = .error ⟨.unterminatedComment, ⟨line, rest⟩⟩ := by
  rcases h with h | h
  · exact Or.inl (skipGap_settled h)
  · cases h with
    | comment hcs => exact Or.inr (skipGap_unended hcs)

theorem takeWhile_stop {p : Char → Bool} {run rest : List Char} (hrun : ∀ c ∈ run, p c = true)
    (hrest : ∀ c ∈ rest.head?, p c = false) : (run ++ rest).takeWhile p = run := by
  rw [List.takeWhile_append_of_pos hrun]
  cases rest with
  | nil => simp
  | cons c cs => simp [hrest c rfl]

theorem dropWhile_stop {p : Char → Bool} {run rest : List Char} (hrun : ∀ c ∈ run, p c = true)
    (hrest : ∀ c ∈ rest.head?, p c = false) : (run ++ rest).dropWhile p = rest := by
  rw [List.dropWhile_append_of_pos hrun]
  cases rest with
  | nil => rfl
  | cons c cs => simp [hrest c rfl]

theorem text_closed {body : List Char} (hbody : '"' ∉ body) (line : Nat) (rest : List Char) :
    text line (body ++ '"' :: rest) =
      make .string (.text (String.ofList body)) (line + body.count '\n') rest := by
  have hrun : ∀ c ∈ body, decide (c ≠ '"') = true := fun c hc => by
    simpa using ne_of_mem_of_not_mem hc hbody
  have hstop : ∀ c ∈ ('"' :: rest).head?, decide (c ≠ '"') = false := by simp
  simp only [text, takeWhile_stop hrun hstop, dropWhile_stop hrun hstop]

theorem text_unclosed {cs : List Char} (h : '"' ∉ cs) (line : Nat) :
    text line cs = .error ⟨.unterminatedText, ⟨line, cs⟩⟩ := by
  have hrun : ∀ c ∈ cs, decide (c ≠ '"') = true := fun c hc => by
    simpa using ne_of_mem_of_not_mem hc h
  have hdrop : cs.dropWhile (· ≠ '"') = [] := by
    simpa using @dropWhile_stop _ cs [] hrun (by simp)
  simp only [text, hdrop]

theorem lexeme_quote (line : Nat) (cs : List Char) : lexeme line '"' cs = text line cs := rfl

theorem lexeme_digit {c : Char} (line : Nat) (cs : List Char) (h : Text.isDigit c = true) :
    lexeme line c cs = number line c cs := by
  obtain ⟨hchar, hpair, hquote⟩ := not_punctuation (by decide) h
  simp only [lexeme, hchar, hpair, if_neg hquote, h, if_true]

theorem lexeme_letter {c : Char} (line : Nat) (cs : List Char) (h : Text.startsName c = true) :
    lexeme line c cs = word line c cs := by
  obtain ⟨hchar, hpair, hquote⟩ := not_punctuation (by decide) h
  have hdigit : Text.isDigit c = false := Text.startsName_isDigit h
  simp only [lexeme, hchar, hpair, if_neg hquote, hdigit, h, if_true, Bool.false_eq_true, if_false]

theorem lexeme_other {c : Char} (line : Nat) (cs : List Char) (h : starts c = false) :
    lexeme line c cs =
      .error ⟨if c = '\x00' then .unexpectedEnd else .unexpectedCharacter c, ⟨line, cs⟩⟩ := by
  simp only [starts, Bool.or_eq_false_iff, Option.isSome_eq_false_iff, Option.isNone_iff_eq_none,
    beq_eq_false_iff_ne] at h
  obtain ⟨⟨⟨⟨hchar, hpair⟩, hquote⟩, hdigit⟩, hletter⟩ := h
  simp only [lexeme, hchar, hpair, if_neg hquote, hdigit, hletter, Bool.false_eq_true, if_false]
  split <;> rfl

theorem number_whole {c : Char} {cs rest : List Char} {x : Float} (line : Nat)
    (hcs : ∀ d ∈ cs, Text.isDigit d = true) (hrest : ∀ d ∈ rest.head?, Text.isDigit d = false)
    (hx : Number.ofNat? (Number.digitsValue (c :: cs)) = some x) :
    number line c (cs ++ rest) = make .number (.number x) line rest := by
  simp only [number, takeWhile_stop hcs hrest, dropWhile_stop hcs hrest, hx]

theorem number_overflow {c : Char} {cs rest : List Char} (line : Nat)
    (hcs : ∀ d ∈ cs, Text.isDigit d = true) (hrest : ∀ d ∈ rest.head?, Text.isDigit d = false)
    (hx : Number.overflow ≤ Number.digitsValue (c :: cs)) :
    number line c (cs ++ rest) =
      .error ⟨.invalidNumber (String.ofList (c :: cs)), ⟨line, rest⟩⟩ := by
  have hnone := (Number.ofNat_eq_none_iff _).mpr hx
  simp only [number, takeWhile_stop hcs hrest, dropWhile_stop hcs hrest, hnone]

theorem word_reserved {c : Char} {cs rest : List Char} {kind : Kind} (line : Nat)
    (hcs : ∀ d ∈ cs, Text.continuesName d = true)
    (hrest : ∀ d ∈ rest.head?, Text.continuesName d = false)
    (hkind : Kind.ofWord? (String.ofList (c :: cs)) = some kind) :
    word line c (cs ++ rest) = make kind .nil line rest := by
  simp only [word, takeWhile_stop hcs hrest, dropWhile_stop hcs hrest, hkind]

theorem word_name {c : Char} {cs rest : List Char} (line : Nat)
    (hcs : ∀ d ∈ cs, Text.continuesName d = true)
    (hrest : ∀ d ∈ rest.head?, Text.continuesName d = false)
    (hkind : Kind.ofWord? (String.ofList (c :: cs)) = none) :
    word line c (cs ++ rest) =
      make .identifier (.text (String.ofList (c :: cs))) line rest := by
  simp only [word, takeWhile_stop hcs hrest, dropWhile_stop hcs hrest, hkind]

theorem sign_alone {alone paired : Kind} {rest : List Char} (line : Nat)
    (hrest : ∀ c ∈ rest.head?, decide (c = '=') = false) :
    sign line alone paired rest = make alone .nil line rest := by
  unfold sign
  split
  · exact absurd (hrest '=' rfl) (by decide)
  · rfl

theorem prolongs_reserved {kind : Kind} (h : kind ∈ reserved) (c : Char) :
    prolongs kind c = Text.continuesName c := by
  cases kind <;> first | rfl | exact absurd h (by decide)

theorem reserved_letters {kind : Kind} {spelling : String} (hkind : kind ∈ reserved)
    (h : kind.spelling? = some spelling) : ∃ c cs, spelling = String.ofList (c :: cs) ∧
      Text.startsName c = true ∧ ∀ d ∈ cs, Text.continuesName d = true := by
  cases kind <;> first
    | exact absurd hkind (by decide)
    | (cases h; exact ⟨_, _, (String.ofList_toList).symm, by decide,
        List.all_eq_true.mp (by decide)⟩)

theorem lexeme_reserved {kind : Kind} {spelling : String} {rest : List Char} (line : Nat)
    (hkind : kind ∈ reserved) (h : kind.spelling? = some spelling) (hrest : Whole kind rest) :
    ∃ c cs, spelling.toList = c :: cs ∧ lexeme line c (cs ++ rest) = make kind .nil line rest := by
  obtain ⟨c, cs, rfl, hc, hcs⟩ := reserved_letters hkind h
  refine ⟨c, cs, String.toList_ofList, ?_⟩
  have hstop : ∀ d ∈ rest.head?, Text.continuesName d = false := fun d hd => by
    rw [← prolongs_reserved hkind]
    exact hrest d hd
  rw [lexeme_letter line _ hc,
    word_reserved line hcs hstop (Kind.of_word_eq_some_iff.mpr ⟨hkind, h⟩)]

theorem lexeme_fixed {kind : Kind} {spelling : String} {rest : List Char} (line : Nat)
    (hkind : kind ≠ .eof) (h : kind.spelling? = some spelling) (hrest : Whole kind rest) :
    ∃ c cs, spelling.toList = c :: cs ∧ lexeme line c (cs ++ rest) = make kind .nil line rest := by
  by_cases hword : kind ∈ reserved
  · exact lexeme_reserved line hword h hrest
  · cases kind <;> first
      | exact absurd (by decide) hword
      | exact absurd rfl hkind
      | (cases h; exact ⟨_, _, rfl, rfl⟩)
      | (cases h; exact ⟨_, _, rfl, sign_alone line hrest⟩)
      | cases h

theorem count_feed_of_all {p : Char → Bool} {run : List Char} (hp : p '\n' = false)
    (h : ∀ c ∈ run, p c = true) : run.count '\n' = 0 := by
  refine List.count_eq_zero.mpr fun hmem => ?_
  rw [h _ hmem] at hp
  exact Bool.false_ne_true hp.symm

theorem count_feed_fixed {kind : Kind} {spelling : String} (h : kind.spelling? = some spelling) :
    spelling.toList.count '\n' = 0 := by
  cases kind <;> cases h <;> rfl

/-- A whole lexeme is read as the token it spells, on the line on which it ends. -/
theorem Spelling.lexeme_whole {lex rest : List Char} {kind : Kind} {value : Value} (line : Nat)
    (h : Spelling lex kind value) (hrest : Whole kind rest) :
    ∃ c cs, lex = c :: cs ∧
      lexeme line c (cs ++ rest) = make kind value (line + lex.count '\n') rest := by
  cases h with
  | fixed hspelling hkind =>
    rw [count_feed_fixed hspelling]
    exact lexeme_fixed line hkind hspelling hrest
  | @text body hbody =>
    refine ⟨'"', body ++ ['"'], rfl, ?_⟩
    have hcount : ('"' :: body ++ ['"']).count '\n' = body.count '\n' := by simp
    rw [lexeme_quote, List.append_assoc, hcount]
    exact text_closed hbody line rest
  | number hne hdigits hx =>
    obtain ⟨c, cs, rfl⟩ := List.exists_cons_of_ne_nil hne
    refine ⟨c, cs, rfl, ?_⟩
    rw [lexeme_digit line _ (hdigits c List.mem_cons_self),
      number_whole line (fun d hd => hdigits d (List.mem_cons_of_mem c hd)) hrest hx,
      count_feed_of_all (by decide) hdigits]
    rfl
  | @name c cs hc hcs hfree =>
    refine ⟨c, cs, rfl, ?_⟩
    have hword : Kind.ofWord? (String.ofList (c :: cs)) = none := by
      refine Option.eq_none_iff_forall_ne_some.mpr fun kind hkind => ?_
      obtain ⟨hreserved, hspelling⟩ := Kind.of_word_eq_some_iff.mp hkind
      refine hfree kind ?_ hspelling
      rintro rfl
      exact absurd hreserved (by decide)
    have hfeed : c ≠ '\n' := by
      rintro rfl
      exact absurd hc (by decide)
    rw [lexeme_letter line _ hc, word_name line hcs hrest hword,
      List.count_cons_of_ne hfeed, count_feed_of_all (by decide) hcs]
    rfl

theorem settled_cons {c : Char} {cs : List Char} (hblank : Text.isBlank c = false)
    (hslash : c = '/' → ∀ d ∈ cs.head?, d ≠ '/') : Settled (c :: cs) := by
  unfold Settled
  split
  · next heq =>
    obtain ⟨rfl, rfl⟩ := List.cons.inj heq
    exact hslash rfl '/' rfl rfl
  · next heq =>
    obtain ⟨rfl, rfl⟩ := List.cons.inj heq
    exact hblank
  · trivial

theorem Settled.not_blank {c : Char} {cs : List Char} (h : Settled (c :: cs)) :
    Text.isBlank c = false := by
  unfold Settled at h
  split at h
  · exact h.elim
  · next heq =>
    obtain ⟨rfl, rfl⟩ := List.cons.inj heq
    exact h
  · contradiction

theorem Spelling.settled {lex rest : List Char} {kind : Kind} {value : Value}
    (h : Spelling lex kind value) (hrest : Whole kind rest) : Settled (lex ++ rest) := by
  obtain ⟨c, cs, hlex, hstart⟩ := h.head
  have hblank : Text.isBlank c = false := Bool.eq_false_iff.mpr fun hc => by
    rw [isBlank_starts hc] at hstart
    exact Bool.false_ne_true hstart
  rw [hlex]
  refine settled_cons hblank fun hslash => ?_
  subst hslash
  cases h with
  | @fixed _ spelling hspelling hkind =>
    cases kind <;> cases hspelling <;> cases hlex
    simpa [Whole, prolongs, reserved] using hrest
  | text => cases hlex
  | number _ hdigits =>
    subst hlex
    exact absurd (hdigits '/' List.mem_cons_self) (by decide)
  | name hc =>
    cases hlex
    exact absurd hc (by decide)

def StartsWhole (text : List Char) : Prop :=
  ∃ lex rest kind value, text = lex ++ rest ∧ Spelling lex kind value ∧ Whole kind rest

theorem head_dropWhile {p : Char → Bool} (cs : List Char) :
    ∀ c ∈ (cs.dropWhile p).head?, p c = false := by
  intro c hc
  have hstop := List.head?_dropWhile_not p cs
  rw [Option.mem_def.mp hc] at hstop
  exact hstop

theorem StartsWhole.fixed {lex rest : List Char} {kind : Kind}
    (h : kind.spelling? = some (String.ofList lex)) (hkind : kind ≠ .eof)
    (hrest : Whole kind rest) : StartsWhole (lex ++ rest) := by
  refine ⟨lex, rest, kind, .nil, rfl, ?_, hrest⟩
  rw [← @String.toList_ofList lex]
  exact .fixed h hkind

theorem single_starts_whole {c : Char} {cs : List Char} {kind : Kind}
    (h : Kind.ofChar? c = some kind) (hsettled : Settled (c :: cs)) : StartsWhole (c :: cs) := by
  have hkind : kind ≠ .eof ∧ Whole kind cs := by
    by_cases hslash : kind = .slash
    · subst hslash
      refine ⟨by decide, fun d hd => ?_⟩
      obtain rfl : c = '/' := by
        unfold Kind.ofChar? at h
        split at h <;> first | rfl | cases h
      obtain ⟨ds, rfl⟩ := List.head?_eq_some_iff.mp hd
      refine decide_eq_false ?_
      rintro rfl
      exact hsettled
    · unfold Kind.ofChar? at h
      split at h <;> cases h <;> first | exact ⟨by decide, fun d _ => rfl⟩ | contradiction
  exact StartsWhole.fixed (Kind.of_char_spelling h) hkind.1 hkind.2

theorem pair_starts_whole {c : Char} {alone paired : Kind}
    (h : Kind.ofPair? c = some (alone, paired)) (cs : List Char) : StartsWhole (c :: cs) := by
  obtain ⟨halone, hpaired⟩ := Kind.of_pair_spelling h
  have hkind : alone ≠ .eof ∧ paired ≠ .eof ∧ (∀ rest, Whole paired rest) ∧
      ∀ d, prolongs alone d = decide (d = '=') := by
    unfold Kind.ofPair? at h
    split at h <;> cases h <;> exact ⟨by decide, by decide, fun _ _ _ => rfl, fun _ => rfl⟩
  by_cases hcs : ∃ rest, cs = '=' :: rest
  · obtain ⟨rest, rfl⟩ := hcs
    exact @StartsWhole.fixed [c, '='] rest paired hpaired hkind.2.1 (hkind.2.2.1 rest)
  · refine @StartsWhole.fixed [c] cs alone halone hkind.1 fun d hd => ?_
    rw [hkind.2.2.2]
    obtain ⟨ds, rfl⟩ := List.head?_eq_some_iff.mp hd
    refine decide_eq_false ?_
    rintro rfl
    exact hcs ⟨ds, rfl⟩

theorem text_starts_whole {cs : List Char} (h : '"' ∈ cs) : StartsWhole ('"' :: cs) := by
  obtain ⟨body, rest, rfl, hbody⟩ := List.eq_append_cons_of_mem h
  exact ⟨'"' :: body ++ ['"'], rest, _, _, by simp, .text hbody, fun c _ => rfl⟩

theorem digit_starts {c : Char} {cs : List Char} (hc : Text.isDigit c = true) :
    StartsWhole (c :: cs) ∨ ∃ fault, Stuck (c :: cs) fault := by
  have hsplit : c :: cs = (c :: cs.takeWhile Text.isDigit) ++ cs.dropWhile Text.isDigit := by
    rw [List.cons_append, List.takeWhile_append_dropWhile]
  have hdigits : ∀ d ∈ c :: cs.takeWhile Text.isDigit, Text.isDigit d = true := by
    intro d hd
    rcases List.mem_cons.mp hd with rfl | hd
    · exact hc
    · exact List.all_eq_true.mp List.all_takeWhile d hd
  have hrest : Whole .number (cs.dropWhile Text.isDigit) := head_dropWhile cs
  cases hx : Number.ofNat? (Number.digitsValue (c :: cs.takeWhile Text.isDigit)) with
  | some x => exact Or.inl ⟨_, _, _, _, hsplit, .number (by simp) hdigits hx, hrest⟩
  | none =>
    have hstuck := Stuck.number (by simp) hdigits hrest ((Number.ofNat_eq_none_iff _).mp hx)
    rw [← hsplit] at hstuck
    exact Or.inr ⟨_, hstuck⟩

theorem reserved_of_letter {kind : Kind} {c : Char} {cs : List Char} (hkind : kind ≠ .eof)
    (h : kind.spelling? = some (String.ofList (c :: cs))) (hc : Text.startsName c = true) :
    kind ∈ reserved := by
  have hchars : kind.spelling?.map String.toList = some (c :: cs) := by
    rw [h, Option.map_some, String.toList_ofList]
  cases kind <;> first
    | decide
    | exact absurd rfl hkind
    | (cases hchars <;> exact absurd hc (by decide))

theorem letter_starts_whole {c : Char} {cs : List Char} (hc : Text.startsName c = true) :
    StartsWhole (c :: cs) := by
  have hsplit : c :: cs =
      (c :: cs.takeWhile Text.continuesName) ++ cs.dropWhile Text.continuesName := by
    rw [List.cons_append, List.takeWhile_append_dropWhile]
  have hletters : ∀ d ∈ cs.takeWhile Text.continuesName, Text.continuesName d = true :=
    List.all_eq_true.mp List.all_takeWhile
  have hrest : ∀ d ∈ (cs.dropWhile Text.continuesName).head?, Text.continuesName d = false :=
    head_dropWhile cs
  cases hword : Kind.ofWord? (String.ofList (c :: cs.takeWhile Text.continuesName)) with
  | some kind =>
    obtain ⟨hkind, hspelling⟩ := Kind.of_word_eq_some_iff.mp hword
    rw [hsplit]
    refine StartsWhole.fixed hspelling ?_ fun d hd => ?_
    · rintro rfl
      exact absurd hkind (by decide)
    · rw [prolongs_reserved hkind]
      exact hrest d hd
  | none =>
    refine ⟨_, _, _, _, hsplit, .name hc hletters fun kind hkind hspelling => ?_, hrest⟩
    have hreserved := reserved_of_letter hkind hspelling hc
    rw [Kind.of_word_eq_some_iff.mpr ⟨hreserved, hspelling⟩] at hword
    cases hword

/-- A text that does not end, and on which no gap goes on, has a next lexeme or is stuck. -/
theorem starts_whole_or_stuck {c : Char} {cs : List Char} (h : Settled (c :: cs)) :
    StartsWhole (c :: cs) ∨ ∃ fault, Stuck (c :: cs) fault := by
  by_cases hstart : starts c = true
  · simp only [starts, Bool.or_eq_true, Option.isSome_iff_exists, beq_iff_eq] at hstart
    rcases hstart with (((⟨kind, hkind⟩ | ⟨⟨alone, paired⟩, hpair⟩) | rfl) | hdigit) | hletter
    · exact Or.inl (single_starts_whole hkind h)
    · exact Or.inl (pair_starts_whole hpair cs)
    · by_cases hclosed : '"' ∈ cs
      · exact Or.inl (text_starts_whole hclosed)
      · exact Or.inr ⟨_, .text hclosed⟩
    · exact digit_starts hdigit
    · exact Or.inl (letter_starts_whole hletter)
  · right
    by_cases hnul : c = '\x00'
    · subst hnul
      exact ⟨_, .nul⟩
    · refine ⟨_, .character h.not_blank hnul fun rest kind value hspelling => ?_⟩
      obtain ⟨d, ds, hchars, hd⟩ := hspelling.head
      cases hchars
      exact hstart hd

end Lox.Lexer
