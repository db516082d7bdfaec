import Lox.Proofs.Grammar.Beginnings
import Lox.Proofs.Grammar.Locality
import Lox.Proofs.Grammar.Recovery

/-!
# Errors are found at the earliest token

The first error of a program is found at a token that makes it inevitable, whatever follows, while
the tokens before that one are the beginning of a program. Wrong targets are set apart, as they are
blamed on a token that lies behind, and so is nesting that is too deep: how deep a program may be
nested is no matter of the grammar, and the token at which it is found says nothing about those
behind it.
-/

namespace Lox.Grammar

section

variable {ctx : Context} {room : Nat} {ts rest : List Token} {s : Stmt} {failure : Failure}

theorem entry_read_again (hsize : ts.length ≤ ctx.size)
    (h : entry ctx room ts = .ok (s, rest)) :
    ∃ used, ts = used ++ rest ∧ ∀ ctx' more, more.head? = rest.head? →
      (used ++ more).length ≤ ctx'.size →
      entry ctx' room (used ++ more) =
        .ok (s, more) := by
  obtain ⟨used, left, v, rfl, -, hsettles⟩ := entry_settles room ts
  have hv := hsettles ctx left rfl hsize
  rw [h] at hv
  cases v with
  | ok a =>
    cases hv
    exact ⟨used, rfl, hsettles⟩
  | target equals => cases hv
  | stuck fault => cases hv

theorem entry_fails_again (hsize : ts.length ≤ ctx.size)
    (h : entry ctx room ts = .error failure)
    (htarget : failure.fault ≠ .assignmentTarget) :
    failure.line = lineAt ctx failure.rest ∧
    ∃ used, ts = used ++ failure.rest ∧ ∀ ctx' more, more.head? = failure.rest.head? →
      (used ++ more).length ≤ ctx'.size →
      entry ctx' room (used ++ more) =
        .error ⟨failure.fault, lineAt ctx' more, more⟩ := by
  obtain ⟨used, left, v, rfl, -, hsettles⟩ := entry_settles room ts
  have hv := hsettles ctx left rfl hsize
  rw [h] at hv
  cases v with
  | ok a => cases hv
  | target equals =>
    cases hv
    exact absurd rfl htarget
  | stuck fault =>
    cases hv
    exact ⟨rfl, used, rfl, hsettles⟩

/-- Behind the tokens `used` the first error is the fault, on the line of the next token, wherever
that token is the one that `left` starts with. -/
def FailsFirst (room : Nat) (used left : List Token) (fault : Fault) : Prop :=
  ∀ ctx n more, more.head? = left.head? → (used ++ more).length ≤ n → n ≤ ctx.size →
    ∃ later, (declarations ctx room n (used ++ more)).2 = ⟨fault, lineAt ctx more⟩ :: later

theorem entry_fails_first (hts : ts ≠ []) (hsize : ts.length ≤ ctx.size)
    (h : entry ctx room ts = .error failure)
    (htarget : failure.fault ≠ .assignmentTarget) :
    failure.line = lineAt ctx failure.rest ∧
    ∃ used, ts = used ++ failure.rest ∧ FailsFirst room used failure.rest failure.fault := by
  obtain ⟨hline, used, rfl, hagain⟩ := entry_fails_again hsize h htarget
  refine ⟨hline, used, rfl, fun ctx' n more hmore hn hsize' => ?_⟩
  have hne : used ++ more ≠ [] := by
    intro hnil
    have hhead := head_append_congr used hmore
    rw [hnil] at hhead
    exact hts (List.head?_eq_none_iff.mp hhead.symm)
  obtain ⟨m, rfl⟩ : ∃ m, n = m + 1 := by
    have hpos := List.length_pos_iff.mpr hne
    exact ⟨n - 1, by omega⟩
  exact declarations_error hne (hagain ctx' more hmore (Nat.le_trans hn hsize')) m

theorem Rounds.first_settled {rounds : List Round} (h : Rounds ctx room ts rounds)
    (hsize : ts.length ≤ ctx.size) {others : List Failure}
    (hfirst : failures rounds = failure :: others) (htarget : failure.fault ≠ .assignmentTarget) :
    failure.line = lineAt ctx failure.rest ∧
    ∃ used, ts = used ++ failure.rest ∧ FailsFirst room used failure.rest failure.fault := by
  induction h with
  | finished => cases hfirst
  | @read ts rest s rounds hts hs _ ih =>
    have hshorter := entry_progress hs
    obtain ⟨hline, used, rfl, hlater⟩ := ih (by omega) hfirst
    obtain ⟨front, rfl, hagain⟩ := entry_read_again hsize hs
    refine ⟨hline, front ++ used, (List.append_assoc ..).symm, ?_⟩
    intro ctx' n more hmore hn hsize'
    have hfront : 0 < front.length := by
      simp only [List.length_append] at hshorter
      omega
    rw [List.append_assoc] at hn ⊢
    have hread := hagain ctx' (used ++ more) (head_append_congr used hmore) (by omega)
    rw [List.length_append] at hn
    obtain ⟨m, rfl⟩ : ∃ m, n = m + 1 := ⟨n - 1, by omega⟩
    have hne : front ++ (used ++ more) ≠ [] :=
      List.append_ne_nil_of_left_ne_nil (List.length_pos_iff.mp hfront) _
    rw [declarations_ok hne hread m]
    exact hlater ctx' m more hmore (by omega) (by omega)
  | failed hts hs | exhausted hts hs =>
    obtain ⟨rfl, -⟩ := List.cons.inj hfirst
    exact entry_fails_first hts hsize hs htarget

/-- No errors but that of a wrong target, unless the nesting is too deep. -/
def Tolerable (errors : List Error) : Prop :=
  errors = [] ∨ (∃ line, errors = [⟨.assignmentTarget, line⟩]) ∨
    ∃ e ∈ errors, e.fault = .tooMuchNesting

theorem Finishes.tolerable (h : Finishes (fun ctx room => entry ctx room) ts) (hts : ts ≠ [])
    {n : Nat} (hn : ts.length ≤ n) (hsize : n ≤ ctx.size) :
    Tolerable (declarations ctx room n ts).2 := by
  obtain ⟨m, rfl⟩ : ∃ m, n = m + 1 := by
    have hpos := List.length_pos_iff.mpr hts
    exact ⟨n - 1, by omega⟩
  have hexhausts : Exhausts (entry ctx room ts) →
      Tolerable (declarations ctx room (m + 1) ts).2 := by
    rintro ⟨failure, hs, hfault⟩
    obtain ⟨later, hlater⟩ := declarations_error hts hs m
    rw [hlater]
    exact Or.inr (Or.inr ⟨_, List.mem_cons_self, hfault⟩)
  have hfew : (ts ++ []).length ≤ ctx.size := by
    rw [List.append_nil]
    exact Nat.le_trans hn hsize
  rcases h with ⟨s, hs⟩ | hspoils
  · have hread := hs ctx room [] hfew quiet_nil
    rw [List.append_nil] at hread
    rcases hread with hread | hread
    · rw [declarations_ok hts hread m]
      cases m <;> exact Or.inl rfl
    · exact hexhausts hread
  · have hrejects := hspoils ctx room [] hfew quiet_nil
    rw [List.append_nil] at hrejects
    rcases hrejects with ⟨line, hs⟩ | hs
    · obtain ⟨t, us, rfl⟩ := List.exists_cons_of_ne_nil hts
      refine Or.inr (Or.inl ⟨line, ?_⟩)
      simp only [declarations, hs]
      cases m <;> rfl
    · exact hexhausts hs

theorem Rounds.first_mended {rounds : List Round} (h : Rounds ctx room ts rounds)
    (hsize : ts.length ≤ ctx.size) {others : List Failure}
    (hfirst : failures rounds = failure :: others) (htarget : failure.fault ≠ .assignmentTarget)
    (hnesting : failure.fault ≠ .tooMuchNesting) :
    ∃ used fill, ts = used ++ failure.rest ∧ Quiet fill ∧ ∀ ctx' limit n,
      (used ++ fill).length ≤ n → n ≤ ctx'.size →
      Tolerable (Grammar.declarations ctx' limit n (used ++ fill)).2 := by
  induction h with
  | finished => cases hfirst
  | @read ts rest s rounds hts hs _ ih =>
    have hshorter := entry_progress hs
    obtain ⟨used, fill, rfl, hquiet, hlater⟩ := ih (by omega) hfirst
    have hviable := entry_viable hsize (statement_viable hsize room)
    obtain ⟨front, rfl, hrepeats⟩ := hviable.again ts s _ (Nat.le_refl _) hs
    refine ⟨front ++ used, fill, (List.append_assoc ..).symm, hquiet,
      fun ctx' limit n hn hsize' => ?_⟩
    have hfront : 0 < front.length := by
      simp only [List.length_append] at hshorter
      omega
    have hne : front ++ (used ++ fill) ≠ [] :=
      List.append_ne_nil_of_left_ne_nil (List.length_pos_iff.mp hfront) _
    rw [List.append_assoc] at hn ⊢
    have hread := hrepeats ctx' limit (used ++ fill) (Nat.le_trans hn hsize') ?_
    · rw [List.length_append] at hn
      obtain ⟨m, rfl⟩ : ∃ m, n = m + 1 := ⟨n - 1, by omega⟩
      rcases hread with hread | ⟨failure', hs', hfault⟩
      · rw [declarations_ok hne hread m]
        exact hlater ctx' limit m (by omega) (by omega)
      · obtain ⟨later, hlater⟩ := declarations_error hne hs' m
        rw [hlater]
        exact Or.inr (Or.inr ⟨_, List.mem_cons_self, hfault⟩)
    · cases used with
      | nil => exact Or.inr hquiet
      | cons t us => exact Or.inl rfl
  | @failed ts failure' rounds hts hs =>
    obtain ⟨rfl, -⟩ := List.cons.inj hfirst
    have hviable := entry_viable hsize (statement_viable hsize room)
    obtain ⟨used, hused, hmends⟩ :=
      hviable.mends ts failure' (Nat.le_refl _) hs htarget hnesting
    by_cases hnil : used = []
    · refine ⟨used, [], hused, quiet_nil, fun ctx' limit n _ _ => ?_⟩
      rw [hnil]
      cases n <;> exact Or.inl rfl
    · obtain ⟨fill, hquiet, hfill⟩ := hmends.resolve_left hnil
      refine ⟨used, fill, hused, hquiet, fun ctx' limit n hn hsize' => ?_⟩
      exact hfill.tolerable (List.append_ne_nil_of_left_ne_nil hnil _) hn hsize'
  | exhausted hts hs hfault =>
    obtain ⟨rfl, -⟩ := List.cons.inj hfirst
    exact absurd hfault hnesting

end

theorem parseWithin_eq_error {room : Nat} {tokens : List Token} {errors : Errors} :
    parseWithin room tokens = .error errors ↔
      (declarations ⟨endLine tokens, (body tokens).length⟩ room (body tokens).length
        (body tokens)).2 = errors.toList := by
  unfold parseWithin
  dsimp only
  split
  · next heq => simp [heq, Errors.toList]
  · next heq =>
    obtain ⟨first, others⟩ := errors
    simp [heq, Errors.toList]

theorem body_append_inner {ts : List Token} (hts : ∀ t ∈ ts, t.kind ≠ .eof) (us : List Token) :
    body (ts ++ us) = ts ++ body us :=
  List.takeWhile_append_of_pos (by simpa using hts)

theorem body_mark {mark : Token} (hmark : mark.kind = .eof) (us : List Token) :
    body (mark :: us) = [] := by
  simp [body, hmark]

theorem endLine_mark {ts : List Token} {mark : Token} (hts : ∀ t ∈ ts, t.kind ≠ .eof)
    (hmark : mark.kind = .eof) (us : List Token) : endLine (ts ++ mark :: us) = mark.line := by
  have hnone : ts.find? (·.kind = .eof) = none := by simpa using hts
  simp [endLine, List.find?_append, hnone, hmark]

/-- The token number `i` is on the line of the first error, which is the same one whatever tokens
follow that token. -/
structure FoundAt (room : Nat) (tokens : List Token) (errors : Errors) (i : Nat) : Prop where
  line : ∃ t, tokens[i]? = some t ∧ t.line = errors.first.line
  always : ∀ more, ∃ errors', parseWithin room (tokens.take (i + 1) ++ more) = .error errors' ∧
    errors'.first = errors.first

/-- A program, or no error but that of a wrong target. -/
def Acceptable (r : Except Errors (List Stmt)) : Prop :=
  (∃ program, r = .ok program) ∨ ∃ line, r = .error ⟨⟨.assignmentTarget, line⟩, []⟩

theorem Tolerable.acceptable {room : Nat} {tokens : List Token}
    (h : Tolerable (declarations ⟨endLine tokens, (body tokens).length⟩ room (body tokens).length
      (body tokens)).2)
    (hroom : ¬ Exhausted (parseWithin room tokens)) : Acceptable (parseWithin room tokens) := by
  rcases h with hnone | ⟨line, hone⟩ | ⟨e, he, hfault⟩
  · exact Or.inl ⟨_, parseWithin_eq_ok.mpr (Prod.ext rfl hnone)⟩
  · exact Or.inr ⟨line, parseWithin_eq_error.mpr hone⟩
  · cases hparse : parseWithin room tokens with
    | ok program =>
      rw [parseWithin_eq_ok] at hparse
      rw [hparse] at he
      cases he
    | error errors =>
      rw [parseWithin_eq_error.mp hparse] at he
      exact absurd ⟨errors, hparse, e, he, hfault⟩ hroom

theorem foundAt_of_settled {room : Nat} {used left : List Token} {mark : Token} {fault : Fault}
    {errors : Errors} (hused : ∀ t ∈ used ++ left, t.kind ≠ .eof) (hmark : mark.kind = .eof)
    (hfirst : errors.first = ⟨fault, lineAt ⟨mark.line, (used ++ left).length⟩ left⟩)
    (hsettled : FailsFirst room used left fault) :
    FoundAt room (used ++ left ++ [mark]) errors used.length := by
  have hinner : ∀ t ∈ used, t.kind ≠ .eof := (List.forall_mem_append.mp hused).1
  -- it is enough to know which tokens are read, and the line of the end mark if none is next
  have halways : ∀ tokens more : List Token, body tokens = used ++ more →
      more.head? = left.head? → lineAt ⟨endLine tokens, (body tokens).length⟩ more =
        errors.first.line →
      ∃ errors', parseWithin room tokens = .error errors' ∧ errors'.first = errors.first := by
    intro tokens more hbody hhead hline
    have hfew : (used ++ more).length ≤ (body tokens).length := by rw [hbody]
    obtain ⟨later, hlater⟩ :=
      hsettled ⟨endLine tokens, (body tokens).length⟩ _ more hhead hfew (Nat.le_refl _)
    rw [hline, ← hbody] at hlater
    refine ⟨⟨⟨fault, errors.first.line⟩, later⟩, parseWithin_eq_error.mpr hlater, ?_⟩
    rw [hfirst]
  cases left with
  | nil =>
    rw [List.append_nil] at hfirst ⊢
    refine ⟨⟨mark, by simp, by rw [hfirst]; rfl⟩, fun more => ?_⟩
    have htake : (used ++ [mark]).take (used.length + 1) ++ more = used ++ mark :: more := by
      rw [List.take_of_length_le (by simp), List.append_assoc]
      rfl
    rw [htake]
    refine halways _ [] ?_ rfl ?_
    · rw [body_append_inner hinner, body_mark hmark]
    · rw [lineAt, endLine_mark hinner hmark, hfirst]
      rfl
  | cons t us =>
    have ht : t.kind ≠ .eof := hused t (by simp)
    refine ⟨⟨t, by simp, by rw [hfirst]; rfl⟩, fun more => ?_⟩
    have htake : (used ++ t :: us ++ [mark]).take (used.length + 1) ++ more =
        used ++ t :: more := by
      have hsplit : used ++ t :: us ++ [mark] = (used ++ [t]) ++ (us ++ [mark]) := by simp
      rw [hsplit, List.take_left' (by simp), List.append_assoc]
      rfl
    rw [htake]
    refine halways _ (t :: body more) ?_ rfl ?_
    · rw [body_append_inner hinner]
      simp [body, ht]
    · rw [hfirst]
      rfl

/-- The first error of a program, unless it is that of a wrong target or of too much nesting, is
found at a token on its line. Whatever follows that token, the error is the same, while the tokens
before it can be continued to a program, or to one whose only error is a wrong target, unless the
nesting of that program is too deep in its turn. -/
theorem errors_are_found_at_the_earliest_token (room : Nat) {ts : List Token} {mark : Token}
    {errors : Errors} (hts : ∀ t ∈ ts, t.kind ≠ .eof) (hmark : mark.kind = .eof)
    (h : parseWithin room (ts ++ [mark]) = .error errors)
    (htarget : errors.first.fault ≠ .assignmentTarget)
    (hnesting : errors.first.fault ≠ .tooMuchNesting) :
    ∃ i, FoundAt room (ts ++ [mark]) errors i ∧
      ∃ fill : List Token, (∀ t ∈ fill, t.kind ≠ .eof) ∧
        ∀ mark' : Token, mark'.kind = .eof →
          let whole := (ts ++ [mark]).take i ++ fill ++ [mark']
          (∀ limit, ¬ Exhausted (parseWithin limit whole) →
            Acceptable (parseWithin limit whole)) ∧
          ∃ enough, ∀ limit, enough ≤ limit → ¬ Exhausted (parseWithin limit whole) := by
  have hbody : body (ts ++ [mark]) = ts := body_append hts hmark
  have hline : endLine (ts ++ [mark]) = mark.line := endLine_mark hts hmark []
  obtain ⟨rounds, hrounds⟩ :=
    @exists_rounds ⟨mark.line, ts.length⟩ room ts (Nat.le_refl _)
  have hdeclarations := hrounds.declarations (Nat.le_refl _) (Nat.le_refl _)
  rw [parseWithin_eq_error, hline, hbody, hdeclarations] at h
  obtain ⟨failure, others, hfirst, hfailure⟩ : ∃ failure others,
      failures rounds = failure :: others ∧ failure.error = errors.first := by
    cases hfailures : failures rounds with
    | nil =>
      rw [hfailures] at h
      cases h
    | cons failure others =>
      rw [hfailures] at h
      exact ⟨failure, others, rfl, (List.cons.inj h).1⟩
  have hfault : errors.first.fault = failure.fault := by rw [← hfailure]; rfl
  rw [hfault] at htarget hnesting
  obtain ⟨hfline, used, hused, hsettled⟩ :=
    hrounds.first_settled (Nat.le_refl _) hfirst htarget
  obtain ⟨used', fill, hused', hquiet, hmended⟩ :=
    hrounds.first_mended (Nat.le_refl _) hfirst htarget hnesting
  obtain rfl : used = used' := List.append_cancel_right (hused.symm.trans hused')
  have hinner : ∀ t ∈ used, t.kind ≠ .eof := by
    rw [hused] at hts
    exact (List.forall_mem_append.mp hts).1
  refine ⟨used.length, ?_, fill, hquiet.inner, fun mark' hmark' => ?_⟩
  · rw [hused] at hts hfline ⊢
    refine foundAt_of_settled hts hmark ?_ hsettled
    rw [← hfailure, ← hfline]
    rfl
  · have htake : (ts ++ [mark]).take used.length = used := by
      rw [hused, List.append_assoc, List.take_left]
    have hfilled : ∀ t ∈ used ++ fill, t.kind ≠ .eof :=
      List.forall_mem_append.mpr ⟨hinner, hquiet.inner⟩
    have hbody' : body (used ++ fill ++ [mark']) = used ++ fill := body_append hfilled hmark'
    rw [htake]
    refine ⟨fun limit => Tolerable.acceptable ?_, _, fun limit => not_exhausted⟩
    rw [hbody']
    exact hmended _ limit _ (Nat.le_refl _) (Nat.le_refl _)

/-- The semicolon shows that a parenthesis is missing before it. -/
theorem errors_are_found_behind_an_open_parenthesis :
    let ts : List Token :=
      [⟨.print_, .nil, 1⟩, ⟨.leftParen, .nil, 1⟩, ⟨.nil_, .nil, 1⟩, ⟨.semicolon, .nil, 2⟩]
    let mark : Token := ⟨.eof, .nil, 3⟩
    let errors : Errors := ⟨⟨.parenAfterExpression, 2⟩, []⟩
    (∀ t ∈ ts, t.kind ≠ .eof) ∧ parse (ts ++ [mark]) = .error errors ∧
      ∃ i, FoundAt usualRoom (ts ++ [mark]) errors i ∧ ∃ fill limit,
        Acceptable (parseWithin limit ((ts ++ [mark]).take i ++ fill ++ [mark])) := by
  intro ts mark errors
  have hts : ∀ t ∈ ts, t.kind ≠ .eof := by decide
  have hparse : parseWithin usualRoom (ts ++ [mark]) = .error errors := rfl
  obtain ⟨i, hfound, fill, -, hfill⟩ :=
    errors_are_found_at_the_earliest_token usualRoom hts rfl hparse (by decide) (by decide)
  obtain ⟨hacceptable, enough, henough⟩ := hfill mark rfl
  exact ⟨hts, hparse, i, hfound, fill, enough, hacceptable _ (henough _ (Nat.le_refl _))⟩

theorem tier_error {ctx : Context} {operators : List Kind} {join : Expr → Token → Expr → Expr}
    {operand : Parser Expr} {ts : List Token} {failure : Failure}
    (h : operand ts = .error failure) : tier ctx operators join operand ts = .error failure := by
  rw [tier, h]
  rfl

theorem signed_signs (ctx : Context) {sign : Token} (hsign : sign.kind = .bang) (k : Nat)
    (rest : List Token) :
    signed ctx k (List.replicate k sign ++ rest) =
      .error ⟨.tooMuchNesting, lineAt ctx rest, rest⟩ := by
  induction k with
  | zero => rfl
  | succ k ih =>
    have htake : take? [.bang, .minus] (sign :: (List.replicate k sign ++ rest)) =
        some (sign, List.replicate k sign ++ rest) := take_cons (by simp [hsign])
    simp only [List.replicate_succ, List.cons_append, signed, signedOperand, htake, ih]
    rfl

theorem entry_signs (ctx : Context) {sign : Token} (hsign : sign.kind = .bang) (k : Nat)
    (rest : List Token) :
    entry ctx (k + 16) (List.replicate (k + 1) sign ++ rest) =
      .error ⟨.tooMuchNesting, lineAt ctx rest, rest⟩ := by
  have hsigned := signed_signs ctx hsign (k + 1) rest
  have hdisjunction : disjunction ctx (signed ctx (k + 1)) (List.replicate (k + 1) sign ++ rest) =
      .error ⟨.tooMuchNesting, lineAt ctx rest, rest⟩ :=
    tier_error (tier_error (tier_error (tier_error (tier_error (tier_error hsigned)))))
  have hexpression : expression ctx (k + 1 + 13) (List.replicate (k + 1) sign ++ rest) =
      .error ⟨.tooMuchNesting, lineAt ctx rest, rest⟩ := by
    rw [expression_add, assignment, hdisjunction]
    rfl
  rw [List.replicate_succ, List.cons_append] at hexpression ⊢
  rw [entry, declaration, take_cons_none (by simp [hsign])]
  change statement ctx (k + 13 + 3) (sign :: _) = _
  rw [statement_add]
  simp only [sentence, hsign, expressionStatement, value, hexpression]
  rfl

theorem parseWithin_first {room : Nat} {tokens : List Token} {failure : Failure}
    (hne : body tokens ≠ [])
    (h : entry ⟨endLine tokens, (body tokens).length⟩ room (body tokens) = .error failure) :
    ∃ later, parseWithin room tokens = .error ⟨failure.error, later⟩ := by
  obtain ⟨n, hn⟩ : ∃ n, (body tokens).length = n + 1 := by
    have hpos := List.length_pos_iff.mpr hne
    exact ⟨(body tokens).length - 1, by omega⟩
  obtain ⟨later, hlater⟩ := declarations_error hne h n
  rw [← hn] at hlater
  exact ⟨later, parseWithin_eq_error.mpr hlater⟩

theorem not_acceptable {first : Error} {later : List Error} (h : first.fault ≠ .assignmentTarget) :
    ¬ Acceptable (.error ⟨first, later⟩) := by
  rintro (⟨program, hprogram⟩ | ⟨line, hline⟩)
  · cases hprogram
  · cases hline
    exact h rfl

/-- An error is found at a token, and within the limit there is a way to go on before it. -/
def Early (room : Nat) (tokens : List Token) (errors : Errors) : Prop :=
  ∃ i, FoundAt room tokens errors i ∧ ∃ (more : List Token) (mark : Token), mark.kind = .eof ∧
    Acceptable (parseWithin room (tokens.take i ++ more ++ [mark]))

section

variable (k : Nat)

theorem parseWithin_signs {sign : Token} (hsign : sign.kind = .bang) (more : List Token) :
    ∃ later, parseWithin (k + 16) (List.replicate (k + 1) sign ++ more) =
      .error ⟨⟨.tooMuchNesting,
        lineAt ⟨endLine (List.replicate (k + 1) sign ++ more), 0⟩ (body more)⟩, later⟩ := by
  have hinner : ∀ t ∈ List.replicate (k + 1) sign, t.kind ≠ .eof := by
    intro t ht
    rw [List.eq_of_mem_replicate ht, hsign]
    decide
  have hbody := body_append_inner hinner more
  generalize htokens : List.replicate (k + 1) sign ++ more = tokens at hbody ⊢
  have hfails := entry_signs ⟨endLine tokens, (body tokens).length⟩ hsign k (body more)
  rw [← hbody] at hfails
  obtain ⟨later, hlater⟩ := parseWithin_first (by simp [hbody]) hfails
  refine ⟨later, hlater.trans ?_⟩
  cases body more <;> rfl

/-- With fewer signs the line of the error is that of the token behind them, with more of them
nothing is read. -/
theorem not_early_signs {sign mark : Token} (hsign : sign.kind = .bang) (hmark : mark.kind = .eof)
    (n : Nat) :
    ∃ errors, parseWithin (k + 16) (List.replicate (k + 1 + (n + 1)) sign ++ [mark]) =
        .error errors ∧ errors.first = ⟨.tooMuchNesting, sign.line⟩ ∧
      ¬ Early (k + 16) (List.replicate (k + 1 + (n + 1)) sign ++ [mark]) errors := by
  rw [← List.replicate_append_replicate, List.append_assoc]
  have hnext : body (List.replicate (n + 1) sign ++ [mark]) = List.replicate (n + 1) sign := by
    refine body_append (fun t ht => ?_) hmark
    rw [List.eq_of_mem_replicate ht, hsign]
    decide
  obtain ⟨later, hparse⟩ := parseWithin_signs k hsign (List.replicate (n + 1) sign ++ [mark])
  rw [hnext] at hparse
  refine ⟨_, hparse, rfl, ?_⟩
  rintro ⟨i, hfound, more, mark', -, hacceptable⟩
  by_cases hi : i < k + 1
  · let other : Token := ⟨.nil_, .nil, sign.line + 1⟩
    obtain ⟨errors, herrors, hfirst⟩ := hfound.always (List.replicate (k - i) sign ++ [other])
    rw [List.take_append_of_le_length (by rw [List.length_replicate]; omega), List.take_replicate,
      ← List.append_assoc, List.replicate_append_replicate,
      show min (i + 1) (k + 1) + (k - i) = k + 1 by omega] at herrors
    obtain ⟨later', hparse'⟩ := parseWithin_signs k hsign [other]
    rw [hparse'] at herrors
    cases herrors
    have hline : sign.line + 1 = sign.line := congrArg Error.line hfirst
    omega
  · rw [List.take_append, List.take_of_length_le (by rw [List.length_replicate]; omega),
      List.append_assoc, List.append_assoc] at hacceptable
    obtain ⟨later', hparse'⟩ := parseWithin_signs k hsign
      ((List.replicate (n + 1) sign ++ [mark]).take (i - (List.replicate (k + 1) sign).length) ++
        (more ++ [mark']))
    rw [hparse'] at hacceptable
    exact absurd hacceptable (not_acceptable nofun)

end

/-- Where there are too many signs, the error is on a line on which it would not be if fewer of them
were followed by something else. -/
theorem earliest_token_is_missed_at_the_limit :
    let signs : List Token := List.replicate 2500 ⟨.bang, .nil, 1⟩ ++ [⟨.eof, .nil, 2⟩]
    ∃ errors, parse signs = .error errors ∧ errors.first = ⟨.tooMuchNesting, 1⟩ ∧
      ¬ Early usualRoom signs errors :=
  not_early_signs 974 rfl rfl 1524

end Lox.Grammar
