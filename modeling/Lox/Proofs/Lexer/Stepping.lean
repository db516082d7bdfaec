import Lox.Proofs.Lexer.Positions
import Lox.Token.Cursor

/-!
# Reading step by step

A cursor can be asked for one token, for all that are left, or to pass over a gap, in any order.
Wherever it stands, failures included, its line is the one it stands on, and what it has yielded is
the beginning of what the whole source gives. Asking for tokens meets no other fault than the whole
source does, and nothing comes behind the end mark or that fault.
-/

namespace Lox.Lexer

/-- The second place lies further on in the same text, on the line that it is on. -/
def Place.Before (p q : Place) : Prop :=
  ∃ used, p.rest = used ++ q.rest ∧ q.line = p.line + used.count '\n'

theorem Place.Before.refl (p : Place) : p.Before p := ⟨[], rfl, rfl⟩

theorem Place.Before.trans {p q r : Place} (hpq : p.Before q) (hqr : q.Before r) : p.Before r := by
  obtain ⟨first, hrest, hline⟩ := hpq
  obtain ⟨second, hrest', hline'⟩ := hqr
  refine ⟨first ++ second, ?_, ?_⟩
  · rw [hrest, hrest', List.append_assoc]
  · rw [hline', hline, List.count_append, Nat.add_assoc]

def behind : Except Failure (Token × Place) → Place
  | .ok (_, q) => q
  | .error failure => failure.place

theorem exists_skip (p : Place) : ∃ q, p.Before q ∧ next q = next p ∧
    (skipGap p.line p.rest = .ok q ∨
      skipGap p.line p.rest = .error ⟨.unterminatedComment, q⟩) := by
  obtain ⟨gap, rest, hrest, hgap, hresting⟩ := exists_gap p.rest
  refine ⟨⟨p.line + gap.count '\n', rest⟩, ⟨gap, hrest, rfl⟩, ?_, ?_⟩
  · simp only [next, hrest, skipGap_gap hgap]
  · rw [hrest, skipGap_gap hgap]
    rcases hresting.skip with hskip | hskip
    · exact Or.inl (hskip _)
    · exact Or.inr (hskip _)

theorem stuck_before {gap rest : List Char} {fault : Fault} (hgap : Gap gap)
    (h : Stuck rest fault) (line : Nat) :
    Place.Before ⟨line, gap ++ rest⟩ (behind (next ⟨line, gap ++ rest⟩)) := by
  obtain ⟨left, ⟨used, hused, hfeed⟩, hnext⟩ := next_stuck hgap h line
  rw [hnext]
  refine ⟨gap ++ used, ?_, ?_⟩
  · simp [behind, hused]
  · simp [behind, List.count_append, List.count_eq_zero.mpr hfeed]

theorem next_before (p : Place) : p.Before (behind (next p)) := by
  obtain ⟨line, text⟩ := p
  obtain ⟨gap, rest, rfl, hgap, hresting⟩ := exists_gap text
  rcases hresting with hsettled | hstuck
  · cases rest with
    | nil =>
      rw [List.append_nil, next_end hgap]
      exact ⟨gap, by simp [behind, make], rfl⟩
    | cons c cs =>
      rcases starts_whole_or_stuck hsettled with hwhole | ⟨fault, hstuck⟩
      · obtain ⟨lex, after, kind, value, hchars, hspelling, hwhole⟩ := hwhole
        have hnext := @next_piece ⟨gap, lex, kind, value⟩ after hgap hspelling hwhole line
        rw [Piece.chars, List.append_assoc] at hnext
        rw [hchars, hnext]
        exact ⟨gap ++ lex, by simp [behind, make], rfl⟩
      · exact stuck_before hgap hstuck line
  · exact stuck_before hgap hstuck line

theorem restPlace_eq (p : Place) :
    Cursor.restPlace p =
      match next p with
      | .error failure => failure.place
      | .ok (t, q) => if t.kind = .eof then q else Cursor.restPlace q := by
  rw [Cursor.restPlace]
  split
  · next hfail => rw [hfail]
  · next hok =>
    rw [hok]
    split <;> simp_all

theorem restPlace_before (p : Place) : p.Before (Cursor.restPlace p) := by
  induction hlength : p.rest.length using Nat.strongRecOn generalizing p with
  | _ n ih =>
    have hbefore := next_before p
    rw [restPlace_eq]
    cases hnext : next p with
    | error failure =>
      rw [hnext] at hbefore
      exact hbefore
    | ok result =>
      obtain ⟨t, q⟩ := result
      rw [hnext] at hbefore
      by_cases heof : t.kind = .eof
      · simp only [heof, if_true]
        exact hbefore
      · have hshorter := next_length_lt hnext heof
        simp only [heof, if_false]
        exact hbefore.trans (ih q.rest.length (hlength ▸ hshorter) q rfl)

end Lox.Lexer

namespace Lox.Cursor

open Lexer (Failure)

inductive Call where
  | next
  | skip
  | rest
  deriving DecidableEq, Repr

inductive Answer where
  | yield (y : Yield)
  | passed (failure : Option Failure)
  | rest (result : Except Failure (List Token))

def ask (c : Cursor) : Call → Answer × Cursor
  | .next => (.yield c.next.1, c.next.2)
  | .skip => (.passed c.skip.1, c.skip.2)
  | .rest => (.rest c.rest.1, c.rest.2)

def askAll (c : Cursor) : List Call → List Answer × Cursor
  | [] => ([], c)
  | call :: calls =>
    let (answers, last) := (c.ask call).2.askAll calls
    ((c.ask call).1 :: answers, last)

def Answer.tokens : Answer → List Token
  | .yield (.token t) => [t]
  | .rest (.ok ts) => ts
  | _ => []

/-- The fault that keeps a cursor from handing over a token. -/
def Answer.failure? : Answer → Option Failure
  | .yield (.failure failure) => some failure
  | .rest (.error failure) => some failure
  | _ => none

def yielded (answers : List Answer) : List Token := answers.flatMap Answer.tokens

def raised (answers : List Answer) : List Failure := answers.filterMap Answer.failure?

/-- The end mark was handed over, or a fault met in its place. -/
def Ended (answers : List Answer) : Prop :=
  (∃ t ∈ yielded answers, t.kind = .eof) ∨ raised answers ≠ []

/-- The cursor has come from the start of the source, and by no other way than by reading it. -/
structure Within (source : String) (c : Cursor) : Prop where
  text : c.source = source.toList
  before : (Lexer.start source).Before c.place
  beyond : c.beyond = 0

theorem Within.start (source : String) : Within source (ofSource source) where
  text := rfl
  before := .refl _
  beyond := rfl

theorem Within.position {source : String} {c : Cursor} (h : Within source c) :
    ∃ used, source.toList = used ++ c.place.rest ∧ c.index = used.length ∧
      c.place.line = 1 + used.count '\n' := by
  obtain ⟨used, hrest, hline⟩ := h.before
  have hrest : source.toList = used ++ c.place.rest := hrest
  refine ⟨used, hrest, ?_, hline⟩
  rw [index, h.text, h.beyond, hrest, List.length_append]
  omega

theorem Within.index_le {source : String} {c : Cursor} (h : Within source c) :
    c.index ≤ source.length := by
  obtain ⟨used, hrest, hindex, -⟩ := h.position
  rw [hindex, ← String.length_toList, hrest, List.length_append]
  exact Nat.le_add_right _ _

theorem Within.line {source : String} {c : Cursor} (h : Within source c) :
    c.place.line = Lexer.lineOf source c.index := by
  obtain ⟨used, hrest, hindex, hline⟩ := h.position
  rw [hindex, Lexer.lineOf_length hrest, hline]

theorem next_finished {c : Cursor} (h : c.finished = true) : c.next = (.nothing, c) := if_pos h

theorem rest_finished {c : Cursor} (h : c.finished = true) : c.rest = (.ok [], c) := if_pos h

theorem ask_moves (c : Cursor) (call : Call) : ∃ place finished,
    c.place.Before place ∧ (c.ask call).2 = { c with place, finished } := by
  cases call with
  | next =>
    by_cases hdone : c.finished = true
    · exact ⟨c.place, c.finished, .refl _, by rw [ask, next_finished hdone]⟩
    · have hbefore := Lexer.next_before c.place
      cases hnext : Lexer.next c.place with
      | error failure =>
        rw [hnext] at hbefore
        exact ⟨failure.place, true, hbefore, by simp [ask, next, hdone, hnext]⟩
      | ok result =>
        rw [hnext] at hbefore
        exact ⟨result.2, result.1.kind = .eof, hbefore, by simp [ask, next, hdone, hnext]⟩
  | skip =>
    obtain ⟨place, hbefore, -, hskip | hskip⟩ := Lexer.exists_skip c.place
    · exact ⟨place, c.finished, hbefore, by simp [ask, skip, hskip]⟩
    · exact ⟨place, c.finished, hbefore, by simp [ask, skip, hskip]⟩
  | rest =>
    by_cases hdone : c.finished = true
    · exact ⟨c.place, c.finished, .refl _, by rw [ask, rest_finished hdone]⟩
    · refine ⟨restPlace c.place, true, Lexer.restPlace_before _, ?_⟩
      simp only [ask, rest, hdone, Bool.false_eq_true, if_false]
      split <;> rfl

theorem Within.ask {source : String} {c : Cursor} (h : Within source c) (call : Call) :
    Within source (c.ask call).2 ∧ c.index ≤ (c.ask call).2.index := by
  obtain ⟨place, finished, hbefore, hask⟩ := ask_moves c call
  rw [hask]
  refine ⟨⟨h.text, h.before.trans hbefore, h.beyond⟩, ?_⟩
  obtain ⟨used, hrest, -⟩ := hbefore
  have hlength : place.rest.length ≤ c.place.rest.length := by
    rw [hrest, List.length_append]
    exact Nat.le_add_left _ _
  unfold index
  dsimp only
  omega

theorem Within.askAll {source : String} {c : Cursor} (h : Within source c) (calls : List Call) :
    Within source (c.askAll calls).2 := by
  induction calls generalizing c with
  | nil => exact h
  | cons call calls ih => exact ih (h.ask call).1

/-- Reading goes on where the cursor stands, behind the given tokens. -/
structure Going (source : String) (tokens : List Token) (c : Cursor) : Prop where
  finished : c.finished = false
  unmarked : ∀ t ∈ tokens, t.kind ≠ .eof
  read : Lexer.read (Lexer.start source) =
    ⟨tokens ++ (Lexer.read c.place).tokens, (Lexer.read c.place).failure⟩

/-- How far a source has been read, if these tokens were handed over and these faults raised. -/
inductive Progress (source : String) (tokens : List Token) (failures : List Failure)
    (c : Cursor) : Prop
  | going (hgoing : Going source tokens c) (hfailures : failures = [])
  | complete (hfinished : c.finished = true) (hfailures : failures = [])
      (hread : Lexer.read (Lexer.start source) = ⟨tokens, none⟩)
  | failed {failure : Failure} (hfinished : c.finished = true) (hfailures : failures = [failure])
      (hread : (Lexer.read (Lexer.start source)).failure = some failure)
      (hyielded : tokens <+: (Lexer.read (Lexer.start source)).tokens)

theorem Progress.start (source : String) : Progress source [] [] (ofSource source) :=
  .going ⟨rfl, nofun, rfl⟩ rfl

theorem ask_finished {c : Cursor} (h : c.finished = true) (call : Call) :
    (c.ask call).1.tokens = [] ∧ (c.ask call).1.failure? = none ∧
      (c.ask call).2.finished = true := by
  cases call with
  | next =>
    rw [ask, next_finished h]
    exact ⟨rfl, rfl, h⟩
  | skip =>
    refine ⟨rfl, rfl, ?_⟩
    simp only [ask, skip]
    split <;> exact h
  | rest =>
    rw [ask, rest_finished h]
    exact ⟨rfl, rfl, h⟩

theorem askAll_finished {c : Cursor} (h : c.finished = true) (calls : List Call) :
    (c.askAll calls).2.finished = true := by
  induction calls generalizing c with
  | nil => exact h
  | cons call calls ih => exact ih (ask_finished h call).2.2

theorem Going.next {source : String} {tokens : List Token} {c : Cursor}
    (h : Going source tokens c) :
    Progress source (tokens ++ (c.ask .next).1.tokens) (c.ask .next).1.failure?.toList
      (c.ask .next).2 := by
  have hread := h.read
  rw [Lexer.read_eq c.place] at hread
  cases hnext : Lexer.next c.place with
  | error failure =>
    have hask : c.ask .next =
        (.yield (.failure failure), { c with place := failure.place, finished := true }) := by
      simp [ask, Cursor.next, h.finished, hnext]
    rw [hnext] at hread
    rw [hask]
    apply Progress.failed rfl rfl
    · rw [hread]
    · rw [hread]
      exact List.prefix_rfl
  | ok result =>
    obtain ⟨t, place⟩ := result
    have hask : c.ask .next =
        (.yield (.token t), { c with place, finished := t.kind = .eof }) := by
      simp [ask, Cursor.next, h.finished, hnext]
    rw [hnext] at hread
    rw [hask]
    by_cases heof : t.kind = .eof
    · apply Progress.complete
      · simp [heof]
      · rfl
      · simpa [heof, Answer.tokens] using hread
    · refine .going ⟨by simp [heof], ?_, by simpa [heof, Answer.tokens] using hread⟩ rfl
      intro u hu
      rcases List.mem_append.mp hu with hu | hu
      · exact h.unmarked u hu
      · cases List.mem_singleton.mp hu
        exact heof

theorem Going.rest {source : String} {tokens : List Token} {c : Cursor}
    (h : Going source tokens c) :
    Progress source (tokens ++ (c.ask .rest).1.tokens) (c.ask .rest).1.failure?.toList
      (c.ask .rest).2 := by
  have hread := h.read
  cases hleft : Lexer.read c.place with
  | mk left failure =>
    rw [hleft] at hread
    cases failure with
    | none =>
      have hask : c.ask .rest =
          (.rest (.ok left), { c with place := restPlace c.place, finished := true }) := by
        simp [ask, Cursor.rest, h.finished, hleft]
      rw [hask]
      exact .complete rfl rfl hread
    | some failure =>
      have hask : c.ask .rest =
          (.rest (.error failure), { c with place := restPlace c.place, finished := true }) := by
        simp [ask, Cursor.rest, h.finished, hleft]
      rw [hask]
      apply Progress.failed rfl rfl
      · rw [hread]
      · rw [hread]
        simp [Answer.tokens]

/-- Passing over a gap changes nothing of what is left to read, whether it fails or not. -/
theorem Going.skip {source : String} {tokens : List Token} {c : Cursor}
    (h : Going source tokens c) :
    Progress source (tokens ++ (c.ask .skip).1.tokens) (c.ask .skip).1.failure?.toList
      (c.ask .skip).2 := by
  obtain ⟨place, -, hnext, hskip⟩ := Lexer.exists_skip c.place
  have hleft : Lexer.read place = Lexer.read c.place := by
    rw [Lexer.read_eq place, Lexer.read_eq c.place, hnext]
  have hask : (c.ask .skip).2 = { c with place } := by
    rcases hskip with hskip | hskip <;> simp [ask, Cursor.skip, hskip]
  have htokens : tokens ++ (c.ask .skip).1.tokens = tokens := List.append_nil tokens
  rw [hask, htokens]
  refine .going ⟨h.finished, h.unmarked, ?_⟩ rfl
  rw [h.read, ← hleft]

theorem Progress.ask {source : String} {tokens : List Token} {failures : List Failure} {c : Cursor}
    (h : Progress source tokens failures c) (call : Call) :
    Progress source (tokens ++ (c.ask call).1.tokens)
      (failures ++ (c.ask call).1.failure?.toList) (c.ask call).2 := by
  cases h with
  | going hgoing hfailures =>
    subst hfailures
    cases call with
    | next => exact hgoing.next
    | skip => exact hgoing.skip
    | rest => exact hgoing.rest
  | complete hfinished hfailures hread =>
    obtain ⟨htokens, hfailure, hstays⟩ := ask_finished hfinished call
    rw [htokens, hfailure]
    exact .complete hstays (by simp [hfailures]) (by simpa using hread)
  | failed hfinished hfailures hread hyielded =>
    obtain ⟨htokens, hfailure, hstays⟩ := ask_finished hfinished call
    rw [htokens, hfailure]
    exact .failed hstays (by simp [hfailures]) hread (by simpa using hyielded)

theorem raised_cons (a : Answer) (answers : List Answer) :
    raised (a :: answers) = a.failure?.toList ++ raised answers := by
  unfold raised
  cases h : a.failure? with
  | none => simp [h]
  | some failure => simp [h]

theorem Progress.askAll {source : String} {tokens : List Token} {failures : List Failure}
    {c : Cursor} (h : Progress source tokens failures c) (calls : List Call) :
    Progress source (tokens ++ yielded (c.askAll calls).1) (failures ++ raised (c.askAll calls).1)
      (c.askAll calls).2 := by
  induction calls generalizing c tokens failures with
  | nil => simpa [Cursor.askAll, yielded, raised] using h
  | cons call calls ih =>
    have hlast := ih (h.ask call)
    rw [List.append_assoc, List.append_assoc] at hlast
    have hanswers : (c.askAll (call :: calls)).1 =
        (c.ask call).1 :: ((c.ask call).2.askAll calls).1 := rfl
    rw [hanswers, raised_cons]
    exact hlast

theorem yielded_append (answers others : List Answer) :
    yielded (answers ++ others) = yielded answers ++ yielded others := List.flatMap_append

theorem raised_append (answers others : List Answer) :
    raised (answers ++ others) = raised answers ++ raised others := List.filterMap_append

theorem Progress.beginning {source : String} {tokens : List Token} {failures : List Failure}
    {c : Cursor} (h : Progress source tokens failures c) :
    tokens <+: (Lexer.read (Lexer.start source)).tokens := by
  cases h with
  | going hgoing =>
    rw [hgoing.read]
    exact List.prefix_append _ _
  | complete _ _ hread => simp [hread]
  | failed _ _ _ hyielded => exact hyielded

theorem Progress.scan_fails {source : String} {tokens : List Token} {failures : List Failure}
    {c : Cursor} (h : Progress source tokens failures c) :
    ∀ failure ∈ failures, Lexer.scan source = .error failure := by
  intro failure hfailure
  cases h with
  | going _ hfailures | complete _ hfailures =>
    subst hfailures
    cases hfailure
  | @failed failure' _ hfailures hread =>
    subst hfailures
    cases List.mem_singleton.mp hfailure
    unfold Lexer.scan
    split
    · next hok =>
      rw [hok] at hread
      cases hread
    · next hfail =>
      rw [hfail] at hread
      cases hread
      rfl

theorem Progress.finished {source : String} {tokens : List Token} {failures : List Failure}
    {c : Cursor} (h : Progress source tokens failures c)
    (hend : (∃ t ∈ tokens, t.kind = .eof) ∨ failures ≠ []) :
    c.finished = true ∧ (failures = [] → Lexer.scan source = .ok tokens) := by
  cases h with
  | going hgoing hfailures =>
    rcases hend with ⟨t, ht, heof⟩ | hne
    · exact absurd heof (hgoing.unmarked t ht)
    · exact absurd hfailures hne
  | complete hfinished _ hread =>
    refine ⟨hfinished, fun _ => ?_⟩
    rw [Lexer.scan, hread]
  | failed hfinished hfailures =>
    refine ⟨hfinished, fun hnil => ?_⟩
    rw [hnil] at hfailures
    cases hfailures

theorem Progress.ended {source : String} {tokens : List Token} {failures : List Failure}
    {c : Cursor} (h : Progress source tokens failures c) (hfinished : c.finished = true) :
    (∃ t ∈ tokens, t.kind = .eof) ∨ failures ≠ [] := by
  cases h with
  | going hgoing =>
    rw [hgoing.finished] at hfinished
    cases hfinished
  | complete _ _ hread =>
    have hscan : Lexer.scan source = .ok tokens := by rw [Lexer.scan, hread]
    obtain ⟨cut, -, -, rfl⟩ := Lexer.exists_cut_of_scan hscan
    exact Or.inl ⟨⟨.eof, .nil, cut.line⟩, by simp [Lexer.Cut.tokens], rfl⟩
  | failed _ hfailures => exact Or.inr (by simp [hfailures])

theorem ask_rest_finished (c : Cursor) : (c.ask .rest).2.finished = true := by
  by_cases hdone : c.finished = true
  · exact (ask_finished hdone .rest).2.2
  · simp only [ask, rest, hdone, Bool.false_eq_true, if_false]
    split <;> rfl

theorem Progress.ended_rest {source : String} {answers : List Answer} {c : Cursor}
    (h : Progress source (yielded answers) (raised answers) c) :
    Ended (answers ++ [(c.ask .rest).1]) := by
  have hended := (h.ask .rest).ended (ask_rest_finished c)
  rw [Ended, yielded_append, raised_append, raised_cons]
  simpa [yielded, raised] using hended

/-- However a cursor is asked, it never goes back and never beyond the end of the source, and its
line is the one it stands on. What it hands over is the beginning of what the whole source gives,
and asking for tokens raises no fault but that of the whole source. Once the end mark was handed
over or a fault raised, that was all: without a fault the tokens are those of the source, and
nothing comes any more. Asking for all that is left always brings this about. -/
theorem stepping_agrees_with_scanning (source : String) (calls : List Call) :
    let answers := ((ofSource source).askAll calls).1
    let c := ((ofSource source).askAll calls).2
    c.index ≤ source.length ∧
    (∀ call, c.index ≤ (c.ask call).2.index) ∧
    c.place.line = Lexer.lineOf source c.index ∧
    yielded answers <+: (Lexer.read (Lexer.start source)).tokens ∧
    (∀ failure ∈ raised answers, Lexer.scan source = .error failure) ∧
    (Ended answers →
      (raised answers = [] → Lexer.scan source = .ok (yielded answers)) ∧
      ∀ later, (c.askAll later).2.next.1 = .nothing ∧ (c.askAll later).2.rest.1 = .ok []) ∧
    Ended (answers ++ [(c.ask .rest).1]) := by
  intro answers c
  have hwithin : Within source c := (Within.start source).askAll calls
  have hprogress : Progress source (yielded answers) (raised answers) c :=
    (Progress.start source).askAll calls
  refine ⟨hwithin.index_le, fun call => (hwithin.ask call).2, hwithin.line, hprogress.beginning,
    hprogress.scan_fails, fun hended => ?_, hprogress.ended_rest⟩
  obtain ⟨hfinished, hscan⟩ := hprogress.finished hended
  refine ⟨hscan, fun later => ?_⟩
  have hlater := askAll_finished hfinished later
  rw [next_finished hlater, rest_finished hlater]
  exact ⟨rfl, rfl⟩

/-- A comment without an end stops a cursor that passes over it, and again one that is asked for a
token or for all that is left. Where nothing is wrong, all that is left is handed over. -/
theorem comment_without_end_is_met_again :
    let asked (source : String) (calls : List Call) := ((ofSource source).askAll calls).1
    let stepped := asked "a // b" [.next, .skip, .next, .rest]
    let drained := asked "a // b" [.next, .skip, .rest, .next]
    let whole := asked "a // b\n" [.next, .rest, .next]
    let failure : Failure := ⟨.unterminatedComment, ⟨1, ['/', '/', ' ', 'b']⟩⟩
    let a : Token := ⟨.identifier, .text "a", 1⟩
    yielded stepped = [a] ∧ raised stepped = [failure] ∧
      yielded drained = [a] ∧ raised drained = [failure] ∧
      Lexer.scan "a // b" = .error failure ∧
      raised whole = [] ∧ Lexer.scan "a // b\n" = .ok (yielded whole) ∧
      yielded whole = [a, ⟨.eof, .nil, 2⟩] := by
  intro asked stepped drained whole failure a
  have hdrained : raised drained = [failure] := by decide +kernel
  have hwhole : yielded whole = [a, ⟨.eof, .nil, 2⟩] := by decide +kernel
  have hnone : raised whole = [] := by decide +kernel
  obtain ⟨-, -, -, -, hfails, -⟩ :=
    stepping_agrees_with_scanning "a // b" [.next, .skip, .rest, .next]
  obtain ⟨-, -, -, -, -, hended, -⟩ :=
    stepping_agrees_with_scanning "a // b\n" [.next, .rest, .next]
  have hmark : Ended whole := Or.inl ⟨⟨.eof, .nil, 2⟩, by simp [hwhole], rfl⟩
  refine ⟨by decide +kernel, by decide +kernel, by decide +kernel, hdrained, hfails failure ?_,
    hnone, (hended hmark).1 hnone, hwhole⟩
  show failure ∈ raised drained
  rw [hdrained]
  exact List.mem_singleton_self failure

end Lox.Cursor
