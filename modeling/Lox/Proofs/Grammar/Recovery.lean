import Lox.Diagnostic
import Lox.Proofs.Grammar.Lookahead
import Mathlib.Data.List.Forall2
import Mathlib.Data.List.TakeWhile

/-!
# Recovery makes progress

Reading a program goes in rounds, each of which reads a declaration or fails and looks for the next
start of a statement. The rounds are a relation without a bound on their number. Every list of
tokens has them, each round leaves fewer tokens, and the faults are those of the failed rounds, in
the order of the tokens that are blamed.
-/

namespace Lox.Grammar

structure Round where
  before : List Token
  outcome : Except Failure Stmt
  after : List Token

inductive Rounds (ctx : Context) (room : Nat) : List Token → List Round → Prop where
  | finished : Rounds ctx room [] []
  | read {ts rest : List Token} {s : Stmt} {rounds : List Round} (hts : ts ≠ [])
      (hs : entry ctx room ts = .ok (s, rest))
      (hrest : Rounds ctx room rest rounds) :
      Rounds ctx room ts (⟨ts, .ok s, rest⟩ :: rounds)
  | failed {ts : List Token} {failure : Failure} {rounds : List Round} (hts : ts ≠ [])
      (hs : entry ctx room ts = .error failure)
      (hfault : failure.fault ≠ .tooMuchNesting)
      (hrest : Rounds ctx room (synchronize failure.rest) rounds) :
      Rounds ctx room ts (⟨ts, .error failure, synchronize failure.rest⟩ :: rounds)
  | exhausted {ts : List Token} {failure : Failure} (hts : ts ≠ [])
      (hs : entry ctx room ts = .error failure)
      (hfault : failure.fault = .tooMuchNesting) :
      Rounds ctx room ts [⟨ts, .error failure, []⟩]

def Failure.error (failure : Failure) : Error := ⟨failure.fault, failure.line⟩

def Round.failure? (r : Round) : Option Failure :=
  match r.outcome with
  | .error failure => some failure
  | .ok _ => none

def Round.statement? (r : Round) : Option Stmt :=
  match r.outcome with
  | .error _ => none
  | .ok s => some s

def failures (rounds : List Round) : List Failure := rounds.filterMap Round.failure?

def statements (rounds : List Round) : List Stmt := rounds.filterMap Round.statement?

theorem mem_failures {rounds : List Round} {failure : Failure} :
    failure ∈ failures rounds ↔ ∃ r ∈ rounds, r.outcome = .error failure := by
  rw [failures, List.mem_filterMap]
  refine exists_congr fun r => and_congr_right fun _ => ?_
  unfold Round.failure?
  split
  · next houtcome => simp [houtcome]
  · next houtcome => simp [houtcome]

theorem resume_suffix (last : Token) (ts : List Token) :
    ∃ passed, ts = passed ++ resume last ts := by
  induction ts generalizing last with
  | nil => exact ⟨[], rfl⟩
  | cons t ts ih =>
    unfold resume
    split
    · exact ⟨[], rfl⟩
    · obtain ⟨passed, hpassed⟩ := ih t
      refine ⟨t :: passed, ?_⟩
      rw [List.cons_append, ← hpassed]

theorem synchronize_suffix {ts : List Token} (hts : ts ≠ []) :
    ∃ passed, ts = passed ++ synchronize ts ∧ passed ≠ [] := by
  obtain ⟨t, us, rfl⟩ := List.exists_cons_of_ne_nil hts
  obtain ⟨passed, hpassed⟩ := resume_suffix t us
  refine ⟨t :: passed, ?_, List.cons_ne_nil _ _⟩
  rw [synchronize, List.cons_append, ← hpassed]

theorem synchronize_length_lt {ts : List Token} (hts : ts ≠ []) :
    (synchronize ts).length < ts.length := by
  obtain ⟨passed, hpassed, hne⟩ := synchronize_suffix hts
  have hpos := List.length_pos_iff.mpr hne
  have hlength := congrArg List.length hpassed
  rw [List.length_append] at hlength
  omega

/-- The token number `k` is blamed for the failure: the equals sign behind a wrong target, which has
been taken before, or the token that is next. -/
structure Blames (ctx : Context) (ts : List Token) (failure : Failure) (k : Nat) : Prop where
  line : failure.line = lineAt ctx (ts.drop k)
  target : failure.fault = .assignmentTarget →
    k + failure.rest.length < ts.length ∧ ∃ equals, ts[k]? = some equals ∧ equals.kind = .equal
  next : failure.fault ≠ .assignmentTarget → k + failure.rest.length = ts.length

theorem Blames.le {ctx : Context} {ts : List Token} {failure : Failure} {k : Nat}
    (h : Blames ctx ts failure k) : k + failure.rest.length ≤ ts.length := by
  by_cases hfault : failure.fault = .assignmentTarget
  · exact Nat.le_of_lt (h.target hfault).1
  · exact Nat.le_of_eq (h.next hfault)

theorem Blames.behind {ctx : Context} {ts : List Token} {failure : Failure} {k : Nat}
    (h : Blames ctx ts failure k) (passed : List Token) :
    Blames ctx (passed ++ ts) failure (passed.length + k) where
  line := by rw [← List.drop_drop, List.drop_left, h.line]
  target := by
    intro hfault
    obtain ⟨hlt, equals, hequals, hkind⟩ := h.target hfault
    refine ⟨by simp only [List.length_append]; omega, equals, ?_, hkind⟩
    rw [List.getElem?_append_right (Nat.le_add_right _ _), Nat.add_sub_cancel_left, hequals]
  next := by
    intro hfault
    have hnext := h.next hfault
    simp only [List.length_append]
    omega

theorem entry_blames {ctx : Context} {room : Nat} {ts : List Token} {failure : Failure}
    (hts : ts.length ≤ ctx.size)
    (h : entry ctx room ts = .error failure) :
    ∃ used k, ts = used ++ failure.rest ∧ Blames ctx ts failure k := by
  obtain ⟨used, rest, v, rfl, hfair, hsettles⟩ := entry_settles room ts
  rw [hsettles ctx rest rfl hts] at h
  cases v with
  | ok s => cases h
  | target equals =>
    obtain ⟨hkind, hequals⟩ := hfair
    obtain ⟨left, right, rfl⟩ := List.append_of_mem hequals
    cases h
    refine ⟨_, left.length, rfl, ⟨?_, ?_, ?_⟩⟩
    · simp [lineAt]
    · intro _
      refine ⟨?_, equals, by simp, hkind⟩
      simp only [List.length_append, List.length_cons]
      omega
    · exact fun hfault => absurd rfl hfault
  | stuck fault =>
    cases h
    refine ⟨used, used.length, rfl, ⟨?_, ?_, ?_⟩⟩
    · rw [List.drop_left]
    · exact fun hfault => absurd hfault hfair
    · intro _
      exact (List.length_append ..).symm

theorem synchronize_shorter {ctx : Context} {room : Nat} {ts : List Token} {failure : Failure}
    (hts : ts.length ≤ ctx.size)
    (h : entry ctx room ts = .error failure)
    (hnil : ts ≠ []) : (synchronize failure.rest).length < ts.length := by
  obtain ⟨used, -, hused, -⟩ := entry_blames hts h
  by_cases hrest : failure.rest = []
  · rw [hrest]
    exact List.length_pos_iff.mpr hnil
  · have hshorter := synchronize_length_lt hrest
    rw [hused, List.length_append]
    omega

section

variable {ctx : Context} {room : Nat}

theorem exists_rounds (ts : List Token) (hts : ts.length ≤ ctx.size) :
    ∃ rounds, Rounds ctx room ts rounds := by
  induction hlength : ts.length using Nat.strongRecOn generalizing ts with
  | _ k ih =>
    subst hlength
    by_cases hnil : ts = []
    · exact ⟨[], hnil ▸ .finished⟩
    cases hs : entry ctx room ts with
    | ok result =>
      obtain ⟨s, rest⟩ := result
      have hshorter := entry_progress hs
      obtain ⟨rounds, hrounds⟩ := ih rest.length hshorter rest (by omega) rfl
      exact ⟨_, .read hnil hs hrounds⟩
    | error failure =>
      by_cases hfault : failure.fault = .tooMuchNesting
      · exact ⟨_, .exhausted hnil hs hfault⟩
      have hshorter := synchronize_shorter hts hs hnil
      obtain ⟨rounds, hrounds⟩ := ih _ hshorter _ (by omega) rfl
      exact ⟨_, .failed hnil hs hfault hrounds⟩

theorem Rounds.unique {ts : List Token} {rounds others : List Round}
    (h : Rounds ctx room ts rounds) (h' : Rounds ctx room ts others) : rounds = others := by
  induction h generalizing others with
  | finished =>
    cases h' <;> first | rfl | contradiction
  | read hts hs _ ih =>
    cases h' with
    | finished => contradiction
    | read _ hs' hrest' =>
      rw [hs] at hs'
      cases hs'
      rw [ih hrest']
    | failed _ hs' | exhausted _ hs' =>
      rw [hs] at hs'
      cases hs'
  | failed hts hs hfault _ ih =>
    cases h' with
    | finished => contradiction
    | read _ hs' =>
      rw [hs] at hs'
      cases hs'
    | failed _ hs' _ hrest' =>
      rw [hs] at hs'
      cases hs'
      rw [ih hrest']
    | exhausted _ hs' hfault' =>
      rw [hs] at hs'
      cases hs'
      contradiction
  | exhausted hts hs hfault =>
    cases h' with
    | finished => contradiction
    | read _ hs' =>
      rw [hs] at hs'
      cases hs'
    | failed _ hs' hfault' =>
      rw [hs] at hs'
      cases hs'
      contradiction
    | exhausted _ hs' =>
      rw [hs] at hs'
      cases hs'
      rfl

theorem declarations_ok {ts rest : List Token} {s : Stmt} (hts : ts ≠ [])
    (hs : entry ctx room ts = .ok (s, rest))
    (n : Nat) :
    declarations ctx room (n + 1) ts =
      (s :: (declarations ctx room n rest).1, (declarations ctx room n rest).2) := by
  obtain ⟨t, us, rfl⟩ := List.exists_cons_of_ne_nil hts
  simp only [declarations, hs]

theorem declarations_error {ts : List Token} {failure : Failure} (hts : ts ≠ [])
    (hs : entry ctx room ts = .error failure)
    (n : Nat) :
    ∃ later, (declarations ctx room (n + 1) ts).2 = failure.error :: later := by
  obtain ⟨t, us, rfl⟩ := List.exists_cons_of_ne_nil hts
  simp only [declarations, hs]
  split
  · exact ⟨[], rfl⟩
  · exact ⟨_, rfl⟩

/-- The bound on the number of rounds is never met. -/
theorem Rounds.declarations {ts : List Token} {rounds : List Round}
    (h : Rounds ctx room ts rounds) {n : Nat} (hn : ts.length ≤ n) (hsize : ts.length ≤ ctx.size) :
    declarations ctx room n ts = (statements rounds, (failures rounds).map Failure.error) := by
  induction h generalizing n with
  | finished => cases n <;> rfl
  | @read ts rest s rounds hts hs _ ih =>
    have hshorter := entry_progress hs
    obtain ⟨m, rfl⟩ : ∃ m, n = m + 1 := ⟨n - 1, by omega⟩
    rw [declarations_ok hts hs, @ih m (by omega) (by omega)]
    rfl
  | @failed ts failure rounds hts hs hfault _ ih =>
    have hshorter := synchronize_shorter hsize hs hts
    obtain ⟨t, us, rfl⟩ := List.exists_cons_of_ne_nil hts
    obtain ⟨m, rfl⟩ : ∃ m, n = m + 1 := ⟨n - 1, by simp at hn; omega⟩
    simp only [List.length_cons] at hn hsize hshorter
    simp only [Grammar.declarations, hs, if_neg hfault, @ih m (by omega) (by omega)]
    rfl
  | exhausted hts hs hfault =>
    obtain ⟨t, us, rfl⟩ := List.exists_cons_of_ne_nil hts
    obtain ⟨m, rfl⟩ : ∃ m, n = m + 1 := ⟨n - 1, by simp at hn; omega⟩
    simp only [Grammar.declarations, hs, if_pos hfault]
    rfl

theorem Rounds.progress {ts : List Token} {rounds : List Round} (h : Rounds ctx room ts rounds)
    (hsize : ts.length ≤ ctx.size) : ∀ r ∈ rounds, r.after.length < r.before.length := by
  induction h with
  | finished => exact nofun
  | read hts hs _ ih =>
    have hshorter := entry_progress hs
    exact List.forall_mem_cons.mpr ⟨hshorter, ih (by omega)⟩
  | failed hts hs _ _ ih =>
    have hshorter := synchronize_shorter hsize hs hts
    exact List.forall_mem_cons.mpr ⟨hshorter, ih (by omega)⟩
  | exhausted hts => exact List.forall_mem_singleton.mpr (List.length_pos_iff.mpr hts)

theorem Rounds.blames {ts : List Token} {rounds : List Round} (h : Rounds ctx room ts rounds)
    (passed : List Token) (hsize : ts.length ≤ ctx.size) :
    ∃ places : List Nat, places.Pairwise (· < ·) ∧ (∀ k ∈ places, passed.length ≤ k) ∧
      List.Forall₂ (Blames ctx (passed ++ ts)) (failures rounds) places := by
  induction h generalizing passed with
  | finished => exact ⟨[], .nil, nofun, .nil⟩
  | @read ts rest s rounds hts hs _ ih =>
    obtain ⟨used, rfl, -⟩ := entry_sound ctx room hs
    obtain ⟨places, hordered, hleast, hblames⟩ := ih (passed ++ used) (by simp at hsize; omega)
    refine ⟨places, hordered, fun k hk => ?_, ?_⟩
    · have hk := hleast k hk
      simp only [List.length_append] at hk
      omega
    · rwa [List.append_assoc] at hblames
  | @failed ts failure rounds hts hs hfault hrounds ih =>
    obtain ⟨used, k, hused, hk⟩ := entry_blames hsize hs
    by_cases hrest : failure.rest = []
    · -- at the end of the tokens no round follows
      rw [hrest] at hrounds
      obtain rfl := hrounds.unique .finished
      refine ⟨[passed.length + k], List.pairwise_singleton _ _, ?_,
        .cons (hk.behind passed) .nil⟩
      exact List.forall_mem_singleton.mpr (Nat.le_add_right _ _)
    · obtain ⟨skipped, hskipped, hne⟩ := synchronize_suffix hrest
      have hts' : ts = used ++ (skipped ++ synchronize failure.rest) := by rw [← hskipped, ← hused]
      have hpos := List.length_pos_iff.mpr hne
      have hle := hk.le
      have hused := congrArg List.length hused
      have hlength := congrArg List.length hts'
      simp only [List.length_append] at hused hlength
      obtain ⟨places, hordered, hleast, hblames⟩ := ih (passed ++ used ++ skipped) (by omega)
      simp only [List.length_append] at hleast
      refine ⟨(passed.length + k) :: places, ?_, ?_, .cons (hk.behind passed) ?_⟩
      · refine List.pairwise_cons.mpr ⟨fun j hj => ?_, hordered⟩
        have hj := hleast j hj
        omega
      · refine List.forall_mem_cons.mpr ⟨Nat.le_add_right _ _, fun j hj => ?_⟩
        have hj := hleast j hj
        omega
      · have hsplit : passed ++ ts = passed ++ used ++ skipped ++ synchronize failure.rest := by
          simp only [hts', List.append_assoc]
        rw [hsplit]
        exact hblames
  | exhausted hts hs hfault =>
    obtain ⟨used, k, -, hblames⟩ := entry_blames hsize hs
    refine ⟨[passed.length + k], List.pairwise_singleton _ _, ?_,
      .cons (hblames.behind passed) .nil⟩
    exact List.forall_mem_singleton.mpr (Nat.le_add_right _ _)

theorem Rounds.raised {ts : List Token} {rounds : List Round} (h : Rounds ctx room ts rounds)
    (hsize : ts.length ≤ ctx.size) :
    (failures rounds).Pairwise (fun f g => g.rest.length < f.rest.length) ∧
      ∀ f ∈ failures rounds, f.rest.length ≤ ts.length := by
  induction h with
  | finished => exact ⟨.nil, nofun⟩
  | read hts hs _ ih =>
    have hshorter := entry_progress hs
    obtain ⟨hordered, hmost⟩ := ih (by omega)
    exact ⟨hordered, fun f hf => Nat.le_trans (hmost f hf) (Nat.le_of_lt hshorter)⟩
  | @failed ts failure rounds hts hs hfault hrounds ih =>
    obtain ⟨used, k, hused, -⟩ := entry_blames hsize hs
    have hlength : failure.rest.length ≤ ts.length := by
      rw [hused, List.length_append]
      omega
    by_cases hrest : failure.rest = []
    · rw [hrest] at hrounds
      obtain rfl := hrounds.unique .finished
      exact ⟨List.pairwise_singleton _ _, List.forall_mem_singleton.mpr hlength⟩
    · have hshorter := synchronize_length_lt hrest
      obtain ⟨hordered, hmost⟩ := ih (by omega)
      refine ⟨List.pairwise_cons.mpr ⟨fun f hf => ?_, hordered⟩,
        List.forall_mem_cons.mpr ⟨hlength, fun f hf => ?_⟩⟩
      · exact Nat.lt_of_le_of_lt (hmost f hf) hshorter
      · exact Nat.le_trans (hmost f hf) (by omega)
  | exhausted hts hs hfault =>
    obtain ⟨used, k, hused, -⟩ := entry_blames hsize hs
    refine ⟨List.pairwise_singleton _ _, List.forall_mem_singleton.mpr ?_⟩
    rw [hused, List.length_append]
    omega

theorem Rounds.length_failures {ts : List Token} {rounds : List Round}
    (h : Rounds ctx room ts rounds) (hsize : ts.length ≤ ctx.size) :
    (failures rounds).length ≤ ts.length := by
  induction h with
  | finished => exact Nat.le_refl _
  | read hts hs _ ih =>
    have hshorter := entry_progress hs
    exact Nat.le_trans (ih (by omega)) (by omega)
  | failed hts hs _ _ ih =>
    have hshorter := synchronize_shorter hsize hs hts
    exact Nat.lt_of_le_of_lt (ih (by omega)) hshorter
  | exhausted hts => exact List.length_pos_iff.mpr hts

end

theorem body_append_after (tokens : List Token) :
    body tokens ++ tokens.dropWhile (·.kind ≠ .eof) = tokens :=
  List.takeWhile_append_dropWhile

/-- Where tokens are left, the line is that of the next one; behind them all, it is that of the end
mark, or of the last one if there is no mark. -/
theorem lineAt_drop {tokens : List Token} (hne : tokens ≠ []) (size : Nat) {k : Nat}
    (hk : k ≤ (body tokens).length) :
    ∃ t, tokens[min k (tokens.length - 1)]? = some t ∧
      lineAt ⟨endLine tokens, size⟩ ((body tokens).drop k) = t.line := by
  have hsplit := body_append_after tokens
  have hpos := List.length_pos_iff.mpr hne
  have hlength := congrArg List.length hsplit
  rw [List.length_append] at hlength
  rcases Nat.lt_or_eq_of_le hk with hk | rfl
  · refine ⟨(body tokens)[k], ?_, ?_⟩
    · rw [show min k (tokens.length - 1) = k by omega]
      conv_lhs => rw [← hsplit]
      rw [List.getElem?_append_left hk, List.getElem?_eq_getElem hk]
    · rw [List.drop_eq_getElem_cons hk]
      rfl
  · have hmark : tokens.find? (·.kind = .eof) = (tokens.dropWhile (·.kind ≠ .eof)).head? := by
      simp [List.find?_eq_head?_dropWhile_not]
    rw [List.drop_length, lineAt, endLine, hmark]
    cases hafter : tokens.dropWhile (·.kind ≠ .eof) with
    | nil =>
      rw [hafter, List.length_nil] at hlength
      rw [show min (body tokens).length (tokens.length - 1) = tokens.length - 1 by omega,
        ← List.getLast?_eq_getElem?, List.getLast?_eq_getLast_of_ne_nil hne]
      exact ⟨_, rfl, rfl⟩
    | cons mark rest =>
      rw [hafter, List.length_cons] at hlength
      refine ⟨mark, ?_, rfl⟩
      rw [show min (body tokens).length (tokens.length - 1) = (body tokens).length by omega]
      have hmark : (body tokens ++ mark :: rest)[(body tokens).length]? = some mark := by simp
      rwa [← hafter, hsplit] at hmark

theorem lineAt_mono {tokens : List Token} (h : tokens.Pairwise fun t u => t.line ≤ u.line)
    (size : Nat) {j k : Nat} (hjk : j ≤ k) (hk : k ≤ (body tokens).length) :
    lineAt ⟨endLine tokens, size⟩ ((body tokens).drop j) ≤
      lineAt ⟨endLine tokens, size⟩ ((body tokens).drop k) := by
  by_cases hne : tokens = []
  · rw [hne]
    simp [body]
  obtain ⟨t, ht, hline⟩ := lineAt_drop hne size (Nat.le_trans hjk hk)
  obtain ⟨u, hu, hline'⟩ := lineAt_drop hne size hk
  rw [hline, hline']
  obtain ⟨hi, rfl⟩ := List.getElem?_eq_some_iff.mp ht
  obtain ⟨hi', rfl⟩ := List.getElem?_eq_some_iff.mp hu
  by_cases hsame : min j (tokens.length - 1) = min k (tokens.length - 1)
  · simp only [hsame]
    exact Int.le_refl _
  · exact List.pairwise_iff_getElem.mp h _ _ hi hi' (by omega)

theorem pairwise_of_places {α : Type} {R : α → Nat → Prop} {S : α → α → Prop} {as : List α}
    {places : List Nat} (h : List.Forall₂ R as places) (hplaces : places.Pairwise (· < ·))
    (hstep : ∀ {a b j k}, R a j → R b k → j < k → S a b) : as.Pairwise S := by
  have hlength := h.length_eq
  rw [List.pairwise_iff_getElem] at hplaces ⊢
  intro i j hi hj hij
  have hordered := hplaces i j (by omega) (by omega) hij
  exact hstep (h.get hi (by omega)) (h.get hj (by omega)) hordered

theorem report_head (errors : Errors) :
    errors.report.head.message = errors.first.fault.message ∧
      errors.report.head.line = some errors.first.line := by
  obtain ⟨⟨fault, line⟩, others⟩ := errors
  unfold Errors.report Report.collect Error.diagnostic
  dsimp only
  split
  · next hfault =>
    rw [hfault]
    exact ⟨rfl, rfl⟩
  · exact ⟨rfl, rfl⟩

theorem Rounds.parseWithin {room : Nat} {tokens : List Token} {rounds : List Round}
    (h : Rounds ⟨endLine tokens, (body tokens).length⟩ room (body tokens) rounds) :
    parseWithin room tokens =
      match (failures rounds).map Failure.error with
      | [] => .ok (statements rounds)
      | first :: others => .error ⟨first, others⟩ := by
  unfold Grammar.parseWithin
  simp only [h.declarations (Nat.le_refl _) (Nat.le_refl _)]
  split <;> simp_all

/-- Whatever the tokens are, reading ends after rounds each of which leaves fewer tokens than it
found. It fails iff a round fails, with as many errors as there are failed rounds, and is reported
in the words of the first. The errors blame tokens further and further on, so that their lines are
in order if those of the tokens are. -/
theorem recovery_goes_forward (room : Nat) (tokens : List Token) :
    ∃ rounds, Rounds ⟨endLine tokens, (body tokens).length⟩ room (body tokens) rounds ∧
      (∀ r ∈ rounds, r.after.length < r.before.length) ∧
      (failures rounds).length ≤ (body tokens).length ∧
      ((∃ errors, parseWithin room tokens = .error errors) ↔
        ∃ r ∈ rounds, ∃ failure, r.outcome = .error failure) ∧
      (∀ errors, parseWithin room tokens = .error errors →
        errors.toList = (failures rounds).map Failure.error ∧
        errors.report.head.message = errors.first.fault.message ∧
        errors.report.head.line = some errors.first.line) ∧
      (failures rounds).Pairwise (fun f g => g.rest.length < f.rest.length) ∧
      (∃ places : List Nat, places.Pairwise (· < ·) ∧
        List.Forall₂ (Blames ⟨endLine tokens, (body tokens).length⟩ (body tokens))
          (failures rounds) places) ∧
      (tokens.Pairwise (fun t u => t.line ≤ u.line) →
        (failures rounds).Pairwise fun f g => f.line ≤ g.line) := by
  have hsize := Nat.le_refl (body tokens).length
  obtain ⟨rounds, hrounds⟩ :=
    @exists_rounds ⟨endLine tokens, (body tokens).length⟩ room (body tokens) hsize
  have hparse := hrounds.parseWithin
  obtain ⟨places, hordered, -, hblames⟩ := hrounds.blames [] hsize
  rw [List.nil_append] at hblames
  refine ⟨rounds, hrounds, hrounds.progress hsize, hrounds.length_failures hsize, ?_, ?_,
    (hrounds.raised hsize).1, ⟨places, hordered, hblames⟩, ?_⟩
  · rw [hparse]
    split
    · next hnone =>
      refine iff_of_false nofun ?_
      rintro ⟨r, hr, failure, hfailure⟩
      have hmem := List.mem_map_of_mem (f := Failure.error) (mem_failures.mpr ⟨r, hr, hfailure⟩)
      rw [hnone] at hmem
      cases hmem
    · next first others hsome =>
      refine iff_of_true ⟨_, rfl⟩ ?_
      have hfirst : first ∈ (failures rounds).map Failure.error := hsome ▸ List.mem_cons_self
      obtain ⟨failure, hfailure, -⟩ := List.mem_map.mp hfirst
      obtain ⟨r, hr, houtcome⟩ := mem_failures.mp hfailure
      exact ⟨r, hr, failure, houtcome⟩
  · intro errors herrors
    refine ⟨?_, report_head errors⟩
    rw [herrors] at hparse
    split at hparse
    · cases hparse
    · next first others hfailures =>
      cases hparse
      exact hfailures.symm
  · intro hlines
    refine pairwise_of_places hblames hordered fun {f g j k} hf hg hjk => ?_
    rw [hf.line, hg.line]
    exact lineAt_mono hlines _ (Nat.le_of_lt hjk) (Nat.le_of_add_right_le hg.le)

/-- A stray brace, a wrong target whose equals sign lies behind, and no end mark. -/
theorem recovery_goes_forward_without_mark :
    let tokens : List Token :=
      [⟨.rightBrace, .nil, 1⟩, ⟨.semicolon, .nil, 1⟩, ⟨.number, .number 1, 1⟩, ⟨.equal, .nil, 2⟩,
       ⟨.number, .number 2, 3⟩, ⟨.semicolon, .nil, 3⟩, ⟨.for_, .nil, 4⟩]
    tokens.Pairwise (fun t u => t.line ≤ u.line) ∧
      parseWithin 20 tokens =
        .error ⟨⟨.expression, 1⟩, [⟨.assignmentTarget, 2⟩, ⟨.parenAfterFor, 4⟩]⟩ ∧
      ∃ rounds, Rounds ⟨endLine tokens, (body tokens).length⟩ 20 (body tokens) rounds ∧
        (failures rounds).length = 3 ∧
        (failures rounds).Pairwise fun f g => f.line ≤ g.line := by
  intro tokens
  have hlines : tokens.Pairwise (fun t u => t.line ≤ u.line) := by decide
  have hparse : parseWithin 20 tokens =
      .error ⟨⟨.expression, 1⟩, [⟨.assignmentTarget, 2⟩, ⟨.parenAfterFor, 4⟩]⟩ := rfl
  obtain ⟨rounds, hrounds, -, -, -, herrors, -, -, hordered⟩ := recovery_goes_forward 20 tokens
  refine ⟨hlines, hparse, rounds, hrounds, ?_, hordered hlines⟩
  have hlength := congrArg List.length (herrors _ hparse).1
  rw [List.length_map] at hlength
  exact hlength.symm

end Lox.Grammar
