import Lox.Proofs.Lexer.Joining
import Lox.Proofs.Session.Braces
import Lox.Proofs.Shell.Dialogue

/-!
# Getting out of a continuation

Source that is held back for its open braces can be closed, and is then handed over, as long as it
can be read to its end or is stuck in a quoted text that a later line may end. Behind any other
fault no brace is read, so that nothing but quitting ends the continuation: no line is run and the
fault is not shown.
-/

namespace Lox

theorem Reporter.report_fatal (r : Reporter) (what : Report) :
    (r.report what).reporter.fatal = r.fatal := by
  unfold report
  dsimp only
  split <;> rfl

theorem Reporter.handle_fatal (r : Reporter) (interruption : Option Interruption) :
    (r.handle interruption).reporter.fatal = r.fatal := by
  cases interruption with
  | none => rfl
  | some what =>
    cases what with
    | quit => rfl
    | failure | keyboard | exhausted | unforeseen => exact r.report_fatal _

namespace Session

theorem run_fatal {fuel : Nat} {s : Session} {source : String} {r : Run}
    (h : s.run fuel source = some r) : r.session.reporter.fatal = s.reporter.fatal := by
  obtain ⟨scope, hsession⟩ := run_frame h
  rw [hsession]
  dsimp only
  split <;> rfl

theorem runAll_fatal {fuel : Nat} {s : Session} {sources : List String} {r : List Event × Session}
    (h : s.runAll fuel sources = some r) : r.2.reporter.fatal = s.reporter.fatal := by
  induction sources generalizing s r with
  | nil =>
    cases h
    rfl
  | cons source rest ih =>
    rw [runAll] at h
    obtain ⟨handled, hhandled, h⟩ := Option.bind_eq_some_iff.mp h
    obtain ⟨later, hlater, rfl⟩ := Option.map_eq_some_iff.mp h
    obtain ⟨run, hrun, rfl⟩ := Option.map_eq_some_iff.mp hhandled
    exact (ih hlater).trans ((run.session.reporter.handle_fatal _).trans (run_fatal hrun))

end Session

namespace Shell

/-- The shells of the program: a fresh one, and whatever lines make of it. -/
inductive Reachable : Shell → Prop where
  | start {reporter : Reporter} {options : CommandLine.Options} {sh : Shell}
      (h : Program.startShell reporter options = .ok sh) : Reachable sh
  | step {sh : Shell} {fuel : Nat} {line : String} {st : Step} (before : Reachable sh)
      (h : sh.step fuel line = some st) : Reachable st.shell

/-- No error ends the dialogue, and what is pending has whole lines, leaves braces open and is asked
for to be completed. -/
structure Holding (sh : Shell) : Prop where
  prompted : sh.Prompted
  fatal : sh.session.reporter.fatal = false
  ended : sh.pending ≠ "" → sh.pending.toList.getLast? = some '\n'
  isOpen : sh.pending ≠ "" → IsOpen sh.pending

theorem Prompted.step_cases {fuel : Nat} {sh : Shell} {line : String} {st : Step}
    (hsh : sh.Prompted) (h : sh.step fuel line = some st) :
    ∃ r, sh.session.runAll fuel (offer sh.pending line).1 = some r ∧
      st.events = notices sh.pending line ++ r.1 ∧
      st.shell = ⟨r.2, (offer sh.pending line).2, promptFor (offer sh.pending line).2⟩ := by
  have hobserved := hsh.step_observed fuel line
  rw [h] at hobserved
  obtain ⟨r, hr, hst⟩ := Option.map_eq_some_iff.mp hobserved.symm
  obtain ⟨hevents, hshell⟩ := Prod.mk.inj hst
  exact ⟨r, hr, hevents.symm, hshell.symm⟩

theorem offer_pending (pending line : String) :
    (offer pending line).2 = pending ∨ (offer pending line).2 = "" ∨
      ∃ text, (offer pending line).2 = pending ++ text ++ "\n" ∧
        IsOpen (pending ++ text ++ "\n") := by
  cases hrequest : request (!pending.isEmpty) line with
  | source text =>
    rw [offer_source hrequest]
    by_cases hopen : IsOpen (pending ++ text ++ "\n")
    · rw [if_pos hopen]
      exact Or.inr (Or.inr ⟨text, rfl, hopen⟩)
    · rw [if_neg hopen]
      exact Or.inr (Or.inl rfl)
  | nothing | help | exit | endOfInput =>
    rw [offer, hrequest]
    exact Or.inl rfl

theorem getLast?_line (text : String) : (text ++ "\n").toList.getLast? = some '\n' := by
  rw [String.toList_append, List.getLast?_append]
  rfl

theorem Holding.step {sh : Shell} (hsh : sh.Holding) {fuel : Nat} {line : String} {st : Step}
    (h : sh.step fuel line = some st) : st.shell.Holding := by
  obtain ⟨r, hr, -, hshell⟩ := hsh.prompted.step_cases h
  rw [hshell]
  have hfatal := (Session.runAll_fatal hr).trans hsh.fatal
  rcases offer_pending sh.pending line with hsame | hnone | ⟨text, hmore, hopen⟩
  · rw [hsame]
    exact ⟨Shell.prompted _ _, hfatal, hsh.ended, hsh.isOpen⟩
  · rw [hnone]
    exact ⟨Shell.prompted _ _, hfatal, fun hne => absurd rfl hne, fun hne => absurd rfl hne⟩
  · rw [hmore]
    exact ⟨Shell.prompted _ _, hfatal, fun _ => getLast?_line _, fun _ => hopen⟩

theorem Reachable.holding {sh : Shell} (h : Reachable sh) : sh.Holding := by
  induction h with
  | start h =>
    cases h
    exact ⟨prompted_ofSession _, rfl, fun hne => absurd rfl hne, fun hne => absurd rfl hne⟩
  | step _ h ih => exact ih.step h

theorem Reachable.feed {fuel : Nat} {sh last : Shell} {lines : List String} {events : List Event}
    (h : Reachable sh) (hfeed : sh.feed fuel lines = some (events, last)) : Reachable last := by
  induction lines generalizing sh events with
  | nil =>
    cases hfeed
    exact h
  | cons line rest ih =>
    obtain ⟨st, later, hst, hlater, -⟩ := feed_cons_eq_some hfeed
    exact ih (.step h hst) hlater

/-- The source can be read to its end, or only the end of a quoted text is missing. -/
def Mendable (source : String) : Prop :=
  ∀ failure ∈ (Lexer.read (Lexer.start source)).failure, failure.fault = .unterminatedText

instance (source : String) : Decidable (Mendable source) :=
  inferInstanceAs (Decidable (∀ failure ∈ (Lexer.read (Lexer.start source)).failure, _))

theorem openBraces_closers (line k : Nat) :
    Session.openBraces (Lexer.closers line k) = -(k : Int) := by
  rw [Session.openBraces_eq_count]
  simp [Lexer.closers, Token.count, List.countP_replicate]

theorem toList_closed (source : String) (lead : List Char) (k : Nat) :
    (source ++ String.ofList (lead ++ List.replicate k '}') ++ "\n").toList =
      source.toList ++ (lead ++ Lexer.closingLine k) := by
  simp [Lexer.closingLine]

theorem Mendable.read_closed {source : String} (h : Mendable source) :
    ∃ lead : List Char, (∀ c ∈ lead, c = '"') ∧ ∀ k, ∃ front line,
      Session.openBraces front = Session.openBraces (Lexer.read (Lexer.start source)).tokens ∧
      (Lexer.read (Lexer.start
        (source ++ String.ofList (lead ++ List.replicate (k + 1) '}') ++ "\n"))).tokens =
        front ++ Lexer.closers line (k + 1) := by
  obtain ⟨cut, hcut, hrest | ⟨fault, hstuck⟩⟩ := Lexer.exists_halted_cut source.toList
  · refine ⟨[], nofun, fun k => ?_⟩
    obtain ⟨line, hclosed⟩ := hcut.read_closed hrest k
    refine ⟨Lexer.tokensFrom 1 cut.pieces, line, ?_, ?_⟩
    · rw [Lexer.read_of_cut hcut hrest, Lexer.Cut.tokens, Session.openBraces_append]
      exact (Int.add_zero _).symm
    · rw [Lexer.start, toList_closed, List.nil_append, hclosed]
  · obtain ⟨left, hread⟩ := Lexer.read_of_stuck hcut hstuck
    have hfault : fault = .unterminatedText := h _ (by rw [hread]; rfl)
    subst hfault
    generalize hquoted : cut.rest = quoted at hstuck
    cases hstuck with
    | text hcs =>
      refine ⟨['"'], by simp, fun k => ?_⟩
      obtain ⟨t, line, hkind, hclosed⟩ := hcut.read_mended hquoted hcs (k + 1)
      refine ⟨Lexer.tokensFrom 1 cut.pieces ++ [t], line, ?_, ?_⟩
      · rw [hread, Session.openBraces_append]
        simp [Session.openBraces, hkind]
      · rw [Lexer.start, toList_closed, List.singleton_append, hclosed, List.append_assoc]
        rfl

theorem Mendable.exists_line {source : String} (h : Mendable source) (hopen : IsOpen source) :
    ∃ line : String, (∀ c ∈ line.toList, c = '"' ∨ c = '}') ∧
      Session.openBraces (Lexer.read (Lexer.start (source ++ line ++ "\n"))).tokens = -1 := by
  obtain ⟨lead, hlead, hclosed⟩ := h.read_closed
  obtain ⟨k, hk⟩ := Int.eq_ofNat_of_zero_le (Int.le_of_lt hopen)
  obtain ⟨front, line, hfront, htokens⟩ := hclosed k
  refine ⟨String.ofList (lead ++ List.replicate (k + 1) '}'), ?_, ?_⟩
  · intro c hc
    rw [String.toList_ofList, List.mem_append] at hc
    rcases hc with hc | hc
    · exact Or.inl (hlead c hc)
    · exact Or.inr (List.eq_of_mem_replicate hc)
  · rw [htokens, Session.openBraces_append, hfront, hk, openBraces_closers]
    push_cast
    omega

theorem request_signs {line : String} (h : ∀ c ∈ line.toList, c = '"' ∨ c = '}') :
    request true line = .source line := by
  have hother {c : Char} (hquote : c ≠ '"') (hbrace : c ≠ '}') : c ∉ line.toList := by
    intro hc
    rcases h c hc with rfl | rfl
    · exact hquote rfl
    · exact hbrace rfl
  have hsolid : Text.trimChars line.toList = line.toList := by
    apply Text.trimChars_of_solid
    intro c hc
    rcases h c hc with rfl | rfl <;> decide
  have hmark : (Text.trimChars line.toList).head? ≠ some '?' := by
    intro hhead
    rw [hsolid] at hhead
    exact hother (by decide) (by decide) (List.mem_of_head? hhead)
  have hword : word line ≠ endOfInput := by
    intro hend
    rw [word, hsolid, ← String.toList_inj, String.toList_ofList] at hend
    have hmem : 'E' ∈ line.toList.takeWhile isCommandChar := by
      rw [hend]
      decide
    exact hother (by decide) (by decide) ((List.takeWhile_sublist _).subset hmem)
  rw [request_pending hword, spelled_of_head hmark, Text.trim, hsolid, String.ofList_toList]

theorem parts_ne_nil {room : Nat} {source : String} {report : Report}
    (h : Session.parse room source = .error report) : report.parts ≠ [] := by
  obtain ⟨failure, -, rfl⟩ | ⟨tokens, errors, -, -, rfl⟩ := Session.parse_eq_error h
  · exact List.cons_ne_nil _ _
  · exact List.cons_ne_nil _ _

theorem join_describe_ne_empty (r : Reporter) {parts : List Diagnostic} (h : parts ≠ []) :
    String.join (parts.map r.describe) ≠ "" := by
  obtain ⟨d, ds, rfl⟩ := List.exists_cons_of_ne_nil h
  rw [List.map_cons, String.join_cons]
  simp [Reporter.describe]

theorem runAll_rejected {s : Session} (hfatal : s.reporter.fatal = false) {source : String}
    {report : Report} (h : Session.parse s.room source = .error report) (fuel : Nat) :
    s.runAll fuel [source] =
      some ([.shown (String.join (report.parts.map (s.reporter.load s.path source).describe))],
        { s with reporter := (s.reporter.load s.path source).unloadAll }) := by
  have hshown := join_describe_ne_empty (s.reporter.load s.path source) (parts_ne_nil h)
  have hhandled : s.runHandled fuel source =
      some ⟨{ s with reporter := (s.reporter.load s.path source).unloadAll }, [],
        String.join (report.parts.map (s.reporter.load s.path source).describe), none⟩ := by
    simp only [Session.runHandled, Session.run, h, Option.map_some, Session.Run.handle]
    simp [Reporter.handle, Reporter.report, Reporter.load, hfatal]
  rw [Session.runAll, hhandled]
  simp [Session.runAll, Session.Handled.events, Event.ofParts, hshown]

/-- A shell with mendable source pending can be made to hand it over, by a line behind which the
source is not run but rejected, so that whatever it would do it ends. -/
theorem Holding.exists_way_out {sh : Shell} (hsh : sh.Holding) (hpending : sh.pending ≠ "")
    (h : Mendable sh.pending) :
    ∃ line text last, offerAll sh.pending [line] = ([sh.pending ++ line ++ "\n"], "") ∧
      last.prompt = "> " ∧ ∀ fuel, sh.feed fuel [line] = some ([.shown text], last) := by
  obtain ⟨line, hline, hbraces⟩ := h.exists_line (hsh.isOpen hpending)
  have hrequest : request (!sh.pending.isEmpty) line = .source line := by
    rw [String.isEmpty_eq_false_iff.mpr hpending]
    exact request_signs hline
  have hclosed : ¬ IsOpen (sh.pending ++ line ++ "\n") := by
    rw [IsOpen, hbraces]
    decide
  have hoffer : offer sh.pending line = ([sh.pending ++ line ++ "\n"], "") := by
    rw [offer_source hrequest, if_neg hclosed]
  have hnotices : notices sh.pending line = [] := by rw [notices, hrequest]
  obtain ⟨report, hreport⟩ : ∃ report,
      Session.parse sh.session.room (sh.pending ++ line ++ "\n") = .error report := by
    cases hparse : Session.parse sh.session.room (sh.pending ++ line ++ "\n") with
    | error report => exact ⟨report, rfl⟩
    | ok program =>
      rw [Session.openBraces_of_parse hparse] at hbraces
      cases hbraces
  obtain ⟨text, after, hrun⟩ : ∃ text after, ∀ fuel,
      sh.session.runAll fuel [sh.pending ++ line ++ "\n"] = some ([.shown text], after) :=
    ⟨_, _, runAll_rejected hsh.fatal hreport⟩
  refine ⟨line, text, ⟨after, "", firstPrompt⟩, ?_, rfl, fun fuel => ?_⟩
  · rw [offerAll, hoffer]
    rfl
  · rw [feed_cons, hsh.prompted.step_observed, hoffer, hrun, hnotices]
    rfl

/-- Braces are open before a fault on a line that has ended, which no later line can mend. -/
structure Jammed (source : String) : Prop where
  ended : source.toList.getLast? = some '\n'
  isOpen : IsOpen source
  fault : ¬ Mendable source

theorem Jammed.extend {source : String} (h : Jammed source) (text : String) :
    Jammed (source ++ text ++ "\n") := by
  obtain ⟨failure, hfailure, hfault⟩ : ∃ failure,
      (Lexer.read (Lexer.start source)).failure = some failure ∧
        failure.fault ≠ .unterminatedText := by
    simpa [Mendable] using h.fault
  obtain ⟨htokens, later, hlater, hsame⟩ :=
    Lexer.read_append_stuck hfailure h.ended hfault (text ++ "\n")
  rw [← String.append_assoc] at htokens hlater
  refine ⟨getLast?_line _, ?_, ?_⟩
  · rw [IsOpen, htokens]
    exact h.isOpen
  · intro hmendable
    exact hfault (hsame.symm.trans (hmendable later hlater))

theorem Jammed.ne_empty {source : String} (h : Jammed source) : source ≠ "" := by
  rintro rfl
  cases h.ended

theorem Jammed.offer {pending : String} (h : Jammed pending) {line : String}
    (hword : word line ≠ endOfInput) :
    offer pending line = ([], pending ++ spelled line ++ "\n") ∧ notices pending line = [] := by
  have hrequest : request (!pending.isEmpty) line = .source (spelled line) := by
    rw [String.isEmpty_eq_false_iff.mpr h.ne_empty]
    exact request_pending hword
  constructor
  · rw [offer_source hrequest, if_pos (h.extend _).isOpen]
  · rw [notices, hrequest]

theorem quit_mem_notices {pending line : String} (h : word line = endOfInput) :
    Event.quit ∈ notices pending line := by
  rw [notices, request_eq_endOfInput_iff.mpr h]
  decide

theorem Jammed.feed {fuel : Nat} {sh last : Shell} {lines : List String} {events : List Event}
    (hsh : sh.Prompted) (h : Jammed sh.pending) (hfeed : sh.feed fuel lines = some (events, last))
    (hquit : .quit ∉ events) :
    events = [] ∧ (offerAll sh.pending lines).1 = [] ∧ last.Prompted ∧ Jammed last.pending := by
  induction lines generalizing sh events with
  | nil =>
    cases hfeed
    exact ⟨rfl, rfl, hsh, h⟩
  | cons line rest ih =>
    obtain ⟨st, later, hst, hlater, rfl⟩ := feed_cons_eq_some hfeed
    obtain ⟨r, hr, hevents, hshell⟩ := hsh.step_cases hst
    by_cases hword : word line = endOfInput
    · exact absurd (by simp [hevents, quit_mem_notices hword]) hquit
    · obtain ⟨hoffer, hnotices⟩ := h.offer hword
      rw [hoffer] at hr hshell
      cases hr
      rw [hnotices] at hevents
      rw [hshell] at hlater
      rw [hevents] at hquit ⊢
      obtain ⟨hnone, hsources, hlast⟩ := ih (Shell.prompted _ _) (h.extend _) hlater hquit
      refine ⟨hnone, ?_, hlast⟩
      rw [offerAll, hoffer]
      exact hsources

theorem Jammed.no_way_out {fuel : Nat} {sh last : Shell} {lines : List String}
    {events : List Event} (hsh : sh.Prompted) (h : Jammed sh.pending)
    (hfeed : sh.feed fuel lines = some (events, last)) (hquit : .quit ∉ events) :
    (offerAll sh.pending lines).1 = [] ∧ events = [] ∧ last.prompt = ". " := by
  obtain ⟨hevents, hsources, hprompted, hlast⟩ := h.feed hsh hfeed hquit
  exact ⟨hsources, hevents, hprompted.trans (promptFor_eq_second_iff.mpr hlast.ne_empty)⟩

/-- Pending source can be handed over iff it is mendable. Where it is, one line does it, whatever
the source would do; where it is not, no lines do, and the fault is never shown. -/
theorem open_source_can_be_closed_iff_mendable {sh : Shell} (hsh : Reachable sh)
    (hpending : sh.pending ≠ "") :
    (Mendable sh.pending →
      ∃ line text last, offerAll sh.pending [line] = ([sh.pending ++ line ++ "\n"], "") ∧
        last.prompt = "> " ∧ ∀ fuel, sh.feed fuel [line] = some ([.shown text], last)) ∧
    (¬ Mendable sh.pending →
      ∀ fuel lines events last, sh.feed fuel lines = some (events, last) → .quit ∉ events →
        (offerAll sh.pending lines).1 = [] ∧ events = [] ∧ last.prompt = ". ") := by
  have hholding := hsh.holding
  constructor
  · intro hmendable
    exact hholding.exists_way_out hpending hmendable
  · intro hfault fuel lines events last hfeed hquit
    have hjammed : Jammed sh.pending := ⟨hholding.ended hpending, hholding.isOpen hpending, hfault⟩
    exact hjammed.no_way_out hholding.prompted hfeed hquit

/-- A block in which a quoted text has no end yet. -/
theorem open_text_can_be_closed :
    let s : Session :=
      ⟨Session.linePath, false, .empty, ⟨false, false, [(Session.linePath, none)]⟩, 993⟩
    let sh : Shell := ⟨s, "\x7b\nprint \"a\n", ". "⟩
    Reachable sh ∧ sh.pending ≠ "" ∧ Mendable sh.pending ∧
      ∃ line text last, offerAll sh.pending [line] = ([sh.pending ++ line ++ "\n"], "") ∧
        last.prompt = "> " ∧ ∀ fuel, sh.feed fuel [line] = some ([.shown text], last) := by
  intro s sh
  have hstart : Program.startShell (Program.reporter false) ⟨none, 0, none, false⟩ =
      .ok (ofSession s) := rfl
  have hfeed : (ofSession s).feed 0 ["\x7b", "print \"a"] = some ([], sh) := by decide +kernel
  have hreachable : Reachable sh := (Reachable.start hstart).feed hfeed
  have hmendable : Mendable sh.pending := by decide +kernel
  have hpending : sh.pending ≠ "" := by decide
  exact ⟨hreachable, hpending, hmendable,
    (open_source_can_be_closed_iff_mendable hreachable hpending).1 hmendable⟩

/-- A block with a character that starts no token: the line that closes the block does not hand it
over, and no other lines do. -/
theorem stray_character_jams_a_block :
    let s : Session :=
      ⟨Session.linePath, false, .empty, ⟨false, false, [(Session.linePath, none)]⟩, 993⟩
    let sh : Shell := ⟨s, "\x7b\n@\n", ". "⟩
    Reachable sh ∧ sh.pending ≠ "" ∧
      sh.feed 0 ["\x7d"] = some ([], ⟨s, "\x7b\n@\n\x7d\n", ". "⟩) ∧
      ∀ fuel lines events last, sh.feed fuel lines = some (events, last) → .quit ∉ events →
        (offerAll sh.pending lines).1 = [] ∧ events = [] ∧ last.prompt = ". " := by
  intro s sh
  have hstart : Program.startShell (Program.reporter false) ⟨none, 0, none, false⟩ =
      .ok (ofSession s) := rfl
  have hfeed : (ofSession s).feed 0 ["\x7b", "@"] = some ([], sh) := by decide +kernel
  have hjammed : Jammed sh.pending := ⟨by decide +kernel, by decide +kernel, by decide +kernel⟩
  have hreachable : Reachable sh := (Reachable.start hstart).feed hfeed
  refine ⟨hreachable, by decide, by decide +kernel, ?_⟩
  intro fuel lines events last hfeed hquit
  exact hjammed.no_way_out hreachable.holding.prompted hfeed hquit

end Shell

end Lox
