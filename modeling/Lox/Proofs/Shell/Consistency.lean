import Lox.Proofs.Shell.Continuation
import Lox.Proofs.Session.Failures

/-!
# A shell between its lines

Whatever a line does, the shell is in order when it is done: source is pending only while braces are
open in it, and the prompt says so, only the globals are in scope, and the reporter knows no source.
So what is shown for the next line can come from no source but the one that this line runs.
-/

namespace Lox

def Reporter.ofLines (colored : Bool) (known : Option (List String)) : Reporter :=
  ⟨false, colored, [(Session.linePath, known)]⟩

theorem Reporter.load_ofLines (colored : Bool) (known : Option (List String)) (source : String) :
    (ofLines colored known).load Session.linePath source =
      ofLines colored (some (Text.lines source)) := by
  simp [load, ofLines, setSource]

theorem Reporter.unload_ofLines (colored : Bool) (known : Option (List String)) :
    (ofLines colored known).unload Session.linePath = ofLines colored none := by
  simp [unload, register, ofLines, setSource]

theorem Reporter.handle_ofLines (colored : Bool) (known : Option (List String))
    {what : Interruption} (h : ∀ code, what ≠ .quit code) :
    ((ofLines colored known).handle (some what)).reporter = ofLines colored none := by
  cases what with
  | quit code => exact absurd rfl (h code)
  | failure | keyboard | exhausted | unforeseen => rfl

namespace Session

theorem interruption_ne_quit (fault : Printer.Fault) (code : Option Int) :
    fault.interruption ≠ .quit code := by
  cases fault <;> exact nofun

theorem renderAll_ne_quit (room : Nat) (program : List Stmt) (code : Option Int) :
    (renderAll room program).2 ≠ some (.quit code) := by
  induction program with
  | nil => exact nofun
  | cons stmt rest ih =>
    rw [renderAll]
    cases stmt.textWithin (room - 2) with
    | ok text => exact ih
    | error fault => exact fun h => interruption_ne_quit fault code (Option.some.inj h)

theorem run_ne_quit {fuel : Nat} {s : Session} {source : String} {r : Run}
    (h : s.run fuel source = some r) (code : Option Int) :
    r.interruption ≠ some (.quit code) := by
  have hinterruption : r.interruption = r.ending.interruption := rfl
  rw [hinterruption]
  obtain ⟨report, -, hending⟩ | ⟨program, -, hending⟩ := run_cases h
  · rw [hending]
    exact nofun
  · unfold ending? at hending
    split at hending
    · rw [← Option.some.inj hending]
      exact renderAll_ne_quit s.room program code
    · obtain ⟨-, hend⟩ | ⟨fault, -, hend⟩ := Ending.ofRun?_cases hending
      · rw [hend]
        exact nofun
      · rw [hend]
        cases fault <;> exact nofun

structure Idle (colored : Bool) (s : Session) : Prop where
  path : s.path = linePath
  globals : s.scope.outer = []
  reporter : s.reporter = Reporter.ofLines colored none

/-- Running a source leaves the session idle, and what is shown comes from a reporter that knew that
source alone. -/
theorem Idle.runHandled {colored : Bool} {s : Session} (hs : s.Idle colored) {fuel : Nat}
    {source : String} {handled : Handled} (h : s.runHandled fuel source = some handled) :
    handled.session.Idle colored ∧
      ∃ r, s.run fuel source = some r ∧
        handled.shown =
          ((Reporter.ofLines colored (some (Text.lines source))).handle r.interruption).shown := by
  obtain ⟨r, hrun, rfl⟩ := Option.map_eq_some_iff.mp h
  obtain ⟨scope, hsession⟩ := run_frame hrun
  have hpath : r.session.path = s.path := by rw [hsession]
  have hreporter := congrArg Session.reporter hsession
  dsimp only at hreporter
  have hglobals := (Steady.run ⟨rfl, hs.globals⟩ hrun).globals
  rw [hs.path, hs.reporter, Reporter.load_ofLines, Reporter.unload_ofLines] at hreporter
  cases hinterruption : r.interruption with
  | none =>
    rw [hinterruption] at hreporter
    have hhandled : r.handle = ⟨r.session, r.printed, "", none⟩ := by
      rw [Run.handle, hinterruption]
      rfl
    rw [hhandled]
    exact ⟨⟨hpath.trans hs.path, hglobals, hreporter⟩, r, hrun, by rw [hinterruption]; rfl⟩
  | some what =>
    rw [hinterruption] at hreporter
    have hquit : ∀ code, what ≠ .quit code := fun code hcode =>
      run_ne_quit hrun code (hinterruption.trans (congrArg some hcode))
    refine ⟨⟨hpath.trans hs.path, hglobals, ?_⟩, r, hrun, ?_⟩
    · rw [Run.handle, hinterruption, hreporter]
      exact Reporter.handle_ofLines colored _ hquit
    · rw [Run.handle, hinterruption, hreporter]
      rfl

end Session

namespace Shell

theorem step_offer {fuel : Nat} {sh : Shell} {line : String} {st : Step}
    (h : sh.step fuel line = some st) :
    ((offer sh.pending line).1 = [] ∧ st.shell.session = sh.session ∧
      st.shown ∈ ["", "\n", helpText ++ "\n"]) ∨
    ∃ source handled, (offer sh.pending line).1 = [source] ∧
      sh.session.runHandled fuel source = some handled ∧
      st.shell.session = handled.session ∧ st.shown = handled.shown := by
  unfold step at h
  unfold offer
  cases hrequest : request (!sh.pending.isEmpty) line with
  | source text =>
    rw [hrequest] at h
    dsimp only [takeSource] at h ⊢
    cases haccumulate : Session.accumulate sh.pending text with
    | mk source more =>
      rw [haccumulate] at h
      cases more with
      | true =>
        cases h
        exact Or.inl ⟨rfl, rfl, by simp [say]⟩
      | false =>
        obtain ⟨handled, hhandled, rfl⟩ := Option.map_eq_some_iff.mp h
        exact Or.inr ⟨source, handled, rfl, hhandled, rfl, rfl⟩
  | nothing | help | exit | endOfInput =>
    rw [hrequest] at h
    cases h
    exact Or.inl ⟨rfl, rfl, by simp [say]⟩

theorem idle_step {colored : Bool} {fuel : Nat} {sh : Shell} {line : String} {st : Step}
    (hsh : sh.session.Idle colored) (h : sh.step fuel line = some st) :
    st.shell.session.Idle colored := by
  obtain ⟨-, hsession, -⟩ | ⟨source, handled, -, hhandled, hsession, -⟩ := step_offer h
  · rw [hsession]
    exact hsh
  · rw [hsession]
    exact (hsh.runHandled hhandled).1

theorem idle_feed {colored : Bool} {fuel : Nat} {sh last : Shell} {lines : List String}
    {events : List Event} (hsh : sh.session.Idle colored)
    (h : sh.feed fuel lines = some (events, last)) : last.session.Idle colored := by
  induction lines generalizing sh events with
  | nil =>
    cases h
    exact hsh
  | cons line rest ih =>
    obtain ⟨st, later, hst, hlater, -⟩ := feed_cons_eq_some h
    exact ih (idle_step hsh hst) hlater

theorem idle_start {reporter : Reporter} {options : CommandLine.Options} {sh : Shell}
    (hfresh : reporter.sources = []) (h : Program.startShell reporter options = .ok sh) :
    sh.session.Idle reporter.colored := by
  cases h
  refine ⟨rfl, rfl, ?_⟩
  simp [ofSession, Reporter.register, Reporter.ofLines, hfresh, Reporter.setSource]

structure Consistent (sh : Shell) : Prop where
  firstPrompt : sh.prompt = "> " ↔ sh.pending = ""
  secondPrompt : sh.prompt = ". " ↔ sh.pending ≠ ""
  isOpen : sh.pending ≠ "" → IsOpen sh.pending
  depth : sh.session.scope.depth = 1
  fatal : sh.session.reporter.fatal = false
  sources : sh.session.reporter.sources = [(Session.linePath, none)]

theorem Holding.consistent {colored : Bool} {sh : Shell} (h : sh.Holding)
    (hsession : sh.session.Idle colored) : sh.Consistent where
  firstPrompt := by rw [h.prompted, ← promptFor_eq_first_iff, Shell.firstPrompt]
  secondPrompt := by rw [h.prompted, ← promptFor_eq_second_iff, Shell.secondPrompt]
  isOpen := h.isOpen
  depth := by
    rw [Scope.depth, Scope.frames, hsession.globals]
    rfl
  fatal := h.fatal
  sources := by
    rw [hsession.reporter]
    rfl

/-- After every line the shell is consistent, its prompt included. What is shown for the next line
comes from a reporter that knows no source but the one which that line runs; a line that runs none
shows nothing, or the text of a command. -/
theorem shell_is_consistent_between_lines {reporter : Reporter} {options : CommandLine.Options}
    {sh last : Shell} {fuel : Nat} {lines : List String} {events : List Event}
    (hfresh : reporter.sources = []) (hstart : Program.startShell reporter options = .ok sh)
    (hfeed : sh.feed fuel lines = some (events, last)) :
    last.Consistent ∧
      ∀ more line st, last.step more line = some st →
        ((offer last.pending line).1 = [] ∧ st.shown ∈ ["", "\n", helpText ++ "\n"]) ∨
        ∃ source r, (offer last.pending line).1 = [source] ∧
          last.session.run more source = some r ∧
          st.shown = ((Reporter.ofLines reporter.colored (some (Text.lines source))).handle
            r.interruption).shown := by
  have hlast := idle_feed (idle_start hfresh hstart) hfeed
  have hholding := ((Reachable.start hstart).feed hfeed).holding
  refine ⟨hholding.consistent hlast, fun more line st hst => ?_⟩
  obtain ⟨hnone, -, hshown⟩ | ⟨source, handled, hsource, hhandled, -, hshown⟩ := step_offer hst
  · exact Or.inl ⟨hnone, hshown⟩
  · obtain ⟨-, r, hrun, htext⟩ := hlast.runHandled hhandled
    exact Or.inr ⟨source, r, hsource, hrun, hshown.trans htext⟩

/-- A line that fails, a block that is opened, and a line that closes it: what is shown for the last
line has an excerpt of the block only. -/
theorem failed_line_is_forgotten :
    let options : CommandLine.Options := ⟨none, 0, none, false⟩
    let idle : Session := ⟨Session.linePath, false, .empty, Reporter.ofLines false none, 993⟩
    let last : Shell := ⟨idle, "\x7b\n", ". "⟩
    let source := "\x7b\nb; \x7d\n"
    let shown := "  File '<in>', line 1:\n    print a;\nerror: [line 1] Undefined variable.\n"
    Program.startShell (Program.reporter false) options = .ok (ofSession idle) ∧
      (ofSession idle).feed 9 ["print a;", "\x7b"] = some ([.shown shown], last) ∧
      last.Consistent ∧ last.prompt = ". " ∧
      ∀ st, last.step 9 "b; \x7d" = some st →
        ∃ r, last.session.run 9 source = some r ∧
          st.shown = ((Reporter.ofLines false (some (Text.lines source))).handle
            r.interruption).shown := by
  intro options idle last source shown
  have hstart : Program.startShell (Program.reporter false) options = .ok (ofSession idle) := rfl
  have hfeed : (ofSession idle).feed 9 ["print a;", "\x7b"] = some ([.shown shown], last) := by
    decide +kernel
  have hoffer : (offer last.pending "b; \x7d").1 = [source] := by decide +kernel
  obtain ⟨hconsistent, hnext⟩ := shell_is_consistent_between_lines rfl hstart hfeed
  refine ⟨hstart, hfeed, hconsistent, rfl, fun st hst => ?_⟩
  obtain ⟨hnone, -⟩ | ⟨other, r, hother, hrun, hshown⟩ := hnext 9 _ st hst
  · rw [hoffer] at hnone
    cases hnone
  · rw [hoffer] at hother
    cases hother
    exact ⟨r, hrun, hshown⟩

end Shell

end Lox
