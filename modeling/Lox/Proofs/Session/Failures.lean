import Lox.Proofs.Evaluation.Release
import Lox.Proofs.Grammar.EndMark
import Lox.Proofs.Grammar.Vocabulary
import Lox.Proofs.Layout.Independence
import Lox.Proofs.Session.Ending

/-!
# Failures are the documented ones

However many sources are run in a session, each that ends completes, or fails because of its
characters, of the order of its tokens, or of a misuse while it runs. Every error blames the source
and is on one of its lines, and one that is found before the source runs changes nothing. Errors of
the host, such as looking for an operator that has no rule or a division by zero, are interruptions
of other kinds and never occur.
-/

namespace Lox

def Category.isLexical : Category → Bool
  | .lexical | .unexpectedCharacter | .unterminatedText | .unexpectedEnd | .unterminatedComment
  | .invalidNumber => true
  | _ => false

def Category.isGrammatical : Category → Bool
  | .grammatical | .expectedExpression => true
  | _ => false

/-- The diagnostic blames the source and is on one of its lines. -/
structure Diagnostic.In (source : String) (d : Diagnostic) : Prop where
  blame : d.internal = false
  place : ∃ line, d.line = some line ∧ 1 ≤ line ∧ line ≤ 1 + Lexer.feeds source

namespace Session

/-- The documented endings of a source that finds the given variables. -/
inductive Documented (parseOnly : Bool) (before : Scope) (source : String) : Ending → Prop
  | completed (scope : Scope) (printed : List String) :
      Documented parseOnly before source ⟨scope, printed, none⟩
  | lexical (d : Diagnostic) (category : d.category.isLexical = true) (blamed : d.In source) :
      Documented parseOnly before source ⟨before, [], some (.failure (.single d))⟩
  | grammatical (report : Report) (head : report.head.category = .grammatical)
      (parts : ∀ d ∈ report.parts, d.category.isGrammatical = true)
      (blamed : ∀ d ∈ report.head :: report.parts, d.In source) :
      Documented parseOnly before source ⟨before, [], some (.failure report)⟩
  | misuse (scope : Scope) (printed : List String) (m : Evaluation.Misuse) (line : Int)
      (mode : parseOnly = false) (blamed : (Diagnostic.runtime m.message (some line)).In source) :
      Documented parseOnly before source
        ⟨scope, printed, some (.failure (.single (.runtime m.message (some line))))⟩

/-- The nesting was too deep to be run or to be written. -/
def Ending.Exhausted (e : Ending) : Prop :=
  e.interruption = some (.failure (.single Evaluation.Fault.tooMuchNesting.diagnostic)) ∨
    e.interruption = some .exhausted

/-- What becomes of a session as sources are run in it, under its reporter or not. -/
inductive Reaches (s : Session) : Session → Prop
  | refl : s.Reaches s
  | run {t : Session} {fuel : Nat} {source : String} {r : Run} (before : s.Reaches t)
      (h : t.run fuel source = some r) : s.Reaches r.session
  | handled {t : Session} {fuel : Nat} {source : String} {r : Handled} (before : s.Reaches t)
      (h : t.runHandled fuel source = some r) : s.Reaches r.session

theorem failure_documented {source : String} {failure : Lexer.Failure}
    (h : Lexer.scan source = .error failure) (parseOnly : Bool) (scope : Scope) :
    Documented parseOnly scope source
      ⟨scope, [], some (.failure (.single failure.diagnostic))⟩ := by
  obtain ⟨hfirst, hlast⟩ := Lexer.failure_lines h
  have hplace : ∃ line : Int, some (failure.place.line : Int) = some line ∧ 1 ≤ line ∧
      line ≤ 1 + Lexer.feeds source := ⟨failure.place.line, rfl, by omega, by omega⟩
  obtain ⟨fault, place⟩ := failure
  cases fault <;> exact .lexical _ rfl ⟨rfl, hplace⟩

theorem errors_documented {room : Nat} {source : String} {tokens : List Token}
    {errors : Grammar.Errors} (hscan : Lexer.scan source = .ok tokens)
    (hread : Grammar.parseWithin room tokens = .error errors)
    (parseOnly : Bool) (scope : Scope) :
    Documented parseOnly scope source ⟨scope, [], some (.failure errors.report)⟩ := by
  have hcategory : ∀ e : Grammar.Error,
      e.diagnostic.category.isGrammatical = true ∧ e.diagnostic.internal = false := by
    rintro ⟨fault, line⟩
    cases fault <;> exact ⟨rfl, rfl⟩
  have hparts : ∀ d ∈ errors.report.parts,
      d.category.isGrammatical = true ∧ d.internal = false := by
    intro d hd
    have hmem : d ∈ errors.toList.map Grammar.Error.diagnostic := hd
    obtain ⟨e, -, rfl⟩ := List.mem_map.mp hmem
    exact hcategory e
  refine .grammatical errors.report rfl (fun d hd => (hparts d hd).1) fun d hd => ⟨?_, ?_⟩
  · rcases List.mem_cons.mp hd with rfl | hd
    · rfl
    · exact (hparts d hd).2
  · obtain ⟨e, he, hline⟩ := errors.report_lines hd
    obtain ⟨t, ht, hte⟩ := Grammar.error_line (Lexer.scan_ne_nil hscan) hread e he
    exact ⟨t.line, by rw [hline, hte], Lexer.scan_lines hscan t ht⟩

theorem report_documented {room : Nat} {source : String} {report : Report}
    (h : parse room source = .error report) (parseOnly : Bool) (scope : Scope) :
    Documented parseOnly scope source ⟨scope, [], some (.failure report)⟩ := by
  obtain ⟨failure, hscan, rfl⟩ | ⟨tokens, errors, hscan, hread, rfl⟩ := parse_eq_error h
  · exact failure_documented hscan parseOnly scope
  · exact errors_documented hscan hread parseOnly scope

theorem parse_known {room : Nat} {source : String} {program : List Stmt}
    (h : parse room source = .ok program) : Stmt.AllKnown program := by
  obtain ⟨tokens, -, hread⟩ := parse_eq_ok.mp h
  exact (Grammar.parseWithin_sound hread).known

theorem renderAll_foreseen (room : Nat) {program : List Stmt} (h : Stmt.AllKnown program) :
    (renderAll room program).2 = none ∨ (renderAll room program).2 = some .exhausted := by
  induction program with
  | nil => exact Or.inl rfl
  | cons stmt rest ih =>
    have hwrites : Printer.Writes (stmt.textWithin (room - 2)) :=
      Stmt.Known.writes _ 0 (Stmt.Known.cutAt Printer.costs stmt _ h.1)
    rw [renderAll]
    cases htext : stmt.textWithin (room - 2) with
    | ok text => exact ih h.2
    | error fault =>
      rw [hwrites fault htext]
      exact Or.inr rfl

theorem fault_documented {reading room fuel : Nat} {source : String} {program : List Stmt}
    {scope : Scope} {fault : Evaluation.Fault} (h : parse reading source = .ok program)
    (hrun : (Evaluation.interpretWithin room fuel program scope).1 = .failed fault) :
    fault = .tooMuchNesting ∨
      ∃ m line, fault = .misuse m line ∧ (Diagnostic.runtime m.message (some line)).In source := by
  have hknown := Stmt.AllKnown.cutAllAt Evaluation.costs program room (parse_known h)
  have hforeseen : fault.Foreseen := by
    rw [Evaluation.interpretWithin_eq] at hrun
    exact Evaluation.execAll_foreseen fuel _ ⟨scope, #[]⟩ hknown fault hrun
  cases fault with
  | misuse m line =>
    obtain ⟨tokens, hscan, hread⟩ := parse_eq_ok.mp h
    obtain ⟨t, ht, hline⟩ := Evaluation.fault_line (Lexer.scan_ne_nil hscan) hread hrun
    have hlines := Lexer.scan_lines hscan t ht
    exact Or.inr ⟨m, line, rfl, rfl, line, rfl, hline ▸ hlines⟩
  | tooMuchNesting => exact Or.inl rfl
  | unknownStatement | unknownExpression | unknownOperator | divisionByZero =>
    exact hforeseen.elim

theorem program_documented {room fuel : Nat} {source : String} {program : List Stmt}
    {parseOnly : Bool} {scope : Scope} {e : Ending} (h : parse room source = .ok program)
    (he : ending? fuel parseOnly room program scope = some e) (hnesting : ¬ e.Exhausted) :
    Documented parseOnly scope source e := by
  cases parseOnly with
  | true =>
    cases he
    rcases renderAll_foreseen room (parse_known h) with hnone | hexhausted
    · rw [hnone]
      exact .completed _ _
    · exact absurd (Or.inr hexhausted) hnesting
  | false =>
    obtain ⟨-, rfl⟩ | ⟨fault, hrun, rfl⟩ := Ending.ofRun?_cases he
    · exact .completed _ _
    · obtain rfl | ⟨m, line, rfl, hin⟩ := fault_documented h hrun
      · exact absurd (Or.inl rfl) hnesting
      · exact .misuse _ _ m line rfl hin

theorem run_documented {s : Session} {fuel : Nat} {source : String} {r : Run}
    (h : s.run fuel source = some r) (hnesting : ¬ r.ending.Exhausted) :
    Documented s.parseOnly s.scope source r.ending := by
  obtain ⟨report, hparse, hending⟩ | ⟨program, hparse, hending⟩ := run_cases h
  · rw [hending]
    exact report_documented hparse _ _
  · exact program_documented hparse hending hnesting

structure Steady (parseOnly : Bool) (s : Session) : Prop where
  mode : s.parseOnly = parseOnly
  globals : s.scope.outer = []

theorem start_steady {reporter : Reporter} {path : String} {interactive parseOnly : Bool}
    {room : Nat} {s : Session} (h : start reporter path interactive parseOnly room = .ok s) :
    Steady parseOnly s := by
  unfold start at h
  dsimp only at h
  split at h
  · cases h
    exact ⟨rfl, rfl⟩
  · split at h
    · cases h
    · cases h
      exact ⟨rfl, rfl⟩

theorem ending?_outer {fuel room : Nat} {parseOnly : Bool} {program : List Stmt} {scope : Scope}
    {e : Ending} (he : ending? fuel parseOnly room program scope = some e)
    (h : scope.outer = []) : e.scope.outer = [] := by
  cases parseOnly with
  | true =>
    cases he
    exact h
  | false =>
    have houter := (Evaluation.interpretWithin_released (room - 1) fuel program scope).outer
    simp only [h, List.map_nil, List.map_eq_nil_iff] at houter
    obtain ⟨-, rfl⟩ | ⟨fault, -, rfl⟩ := Ending.ofRun?_cases he
    · exact houter
    · exact houter

theorem Steady.run {parseOnly : Bool} {s : Session} (hs : s.Steady parseOnly) {fuel : Nat}
    {source : String} {r : Run} (h : s.run fuel source = some r) : r.session.Steady parseOnly := by
  refine ⟨(run_mode h).1.trans hs.mode, ?_⟩
  obtain ⟨report, -, hending⟩ | ⟨program, -, hending⟩ := run_cases h
  · have hscope : r.session.scope = s.scope := congrArg Ending.scope hending
    rw [hscope]
    exact hs.globals
  · exact ending?_outer hending hs.globals

theorem Reaches.steady {parseOnly : Bool} {s t : Session} (h : s.Reaches t)
    (hs : s.Steady parseOnly) : t.Steady parseOnly := by
  induction h with
  | refl => exact hs
  | run _ hrun ih => exact ih.run hrun
  | handled _ hrun ih =>
    obtain ⟨r, hr, rfl⟩ := Option.map_eq_some_iff.mp hrun
    exact ⟨(ih.run hr).mode, (ih.run hr).globals⟩

/-- Whatever room there is for nested calls and whatever was run before, a source that ends in a
session ends in a documented way, unless it is these calls that run out. Only the globals are left
then, no block was ever without a frame of its own to leave, and a parser that goes by an index
never looks for a token that is not there. -/
theorem runs_fail_only_as_documented {reporter : Reporter} {path : String}
    {interactive parseOnly : Bool} {room fuel : Nat} {s t : Session} {source : String} {r : Run}
    (hstart : start reporter path interactive parseOnly room = .ok s) (ht : s.Reaches t)
    (hrun : t.run fuel source = some r) (hnesting : ¬ r.ending.Exhausted) :
    Documented parseOnly t.scope source r.ending ∧ r.session.scope.outer = [] ∧
      (∀ (body : List Stmt) (state : Evaluation.State),
        (Evaluation.execAll fuel body state.enter).2.scope.leave? =
          some (Evaluation.exec fuel (.block body) state).2.scope) ∧
      ∀ tokens, Lexer.scan source = .ok tokens →
        Grammar.Walk.parseWithin tokens (t.room - 7) =
          .ok (Grammar.parseWithin (t.room - 7) tokens) := by
  have hsteady := ht.steady (start_steady hstart)
  have hdocumented := run_documented hrun hnesting
  rw [hsteady.mode] at hdocumented
  exact ⟨hdocumented, (hsteady.run hrun).globals, Evaluation.execAll_enter_leave fuel,
    fun tokens _ => Grammar.Walk.parseWithin_eq tokens _⟩

/-- The source `var a;` and behind it, in the same session, a source that negates `a` on its second
line. -/
theorem negated_nil_is_documented :
    let s : Session := ⟨linePath, false, .empty, ⟨false, false, [(linePath, none)]⟩, 993⟩
    let source := "print\n-a;"
    let first : Run := ⟨{ s with scope := ⟨[(.text "a", .nil)], []⟩ }, [], none⟩
    let second : Run :=
      ⟨{ first.session with reporter := first.session.reporter.load linePath source }, [],
        some (.failure (.single (.runtime "Operand must be a number." (some 2))))⟩
    start ⟨true, false, []⟩ linePath true false = .ok s ∧ s.run 9 "var a;" = some first ∧
      first.session.run 9 source = some second ∧
      Documented false first.session.scope source second.ending := by
  intro s source first second
  have hread : Lexer.read (Lexer.start "var a;") =
      ⟨[⟨.var_, .nil, 1⟩, ⟨.identifier, .text "a", 1⟩, ⟨.semicolon, .nil, 1⟩, ⟨.eof, .nil, 1⟩],
       none⟩ := by
    decide +kernel
  have hread' : Lexer.read (Lexer.start source) =
      ⟨[⟨.print_, .nil, 1⟩, ⟨.minus, .nil, 2⟩, ⟨.identifier, .text "a", 2⟩, ⟨.semicolon, .nil, 2⟩,
        ⟨.eof, .nil, 2⟩], none⟩ := by
    decide +kernel
  have hstart : start ⟨true, false, []⟩ linePath true false = .ok s := rfl
  have hfirst : s.run 9 "var a;" = some first := by
    rw [run, parse, Lexer.scan, hread]
    rfl
  have hsecond : first.session.run 9 source = some second := by
    rw [run, parse, Lexer.scan, hread']
    rfl
  have hnesting : ¬ second.ending.Exhausted := by
    rintro (h | h)
    · exact absurd h (by decide +kernel)
    · cases h
  exact ⟨hstart, hfirst, hsecond,
    (runs_fail_only_as_documented hstart (.run .refl hfirst) hsecond hnesting).1⟩

end Session

end Lox
