import Lox.Proofs.Grammar.Locality
import Lox.Proofs.Layout.Independence
import Lox.Proofs.Lexer.Joining
import Lox.Proofs.Session.Ending

/-!
# Sources one behind the other

Running one source and then another in a session is running both as one, without anything between
them: tokens do not merge across the seam, the last statement of the first takes nothing of the
second, and of a run that completes only the variables and the printed lines are left. Lines in the
second source are counted from the start of the first.
-/

namespace Lox.Session

theorem prolongs_ended {ts : List Token} (h : ts = [] ∨ Grammar.Ended ts) :
    ∀ t ∈ ts.getLast?, ∀ c, Lexer.prolongs t.kind c = false := by
  obtain rfl | ⟨us, last, rfl, hlast⟩ := h
  · exact nofun
  · intro t ht c
    rw [List.getLast?_concat, Option.mem_def, Option.some.injEq] at ht
    subst ht
    rcases hlast with hkind | hkind <;> rw [hkind] <;> rfl

theorem parse_append {room : Nat} {a b : String} {first second : List Stmt}
    (ha : parse room a = .ok first) (hb : parse room b = .ok second) :
    parse room (a ++ b) =
      .ok (first ++ Stmt.mapAllLines (· + (Lexer.feeds a : Int)) second) := by
  obtain ⟨ts, hts, hfirst⟩ := parse_eq_ok.mp ha
  obtain ⟨us, hus, hsecond⟩ := parse_eq_ok.mp hb
  have hscan := Lexer.scan_append hts hus
    (prolongs_ended (Grammar.parseWithin_sound hfirst).ended)
  have hlater := Grammar.parseWithin_mapLines (· + (Lexer.feeds a : Int)) (room - 7)
    (Lexer.scan_ne_nil hus)
  rw [hsecond] at hlater
  exact parse_eq_ok.mpr ⟨_, hscan, Grammar.parseWithin_append hfirst hlater⟩

/-- The ending behind a run that printed the lines, with the lines of its errors moved. -/
def Ending.behind (lines : List String) (f : Int → Int) (e : Ending) : Ending :=
  ⟨e.scope, lines ++ e.printed, e.interruption.map (Interruption.mapLines f)⟩

theorem Ending.ofRun?_behind (lines : Array String) (f : Int → Int) (r : Evaluation.Run) :
    ofRun? ((r.mapLine f).after lines) = (ofRun? r).map (behind lines.toList f) := by
  obtain ⟨outcome, s⟩ := r
  cases outcome with
  | completed => simp [ofRun?, behind, Evaluation.Run.after, Evaluation.State.after,
      Evaluation.Run.mapLine, Evaluation.Outcome.mapLine]
  | failed fault => simp [ofRun?, behind, Evaluation.Run.after, Evaluation.State.after,
      Evaluation.Run.mapLine, Evaluation.Outcome.mapLine, Evaluation.Fault.interruption_mapLine]
  | outOfFuel => rfl

theorem interruption_mapLines (f : Int → Int) (fault : Printer.Fault) :
    fault.interruption.mapLines f = fault.interruption := by
  cases fault <;> rfl

theorem renderAll_mapLines (f : Int → Int) (room : Nat) (program : List Stmt) :
    renderAll room (Stmt.mapAllLines f program) =
      ((renderAll room program).1,
        (renderAll room program).2.map (Interruption.mapLines f)) := by
  induction program with
  | nil => rfl
  | cons stmt rest ih =>
    rw [Stmt.mapAllLines, renderAll, renderAll, Stmt.textWithin_mapLines, ih]
    cases stmt.textWithin (room - 2) with
    | ok text => rfl
    | error fault => simp [interruption_mapLines]

theorem renderAll_append {room : Nat} {first : List Stmt} (h : (renderAll room first).2 = none)
    (second : List Stmt) :
    renderAll room (first ++ second) =
      ((renderAll room first).1 ++ (renderAll room second).1, (renderAll room second).2) := by
  induction first with
  | nil => rfl
  | cons stmt rest ih =>
    rw [renderAll] at h
    rw [List.cons_append, renderAll, renderAll]
    cases htext : stmt.textWithin (room - 2) with
    | ok text =>
      rw [htext] at h
      simp only [ih h, List.cons_append]
    | error fault =>
      rw [htext] at h
      cases h

theorem completed_of_ending? {fuel room : Nat} {first : List Stmt} {scope : Scope} {e : Ending}
    (h : ending? fuel false room first scope = some e) (hdone : e.interruption = none) :
    ∃ s, Evaluation.interpretWithin (room - 1) fuel first scope = (.completed, s) ∧
      s.scope = e.scope ∧ s.printed.toList = e.printed := by
  obtain ⟨hrun, rfl⟩ | ⟨fault, -, rfl⟩ := Ending.ofRun?_cases h
  · exact ⟨_, Prod.ext hrun rfl, rfl, rfl⟩
  · cases hdone

theorem ending?_append {fuel room : Nat} {parseOnly : Bool} {first : List Stmt} {scope : Scope}
    {e : Ending} (h : ending? fuel parseOnly room first scope = some e)
    (hdone : e.interruption = none) (second : List Stmt) (f : Int → Int) :
    ending? fuel parseOnly room (first ++ Stmt.mapAllLines f second) scope =
      (ending? fuel parseOnly room second e.scope).map (Ending.behind e.printed f) := by
  cases parseOnly with
  | true =>
    cases h
    simp only [ending?, if_true, renderAll_append hdone, renderAll_mapLines, Option.map_some,
      Ending.behind]
  | false =>
    obtain ⟨s, hcompleted, hscope, hprinted⟩ := completed_of_ending? h hdone
    simp only [ending?, Bool.false_eq_true, if_false]
    rw [Evaluation.interpretWithin_append hcompleted, Evaluation.interpretWithin_mapLines,
      Ending.ofRun?_behind, hscope, hprinted]

def linesOf (fuel : Nat) (parseOnly : Bool) (room : Nat) (program : List Stmt) (scope : Scope) :
    List String :=
  if parseOnly then (renderAll room program).1
  else (Evaluation.interpretWithin (room - 1) fuel program scope).2.printed.toList

theorem linesOf_of_ending {fuel room : Nat} {parseOnly : Bool} {program : List Stmt} {scope : Scope}
    {e : Ending} (h : ending? fuel parseOnly room program scope = some e) :
    linesOf fuel parseOnly room program scope = e.printed := by
  cases parseOnly with
  | true =>
    cases h
    rfl
  | false => obtain ⟨-, rfl⟩ | ⟨fault, -, rfl⟩ := Ending.ofRun?_cases h <;> rfl

theorem linesOf_append {fuel room : Nat} {parseOnly : Bool} {first : List Stmt} {scope : Scope}
    {e : Ending} (h : ending? fuel parseOnly room first scope = some e)
    (hdone : e.interruption = none) (second : List Stmt) (f : Int → Int) :
    linesOf fuel parseOnly room (first ++ Stmt.mapAllLines f second) scope =
      e.printed ++ linesOf fuel parseOnly room second e.scope := by
  cases parseOnly with
  | true =>
    cases h
    simp only [linesOf, if_true, renderAll_append hdone, renderAll_mapLines]
  | false =>
    obtain ⟨s, hcompleted, hscope, hprinted⟩ := completed_of_ending? h hdone
    simp only [linesOf, Bool.false_eq_true, if_false]
    rw [Evaluation.interpretWithin_append hcompleted, Evaluation.interpretWithin_mapLines, hscope,
      ← hprinted]
    exact Array.toList_append

/-- The lines that a source prints within the fuel, whether it ends or not. -/
def printedWithin (fuel : Nat) (s : Session) (source : String) : List String :=
  match parse s.room source with
  | .error _ => []
  | .ok program => linesOf fuel s.parseOnly s.room program s.scope

/-- They are the lines of the run, if it ends. -/
theorem printedWithin_eq {s : Session} {fuel : Nat} {source : String} {r : Run}
    (h : s.run fuel source = some r) : s.printedWithin fuel source = r.printed := by
  unfold printedWithin
  obtain ⟨report, hparse, hending⟩ | ⟨program, hparse, hending⟩ := run_cases h
  · rw [hparse]
    exact (congrArg Ending.printed hending).symm
  · rw [hparse]
    exact linesOf_of_ending hending

section

variable {s : Session} {a b : String} {first second : List Stmt} {fuel : Nat} {r : Run}
  (ha : parse s.room a = .ok first) (hb : parse s.room b = .ok second)
  (hrun : s.run fuel a = some r) (hdone : r.interruption = none)

include ha hrun in
theorem first_ending {n : Nat} (h : fuel ≤ n) :
    ending? n s.parseOnly s.room first s.scope = some r.ending := by
  have hending := run_ending_mono h (congrArg (Option.map Run.ending) hrun)
  rwa [run_ending, ha] at hending

include ha hb hrun hdone

theorem run_append_ending {n : Nat} (h : fuel ≤ n) :
    (s.run n (a ++ b)).map Run.ending =
      ((r.session.run n b).map Run.ending).map
        (Ending.behind r.printed (· + (Lexer.feeds a : Int))) := by
  obtain ⟨hmode, hroom⟩ := run_mode hrun
  rw [run_ending, run_ending, hmode, hroom, parse_append ha hb, hb]
  exact ending?_append (first_ending ha hrun h) hdone second _

theorem printedWithin_append {n : Nat} (h : fuel ≤ n) :
    s.printedWithin n (a ++ b) = r.printed ++ r.session.printedWithin n b := by
  obtain ⟨hmode, hroom⟩ := run_mode hrun
  simp only [printedWithin, hmode, hroom, parse_append ha hb, hb]
  exact linesOf_append (first_ending ha hrun h) hdone second _

theorem ends_append {e : Ending} :
    s.Ends (a ++ b) e ↔ ∃ later, r.session.Ends b later ∧
      e = later.behind r.printed (· + (Lexer.feeds a : Int)) := by
  constructor
  · rintro ⟨n, hn⟩
    have hjoined := run_append_ending ha hb hrun hdone (Nat.le_max_left fuel n)
    rw [run_ending_mono (Nat.le_max_right fuel n) hn] at hjoined
    obtain ⟨later, hlater, rfl⟩ := Option.map_eq_some_iff.mp hjoined.symm
    exact ⟨later, ⟨_, hlater⟩, rfl⟩
  · rintro ⟨later, ⟨n, hn⟩, rfl⟩
    refine ⟨max fuel n, ?_⟩
    rw [run_append_ending ha hb hrun hdone (Nat.le_max_left fuel n),
      run_ending_mono (Nat.le_max_right fuel n) hn]
    rfl

end

/-- If a source completes, then running another behind it in the same session is running both as
one: it ends iff that does, in the same way and with the same variables, on a line that is counted
from the start of the first; and whether it ends or not, the same lines are printed. -/
theorem running_in_turn_is_running_joined {s : Session} {a b : String} {first second : List Stmt}
    {fuel : Nat} {r : Run} (ha : parse s.room a = .ok first)
    (hb : parse s.room b = .ok second) (hrun : s.run fuel a = some r)
    (hdone : r.interruption = none) :
    (∀ e, s.Ends (a ++ b) e ↔ ∃ later, r.session.Ends b later ∧
      e = later.behind r.printed (· + (Lexer.feeds a : Int))) ∧
    (s.Diverges (a ++ b) ↔ r.session.Diverges b) ∧
    ∀ n, fuel ≤ n → s.printedWithin n (a ++ b) = r.printed ++ r.session.printedWithin n b := by
  have hends := @ends_append s a b first second fuel r ha hb hrun hdone
  refine ⟨fun e => hends, ?_, fun n => printedWithin_append ha hb hrun hdone⟩
  rw [diverges_iff, diverges_iff]
  constructor
  · exact fun h later hlater => h _ (hends.mpr ⟨later, hlater, rfl⟩)
  · intro h e he
    obtain ⟨later, hlater, -⟩ := hends.mp he
    exact h later hlater

/-- A source that ends in an `if` with no line feed behind it, and one that fails on its second
line. Joined they fail on the third. -/
theorem joined_sources_fail_on_the_later_line :
    let s : Session := ⟨linePath, false, .empty, ⟨false, false, []⟩, 993⟩
    let a := "var a = true;\nif (a) print a;"
    let b := "print nil;\nprint -a;"
    let scope : Scope := ⟨[(.text "a", .bool true)], []⟩
    let r : Run := ⟨{ s with scope, reporter := s.reporter.unload linePath }, ["true"], none⟩
    s.run 9 a = some r ∧
      r.session.Ends b ⟨scope, ["nil"],
        some (.failure (.single (.runtime "Operand must be a number." (some 2))))⟩ ∧
      s.Ends (a ++ b) ⟨scope, ["true", "nil"],
        some (.failure (.single (.runtime "Operand must be a number." (some 3))))⟩ := by
  intro s a b scope r
  have hread : Lexer.read (Lexer.start a) =
      ⟨[⟨.var_, .nil, 1⟩, ⟨.identifier, .text "a", 1⟩, ⟨.equal, .nil, 1⟩, ⟨.true_, .nil, 1⟩,
        ⟨.semicolon, .nil, 1⟩, ⟨.if_, .nil, 2⟩, ⟨.leftParen, .nil, 2⟩, ⟨.identifier, .text "a", 2⟩,
        ⟨.rightParen, .nil, 2⟩, ⟨.print_, .nil, 2⟩, ⟨.identifier, .text "a", 2⟩,
        ⟨.semicolon, .nil, 2⟩, ⟨.eof, .nil, 2⟩], none⟩ := by
    decide +kernel
  have hread' : Lexer.read (Lexer.start b) =
      ⟨[⟨.print_, .nil, 1⟩, ⟨.nil_, .nil, 1⟩, ⟨.semicolon, .nil, 1⟩, ⟨.print_, .nil, 2⟩,
        ⟨.minus, .nil, 2⟩, ⟨.identifier, .text "a", 2⟩, ⟨.semicolon, .nil, 2⟩, ⟨.eof, .nil, 2⟩],
       none⟩ := by
    decide +kernel
  have ha : parse s.room a = .ok [.declare ⟨.identifier, .text "a", 1⟩ (.literal (.bool true)),
      .ifThen (.var ⟨.identifier, .text "a", 2⟩) (.print (.var ⟨.identifier, .text "a", 2⟩))] := by
    rw [parse, Lexer.scan, hread]
    rfl
  have hb : parse s.room b = .ok [.print (.literal .nil),
      .print (.unary ⟨.minus, .nil, 2⟩ (.var ⟨.identifier, .text "a", 2⟩))] := by
    rw [parse, Lexer.scan, hread']
    rfl
  have hrun : s.run 9 a = some r := by
    rw [run, ha]
    rfl
  have hlater : r.session.Ends b ⟨scope, ["nil"],
      some (.failure (.single (.runtime "Operand must be a number." (some 2))))⟩ := by
    refine ⟨9, ?_⟩
    rw [run_ending, hb]
    rfl
  have hfeeds : Lexer.feeds a = 1 := by decide +kernel
  refine ⟨hrun, hlater, ((running_in_turn_is_running_joined ha hb hrun rfl).1 _).mpr
    ⟨_, hlater, ?_⟩⟩
  rw [hfeeds]
  rfl

end Lox.Session
