import Lox.Proofs.Evaluation.Pairs
import Lox.Session

/-!
# How a run in a session ends

Apart from its reporter, what a run leaves of a session depends on the program that the source
spells, on the mode and on the variables alone. A run that ends does so in one way, whatever fuel it
is given.
-/

namespace Lox.Session

theorem parse_eq_ok {room : Nat} {source : String} {program : List Stmt} :
    parse room source = .ok program ↔
      ∃ tokens, Lexer.scan source = .ok tokens ∧
        Grammar.parseWithin (room - 7) tokens = .ok program := by
  unfold parse
  cases Lexer.scan source with
  | error failure => simp
  | ok tokens =>
    dsimp only
    cases hread : Grammar.parseWithin (room - 7) tokens <;> simp [hread]

theorem parse_eq_error {room : Nat} {source : String} {report : Report}
    (h : parse room source = .error report) :
    (∃ failure, Lexer.scan source = .error failure ∧ report = .single failure.diagnostic) ∨
      ∃ tokens errors, Lexer.scan source = .ok tokens ∧
        Grammar.parseWithin (room - 7) tokens = .error errors ∧ report = errors.report := by
  unfold parse at h
  split at h
  · next failure hscan =>
    cases h
    exact Or.inl ⟨failure, hscan, rfl⟩
  · next tokens hscan =>
    split at h
    · next errors hread =>
      cases h
      exact Or.inr ⟨tokens, errors, hscan, hread, rfl⟩
    · cases h

/-- What a run leaves behind, apart from the reporter. -/
structure Ending where
  scope : Scope
  printed : List String
  interruption : Option Interruption
  deriving DecidableEq

def Run.ending (r : Run) : Ending := ⟨r.session.scope, r.printed, r.interruption⟩

def Ending.ofRun? : Evaluation.Run → Option Ending
  | (.completed, s) => some ⟨s.scope, s.printed.toList, none⟩
  | (.failed fault, s) =>
    some ⟨s.scope, s.printed.toList, some fault.interruption⟩
  | (.outOfFuel, _) => none

theorem Ending.ofRun?_cases {r : Evaluation.Run} {e : Ending} (h : ofRun? r = some e) :
    (r.1 = .completed ∧ e = ⟨r.2.scope, r.2.printed.toList, none⟩) ∨
      ∃ fault, r.1 = .failed fault ∧
        e = ⟨r.2.scope, r.2.printed.toList, some fault.interruption⟩ := by
  obtain ⟨outcome, s⟩ := r
  cases outcome with
  | completed => exact Or.inl ⟨rfl, (Option.some.inj h).symm⟩
  | failed fault => exact Or.inr ⟨fault, rfl, (Option.some.inj h).symm⟩
  | outOfFuel => cases h

def ending? (fuel : Nat) (parseOnly : Bool) (room : Nat) (program : List Stmt) (scope : Scope) :
    Option Ending :=
  if parseOnly then some ⟨scope, (renderAll room program).1, (renderAll room program).2⟩
  else Ending.ofRun? (Evaluation.interpretWithin (room - 1) fuel program scope)

theorem runProgram_ending (fuel : Nat) (s : Session) (program : List Stmt) :
    (s.runProgram fuel program).map Run.ending =
      ending? fuel s.parseOnly s.room program s.scope := by
  unfold runProgram ending?
  split
  · rfl
  · obtain ⟨outcome, after⟩ := Evaluation.interpretWithin (s.room - 1) fuel program s.scope
    cases outcome <;> rfl

theorem run_ending (fuel : Nat) (s : Session) (source : String) :
    (s.run fuel source).map Run.ending =
      match parse s.room source with
      | .error report => some ⟨s.scope, [], some (.failure report)⟩
      | .ok program => ending? fuel s.parseOnly s.room program s.scope := by
  unfold run
  cases hparse : parse s.room source with
  | error report => rfl
  | ok program =>
    dsimp only
    generalize hopened : { s with reporter := s.reporter.load s.path source } = opened
    have hmode : opened.parseOnly = s.parseOnly ∧ opened.room = s.room ∧
        opened.scope = s.scope := by
      simp [← hopened]
    rw [← hmode.1, ← hmode.2.1, ← hmode.2.2, ← runProgram_ending]
    cases runProgram fuel opened program with
    | none => rfl
    | some r =>
      dsimp only
      split <;> rfl

theorem run_cases {fuel : Nat} {s : Session} {source : String} {r : Run}
    (h : s.run fuel source = some r) :
    (∃ report, parse s.room source = .error report ∧
      r.ending = ⟨s.scope, [], some (.failure report)⟩) ∨
    ∃ program, parse s.room source = .ok program ∧
      ending? fuel s.parseOnly s.room program s.scope = some r.ending := by
  have hending := run_ending fuel s source
  rw [h] at hending
  cases hparse : parse s.room source with
  | error report =>
    rw [hparse] at hending
    exact Or.inl ⟨report, rfl, Option.some.inj hending⟩
  | ok program =>
    rw [hparse] at hending
    exact Or.inr ⟨program, rfl, hending.symm⟩

theorem runProgram_frame {fuel : Nat} {s : Session} {program : List Stmt} {r : Run}
    (h : s.runProgram fuel program = some r) : ∃ scope, r.session = { s with scope } := by
  unfold runProgram at h
  split at h
  · cases h
    exact ⟨s.scope, rfl⟩
  · split at h <;> cases h <;> exact ⟨_, rfl⟩

/-- A run changes the variables of a session and its reporter, which forgets the source unless it is
needed to show what went wrong. -/
theorem run_frame {fuel : Nat} {s : Session} {source : String} {r : Run}
    (h : s.run fuel source = some r) :
    ∃ scope, r.session = { s with
      scope
      reporter :=
        if r.interruption.isSome then s.reporter.load s.path source
        else (s.reporter.load s.path source).unload s.path } := by
  unfold run at h
  dsimp only at h
  split at h
  · cases h
    exact ⟨s.scope, rfl⟩
  · split at h
    · cases h
    · next hprogram =>
      obtain ⟨scope, hsession⟩ := runProgram_frame hprogram
      split at h
      · next hsome =>
        cases h
        exact ⟨scope, by rw [hsession, if_pos hsome]⟩
      · next hnone =>
        cases h
        exact ⟨scope, by rw [hsession, if_neg hnone]⟩

theorem run_mode {fuel : Nat} {s : Session} {source : String} {r : Run}
    (h : s.run fuel source = some r) :
    r.session.parseOnly = s.parseOnly ∧ r.session.room = s.room := by
  obtain ⟨scope, hsession⟩ := run_frame h
  rw [hsession]
  exact ⟨rfl, rfl⟩

def Ends (s : Session) (source : String) (e : Ending) : Prop :=
  ∃ fuel, (s.run fuel source).map Run.ending = some e

def Diverges (s : Session) (source : String) : Prop := ∀ fuel, s.run fuel source = none

theorem diverges_iff {s : Session} {source : String} :
    s.Diverges source ↔ ∀ e, ¬ s.Ends source e := by
  constructor
  · rintro h e ⟨fuel, hend⟩
    rw [h fuel] at hend
    cases hend
  · intro h fuel
    cases hrun : s.run fuel source with
    | none => rfl
    | some r => exact absurd ⟨fuel, by rw [hrun]; rfl⟩ (h r.ending)

theorem Ending.ofRun?_extends {short long : Evaluation.Run} (h : short.Extends long) {e : Ending}
    (he : ofRun? short = some e) : ofRun? long = some e := by
  rw [h]
  · exact he
  · intro hfuel
    obtain ⟨outcome, s⟩ := short
    cases hfuel
    cases he

theorem ending?_mono {n m : Nat} (h : n ≤ m) {parseOnly : Bool} {room : Nat} {program : List Stmt}
    {scope : Scope} {e : Ending} (he : ending? n parseOnly room program scope = some e) :
    ending? m parseOnly room program scope = some e := by
  unfold ending? at he ⊢
  split
  · next hmode =>
    rw [if_pos hmode] at he
    exact he
  · next hmode =>
    rw [if_neg hmode] at he
    exact Ending.ofRun?_extends (Evaluation.interpretWithin_extends _ h program scope) he

theorem run_ending_mono {n m : Nat} (h : n ≤ m) {s : Session} {source : String} {e : Ending}
    (he : (s.run n source).map Run.ending = some e) :
    (s.run m source).map Run.ending = some e := by
  rw [run_ending] at he ⊢
  split
  · next hparse =>
    rw [hparse] at he
    exact he
  · next hparse =>
    rw [hparse] at he
    exact ending?_mono h he

theorem Ends.unique {s : Session} {source : String} {e e' : Ending} (h : s.Ends source e)
    (h' : s.Ends source e') : e = e' := by
  obtain ⟨n, hn⟩ := h
  obtain ⟨m, hm⟩ := h'
  have hleft := run_ending_mono (Nat.le_max_left n m) hn
  have hright := run_ending_mono (Nat.le_max_right n m) hm
  exact Option.some.inj (hleft.symm.trans hright)

end Lox.Session
