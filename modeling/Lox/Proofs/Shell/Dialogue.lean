import Lox.Proofs.Shell.Commands

/-!
# Dialogues

What a list of lines leads to. The source that the lines offer is handed over in portions, each up
to the first line on which no brace is open any more, and what is left is pending: nothing is lost,
repeated or moved. All that a dialogue shows comes from running these portions one after the other.
-/

namespace Lox

inductive Event where
  | printed (line : String)
  | shown (text : String)
  | escaped (what : Interruption)
  | quit
  deriving DecidableEq, Repr

def Event.ofParts (printed : List String) (shown : String) (escaped : Option Interruption) :
    List Event :=
  printed.map .printed ++ (if shown.isEmpty then [] else [.shown shown]) ++
    escaped.toList.map .escaped

def Session.Handled.events (h : Handled) : List Event := Event.ofParts h.printed h.shown h.escaped

def Shell.Step.events (st : Step) : List Event :=
  Event.ofParts st.printed st.shown st.escaped ++ if st.done then [.quit] else []

/-- Sources run one after the other under the session's reporter; none if one is out of fuel. -/
def Session.runAll (fuel : Nat) : Session → List String → Option (List Event × Session)
  | s, [] => some ([], s)
  | s, source :: rest =>
    (s.runHandled fuel source).bind fun h =>
      (runAll fuel h.session rest).map fun r => (h.events ++ r.1, r.2)

namespace Shell

def feed (fuel : Nat) : Shell → List String → Option (List Event × Shell)
  | sh, [] => some ([], sh)
  | sh, line :: rest =>
    (sh.step fuel line).bind fun st =>
      (feed fuel st.shell rest).map fun r => (st.events ++ r.1, r.2)

/-- What a line makes of the pending source: the sources that it hands over, which is one at most,
and what is pending then. -/
def offer (pending line : String) : List String × String :=
  match request (!pending.isEmpty) line with
  | .source text =>
    match Session.accumulate pending text with
    | (source, true) => ([], source)
    | (source, false) => ([source], "")
  | _ => ([], pending)

def offerAll : String → List String → List String × String
  | pending, [] => ([], pending)
  | pending, line :: rest =>
    ((offer pending line).1 ++ (offerAll (offer pending line).2 rest).1,
     (offerAll (offer pending line).2 rest).2)

def notices (pending line : String) : List Event :=
  match request (!pending.isEmpty) line with
  | .help => [.shown (helpText ++ "\n")]
  | .exit => [.quit]
  | .endOfInput => [.shown "\n", .quit]
  | .nothing | .source _ => []

end Shell

theorem Session.runAll_append (fuel : Nat) (s : Session) (first second : List String) :
    s.runAll fuel (first ++ second) =
      (s.runAll fuel first).bind fun r =>
        (r.2.runAll fuel second).map fun r' => (r.1 ++ r'.1, r'.2) := by
  induction first generalizing s with
  | nil => simp [runAll]
  | cons source rest ih =>
    rw [List.cons_append, runAll, runAll]
    cases s.runHandled fuel source with
    | none => rfl
    | some h =>
      rw [Option.bind_some, Option.bind_some, ih]
      cases runAll fuel h.session rest with
      | none => rfl
      | some r =>
        simp only [Option.map_some, Option.bind_some, Option.map_map]
        congr 1
        funext r'
        simp

namespace Shell

def promptFor (pending : String) : String := if pending = "" then firstPrompt else secondPrompt

/-- The shell asks for more iff source is pending. -/
def Prompted (sh : Shell) : Prop := sh.prompt = promptFor sh.pending

theorem Prompted.eq {sh : Shell} (h : sh.Prompted) :
    sh = ⟨sh.session, sh.pending, promptFor sh.pending⟩ := by
  rw [← h]

theorem prompted (s : Session) (pending : String) : Prompted ⟨s, pending, promptFor pending⟩ := rfl

theorem prompted_ofSession (s : Session) : (ofSession s).Prompted := (if_pos rfl).symm

theorem promptFor_eq_first_iff {pending : String} :
    promptFor pending = firstPrompt ↔ pending = "" := by
  by_cases h : pending = "" <;> simp [promptFor, firstPrompt, secondPrompt, h]

theorem promptFor_eq_second_iff {pending : String} :
    promptFor pending = secondPrompt ↔ pending ≠ "" := by
  by_cases h : pending = "" <;> simp [promptFor, firstPrompt, secondPrompt, h]

theorem promptFor_line (text : String) : promptFor (text ++ "\n") = secondPrompt :=
  promptFor_eq_second_iff.mpr (by simp)

/-- A line shows its notice and what comes of running the source that it hands over, and leaves the
prompt that goes with what is pending then. -/
theorem Prompted.step_observed {sh : Shell} (hsh : sh.Prompted) (fuel : Nat) (line : String) :
    (sh.step fuel line).map (fun st => (st.events, st.shell)) =
      (sh.session.runAll fuel (offer sh.pending line).1).map fun r =>
        (notices sh.pending line ++ r.1,
          ⟨r.2, (offer sh.pending line).2, promptFor (offer sh.pending line).2⟩) := by
  unfold step offer notices
  cases request (!sh.pending.isEmpty) line with
  | source text =>
    dsimp only [takeSource]
    cases haccumulate : Session.accumulate sh.pending text with
    | mk source more =>
    have hsource : sh.pending ++ text ++ "\n" = source := congrArg Prod.fst haccumulate
    cases more with
    | true => simp [← hsource, promptFor_line, Session.runAll, Step.events, Event.ofParts, say]
    | false =>
      simp only [Session.runAll]
      cases sh.session.runHandled fuel source with
      | none => rfl
      | some h => simp [Step.events, Session.Handled.events, promptFor]
  | nothing | exit | endOfInput => exact congrArg some (Prod.ext rfl hsh.eq)
  | help =>
    have hhelp : ((sh.say (helpText ++ "\n") false).events) = [.shown (helpText ++ "\n")] := by
      simp [Step.events, Event.ofParts, say]
    exact congrArg some (Prod.ext hhelp hsh.eq)

/-- Whether braces are open in what can be read of a source, up to its first fault. -/
def IsOpen (source : String) : Prop :=
  0 < Session.openBraces (Lexer.read (Lexer.start source)).tokens

instance (source : String) : Decidable (IsOpen source) := inferInstanceAs (Decidable (_ < _))

theorem offer_source {pending line text : String}
    (h : request (!pending.isEmpty) line = .source text) :
    offer pending line =
      if IsOpen (pending ++ text ++ "\n") then ([], pending ++ text ++ "\n")
      else ([pending ++ text ++ "\n"], "") := by
  have haccumulate : Session.accumulate pending text =
      (pending ++ text ++ "\n", decide (IsOpen (pending ++ text ++ "\n"))) := rfl
  rw [offer, h]
  dsimp only
  rw [haccumulate]
  by_cases hopen : IsOpen (pending ++ text ++ "\n")
  · rw [decide_eq_true hopen, if_pos hopen]
  · rw [decide_eq_false hopen, if_neg hopen]

theorem feed_cons (fuel : Nat) (sh : Shell) (line : String) (rest : List String) :
    sh.feed fuel (line :: rest) =
      ((sh.step fuel line).map fun st => (st.events, st.shell)).bind fun r =>
        (r.2.feed fuel rest).map fun r' => (r.1 ++ r'.1, r'.2) := by
  rw [feed]
  cases sh.step fuel line <;> rfl

theorem feed_cons_eq_some {fuel : Nat} {sh last : Shell} {line : String} {rest : List String}
    {events : List Event} (h : sh.feed fuel (line :: rest) = some (events, last)) :
    ∃ st later, sh.step fuel line = some st ∧ st.shell.feed fuel rest = some (later, last) ∧
      events = st.events ++ later := by
  rw [feed] at h
  obtain ⟨st, hst, h⟩ := Option.bind_eq_some_iff.mp h
  obtain ⟨⟨later, _⟩, hlater, hlast⟩ := Option.map_eq_some_iff.mp h
  cases hlast
  exact ⟨st, later, hst, hlater, rfl⟩

/-- The line is no command, and nothing that is made one. -/
def Plain (line : String) : Prop :=
  (Text.trimChars line.toList).head? ≠ some '?' ∧ word line ≠ endOfInput ∧
    Text.trim line ≠ "exit" ∧ Text.trim line ≠ "help"

instance (line : String) : Decidable (Plain line) := inferInstanceAs (Decidable (_ ∧ _))

theorem request_plain {line : String} (h : Plain line) (pending : Bool) :
    request pending line =
      if pending = false ∧ Text.trim line = "" then .nothing else .source (Text.trim line) := by
  obtain ⟨hmark, hword, hexit, hhelp⟩ := h
  rw [request_eq, spelled_of_head hmark]
  cases pending <;> simp [hword, hexit, hhelp, trim_ne_mark hmark]

theorem offer_plain {line : String} (h : Plain line) (pending : String) :
    offer pending line =
      if pending = "" ∧ Text.trim line = "" then ([], "")
      else if IsOpen (pending ++ Text.trim line ++ "\n") then
        ([], pending ++ Text.trim line ++ "\n")
      else ([pending ++ Text.trim line ++ "\n"], "") := by
  have hrequest := request_plain h (!pending.isEmpty)
  by_cases hblank : pending = "" ∧ Text.trim line = ""
  · rw [if_pos (by simpa using hblank)] at hrequest
    rw [offer, hrequest, if_pos hblank, hblank.1]
  · rw [if_neg (by simpa using hblank)] at hrequest
    rw [offer_source hrequest, if_neg hblank]

theorem notices_plain {line : String} (h : Plain line) (pending : String) :
    notices pending line = [] := by
  rw [notices, request_plain h]
  split_ifs <;> rfl

theorem Prompted.feed_plain {sh : Shell} (hsh : sh.Prompted) (fuel : Nat) {lines : List String}
    (h : ∀ line ∈ lines, Plain line) :
    sh.feed fuel lines =
      (sh.session.runAll fuel (offerAll sh.pending lines).1).map fun r =>
        (r.1, ⟨r.2, (offerAll sh.pending lines).2, promptFor (offerAll sh.pending lines).2⟩) := by
  induction lines generalizing sh with
  | nil =>
    rw [feed, offerAll, Session.runAll, Option.map_some, ← hsh.eq]
  | cons line rest ih =>
    rw [feed_cons, hsh.step_observed, notices_plain (h line List.mem_cons_self), offerAll,
      Session.runAll_append]
    cases sh.session.runAll fuel (offer sh.pending line).1 with
    | none => rfl
    | some r =>
      have hrest := ih (prompted r.2 (offer sh.pending line).2) fun l hl =>
        h l (List.mem_cons_of_mem _ hl)
      simp only [Option.map_some, Option.bind_some, hrest, Option.map_map, List.nil_append]
      rfl

/-- The source that lines spell: each without the blanks around it and with an end of its own. -/
def textOf (lines : List String) : String :=
  String.join (lines.map fun line => Text.trim line ++ "\n")

/-- The lines that are part of the source: all but those that are blank while nothing is pending. -/
def kept : String → List String → List String
  | _, [] => []
  | pending, line :: rest =>
    if pending = "" ∧ Text.trim line = "" then kept (offer pending line).2 rest
    else line :: kept (offer pending line).2 rest

def Unfinished (lines : List String) : Prop :=
  ∀ begun, begun <+: lines → begun ≠ [] → IsOpen (textOf begun)

/-- The lines up to the first behind which no brace is open. -/
structure Portion (lines : List String) : Prop where
  nonempty : lines ≠ []
  closed : ¬ IsOpen (textOf lines)
  first : ∀ begun, begun <+: lines → begun ≠ [] → begun ≠ lines → IsOpen (textOf begun)

@[simp] theorem textOf_nil : textOf [] = "" := rfl

theorem textOf_append (first second : List String) :
    textOf (first ++ second) = textOf first ++ textOf second := by
  rw [textOf, List.map_append, String.join_append]
  rfl

theorem textOf_concat (lines : List String) (line : String) :
    textOf (lines ++ [line]) = textOf lines ++ Text.trim line ++ "\n" := by
  rw [textOf_append, String.append_assoc]
  simp [textOf]

theorem textOf_eq_empty_iff {lines : List String} : textOf lines = "" ↔ lines = [] := by
  constructor
  · intro h
    cases lines with
    | nil => rfl
    | cons line rest => simp [textOf, String.join_cons] at h
  · rintro rfl
    rfl

theorem textOf_flatten (portions : List (List String)) :
    textOf portions.flatten = String.join (portions.map textOf) := by
  induction portions with
  | nil => rfl
  | cons portion rest ih =>
    rw [List.flatten_cons, textOf_append, ih, List.map_cons, String.join_cons]

theorem unfinished_nil : Unfinished [] := by
  intro begun hbegun hne
  exact absurd (List.prefix_nil.mp hbegun) hne

theorem Unfinished.concat {held : List String} (h : Unfinished held) {line : String}
    (hopen : IsOpen (textOf (held ++ [line]))) : Unfinished (held ++ [line]) := by
  intro begun hbegun hne
  rcases List.prefix_concat_iff.mp hbegun with rfl | hbegun
  · exact hopen
  · exact h begun hbegun hne

theorem Unfinished.portion {held : List String} (h : Unfinished held) {line : String}
    (hclosed : ¬ IsOpen (textOf (held ++ [line]))) : Portion (held ++ [line]) where
  nonempty := by simp
  closed := hclosed
  first := by
    intro begun hbegun hne hshort
    rcases List.prefix_concat_iff.mp hbegun with rfl | hbegun
    · exact absurd rfl hshort
    · exact h begun hbegun hne

theorem offerAll_portions {lines : List String} (h : ∀ line ∈ lines, Plain line)
    {held : List String} (hheld : Unfinished held) :
    ∃ (portions : List (List String)) (rest : List String),
      held ++ kept (textOf held) lines = portions.flatten ++ rest ∧
      offerAll (textOf held) lines = (portions.map textOf, textOf rest) ∧
      (∀ portion ∈ portions, Portion portion) ∧ Unfinished rest := by
  induction lines generalizing held with
  | nil => exact ⟨[], held, by simp [kept], rfl, nofun, hheld⟩
  | cons line rest ih =>
    have hrest : ∀ l ∈ rest, Plain l := fun l hl => h l (List.mem_cons_of_mem _ hl)
    have hoffer := offer_plain (h line List.mem_cons_self) (textOf held)
    rw [← textOf_concat] at hoffer
    rw [kept, offerAll, hoffer]
    by_cases hblank : textOf held = "" ∧ Text.trim line = ""
    · obtain rfl := textOf_eq_empty_iff.mp hblank.1
      rw [if_pos hblank, if_pos hblank]
      exact ih hrest hheld
    · rw [if_neg hblank, if_neg hblank]
      by_cases hopen : IsOpen (textOf (held ++ [line]))
      · rw [if_pos hopen]
        obtain ⟨portions, last, hkept, hoffered, hportions, hlast⟩ := ih hrest (hheld.concat hopen)
        refine ⟨portions, last, ?_, ?_, hportions, hlast⟩
        · rw [← hkept]
          simp
        · rw [hoffered]
          rfl
      · rw [if_neg hopen]
        obtain ⟨portions, last, hkept, hoffered, hportions, hlast⟩ := ih hrest unfinished_nil
        rw [textOf_nil] at hkept hoffered
        refine ⟨(held ++ [line]) :: portions, last, ?_, ?_, ?_, hlast⟩
        · rw [List.flatten_cons, List.append_assoc, ← hkept]
          simp
        · rw [hoffered]
          rfl
        · intro portion hportion
          rcases List.mem_cons.mp hportion with rfl | hportion
          · exact hheld.portion hopen
          · exact hportions portion hportion

/-- In a dialogue without commands the sources that are handed over, and what is pending behind
them, are the lines that were kept, in their order. Each source ends with the first line on which no
brace is open, and all that is seen of the dialogue is seen when the sources are run in turn. -/
theorem source_is_neither_lost_nor_moved (s : Session) {lines : List String}
    (h : ∀ line ∈ lines, Plain line) :
    let sources := (offerAll "" lines).1
    let pending := (offerAll "" lines).2
    String.join sources ++ pending = textOf (kept "" lines) ∧
    (∃ (portions : List (List String)) (rest : List String),
      kept "" lines = portions.flatten ++ rest ∧ sources = portions.map textOf ∧
      pending = textOf rest ∧ (∀ portion ∈ portions, Portion portion) ∧ Unfinished rest) ∧
    ∀ fuel, (ofSession s).feed fuel lines =
      (s.runAll fuel sources).map fun r => (r.1, ⟨r.2, pending, promptFor pending⟩) := by
  intro sources pending
  obtain ⟨portions, rest, hkept, hoffered, hportions, hrest⟩ := offerAll_portions h unfinished_nil
  rw [textOf_nil, List.nil_append] at hkept
  have hsources : sources = portions.map textOf := congrArg Prod.fst hoffered
  have hpending : pending = textOf rest := congrArg Prod.snd hoffered
  refine ⟨?_, ⟨portions, rest, hkept, hsources, hpending, hportions, hrest⟩, ?_⟩
  · rw [hsources, hpending, hkept, textOf_append, textOf_flatten]
  · intro fuel
    exact (prompted_ofSession s).feed_plain fuel h

/-- A block with a blank line in it, a line that starts with the name of a command, and an open
block, behind a blank line that is dropped. -/
theorem blank_line_of_a_block_is_kept :
    let s : Session :=
      ⟨Session.linePath, true, .empty, ⟨false, false, [(Session.linePath, none)]⟩, 993⟩
    let lines := [" ", " \x7b", "", "print 1; \x7d ", "exit = 1;", "\x7b"]
    let sources := ["\x7b\n\nprint 1; \x7d\n", "exit = 1;\n"]
    (∀ line ∈ lines, Plain line) ∧ offerAll "" lines = (sources, "\x7b\n") ∧
      kept "" lines = lines.tail ∧ String.join sources ++ "\x7b\n" = textOf lines.tail ∧
      (ofSession s).feed 9 lines =
        (s.runAll 9 sources).map fun r => (r.1, ⟨r.2, "\x7b\n", ". "⟩) := by
  intro s lines sources
  have hlines : ∀ line ∈ lines, Plain line := by decide +kernel
  have hoffered : offerAll "" lines = (sources, "\x7b\n") := by decide +kernel
  have hkept : kept "" lines = lines.tail := by decide +kernel
  have hall := source_is_neither_lost_nor_moved s hlines
  simp only [hoffered, hkept] at hall
  exact ⟨hlines, hoffered, hkept, hall.1, hall.2.2 9⟩

end Shell

end Lox
