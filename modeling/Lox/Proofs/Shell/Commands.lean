import Lox.Program
import Mathlib.Data.List.DropRight

/-!
# Lines that are commands

A line quits by the word it starts with, if that is the one for the end of the input, or by being
nothing but `exit` while nothing is pending. While source is pending every other line is more of it,
without the blanks around it and with a question mark at its start spelled out.
-/

namespace Lox

namespace Text

theorem trimChars_eq_rdropWhile (cs : List Char) :
    trimChars cs = (cs.dropWhile isBlank).rdropWhile isBlank := rfl

theorem blank_of_trimChars_eq_nil {cs : List Char} (h : trimChars cs = []) :
    ∀ c ∈ cs, isBlank c = true := by
  rw [trimChars_eq_rdropWhile, List.rdropWhile_eq_nil_iff] at h
  intro c hc
  rw [← @List.takeWhile_append_dropWhile _ isBlank cs] at hc
  rcases List.mem_append.mp hc with hc | hc
  · exact List.mem_takeWhile_imp hc
  · exact h c hc

theorem trimChars_of_solid {cs : List Char} (h : ∀ c ∈ cs, isBlank c = false) :
    trimChars cs = cs := by
  have hfirst : cs.dropWhile isBlank = cs := by
    apply List.dropWhile_eq_self_iff.mpr
    intro hl
    simp [h]
  rw [trimChars_eq_rdropWhile, hfirst, List.rdropWhile_eq_self_iff]
  intro hne
  simp [h]

/-- What is left of a trimmed text behind its first part is not all blank. -/
theorem trimChars_drop_eq_nil {cs front back : List Char} (h : trimChars cs = front ++ back)
    (hback : trimChars back = []) : back = [] := by
  by_contra hne
  have hlast := List.rdropWhile_last_not isBlank (cs.dropWhile isBlank) (by
    rw [← trimChars_eq_rdropWhile, h]
    simp [hne])
  simp only [← trimChars_eq_rdropWhile, h] at hlast
  rw [List.getLast_append_of_ne_nil _ hne] at hlast
  exact hlast (blank_of_trimChars_eq_nil hback _ (List.getLast_mem hne))

end Text

namespace Shell

def word (line : String) : String :=
  String.ofList ((Text.trimChars line.toList).takeWhile isCommandChar)

/-- The source that a line spells: the line without the blanks around it, where a question mark at
the start stands for a word. -/
def spelled (line : String) : String := String.ofList (expand (Text.trimChars line.toList))

theorem expand_of_head {cs : List Char} (h : cs.head? ≠ some '?') : expand cs = cs := by
  unfold expand
  split
  · exact absurd rfl h
  · rfl

theorem spelled_of_head {line : String} (h : (Text.trimChars line.toList).head? ≠ some '?') :
    spelled line = Text.trim line := by
  rw [spelled, expand_of_head h, Text.trim]

theorem trim_ne_mark {line : String} (h : (Text.trimChars line.toList).head? ≠ some '?') :
    Text.trim line ≠ "?" := by
  intro htrim
  rw [Text.trim, ← String.toList_inj, String.toList_ofList] at htrim
  rw [htrim] at h
  exact h rfl

theorem argument_eq_nil_iff (line : String) :
    Text.trimChars ((Text.trimChars line.toList).dropWhile isCommandChar) = [] ↔
      word line = Text.trim line := by
  have hsplit := @List.takeWhile_append_dropWhile _ isCommandChar (Text.trimChars line.toList)
  rw [word, Text.trim, String.ofList_inj]
  constructor
  · intro h
    rw [Text.trimChars_drop_eq_nil hsplit.symm h, List.append_nil] at hsplit
    exact hsplit
  · intro h
    rw [h, List.append_right_eq_self] at hsplit
    rw [hsplit]
    rfl

theorem word_of_trim {line name : String} (h : Text.trim line = name)
    (hname : name.toList.all isCommandChar = true) : word line = Text.trim line := by
  have hchars : Text.trimChars line.toList = name.toList := by
    rw [← h, Text.trim, String.toList_ofList]
  rw [word, Text.trim, hchars, List.takeWhile_eq_self_iff.mpr (List.all_eq_true.mp hname)]

theorem request_of_mark {line : String} {rest : List Char}
    (h : Text.trimChars line.toList = '?' :: rest) (pending : Bool) :
    request pending line =
      if pending then .source (spelled line) else if rest = [] then .help
      else .source (spelled line) := by
  have hrest : Text.trimChars (' ' :: rest) = [] ↔ rest = [] := by
    constructor
    · intro hblank
      have hall := Text.blank_of_trimChars_eq_nil hblank
      apply @Text.trimChars_drop_eq_nil line.toList ['?'] rest h
      rw [Text.trimChars_eq_rdropWhile, List.dropWhile_eq_nil_iff.mpr]
      · rfl
      · intro c hc
        exact hall c (List.mem_cons_of_mem _ hc)
    · rintro rfl
      decide
  have hsplit : splitCommand (expand (Text.trimChars line.toList)) =
      ("help", Text.trimChars (' ' :: rest)) := by
    rw [h]
    rfl
  have hend : "help" ≠ endOfInput := by decide
  have hfull : expand ('?' :: rest) ≠ [] := List.cons_ne_nil _ _
  simp only [request, spelled, hsplit]
  rw [h]
  by_cases hnil : rest = []
  · have hnone : Text.trimChars (' ' :: rest) = [] := hrest.mpr hnil
    rw [hnone, if_pos hnil]
    simp [hend, hfull]
  · have hsome : Text.trimChars (' ' :: rest) ≠ [] := mt hrest.mp hnil
    rw [if_neg hnil]
    simp [hend, hfull, hsome]

/-- What a line asks for, by the line without the blanks around it and the word it starts with. -/
theorem request_eq (pending : Bool) (line : String) :
    request pending line =
      if word line = endOfInput then .endOfInput
      else if pending then .source (spelled line)
      else if Text.trim line = "" then .nothing
      else if Text.trim line = "exit" then .exit
      else if Text.trim line = "help" ∨ Text.trim line = "?" then .help
      else .source (spelled line) := by
  by_cases hmark : (Text.trimChars line.toList).head? = some '?'
  · obtain ⟨rest, hchars⟩ := List.head?_eq_some_iff.mp hmark
    rw [request_of_mark hchars]
    have hword : word line = "" := by
      rw [word, hchars]
      rfl
    have htrim (text : String) : Text.trim line = text ↔ '?' :: rest = text.toList := by
      rw [Text.trim, hchars, ← String.toList_inj, String.toList_ofList]
    simp [hword, htrim, endOfInput]
  · have hexpand := expand_of_head hmark
    have hsplit : splitCommand (expand (Text.trimChars line.toList)) =
        (word line, Text.trimChars ((Text.trimChars line.toList).dropWhile isCommandChar)) := by
      rw [hexpand]
      rfl
    have hempty : Text.trimChars line.toList = [] ↔ Text.trim line = "" := by
      rw [Text.trim, String.ofList_eq_empty_iff]
    have hquestion := trim_ne_mark hmark
    simp only [request, spelled, hsplit]
    rw [hexpand]
    by_cases hall : word line = Text.trim line
    · simp [hempty, (argument_eq_nil_iff line).mpr hall, hquestion, hall]
    · have hargument := mt (argument_eq_nil_iff line).mp hall
      have hexit : Text.trim line ≠ "exit" := fun h => hall (word_of_trim h (by decide))
      have hhelp : Text.trim line ≠ "help" := fun h => hall (word_of_trim h (by decide))
      simp [hempty, hargument, hquestion, hexit, hhelp]

theorem request_eq_endOfInput_iff {pending : Bool} {line : String} :
    request pending line = .endOfInput ↔ word line = endOfInput := by
  rw [request_eq]
  split_ifs <;> simp_all

theorem request_eq_exit_iff {pending : Bool} {line : String} :
    request pending line = .exit ↔ Text.trim line = "exit" ∧ pending = false := by
  have hword (h : Text.trim line = "exit") : word line ≠ endOfInput := by
    rw [word_of_trim h (by decide), h]
    decide
  rw [request_eq]
  constructor
  · intro h
    split_ifs at h with _ hpending _ hexit
    exact ⟨hexit, Bool.eq_false_iff.mpr hpending⟩
  · rintro ⟨hexit, rfl⟩
    rw [if_neg (hword hexit), hexit]
    rfl

theorem request_pending {line : String} (h : word line ≠ endOfInput) :
    request true line = .source (spelled line) := by
  rw [request_eq, if_neg h, if_pos rfl]

theorem takeSource_done {fuel : Nat} {sh : Shell} {text : String} {st : Step}
    (h : sh.takeSource fuel text = some st) : st.done = false := by
  unfold takeSource at h
  split at h
  · cases h
    rfl
  · obtain ⟨handled, -, rfl⟩ := Option.map_eq_some_iff.mp h
    rfl

theorem step_done_iff {fuel : Nat} {sh : Shell} {line : String} :
    (∃ st, sh.step fuel line = some st ∧ st.done = true) ↔
      request (!sh.pending.isEmpty) line = .endOfInput ∨
        request (!sh.pending.isEmpty) line = .exit := by
  unfold step
  cases hrequest : request (!sh.pending.isEmpty) line with
  | source text =>
    simp only [reduceCtorEq, or_self, iff_false]
    rintro ⟨st, hst, hdone⟩
    rw [takeSource_done hst] at hdone
    cases hdone
  | nothing | help | exit | endOfInput => simp [say]

/-- How a line is taken, whatever is pending. The word for the end of the input quits with anything
behind it, and a question mark becomes a word also where it stands in source. -/
theorem lines_quit_by_their_first_word (fuel : Nat) (sh : Shell) (line : String) :
    ((∃ st, sh.step fuel line = some st ∧ st.done = true) ↔
      word line = "EOF" ∨ Text.trim line = "exit" ∧ sh.pending = "") ∧
    (sh.pending ≠ "" → word line ≠ "EOF" →
      sh.step fuel line = sh.takeSource fuel (spelled line) ∧
        (Session.accumulate sh.pending (spelled line)).1 = sh.pending ++ spelled line ++ "\n") ∧
    (spelled line = Text.trim line ↔ (Text.trimChars line.toList).head? ≠ some '?') := by
  refine ⟨?_, ?_, ?_⟩
  · rw [step_done_iff, request_eq_endOfInput_iff, request_eq_exit_iff, Bool.not_eq_false',
      String.isEmpty_iff]
    rfl
  · intro hpending hword
    have hsome : (!sh.pending.isEmpty) = true := by simpa using hpending
    refine ⟨?_, rfl⟩
    rw [step, hsome, request_pending hword]
  · constructor
    · intro h hmark
      obtain ⟨rest, hchars⟩ := List.head?_eq_some_iff.mp hmark
      rw [spelled, Text.trim, hchars, String.ofList_inj] at h
      cases h
    · exact spelled_of_head

/-- Inside a block a command with blanks around it is a line of the block, and does not quit. -/
theorem command_inside_a_block_is_source :
    let s : Session :=
      ⟨Session.linePath, false, .empty, ⟨false, false, [(Session.linePath, none)]⟩, 993⟩
    let sh : Shell := ⟨s, "\x7b\n", secondPrompt⟩
    sh.pending ≠ "" ∧ word " exit " ≠ "EOF" ∧ (Text.trimChars " exit ".toList).head? ≠ some '?' ∧
      ¬ (∃ st, sh.step 0 " exit " = some st ∧ st.done = true) ∧
      sh.step 0 " exit " = sh.takeSource 0 "exit" ∧
      (Session.accumulate sh.pending "exit").1 = "\x7b\nexit\n" := by
  intro s sh
  obtain ⟨hquits, hsource, hspelled⟩ := lines_quit_by_their_first_word 0 sh " exit "
  have hpending : sh.pending ≠ "" := by decide
  have hword : word " exit " ≠ "EOF" := by decide +kernel
  have hmark : (Text.trimChars " exit ".toList).head? ≠ some '?' := by decide +kernel
  have htext : spelled " exit " = "exit" := (hspelled.mpr hmark).trans (by decide +kernel)
  have hstep := hsource hpending hword
  rw [htext] at hstep
  refine ⟨hpending, hword, hmark, ?_, hstep⟩
  rw [hquits]
  exact not_or.mpr ⟨hword, fun hexit => hpending hexit.2⟩

/-- A line that assigns to a variable quits, and a question mark in a block does not stay one. -/
theorem source_is_taken_for_a_command :
    let s : Session :=
      ⟨Session.linePath, false, .empty, ⟨false, false, [(Session.linePath, none)]⟩, 993⟩
    let sh : Shell := ⟨s, "", firstPrompt⟩
    let inside : Shell := ⟨s, "\x7b\n", secondPrompt⟩
    Program.startShell (Program.reporter false) ⟨none, 0, none, false⟩ = .ok sh ∧
    Text.trim "EOF = 1;" = "EOF = 1;" ∧ sh.step 0 "EOF = 1;" = some (sh.say "\n" true) ∧
    sh.step 0 "\x7b" = some (inside.say "" false) ∧
    inside.step 0 "?" = some (say ⟨s, "\x7b\nhelp \n", secondPrompt⟩ "" false) ∧
    inside.step 0 "EOF = 1;" = some (inside.say "\n" true) := by
  refine ⟨rfl, ?_, ?_, ?_, ?_, ?_⟩ <;> decide +kernel

end Shell

end Lox
