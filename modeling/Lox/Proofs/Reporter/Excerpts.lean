import Lox.Proofs.Shell.Commands
import Lox.Proofs.Shell.Consistency

/-!
# The line that is shown with an error

An error has the number of a line, counted by line feeds, and the reporter shows the line with that
number, counted by all breaks. A line feed ends a line either way, so the lines that are shown come
from cutting each counted line on its own. What is shown is the line of the error as long as no line
before it is broken and nothing follows a break in the line itself. Behind a broken line, a part of
some earlier line is shown.
-/

namespace Lox.Text

def feedLines (text : List Char) : List (List Char) := text.splitOn '\n'

/-- Whether a line that ends in a line feed is shown as one: a carriage return belongs to the line
feed behind it, and any other break cuts the line. -/
def unbroken : List Char → Bool
  | [] | ['\r'] => true
  | c :: cs => !isLineBreak c && unbroken cs

/-- The parts into which a line that ends in a line feed is cut, of which the first goes on from
`start`, whose characters come last first. -/
def cutLine (start : List Char) : List Char → List (List Char)
  | [] | ['\r'] => [start.reverse]
  | c :: cs => if isLineBreak c then start.reverse :: cutLine [] cs else cutLine (c :: start) cs

theorem linesFrom_cons {c : Char} {cs : List Char} (start rest : List Char)
    (hend : c = '\r' → cs = [] → False) (hcs : '\n' ∉ cs) :
    linesFrom start (c :: cs ++ '\n' :: rest) =
      if isLineBreak c then start.reverse :: linesFrom [] (cs ++ '\n' :: rest)
      else linesFrom (c :: start) (cs ++ '\n' :: rest) := by
  rw [List.cons_append, linesFrom]
  intro more hc hmore
  cases cs with
  | nil => exact hend hc rfl
  | cons d ds =>
    have hd : d = '\n' := (List.cons.inj hmore).1
    exact hcs (hd ▸ List.mem_cons_self)

theorem linesFrom_line {line : List Char} (h : '\n' ∉ line) (start rest : List Char) :
    linesFrom start (line ++ '\n' :: rest) = cutLine start line ++ linesFrom [] rest := by
  fun_induction cutLine start line with
  | case1 => rfl
  | case2 => rfl
  | case3 start c cs hend hbreak ih =>
    have hcs : '\n' ∉ cs := fun hmem => h (List.mem_cons_of_mem c hmem)
    rw [linesFrom_cons start rest hend hcs, if_pos hbreak, ih hcs]
    rfl
  | case4 start c cs hend hbreak ih =>
    have hcs : '\n' ∉ cs := fun hmem => h (List.mem_cons_of_mem c hmem)
    rw [linesFrom_cons start rest hend hcs, if_neg hbreak, ih hcs]

theorem length_cutLine (start line : List Char) :
    if unbroken line then (cutLine start line).length = 1
    else 2 ≤ (cutLine start line).length := by
  fun_induction cutLine start line with
  | case1 => rfl
  | case2 => rfl
  | case3 start c cs hend hbreak ih =>
    have hbroken : unbroken (c :: cs) = false := by
      rw [unbroken, hbreak]
      · rfl
      · exact hend
    have hpos : 1 ≤ (cutLine [] cs).length := by split at ih <;> omega
    rw [hbroken]
    exact Nat.succ_le_succ hpos
  | case4 start c cs hend hbreak ih =>
    have hsame : unbroken (c :: cs) = unbroken cs := by
      rw [unbroken, Bool.eq_false_iff.mpr hbreak]
      · rfl
      · exact hend
    rw [hsame]
    exact ih

theorem cutLine_infix {start line part : List Char} (h : part ∈ cutLine start line) :
    part <:+: start.reverse ++ line := by
  fun_induction cutLine start line with
  | case1 | case2 =>
    rw [List.mem_singleton.mp h]
    exact (List.prefix_append _ _).isInfix
  | case3 start c cs _ _ ih =>
    rcases List.mem_cons.mp h with rfl | h
    · exact (List.prefix_append _ _).isInfix
    · have hpart : part <:+: cs := ih h
      exact hpart.trans ((List.suffix_cons c cs).trans (List.suffix_append _ _)).isInfix
  | case4 start c cs _ _ ih =>
    have hpart := ih h
    rwa [List.reverse_cons, List.append_assoc, List.singleton_append] at hpart

theorem head?_linesFrom {start text : List Char} (h : start ++ text ≠ []) :
    (linesFrom start text).head? =
      some (start.reverse ++ text.takeWhile fun c => !isLineBreak c) := by
  fun_induction linesFrom start text with
  | case1 start hempty =>
    rw [List.isEmpty_iff.mp hempty] at h
    exact absurd rfl h
  | case2 start hempty => simp
  | case3 start cs ih =>
    have hreturn : isLineBreak '\r' = true := by decide
    simp [hreturn]
  | case4 start c cs _ hbreak ih => simp [hbreak]
  | case5 start c cs _ hbreak ih =>
    rw [ih (by simp), List.takeWhile_cons_of_pos (by simpa using hbreak)]
    simp

/-- Behind the first counted lines, with the parts into which they are cut, comes what is shown of
the rest of the text. -/
theorem linesFrom_feedLines {text : List Char} {n : Nat} (h : n < (feedLines text).length) :
    ∃ rest, feedLines rest = (feedLines text).drop n ∧
      linesFrom [] text = ((feedLines text).take n).flatMap (cutLine []) ++ linesFrom [] rest := by
  induction n generalizing text with
  | zero => exact ⟨text, rfl, rfl⟩
  | succ n ih =>
    have hfeed : '\n' ∈ text := by
      by_contra hfeed
      rw [feedLines, List.splitOn_eq_singleton hfeed] at h
      exact absurd h (by simp)
    obtain ⟨line, later, rfl, hline⟩ := List.eq_append_cons_of_mem hfeed
    have hlines : feedLines (line ++ '\n' :: later) = line :: feedLines later :=
      List.splitOn_append_cons_self_of_not_mem hline later
    rw [hlines] at h ⊢
    obtain ⟨rest, hrest, hshown⟩ := ih (Nat.lt_of_succ_lt_succ h)
    refine ⟨rest, hrest, ?_⟩
    rw [linesFrom_line hline, hshown, List.take_succ_cons, List.flatMap_cons, List.append_assoc]

theorem length_feedLines (text : List Char) : (feedLines text).length = 1 + text.count '\n' := by
  unfold feedLines
  induction text with
  | nil => rfl
  | cons c cs ih =>
    rw [List.splitOn_cons_eq_if_modifyHead, List.count_cons]
    split
    · rw [List.length_cons, ih, Nat.add_assoc]
    · rw [List.length_modifyHead, ih, Nat.add_zero]

theorem head?_feedLines (text : List Char) :
    (feedLines text).head? = some (text.takeWhile (· ≠ '\n')) := by
  by_cases hfeed : '\n' ∈ text
  · obtain ⟨line, later, rfl, hline⟩ := List.eq_append_cons_of_mem hfeed
    have htake : (line ++ '\n' :: later).takeWhile (· ≠ '\n') = line := by
      rw [List.takeWhile_append_of_pos]
      · simp
      · intro c hc
        simpa using ne_of_mem_of_not_mem hc hline
    rw [feedLines, List.splitOn_append_cons_self_of_not_mem hline, htake]
    rfl
  · have htake : text.takeWhile (· ≠ '\n') = text := by
      rw [List.takeWhile_eq_self_iff]
      intro c hc
      simpa using ne_of_mem_of_not_mem hc hfeed
    rw [feedLines, List.splitOn_eq_singleton hfeed, htake]
    rfl

theorem length_cutLines (lines : List (List Char)) :
    if lines.all unbroken then (lines.flatMap (cutLine [])).length = lines.length
    else lines.length < (lines.flatMap (cutLine [])).length := by
  induction lines with
  | nil => rfl
  | cons line rest ih =>
    have hline := length_cutLine [] line
    rw [List.flatMap_cons, List.length_append, List.length_cons, List.all_cons]
    cases hwhole : unbroken line <;> cases hrest : rest.all unbroken <;>
      simp_all only [Bool.and_true, Bool.and_false, Bool.false_eq_true, if_false, if_true] <;> omega

variable {text line part : List Char} {n : Nat}

/-- Behind unbroken lines, the n-th line that is shown is the n-th line up to its first break. -/
theorem shown_behind_unbroken (hline : (feedLines text)[n]? = some line)
    (hwhole : ((feedLines text).take n).all unbroken = true)
    (hpart : (linesFrom [] text)[n]? = some part) :
    part = line.takeWhile fun c => !isLineBreak c := by
  obtain ⟨hn, -⟩ := List.getElem?_eq_some_iff.mp hline
  obtain ⟨rest, hrest, hshown⟩ := linesFrom_feedLines hn
  have hlength := length_cutLines ((feedLines text).take n)
  rw [if_pos hwhole, List.length_take_of_le (Nat.le_of_lt hn)] at hlength
  rw [hshown, List.getElem?_append_right (Nat.le_of_eq hlength), hlength, Nat.sub_self,
    ← List.head?_eq_getElem?] at hpart
  have hfirst : line = rest.takeWhile (· ≠ '\n') := by
    have hhead := head?_feedLines rest
    rw [hrest, List.head?_drop, hline] at hhead
    exact Option.some.inj hhead
  have hne : [] ++ rest ≠ [] := by
    rintro hnil
    rw [List.nil_append] at hnil
    rw [hnil] at hpart
    cases hpart
  rw [head?_linesFrom hne] at hpart
  have hstop : (fun c => decide ((!isLineBreak c) = true ∧ decide (c ≠ '\n') = true)) =
      fun c => !isLineBreak c := by
    funext c
    by_cases hc : c = '\n'
    · subst hc
      rfl
    · simp [hc]
  rw [hfirst, List.takeWhile_takeWhile, hstop]
  exact (Option.some.inj hpart).symm

/-- Behind a line that is broken, the n-th line that is shown is a part of an earlier one. -/
theorem shown_behind_broken (hn : n < (feedLines text).length)
    (hbroken : ((feedLines text).take n).all unbroken = false) :
    ∃ earlier ∈ (feedLines text).take n, ∃ part, (linesFrom [] text)[n]? = some part ∧
      part <:+: earlier := by
  obtain ⟨rest, -, hshown⟩ := linesFrom_feedLines hn
  have hlength := length_cutLines ((feedLines text).take n)
  rw [if_neg (by simp [hbroken]), List.length_take_of_le (Nat.le_of_lt hn)] at hlength
  have hpart := List.getElem?_eq_getElem hlength
  obtain ⟨earlier, hearlier, hmem⟩ := List.mem_flatMap.mp (List.getElem_mem hlength)
  refine ⟨earlier, hearlier, _, ?_, cutLine_infix hmem⟩
  rw [hshown, List.getElem?_append_left hlength, hpart]

theorem trimChars_append_iff (a b : List Char) :
    trimChars a = trimChars (a ++ b) ↔ ∀ c ∈ b, isBlank c = true := by
  by_cases ha : a.dropWhile isBlank = []
  · have htrim : trimChars a = [] := by rw [trimChars, ha]; rfl
    have hskip : (a ++ b).dropWhile isBlank = b.dropWhile isBlank := by
      simp [List.dropWhile_append, ha]
    constructor
    · intro h c hc
      rw [htrim] at h
      exact blank_of_trimChars_eq_nil h.symm c (List.mem_append_right a hc)
    · intro hb
      have hnil : b.dropWhile isBlank = [] := by simpa using hb
      rw [htrim, trimChars, hskip, hnil]
      rfl
  · have hskip : (a ++ b).dropWhile isBlank = a.dropWhile isBlank ++ b := by
      simp [List.dropWhile_append, ha]
    rw [trimChars, trimChars, hskip, List.reverse_inj, List.reverse_append, List.dropWhile_append]
    by_cases hb : b.reverse.dropWhile isBlank = []
    · have hblank : ∀ c ∈ b, isBlank c = true := by simpa using hb
      rw [hb]
      exact iff_of_true rfl hblank
    · have hblank : ¬ ∀ c ∈ b, isBlank c = true := by simpa using hb
      -- what is not blank in `b` makes the second text longer than all of `a`
      rw [if_neg (by simpa using hb)]
      refine iff_of_false (fun h => ?_) hblank
      have hlonger := congrArg List.length h
      have hle := (List.dropWhile_suffix isBlank (l := (a.dropWhile isBlank).reverse)).length_le
      have hpos := List.length_pos_iff.mpr hb
      rw [List.length_append] at hlonger
      omega

end Lox.Text

namespace Lox

theorem Reporter.mem_setSource {known : Option (List String)} {path : String}
    {sources : List (String × Option (List String))} (h : (sources.map Prod.fst).Nodup)
    {entry : String × Option (List String)} (hentry : entry ∈ setSource known path sources)
    (hpath : entry.1 = path) : entry = (path, known) := by
  induction sources with
  | nil => exact List.mem_singleton.mp hentry
  | cons first rest ih =>
    obtain ⟨hfirst, hrest⟩ := List.nodup_cons.mp h
    rw [setSource] at hentry
    split at hentry
    · next hsame =>
      rcases List.mem_cons.mp hentry with rfl | hmem
      · rfl
      · refine absurd ?_ hfirst
        rw [hsame, ← hpath]
        exact List.mem_map_of_mem hmem
    · next hother =>
      rcases List.mem_cons.mp hentry with rfl | hmem
      · exact absurd hpath hother
      · exact ih hrest hmem

namespace Session

theorem Documented.blames {parseOnly : Bool} {before : Scope} {source : String} {e : Ending}
    (h : Documented parseOnly before source e) {report : Report}
    (he : e.interruption = some (.failure report)) {d : Diagnostic} (hd : d ∈ report.parts) :
    d.In source := by
  cases h with
  | completed => cases he
  | lexical d' _ blamed =>
    cases he
    rw [List.mem_singleton.mp hd]
    exact blamed
  | grammatical _ _ _ blamed =>
    cases he
    exact blamed d (List.mem_cons_of_mem _ hd)
  | misuse _ _ _ _ _ blamed =>
    cases he
    rw [List.mem_singleton.mp hd]
    exact blamed

theorem run_line {s : Session} {fuel : Nat} {source : String} {r : Run} {report : Report}
    {d : Diagnostic} {n : Int} (hrun : s.run fuel source = some r)
    (hfailure : r.interruption = some (.failure report)) (hd : d ∈ report.parts)
    (hline : d.line = some n) : 1 ≤ n ∧ n ≤ 1 + Lexer.feeds source := by
  have hnesting : ¬ r.ending.Exhausted := by
    rintro (hdeep | hdeep)
    · cases hfailure.symm.trans hdeep
      rw [List.mem_singleton.mp hd] at hline
      cases hline
    · cases hfailure.symm.trans hdeep
  obtain ⟨line, hplace, hrange⟩ := ((run_documented hrun hnesting).blames hfailure hd).place
  cases hline.symm.trans hplace
  exact hrange

theorem run_entry {s : Session} {fuel : Nat} {source : String} {r : Run}
    (hpaths : (s.reporter.sources.map Prod.fst).Nodup) (hrun : s.run fuel source = some r)
    (hfailure : r.interruption.isSome = true) {entry : String × Option (List String)}
    (hentry : entry ∈ r.session.reporter.sources) (hpath : entry.1 = s.path) :
    entry = (s.path, some (Text.lines source)) := by
  obtain ⟨scope, hsession⟩ := run_frame hrun
  rw [hsession] at hentry
  dsimp only at hentry
  rw [if_pos hfailure] at hentry
  exact Reporter.mem_setSource hpaths hentry hpath

end Session

theorem Reporter.lineOf_lines {path source excerpt : String} {n : Int}
    (h : lineOf (path, some (Text.lines source)) n = some excerpt) :
    (Text.linesFrom [] source.toList)[n.toNat - 1]? = some excerpt.toList := by
  rw [lineOf] at h
  dsimp only at h
  split at h
  · rw [Text.lines, List.getElem?_map] at h
    obtain ⟨part, hpart, rfl⟩ := Option.map_eq_some_iff.mp h
    rw [hpart, String.toList_ofList]
  · cases h

theorem Text.trim_eq_iff (a b : String) :
    Text.trim a = Text.trim b ↔ Text.trimChars a.toList = Text.trimChars b.toList :=
  String.ofList_inj

/-- The excerpt that a reporter which knows every path once has for an error on the n-th line,
counted by line feeds. Where no line before it is broken, the excerpt is that line, without the
blanks around it, just if nothing but blanks follows the first break in the line. Where one is
broken, the excerpt is a part of an earlier line. -/
theorem excerpt_is_the_line_unless_broken {s : Session} {fuel : Nat} {source : String}
    {r : Session.Run} {report : Report} {d : Diagnostic} {n : Int}
    (hpaths : (s.reporter.sources.map Prod.fst).Nodup) (hrun : s.run fuel source = some r)
    (hfailure : r.interruption = some (.failure report)) (hd : d ∈ report.parts)
    (hline : d.line = some n) :
    let lines := Text.feedLines source.toList
    let before := lines.take (n.toNat - 1)
    ∃ line, lines[n.toNat - 1]? = some line ∧
      ∀ entry ∈ r.session.reporter.sources, entry.1 = s.path →
        ∀ excerpt, Reporter.lineOf entry n = some excerpt →
          (before.all Text.unbroken = true →
            (Text.trim excerpt = Text.trim (String.ofList line) ↔
              ∀ c ∈ line.dropWhile fun c => !Text.isLineBreak c, Text.isBlank c = true)) ∧
          (before.all Text.unbroken = false → ∃ earlier ∈ before, excerpt.toList <:+: earlier) := by
  intro lines before
  obtain ⟨hpos, hle⟩ := Session.run_line hrun hfailure hd hline
  have hindex : n.toNat - 1 < lines.length := by
    have hlength : lines.length = 1 + Lexer.feeds source := Text.length_feedLines source.toList
    omega
  have hnth := List.getElem?_eq_getElem hindex
  refine ⟨_, hnth, fun entry hentry hpath excerpt hexcerpt => ?_⟩
  have hsome : r.interruption.isSome = true := by
    rw [hfailure]
    rfl
  rw [Session.run_entry hpaths hrun hsome hentry hpath] at hexcerpt
  have hshown := Reporter.lineOf_lines hexcerpt
  constructor
  · intro hwhole
    rw [Text.trim_eq_iff, Text.shown_behind_unbroken hnth hwhole hshown, String.toList_ofList,
      ← Text.trimChars_append_iff, List.takeWhile_append_dropWhile]
  · intro hbroken
    obtain ⟨earlier, hearlier, part, hpart, hinfix⟩ := Text.shown_behind_broken hindex hbroken
    cases hshown.symm.trans hpart
    exact ⟨earlier, hearlier, hinfix⟩

/-- A carriage return before a line feed and a form feed behind a statement do no harm: the excerpt
is the second line without the blanks around it. -/
theorem harmless_breaks_keep_the_excerpt :
    let s : Session := ⟨Session.linePath, false, .empty, Reporter.ofLines false none, 993⟩
    let source := "// one\r\nprint a; \x0c\n"
    let report : Report := .single (.runtime "Undefined variable." (some 2))
    let opened := Reporter.ofLines false (some (Text.lines source))
    let r : Session.Run := ⟨{ s with reporter := opened }, [], some (.failure report)⟩
    s.run 9 source = some r ∧
      (Text.feedLines source.toList)[1]? = some "print a; \x0c".toList ∧
      ∀ excerpt, Reporter.lineOf (Session.linePath, some (Text.lines source)) 2 = some excerpt →
        Text.trim excerpt = Text.trim "print a; \x0c" := by
  intro s source report opened r
  have hrun : s.run 9 source = some r := by decide +kernel
  have hpaths : (s.reporter.sources.map Prod.fst).Nodup := by simp [s, Reporter.ofLines]
  have hnth : (Text.feedLines source.toList)[1]? = some "print a; \x0c".toList := by decide +kernel
  obtain ⟨line, hline, hexcerpt⟩ :=
    excerpt_is_the_line_unless_broken hpaths hrun rfl List.mem_cons_self rfl
  cases hline.symm.trans hnth
  refine ⟨hrun, hnth, fun excerpt h => ?_⟩
  have hmem : (Session.linePath, some (Text.lines source)) ∈ opened.sources := List.mem_cons_self
  have hblank : ∀ c ∈ "print a; \x0c".toList.dropWhile fun c => !Text.isLineBreak c,
      Text.isBlank c = true := List.all_eq_true.mp (by decide +kernel)
  exact ((hexcerpt _ hmem rfl excerpt h).1 (by decide +kernel)).mpr hblank

/-- A form feed in a comment cuts the first line in two, so that for an error on the second line the
end of the comment is shown. -/
theorem form_feed_moves_the_excerpt :
    let s : Session := ⟨Session.linePath, false, .empty, Reporter.ofLines false none, 993⟩
    let source := "// one\x0ctwo\nprint a;\n"
    let report : Report := .single (.runtime "Undefined variable." (some 2))
    let opened := Reporter.ofLines false (some (Text.lines source))
    let r : Session.Run := ⟨{ s with reporter := opened }, [], some (.failure report)⟩
    s.run 9 source = some r ∧ (Text.feedLines source.toList)[1]? = some "print a;".toList ∧
      Reporter.lineOf (Session.linePath, some (Text.lines source)) 2 = some "two" ∧
      r.handle.shown =
        "  File '<in>', line 2:\n    two\nerror: [line 2] Undefined variable.\n" := by
  decide +kernel

end Lox
