import Lox.Proofs.Grammar.Exactness
import Lox.Proofs.Layout.Parsing
import Lox.Proofs.Lexer.Positions

/-!
# Texts one behind the other

Where the last lexeme of a text cannot be extended, nothing merges across the seam to the text
behind it: first come the tokens of the one and then those of the other, on later lines. In
particular a line feed ends every lexeme, so that reading can go on at any line end. A text that is
stuck in a quoted text can be mended by what follows, but nothing mends a character, a number or a
null on a line which has ended: reading stops there whatever is written behind it.
-/

namespace Lox.Lexer

theorem WellCut.ne_eof {pieces : List Piece} {after : List Char} (h : WellCut pieces after)
    (line : Nat) : ∀ t ∈ tokensFrom line pieces, t.kind ≠ .eof := by
  induction pieces generalizing line with
  | nil => exact nofun
  | cons p ps ih =>
    obtain ⟨-, hspelling, -, hps⟩ := h
    intro t ht
    rcases List.mem_cons.mp ht with rfl | ht
    · exact hspelling.ne_eof
    · exact ih hps _ t ht

theorem Cut.Of.body_tokens {cut : Cut} {text : List Char} (h : cut.Of text) :
    Grammar.body cut.tokens = tokensFrom 1 cut.pieces :=
  Grammar.body_append (h.pieces.ne_eof 1) rfl

theorem tokensFrom_kinds (line : Nat) (pieces : List Piece) :
    (tokensFrom line pieces).map Token.kind = pieces.map Piece.kind := by
  induction pieces generalizing line with
  | nil => rfl
  | cons p ps ih => simp only [tokensFrom, List.map_cons, ih]

theorem WellCut.chars_ne_nil {p : Piece} {ps : List Piece} {after : List Char}
    (h : WellCut (p :: ps) after) : piecesChars (p :: ps) ≠ [] := by
  obtain ⟨c, cs, hlexeme, -⟩ := h.2.1.head
  simp [piecesChars, Piece.chars, hlexeme]

theorem WellCut.before {pieces : List Piece} {after : List Char} (h : WellCut pieces after)
    (hlast : ∀ p ∈ pieces.getLast?, ∀ c, prolongs p.kind c = false) (other : List Char) :
    WellCut pieces other := by
  induction pieces with
  | nil => trivial
  | cons p ps ih =>
    obtain ⟨hgap, hspelling, hwhole, hps⟩ := h
    cases ps with
    | nil => exact ⟨hgap, hspelling, fun c _ => hlast p rfl c, trivial⟩
    | cons q qs =>
      refine ⟨hgap, hspelling, ?_, ih hps (by simpa using hlast)⟩
      obtain ⟨c, cs, hchars⟩ := List.exists_cons_of_ne_nil hps.chars_ne_nil
      rw [hchars] at hwhole ⊢
      exact hwhole

def Place.later (k : Nat) (p : Place) : Place := ⟨p.line + k, p.rest⟩

def Failure.later (k : Nat) (f : Failure) : Failure := ⟨f.fault, f.place.later k⟩

def later (k : Nat) : Except Failure (Token × Place) → Except Failure (Token × Place)
  | .ok (t, p) => .ok (t.mapLine (· + (k : Int)), p.later k)
  | .error failure => .error (failure.later k)

def Reading.later (k : Nat) (r : Reading) : Reading :=
  ⟨Token.mapLines (· + (k : Int)) r.tokens, r.failure.map (Failure.later k)⟩

theorem make_later (kind : Kind) (value : Value) (line k : Nat) (rest : List Char) :
    make kind value (line + k) rest = later k (make kind value line rest) := by
  simp [make, later, Place.later, Token.mapLine]

theorem text_later (line k : Nat) (cs : List Char) :
    text (line + k) cs = later k (text line cs) := by
  simp only [text]
  split
  · rfl
  · rw [Nat.add_right_comm line k, make_later]

theorem number_later (line k : Nat) (c : Char) (cs : List Char) :
    number (line + k) c cs = later k (number line c cs) := by
  simp only [number]
  split
  · exact make_later ..
  · rfl

theorem word_later (line k : Nat) (c : Char) (cs : List Char) :
    word (line + k) c cs = later k (word line c cs) := by
  simp only [word]
  split
  · exact make_later ..
  · exact make_later ..

theorem sign_later (line k : Nat) (alone paired : Kind) (cs : List Char) :
    sign (line + k) alone paired cs = later k (sign line alone paired cs) := by
  unfold sign
  split
  · exact make_later ..
  · exact make_later ..

theorem lexeme_later (line k : Nat) (c : Char) (cs : List Char) :
    lexeme (line + k) c cs = later k (lexeme line c cs) := by
  unfold lexeme
  split
  · exact make_later ..
  · exact sign_later ..
  · split
    · exact text_later ..
    split
    · exact number_later ..
    split
    · exact word_later ..
    split
    · rfl
    · rfl

theorem next_later (p : Place) (k : Nat) : next (p.later k) = later k (next p) := by
  obtain ⟨gap, rest, hrest, hgap, hresting⟩ := exists_gap p.rest
  have hline : p.line + k + gap.count '\n' = p.line + gap.count '\n' + k := Nat.add_right_comm ..
  unfold next
  rw [Place.later, hrest, skipGap_gap hgap, skipGap_gap hgap, hline]
  rcases hresting.skip with hskip | hskip
  · rw [hskip, hskip]
    cases rest with
    | nil => exact make_later ..
    | cons c cs => exact lexeme_later ..
  · rw [hskip, hskip]
    rfl

theorem read_later (p : Place) (k : Nat) : read (p.later k) = (read p).later k := by
  induction hlength : p.rest.length using Nat.strongRecOn generalizing p with
  | _ n ih =>
    rw [read_eq (p.later k), read_eq p, next_later]
    cases hnext : next p with
    | error failure => rfl
    | ok result =>
      obtain ⟨t, q⟩ := result
      by_cases heof : t.kind = .eof
      · simp [later, heof, Reading.later]
      · have hshorter := next_length_lt hnext heof
        have hq := ih q.rest.length (hlength ▸ hshorter) q rfl
        simp [later, heof, hq, Reading.later]

theorem read_gap {gap : List Char} (hgap : Gap gap) (line : Nat) (rest : List Char) :
    read ⟨line, gap ++ rest⟩ = read ⟨line + gap.count '\n', rest⟩ := by
  have hnext : next ⟨line, gap ++ rest⟩ = next ⟨line + gap.count '\n', rest⟩ := by
    simp only [next, skipGap_gap hgap]
  rw [read_eq, read_eq, hnext]

/-- If no lexeme of the first text goes on in the second, the second is read as it is alone, only on
later lines. -/
theorem Cut.Of.read_append {cut : Cut} {a b : String} (h : cut.Of a.toList) (hrest : cut.rest = [])
    (hpieces : WellCut cut.pieces (cut.gap ++ b.toList)) :
    read (start (a ++ b)) =
      ⟨tokensFrom 1 cut.pieces ++ ((read (start b)).later (feeds a)).tokens,
       ((read (start b)).later (feeds a)).failure⟩ := by
  have hcovers : a.toList = piecesChars cut.pieces ++ cut.gap := by
    rw [h.covers, hrest, List.append_nil]
  have hfeeds : 1 + (piecesChars cut.pieces).count '\n' + cut.gap.count '\n' = 1 + feeds a := by
    rw [feeds, hcovers, List.count_append, Nat.add_assoc]
  have hstart : start (a ++ b) = ⟨1, piecesChars cut.pieces ++ (cut.gap ++ b.toList)⟩ := by
    rw [start, String.toList_append, hcovers, List.append_assoc]
  have hbehind : (⟨1 + feeds a, b.toList⟩ : Place) = (start b).later (feeds a) := rfl
  rw [hstart, read_pieces hpieces, read_gap h.gap, hfeeds, hbehind, read_later]

theorem scan_append {a b : String} {ts us : List Token} (ha : scan a = .ok ts)
    (hb : scan b = .ok us)
    (hlast : ∀ t ∈ (Grammar.body ts).getLast?, ∀ c, prolongs t.kind c = false) :
    scan (a ++ b) = .ok (Grammar.body ts ++ Token.mapLines (· + (feeds a : Int)) us) := by
  obtain ⟨cut, hcut, hrest, rfl⟩ := exists_cut_of_scan ha
  obtain ⟨cut', hcut', hrest', rfl⟩ := exists_cut_of_scan hb
  rw [hcut.body_tokens] at hlast ⊢
  have hpieces : WellCut cut.pieces (cut.gap ++ b.toList) := by
    refine hcut.pieces.before (fun p hp => ?_) _
    have hkinds := congrArg List.getLast? (tokensFrom_kinds 1 cut.pieces)
    rw [List.getLast?_map, List.getLast?_map, Option.mem_def.mp hp] at hkinds
    obtain ⟨t, ht, hkind⟩ := Option.map_eq_some_iff.mp hkinds
    exact hkind ▸ hlast t ht
  have hread := hcut.read_append hrest hpieces
  rw [read_of_cut hcut' hrest'] at hread
  simp only [scan, hread]
  rfl

theorem WellCut.extend {pieces : List Piece} {after : List Char} (h : WellCut pieces after)
    (more : List Char) (hmore : after = [] → ∀ kind, Whole kind more) :
    WellCut pieces (after ++ more) := by
  induction pieces with
  | nil => trivial
  | cons p ps ih =>
    obtain ⟨hgap, hspelling, hwhole, hps⟩ := h
    refine ⟨hgap, hspelling, ?_, ih hps⟩
    rw [← List.append_assoc]
    by_cases hnil : piecesChars ps ++ after = []
    · rw [hnil, List.nil_append]
      exact hmore (List.append_eq_nil_iff.mp hnil).2 p.kind
    · obtain ⟨c, cs, hchars⟩ := List.exists_cons_of_ne_nil hnil
      rw [hchars] at hwhole ⊢
      exact hwhole

/-- Behind a line feed only a quoted text is still open. -/
theorem Stuck.extend {rest : List Char} {fault : Fault} (h : Stuck rest fault)
    (hfeed : '\n' ∈ rest) (hfault : fault ≠ .unterminatedText) (more : List Char) :
    Stuck (rest ++ more) fault := by
  cases h with
  | comment hcs =>
    simp at hfeed
    exact absurd hfeed hcs
  | text => exact absurd rfl hfault
  | @number digits rest hne hdigits hwhole hx =>
    -- the digits end before the line does
    have hrest : rest ≠ [] := by
      rintro rfl
      rw [List.append_nil] at hfeed
      exact absurd (hdigits '\n' hfeed) (by decide)
    obtain ⟨c, cs, rfl⟩ := List.exists_cons_of_ne_nil hrest
    rw [List.append_assoc]
    exact .number hne hdigits hwhole hx
  | nul => exact .nul
  | character hblank hnul hstart => exact .character hblank hnul hstart

theorem Cut.Of.extend {cut : Cut} {text : List Char} (h : cut.Of text) (hrest : cut.rest ≠ [])
    (more : List Char) : Cut.Of ⟨cut.pieces, cut.gap, cut.rest ++ more⟩ (text ++ more) where
  covers := by
    rw [h.covers]
    simp
  pieces := by
    have hafter : cut.gap ++ cut.rest ≠ [] := by simp [hrest]
    simpa using h.pieces.extend more (absurd · hafter)
  gap := h.gap

/-- A fault on a line that has ended is met again, behind the same tokens, whatever follows. -/
theorem read_append_stuck {a : String} {failure : Failure}
    (h : (read (start a)).failure = some failure) (hend : a.toList.getLast? = some '\n')
    (hfault : failure.fault ≠ .unterminatedText) (b : String) :
    (read (start (a ++ b))).tokens = (read (start a)).tokens ∧
      ∃ later, (read (start (a ++ b))).failure = some later ∧ later.fault = failure.fault := by
  obtain ⟨cut, hcut, hrest | ⟨fault, hstuck⟩⟩ := exists_halted_cut a.toList
  · rw [read_of_cut hcut hrest] at h
    cases h
  · obtain ⟨left, hread⟩ := read_of_stuck hcut hstuck
    rw [hread] at h
    cases h
    have hfeed : '\n' ∈ cut.rest := by
      obtain ⟨c, hlast⟩ := Option.ne_none_iff_exists'.mp
        (mt List.getLast?_eq_none_iff.mp hstuck.ne_nil)
      rw [hcut.covers, ← List.append_assoc, List.getLast?_append, hlast, Option.some_or] at hend
      exact List.mem_of_getLast? (hlast.trans hend)
    have hmore := hcut.extend hstuck.ne_nil b.toList
    rw [← String.toList_append] at hmore
    obtain ⟨left', hread'⟩ := read_of_stuck hmore (hstuck.extend hfeed hfault b.toList)
    rw [hread', hread]
    exact ⟨rfl, _, rfl, rfl⟩

def closers (line k : Nat) : List Token :=
  List.replicate k ⟨.rightBrace, .nil, line⟩ ++ [⟨.eof, .nil, (line + 1 : Nat)⟩]

def closingLine (k : Nat) : List Char := List.replicate k '}' ++ ['\n']

theorem read_closingLine (line k : Nat) :
    read ⟨line, closingLine k⟩ = ⟨closers line k, none⟩ := by
  induction k with
  | zero => exact read_end (.blank (by decide) .nil) line
  | succ k ih =>
    have hspelling : Spelling ['}'] .rightBrace .nil :=
      @Spelling.fixed .rightBrace _ rfl (by decide)
    have hread := @read_piece ⟨[], ['}'], .rightBrace, .nil⟩ (closingLine k) .nil hspelling
      (fun _ _ => rfl) line
    have hcount : (Piece.chars ⟨[], ['}'], .rightBrace, .nil⟩).count '\n' = 0 := rfl
    rw [hcount, Nat.add_zero, ih] at hread
    exact hread

theorem whole_closingLine (kind : Kind) (k : Nat) : Whole kind (closingLine (k + 1)) := by
  intro c hc
  cases hc
  cases kind <;> decide

theorem Cut.Of.read_closed {cut : Cut} {text : List Char} (h : cut.Of text) (hrest : cut.rest = [])
    (k : Nat) :
    ∃ line, read ⟨1, text ++ closingLine (k + 1)⟩ =
      ⟨tokensFrom 1 cut.pieces ++ closers line (k + 1), none⟩ := by
  have hpieces : WellCut cut.pieces (cut.gap ++ closingLine (k + 1)) := by
    have hwhole := h.pieces.extend (closingLine (k + 1)) fun _ kind => whole_closingLine kind k
    rwa [hrest, List.append_nil] at hwhole
  have hread := read_pieces hpieces 1
  rw [read_gap h.gap, read_closingLine] at hread
  rw [h.covers, hrest, List.append_nil, List.append_assoc]
  exact ⟨_, hread⟩

/-- Behind a text that is stuck in a quoted text, a quote ends it and closing braces are read as
such again. -/
theorem Cut.Of.read_mended {cut : Cut} {text cs : List Char} (h : cut.Of text)
    (hrest : cut.rest = '"' :: cs) (hcs : '"' ∉ cs) (k : Nat) :
    ∃ (t : Token) (line : Nat), t.kind = .string ∧ read ⟨1, text ++ '"' :: closingLine k⟩ =
      ⟨tokensFrom 1 cut.pieces ++ t :: closers line k, none⟩ := by
  have hpieces := (h.extend (by simp [hrest]) ('"' :: closingLine k)).pieces
  have hread := read_pieces hpieces 1
  have hchars : cut.gap ++ (cut.rest ++ '"' :: closingLine k) =
      Piece.chars ⟨cut.gap, '"' :: cs ++ ['"'], .string, .text (String.ofList cs)⟩ ++
        closingLine k := by
    simp [Piece.chars, hrest]
  rw [h.covers, List.append_assoc, List.append_assoc]
  rw [hchars] at hread ⊢
  rw [read_piece h.gap (.text hcs) (fun _ _ => rfl), read_closingLine] at hread
  exact ⟨_, _, rfl, hread⟩

theorem Spelling.getLast_ne_feed {lex : List Char} {kind : Kind} {value : Value}
    (h : Spelling lex kind value) : lex.getLast? ≠ some '\n' := by
  cases h with
  | @fixed _ _ hspelling _ => cases kind <;> cases hspelling <;> decide
  | @text body =>
    rw [List.getLast?_concat]
    decide
  | number _ hdigits =>
    intro hlast
    exact absurd (hdigits '\n' (List.mem_of_getLast? hlast)) (by decide)
  | @name c cs hc hcs =>
    intro hlast
    rcases List.mem_cons.mp (List.mem_of_getLast? hlast) with rfl | hmem
    · exact absurd hc (by decide)
    · exact absurd (hcs '\n' hmem) (by decide)

theorem WellCut.getLast_ne_feed {pieces : List Piece} {after : List Char}
    (h : WellCut pieces after) : (piecesChars pieces).getLast? ≠ some '\n' := by
  induction pieces with
  | nil => nofun
  | cons p ps ih =>
    obtain ⟨-, hspelling, -, hps⟩ := h
    have hchars : piecesChars (p :: ps) = p.gap ++ (p.lexeme ++ piecesChars ps) := by
      simp [piecesChars, Piece.chars]
    obtain ⟨c, cs, hlexeme, -⟩ := hspelling.head
    rw [hchars]
    cases ps with
    | nil =>
      have hlast := hspelling.getLast_ne_feed
      rw [hlexeme] at hlast ⊢
      simpa [piecesChars] using hlast
    | cons q qs =>
      obtain ⟨d, ds, hrest⟩ := List.exists_cons_of_ne_nil hps.chars_ne_nil
      have hlast := ih hps
      rw [hrest] at hlast ⊢
      simpa using hlast

theorem Cut.Of.gap_ne_nil {cut : Cut} {text : List Char} (h : cut.Of text) (hrest : cut.rest = [])
    (hend : text.getLast? = some '\n') : cut.gap ≠ [] := by
  intro hgap
  rw [h.covers, hrest, hgap, List.append_nil, List.append_nil] at hend
  exact h.pieces.getLast_ne_feed hend

def EndsLine (source : String) : Prop := source = "" ∨ source.toList.getLast? = some '\n'

theorem Cut.Of.wellCut_behind {cut : Cut} {a : String} (h : cut.Of a.toList)
    (hrest : cut.rest = []) (hend : EndsLine a) (more : List Char) :
    WellCut cut.pieces (cut.gap ++ more) := by
  have hpieces := h.pieces
  rw [hrest, List.append_nil] at hpieces
  rcases hend with rfl | hend
  · cases hps : cut.pieces with
    | nil => trivial
    | cons p ps =>
      rw [hps] at hpieces
      have hempty : piecesChars (p :: ps) = [] := by
        have hcovers := h.covers.symm
        rw [hps] at hcovers
        exact (List.append_eq_nil_iff.mp hcovers).1
      exact absurd hempty hpieces.chars_ne_nil
  · exact hpieces.extend more fun hgap => absurd hgap (h.gap_ne_nil hrest hend)

theorem Failure.diagnostic_later (k : Nat) (failure : Failure) :
    (failure.later k).diagnostic = failure.diagnostic.mapLine (· + (k : Int)) := by
  obtain ⟨fault, place⟩ := failure
  cases fault <;> rfl

/-- Behind a source that is scanned and ends its last line, any text is scanned iff it is alone: its
tokens follow, in place of the end mark of the first. If it is not, the error is the same. In either
case the lines are later by those of the first. -/
theorem scanning_goes_on_at_a_line_end {a : String} {ts : List Token} (ha : scan a = .ok ts)
    (hend : EndsLine a) (b : String) :
    match scan b with
    | .ok us => scan (a ++ b) = .ok (ts.dropLast ++ Token.mapLines (· + (feeds a : Int)) us)
    | .error failure => scan (a ++ b) = .error (failure.later (feeds a)) ∧
        (failure.later (feeds a)).diagnostic =
          failure.diagnostic.mapLine (· + (feeds a : Int)) := by
  obtain ⟨cut, hcut, hrest, rfl⟩ := exists_cut_of_scan ha
  have hread := hcut.read_append hrest (hcut.wellCut_behind hrest hend b.toList)
  have hfront : cut.tokens.dropLast = tokensFrom 1 cut.pieces := List.dropLast_concat
  rw [hfront]
  cases hb : read (start b) with
  | mk us failure =>
    rw [hb] at hread
    cases failure with
    | none =>
      have hscan : scan b = .ok us := by rw [scan, hb]
      rw [hscan, scan, hread]
      rfl
    | some failure =>
      have hscan : scan b = .error failure := by rw [scan, hb]
      rw [hscan, scan, hread]
      exact ⟨rfl, failure.diagnostic_later _⟩

/-- A text over two lines and a comment in front, a stray character behind a line feed. -/
theorem stray_character_is_found_behind_a_comment :
    let a := "\"x\ny\" // z\n"
    let failure : Failure := ⟨.unexpectedCharacter '@', ⟨4, []⟩⟩
    EndsLine a ∧ scan a = .ok [⟨.string, .text "x\ny", 2⟩, ⟨.eof, .nil, 3⟩] ∧
      scan (a ++ "\n1 @") = .error failure ∧
      failure.diagnostic = .unexpectedCharacter "@" (some 4) := by
  intro a failure
  have hread : read (start a) = ⟨[⟨.string, .text "x\ny", 2⟩, ⟨.eof, .nil, 3⟩], none⟩ := by
    decide +kernel
  have hscan : scan a = .ok [⟨.string, .text "x\ny", 2⟩, ⟨.eof, .nil, 3⟩] := by rw [scan, hread]
  have hend : EndsLine a := Or.inr (by decide)
  have hread' : read (start "\n1 @") =
      ⟨[⟨.number, .number (Float.ofBits 0x3ff0000000000000), 2⟩],
        some ⟨.unexpectedCharacter '@', ⟨2, []⟩⟩⟩ := by
    decide +kernel
  have hscan' : scan "\n1 @" = .error ⟨.unexpectedCharacter '@', ⟨2, []⟩⟩ := by rw [scan, hread']
  have hlater := scanning_goes_on_at_a_line_end hscan hend "\n1 @"
  have hfeeds : feeds a = 2 := by decide
  rw [hscan', hfeeds] at hlater
  exact ⟨hend, hscan, hlater⟩

end Lox.Lexer
