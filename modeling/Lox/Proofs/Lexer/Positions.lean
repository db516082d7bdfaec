import Lox.Proofs.Lexer.Exactness
import Lox.Diagnostic

/-!
# Lines count the line feeds in front

The line of a token is read off the text by counting line feeds up to the end of its lexeme, and the
line of a fault by counting them up to what is at fault, wherever comments, blank lines and texts
over several lines stand before. None lies before the first line of the source or behind the last.
-/

namespace Lox.Lexer

def feeds (source : String) : Nat := source.toList.count '\n'

theorem exists_cut_of_scan {source : String} {tokens : List Token} (h : scan source = .ok tokens) :
    ∃ cut : Cut, cut.Of source.toList ∧ cut.rest = [] ∧ tokens = cut.tokens := by
  obtain ⟨cut, hcut, hrest | ⟨fault, hstuck⟩⟩ := exists_halted_cut source.toList
  · rw [scan_of_cut hcut hrest] at h
    exact ⟨cut, hcut, hrest, (Except.ok.inj h).symm⟩
  · obtain ⟨left, hfail⟩ := scan_of_stuck hcut hstuck
    rw [hfail] at h
    cases h

theorem exists_cut_of_failure {source : String} {failure : Failure}
    (h : scan source = .error failure) :
    ∃ cut : Cut, cut.Of source.toList ∧ failure.place.line = cut.line := by
  obtain ⟨cut, hcut, hrest | ⟨fault, hstuck⟩⟩ := exists_halted_cut source.toList
  · rw [scan_of_cut hcut hrest] at h
    cases h
  · obtain ⟨left, hfail⟩ := scan_of_stuck hcut hstuck
    rw [hfail] at h
    cases h
    exact ⟨cut, hcut, rfl⟩

theorem scan_ne_nil {source : String} {tokens : List Token} (h : scan source = .ok tokens) :
    tokens ≠ [] := by
  obtain ⟨cut, -, -, rfl⟩ := exists_cut_of_scan h
  simp [Cut.tokens]

theorem tokensFrom_lines (pieces : List Piece) (line : Nat) :
    ∀ t ∈ tokensFrom line pieces,
      (line : Int) ≤ t.line ∧ t.line ≤ line + (piecesChars pieces).count '\n' := by
  induction pieces generalizing line with
  | nil => exact nofun
  | cons p ps ih =>
    have hcount : (piecesChars (p :: ps)).count '\n' =
        p.chars.count '\n' + (piecesChars ps).count '\n' := List.count_append
    intro t ht
    rw [hcount]
    rcases List.mem_cons.mp ht with rfl | ht
    · dsimp only
      omega
    · have := ih (line + p.chars.count '\n') t ht
      omega

theorem Cut.Of.line_le {cut : Cut} {source : String} (h : cut.Of source.toList) :
    cut.line ≤ 1 + feeds source := by
  have hcount := congrArg (List.count '\n') h.covers
  simp only [List.count_append] at hcount
  simp only [Cut.line, feeds, List.count_append]
  omega

theorem scan_lines {source : String} {tokens : List Token} (h : scan source = .ok tokens) :
    ∀ t ∈ tokens, 1 ≤ t.line ∧ t.line ≤ 1 + feeds source := by
  obtain ⟨cut, hcut, -, rfl⟩ := exists_cut_of_scan h
  have hend := hcut.line_le
  have hpieces : 1 + (piecesChars cut.pieces).count '\n' ≤ cut.line := by
    simp only [Cut.line, List.count_append]
    omega
  intro t ht
  rcases List.mem_append.mp ht with ht | ht
  · have := tokensFrom_lines cut.pieces 1 t ht
    omega
  · cases List.mem_singleton.mp ht
    dsimp only
    omega

theorem failure_lines {source : String} {failure : Failure} (h : scan source = .error failure) :
    1 ≤ failure.place.line ∧ failure.place.line ≤ 1 + feeds source := by
  obtain ⟨cut, hcut, hline⟩ := exists_cut_of_failure h
  have hend := hcut.line_le
  rw [hline]
  exact ⟨Nat.le_add_right 1 _, hend⟩

def lineOf (source : String) (index : Nat) : Nat := 1 + (source.toList.take index).count '\n'

theorem lineOf_length {source : String} {front back : List Char}
    (h : source.toList = front ++ back) : lineOf source front.length = 1 + front.count '\n' := by
  rw [lineOf, h, List.take_left]

def Cut.lexemeEnd (cut : Cut) (i : Nat) : Nat := (piecesChars (cut.pieces.take (i + 1))).length

def Cut.stop (cut : Cut) : Nat := (piecesChars cut.pieces ++ cut.gap).length

/-- What a fault blames starts with these characters. -/
def Fault.mark : Fault → List Char
  | .unexpectedCharacter c => [c]
  | .unterminatedText => ['"']
  | .unexpectedEnd => ['\x00']
  | .unterminatedComment => ['/', '/']
  | .invalidNumber digits => digits.toList

theorem Stuck.mark_prefix {rest : List Char} {fault : Fault} (h : Stuck rest fault) :
    fault.mark <+: rest := by
  cases h with
  | comment => exact ⟨_, rfl⟩
  | text => exact ⟨_, rfl⟩
  | number =>
    rw [Fault.mark, String.toList_ofList]
    exact List.prefix_append _ _
  | nul => exact ⟨_, rfl⟩
  | character => exact ⟨_, rfl⟩

theorem piecesChars_append (ps qs : List Piece) :
    piecesChars (ps ++ qs) = piecesChars ps ++ piecesChars qs := List.flatMap_append

theorem piecesChars_take (ps : List Piece) (i : Nat) :
    piecesChars ps = piecesChars (ps.take i) ++ piecesChars (ps.drop i) := by
  rw [← piecesChars_append, List.take_append_drop]

theorem Cut.Of.split_at {cut : Cut} {text : List Char} (h : cut.Of text) (i : Nat) :
    text = piecesChars (cut.pieces.take i) ++
      (piecesChars (cut.pieces.drop i) ++ (cut.gap ++ cut.rest)) := by
  rw [h.covers, piecesChars_take cut.pieces i, List.append_assoc]

theorem Cut.Of.drop_stop {cut : Cut} {text : List Char} (h : cut.Of text) :
    text.drop cut.stop = cut.rest := by
  rw [h.covers, ← List.append_assoc]
  exact List.drop_left

theorem Cut.Of.lexeme_suffix {cut : Cut} {text : List Char} (h : cut.Of text) {i : Nat} {p : Piece}
    (hp : cut.pieces[i]? = some p) : p.lexeme <:+ text.take (cut.lexemeEnd i) := by
  have htake : text.take (cut.lexemeEnd i) = piecesChars (cut.pieces.take (i + 1)) := by
    rw [h.split_at (i + 1)]
    exact List.take_left
  rw [htake, List.take_add_one, hp, piecesChars_append]
  refine ⟨piecesChars (cut.pieces.take i) ++ p.gap, ?_⟩
  simp [piecesChars, Piece.chars]

/-- The lines carried along from piece to piece are those counted from the start. -/
theorem tokensFrom_eq_mapIdx (pieces : List Piece) (line : Nat) :
    tokensFrom line pieces = pieces.mapIdx fun i p =>
      ⟨p.kind, p.value, (line + (piecesChars (pieces.take (i + 1))).count '\n' : Nat)⟩ := by
  induction pieces generalizing line with
  | nil => rfl
  | cons p ps ih =>
    have hhead : piecesChars [p] = p.chars := by simp [piecesChars]
    have htail (i : Nat) : (piecesChars (p :: ps.take (i + 1))).count '\n' =
        p.chars.count '\n' + (piecesChars (ps.take (i + 1))).count '\n' := List.count_append
    rw [tokensFrom, List.mapIdx_cons, ih]
    simp only [List.take_succ_cons, List.take_zero, hhead, htail, Nat.add_assoc]

theorem tokensFrom_sorted (pieces : List Piece) (line : Nat) :
    (tokensFrom line pieces).Pairwise fun t u => t.line ≤ u.line := by
  induction pieces generalizing line with
  | nil => exact .nil
  | cons p ps ih =>
    apply List.Pairwise.cons
    · intro t ht
      exact (tokensFrom_lines ps _ t ht).1
    · exact ih _

theorem Cut.Of.tokens_eq_mapIdx {cut : Cut} {source : String} (h : cut.Of source.toList)
    (hrest : cut.rest = []) :
    cut.tokens = cut.pieces.mapIdx (fun i p => ⟨p.kind, p.value, lineOf source (cut.lexemeEnd i)⟩)
      ++ [⟨.eof, .nil, (1 + feeds source : Nat)⟩] := by
  have hline (i : Nat) : lineOf source (cut.lexemeEnd i) =
      1 + (piecesChars (cut.pieces.take (i + 1))).count '\n' := lineOf_length (h.split_at (i + 1))
  have hend : cut.line = 1 + feeds source := by
    rw [Cut.line, feeds, h.covers, hrest, List.append_nil]
  simp only [Cut.tokens, tokensFrom_eq_mapIdx, hline, hend]

theorem Cut.tokens_sorted (cut : Cut) : cut.tokens.Pairwise fun t u => t.line ≤ u.line := by
  apply List.pairwise_append.mpr
  refine ⟨tokensFrom_sorted cut.pieces 1, List.pairwise_singleton _ _, fun t ht u hu => ?_⟩
  have hline := (tokensFrom_lines cut.pieces 1 t ht).2
  have hgap : 1 + (piecesChars cut.pieces).count '\n' ≤ cut.line := by
    rw [Cut.line, List.count_append]
    omega
  cases List.mem_singleton.mp hu
  dsimp only
  omega

theorem Cut.Of.lineOf_stop {cut : Cut} {source : String} (h : cut.Of source.toList) :
    lineOf source cut.stop = cut.line := by
  have hcovers : source.toList = (piecesChars cut.pieces ++ cut.gap) ++ cut.rest := by
    rw [h.covers, List.append_assoc]
  exact lineOf_length hcovers

theorem Failure.diagnostic_line (failure : Failure) :
    failure.diagnostic.line = some (failure.place.line : Int) := by
  obtain ⟨fault, place⟩ := failure
  cases fault <;> rfl

/-- A source that is scanned is cut into gaps and lexemes, and every token is on the line that the
end of its lexeme is on, the end mark on the last line. No token is on an earlier line than one
before it. A source that is not scanned is cut up to where it is stuck: there stands what the fault
blames, and the error is on that line. -/
theorem tokens_and_errors_are_on_their_lines (source : String) :
    ∃ cut : Cut, cut.Of source.toList ∧
      (∀ i p, cut.pieces[i]? = some p →
        p.lexeme <:+ source.toList.take (cut.lexemeEnd i)) ∧
      match scan source with
      | .ok tokens =>
        cut.rest = [] ∧
        tokens =
          cut.pieces.mapIdx (fun i p => ⟨p.kind, p.value, lineOf source (cut.lexemeEnd i)⟩) ++
            [⟨.eof, .nil, (1 + feeds source : Nat)⟩] ∧
        tokens.Pairwise fun t u => t.line ≤ u.line
      | .error failure =>
        Stuck (source.toList.drop cut.stop) failure.fault ∧
        failure.fault.mark <+: source.toList.drop cut.stop ∧
        failure.diagnostic.line = some (lineOf source cut.stop : Int) := by
  obtain ⟨cut, hcut, hhalted⟩ := exists_halted_cut source.toList
  refine ⟨cut, hcut, fun i p hp => hcut.lexeme_suffix hp, ?_⟩
  rcases hhalted with hrest | ⟨fault, hstuck⟩
  · rw [scan_of_cut hcut hrest]
    exact ⟨hrest, hcut.tokens_eq_mapIdx hrest, cut.tokens_sorted⟩
  · obtain ⟨left, hfail⟩ := scan_of_stuck hcut hstuck
    rw [hfail, hcut.drop_stop, hcut.lineOf_stop]
    exact ⟨hstuck, hstuck.mark_prefix, Failure.diagnostic_line _⟩

/-- A text over two lines is on the second, and what follows it there too. -/
example : (read (start "a // b\n\n\"c\nd\" e\n")).tokens.map Token.line = [1, 4, 4, 5] := by
  decide +kernel

end Lox.Lexer
