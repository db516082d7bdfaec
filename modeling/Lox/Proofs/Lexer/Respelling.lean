import Lox.Proofs.Layout.Independence
import Lox.Proofs.Lexer.Joining
import Lox.Proofs.Number.Shortest

/-!
# Tokens survive being written

What is written for a token of a source spells the same token, though maybe not in the same way: a
number is written with the fewest digits. One space between two of them keeps them apart, so the
tokens of a source, written out on a line, are read again as they were.
-/

namespace Lox

/-- What a token is written as in a source: its lexeme, text with its quotes. -/
def Token.written (t : Token) : String :=
  if t.kind = .string then "\"" ++ t.lexeme ++ "\"" else t.lexeme

def Token.writtenAll (ts : List Token) : String := " ".intercalate (ts.map Token.written)

namespace Lexer

def Spelled (t : Token) : Prop := ∃ lex, Spelling lex t.kind t.value

theorem WellCut.spelled {pieces : List Piece} {after : List Char} (h : WellCut pieces after)
    (line : Nat) : ∀ t ∈ tokensFrom line pieces, Spelled t := by
  induction pieces generalizing line with
  | nil => exact nofun
  | cons p ps ih =>
    obtain ⟨-, hspelling, -, hps⟩ := h
    intro t ht
    rcases List.mem_cons.mp ht with rfl | ht
    · exact ⟨p.lexeme, hspelling⟩
    · exact ih hps _ t ht

theorem scan_body {source : String} {tokens : List Token} (h : scan source = .ok tokens) :
    (∀ t ∈ Grammar.body tokens, Spelled t) ∧
      ∃ line, tokens = Grammar.body tokens ++ [⟨.eof, .nil, line⟩] := by
  obtain ⟨cut, hcut, -, rfl⟩ := exists_cut_of_scan h
  rw [hcut.body_tokens]
  exact ⟨hcut.pieces.spelled 1, cut.line, rfl⟩

theorem Spelled.written {t : Token} (h : Spelled t) :
    Spelling t.written.toList t.kind t.value := by
  obtain ⟨lex, h⟩ := h
  obtain ⟨kind, value, line⟩ := t
  cases h with
  | @fixed _ spelling hspelling hkind =>
    have hstring : kind ≠ .string := by
      rintro rfl
      cases hspelling
    have hwritten : Token.written ⟨kind, .nil, line⟩ = spelling := by
      simp [Token.written, Token.lexeme, hstring, hspelling]
    rw [hwritten]
    exact .fixed hspelling hkind
  | @text body hbody =>
    have hwritten : (Token.written ⟨.string, .text (String.ofList body), line⟩).toList =
        '"' :: body ++ ['"'] := by
      simp [Token.written, Token.lexeme, Kind.spelling?]
    rw [hwritten]
    exact .text hbody
  | @number digits x hne hdigits hx =>
    obtain ⟨again, hdisplay, hne', hdigits', hx'⟩ := Number.display_ofNat hx
    have hwritten : (Token.written ⟨.number, .number x, line⟩).toList = again := by
      simp [Token.written, Token.lexeme, Kind.spelling?, hdisplay]
    rw [hwritten]
    exact .number hne' hdigits' hx'
  | @name c cs hc hcs hfree =>
    have hwritten :
        (Token.written ⟨.identifier, .text (String.ofList (c :: cs)), line⟩).toList = c :: cs := by
      simp [Token.written, Token.lexeme, Kind.spelling?]
    rw [hwritten]
    exact .name hc hcs hfree

def spaced (gap : List Char) : List Token → List Piece
  | [] => []
  | t :: ts => ⟨gap, t.written.toList, t.kind, t.value⟩ :: spaced [' '] ts

theorem spaced_chars (t : Token) (ts : List Token) (gap : List Char) :
    piecesChars (spaced gap (t :: ts)) = gap ++ (Token.writtenAll (t :: ts)).toList := by
  induction ts generalizing t gap with
  | nil => simp [spaced, piecesChars, Piece.chars, Token.writtenAll]
  | cons u us ih =>
    have hstep : piecesChars (spaced gap (t :: u :: us)) =
        gap ++ t.written.toList ++ piecesChars (spaced [' '] (u :: us)) := List.flatMap_cons
    rw [hstep, ih]
    simp [Token.writtenAll]

theorem prolongs_space (kind : Kind) : prolongs kind ' ' = false := by
  cases kind <;> decide

theorem spaced_wellCut {gap : List Char} (hgap : Gap gap) {ts : List Token}
    (h : ∀ t ∈ ts, Spelled t) : WellCut (spaced gap ts) [] := by
  induction ts generalizing gap with
  | nil => trivial
  | cons t ts ih =>
    have hspace : Gap [' '] := .blank (by decide) .nil
    refine ⟨hgap, (h t List.mem_cons_self).written, ?_,
      ih hspace fun u hu => h u (List.mem_cons_of_mem t hu)⟩
    cases ts with
    | nil => exact nofun
    | cons u us =>
      rintro c hc
      rw [spaced_chars, List.append_nil, List.singleton_append] at hc
      cases hc
      exact prolongs_space t.kind

theorem content_spaced (gap : List Char) (ts : List Token) (line : Nat) :
    (tokensFrom line (spaced gap ts)).map Token.content = ts.map Token.content := by
  induction ts generalizing gap line with
  | nil => rfl
  | cons t ts ih => simp only [spaced, tokensFrom, List.map_cons, ih, Token.content]

/-- The tokens of a source, written out with a space between every two, are read again with the same
kinds and values in the same order. -/
theorem written_tokens_are_read_again {source : String} {tokens : List Token}
    (h : scan source = .ok tokens) :
    ∃ again, scan (Token.writtenAll (Grammar.body tokens)) = .ok again ∧
      again.map Token.content = tokens.map Token.content ∧
      tokens.map Token.content = (Grammar.body tokens).map Token.content ++ [(.eof, .nil)] := by
  obtain ⟨hspelled, line, htokens⟩ := scan_body h
  have hcontent : tokens.map Token.content =
      (Grammar.body tokens).map Token.content ++ [(.eof, .nil)] := by
    conv_lhs => rw [htokens]
    simp [Token.content]
  have hof : Cut.Of ⟨spaced [] (Grammar.body tokens), [], []⟩
      (Token.writtenAll (Grammar.body tokens)).toList := by
    refine ⟨?_, spaced_wellCut .nil hspelled, .nil⟩
    cases Grammar.body tokens with
    | nil => rfl
    | cons t ts => simp [spaced_chars]
  refine ⟨_, scan_of_cut hof rfl, ?_, hcontent⟩
  rw [hcontent, Cut.tokens, List.map_append, content_spaced]
  rfl

/-- A number with zeros in front, and a quoted text with a space in it. -/
theorem padded_number_is_read_again :
    let source := "x<=0099//c\n\"a b\""
    let tokens : List Token := [⟨.identifier, .text "x", 1⟩, ⟨.lessEqual, .nil, 1⟩,
      ⟨.number, .number (Float.ofBits 0x4058c00000000000), 1⟩, ⟨.string, .text "a b", 2⟩,
      ⟨.eof, .nil, 2⟩]
    scan source = .ok tokens ∧ Token.writtenAll (Grammar.body tokens) = "x <= 99 \"a b\"" ∧
      ∃ again, scan "x <= 99 \"a b\"" = .ok again ∧
        again.map Token.content = tokens.map Token.content := by
  intro source tokens
  have hread : read (start source) = ⟨tokens, none⟩ := by decide +kernel
  have hscan : scan source = .ok tokens := by rw [scan, hread]
  have hwritten : Token.writtenAll (Grammar.body tokens) = "x <= 99 \"a b\"" := by decide +kernel
  obtain ⟨again, hagain, hcontent, -⟩ := written_tokens_are_read_again hscan
  rw [hwritten] at hagain
  exact ⟨hscan, hwritten, again, hagain, hcontent⟩

end Lexer

end Lox
