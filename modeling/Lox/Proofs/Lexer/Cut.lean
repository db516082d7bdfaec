import Lox.Token.Lexer
import Lox.Proofs.Number.Overflow

/-!
# The lexical grammar

A source is cut into gaps and lexemes. A gap is made of blanks and of comments with an end, a lexeme
is the spelling of a token, and none may be cut short: what follows a lexeme must not extend it. A
cut ends at the end of the text, or at a place where the text is stuck. By the tables of characters,
of signs and of reserved words no blank starts a lexeme, so that a gap and the lexeme behind it
cannot be confused.
-/

namespace Lox.Lexer

/-- Blanks and comments, each comment with the line feed that ends it. -/
inductive Gap : List Char → Prop where
  | nil : Gap []
  | blank {c : Char} {cs : List Char} (hc : Text.isBlank c = true) (hcs : Gap cs) : Gap (c :: cs)
  | comment {body cs : List Char} (hbody : '\n' ∉ body) (hcs : Gap cs) :
      Gap ('/' :: '/' :: body ++ '\n' :: cs)

/-- The characters spell a token of the kind and with the value. -/
inductive Spelling : List Char → Kind → Value → Prop where
  | fixed {kind : Kind} {spelling : String} (hspelling : kind.spelling? = some spelling)
      (hkind : kind ≠ .eof) : Spelling spelling.toList kind .nil
  | text {body : List Char} (hbody : '"' ∉ body) :
      Spelling ('"' :: body ++ ['"']) .string (.text (String.ofList body))
  | number {digits : List Char} {x : Float} (hne : digits ≠ [])
      (hdigits : ∀ c ∈ digits, Text.isDigit c = true)
      (hx : Number.ofNat? (Number.digitsValue digits) = some x) :
      Spelling digits .number (.number x)
  | name {c : Char} {cs : List Char} (hc : Text.startsName c = true)
      (hcs : ∀ d ∈ cs, Text.continuesName d = true)
      (hfree : ∀ kind : Kind, kind ≠ .eof → kind.spelling? ≠ some (String.ofList (c :: cs))) :
      Spelling (c :: cs) .identifier (.text (String.ofList (c :: cs)))

def reserved : List Kind :=
  [.and_, .class_, .else_, .false_, .fun_, .for_, .if_, .nil_, .or_, .print_, .return_, .super_,
   .this_, .true_, .var_, .while_]

/-- The characters that would extend a lexeme of the kind, or make something else of it. -/
def prolongs (kind : Kind) (c : Char) : Bool :=
  if kind = .number then Text.isDigit c
  else if kind = .identifier ∨ kind ∈ reserved then Text.continuesName c
  else if kind ∈ [.bang, .equal, .less, .greater] then c = '='
  else if kind = .slash then c = '/'
  else false

/-- A lexeme of the kind is as long as it can be before the given text. -/
def Whole (kind : Kind) (rest : List Char) : Prop := ∀ c ∈ rest.head?, prolongs kind c = false

structure Piece where
  gap : List Char
  lexeme : List Char
  kind : Kind
  value : Value
  deriving DecidableEq, Repr

def Piece.chars (p : Piece) : List Char := p.gap ++ p.lexeme

structure Cut where
  pieces : List Piece
  gap : List Char
  rest : List Char
  deriving DecidableEq, Repr

def piecesChars (pieces : List Piece) : List Char := pieces.flatMap Piece.chars

/-- Each piece is a gap and a whole lexeme, where `after` follows the last one. -/
def WellCut : List Piece → List Char → Prop
  | [], _ => True
  | p :: ps, after =>
    Gap p.gap ∧ Spelling p.lexeme p.kind p.value ∧ Whole p.kind (piecesChars ps ++ after) ∧
      WellCut ps after

/-- The text is cut into gaps and whole lexemes up to the rest. -/
structure Cut.Of (cut : Cut) (text : List Char) : Prop where
  covers : text = piecesChars cut.pieces ++ (cut.gap ++ cut.rest)
  pieces : WellCut cut.pieces (cut.gap ++ cut.rest)
  gap : Gap cut.gap

/-- No gap goes on and no lexeme starts at the head of the text, for the given reason. -/
inductive Stuck : List Char → Fault → Prop where
  | comment {cs : List Char} (hcs : '\n' ∉ cs) : Stuck ('/' :: '/' :: cs) .unterminatedComment
  | text {cs : List Char} (hcs : '"' ∉ cs) : Stuck ('"' :: cs) .unterminatedText
  | number {digits rest : List Char} (hne : digits ≠ [])
      (hdigits : ∀ c ∈ digits, Text.isDigit c = true) (hrest : Whole .number rest)
      (hx : Number.overflow ≤ Number.digitsValue digits) :
      Stuck (digits ++ rest) (.invalidNumber (String.ofList digits))
  | nul {cs : List Char} : Stuck ('\x00' :: cs) .unexpectedEnd
  | character {c : Char} {cs : List Char} (hblank : Text.isBlank c = false) (hnul : c ≠ '\x00')
      (hstart : ∀ rest kind value, ¬ Spelling (c :: rest) kind value) :
      Stuck (c :: cs) (.unexpectedCharacter c)

def Halted (rest : List Char) : Prop := rest = [] ∨ ∃ fault, Stuck rest fault

/-- A token is on the line on which its lexeme ends. -/
def tokensFrom (line : Nat) : List Piece → List Token
  | [] => []
  | p :: ps =>
    let last := line + p.chars.count '\n'
    ⟨p.kind, p.value, last⟩ :: tokensFrom last ps

def Cut.line (cut : Cut) : Nat := 1 + (piecesChars cut.pieces ++ cut.gap).count '\n'

def Cut.tokens (cut : Cut) : List Token :=
  tokensFrom 1 cut.pieces ++ [⟨.eof, .nil, cut.line⟩]

end Lox.Lexer

namespace Lox.Text

def Ranges.apart (a b : Ranges) : Bool :=
  a.all fun r => b.all fun s => r.2 < s.1 || s.2 < r.1

theorem Ranges.false_of_apart {a b : Ranges} {c : Char} (h : a.apart b = true)
    (ha : a.has c = true) (hb : b.has c = true) : False := by
  simp only [Ranges.apart, List.all_eq_true, Bool.or_eq_true, decide_eq_true_eq] at h
  simp only [Ranges.has, List.any_eq_true, Bool.and_eq_true, decide_eq_true_eq] at ha hb
  obtain ⟨r, hr, hrlow, hrhigh⟩ := ha
  obtain ⟨s, hs, hslow, hshigh⟩ := hb
  rcases h r hr s hs with h | h <;> omega

def asciiStarts : Ranges := [(0x41, 0x5A), (0x5F, 0x5F), (0x61, 0x7A)]

theorem startsName_has {c : Char} (h : startsName c = true) :
    asciiStarts.has c = true ∨ letters.has c = true := by
  have hle (a b : Char) : a ≤ b ↔ a.toNat ≤ b.toNat := Iff.rfl
  simp only [startsName, Bool.or_eq_true, beq_iff_eq, isLetter] at h
  rcases h with h | rfl
  · split at h
    · left
      simp only [Bool.or_eq_true, Bool.and_eq_true, decide_eq_true_eq, hle] at h
      simp only [asciiStarts, Ranges.has, List.any_cons, List.any_nil, Bool.or_eq_true,
        Bool.and_eq_true, decide_eq_true_eq]
      rcases h with h | h
      · exact Or.inr (Or.inr (Or.inl h))
      · exact Or.inl h
    · exact Or.inr h
  · exact Or.inl (by decide)

theorem isDigit_has {c : Char} (h : isDigit c = true) : Ranges.has [(0x30, 0x39)] c = true := by
  have hle (a b : Char) : a ≤ b ↔ a.toNat ≤ b.toNat := Iff.rfl
  simp only [isDigit, Bool.and_eq_true, decide_eq_true_eq, hle] at h
  simp only [Ranges.has, List.any_cons, List.any_nil, Bool.or_false, Bool.and_eq_true,
    decide_eq_true_eq]
  exact h

theorem isBlank_isDigit {c : Char} (h : isBlank c = true) : isDigit c = false :=
  Bool.eq_false_iff.mpr fun hc => Ranges.false_of_apart (by decide) h (isDigit_has hc)

theorem isBlank_startsName {c : Char} (h : isBlank c = true) : startsName c = false := by
  refine Bool.eq_false_iff.mpr fun hc => ?_
  rcases startsName_has hc with hs | hs
  · exact Ranges.false_of_apart (by decide) h hs
  · exact Ranges.false_of_apart (by decide +kernel) h hs

theorem startsName_isDigit {c : Char} (h : startsName c = true) : isDigit c = false := by
  refine Bool.eq_false_iff.mpr fun hc => ?_
  rcases startsName_has h with hs | hs
  · exact Ranges.false_of_apart (by decide) (isDigit_has hc) hs
  · exact Ranges.false_of_apart (by decide +kernel) (isDigit_has hc) hs

end Lox.Text

namespace Lox.Kind

theorem of_word_eq_some_iff {word : String} {kind : Kind} :
    ofWord? word = some kind ↔ kind ∈ Lexer.reserved ∧ kind.spelling? = some word := by
  constructor
  · intro h
    obtain ⟨before, after, hwords, -⟩ := List.lookup_eq_some_iff.mp h
    have hmem : (word, kind) ∈ words := by
      rw [hwords]
      exact List.mem_append_right before List.mem_cons_self
    have hall : ∀ entry ∈ words, entry.2 ∈ Lexer.reserved ∧ entry.2.spelling? = some entry.1 := by
      decide
    exact hall (word, kind) hmem
  · rintro ⟨hkind, hword⟩
    cases kind <;> cases hword <;> first | rfl | exact absurd hkind (by decide)

theorem of_char_spelling {c : Char} {kind : Kind} (h : ofChar? c = some kind) :
    kind.spelling? = some (String.ofList [c]) := by
  unfold ofChar? at h
  split at h <;> cases h <;> rfl

theorem of_pair_spelling {c : Char} {alone paired : Kind} (h : ofPair? c = some (alone, paired)) :
    alone.spelling? = some (String.ofList [c]) ∧
      paired.spelling? = some (String.ofList [c, '=']) := by
  unfold ofPair? at h
  split at h <;> cases h <;> exact ⟨rfl, rfl⟩

end Lox.Kind

namespace Lox.Lexer

def starts (c : Char) : Bool :=
  (Kind.ofChar? c).isSome || (Kind.ofPair? c).isSome || c == '"' || Text.isDigit c ||
    Text.startsName c

theorem Spelling.head {lexeme : List Char} {kind : Kind} {value : Value}
    (h : Spelling lexeme kind value) : ∃ c cs, lexeme = c :: cs ∧ starts c = true := by
  cases h with
  | @fixed _ _ hspelling _ =>
    cases kind <;> cases hspelling <;> exact ⟨_, _, rfl, by decide⟩
  | text => exact ⟨_, _, rfl, by decide⟩
  | number hne hdigits =>
    obtain ⟨c, cs, rfl⟩ := List.exists_cons_of_ne_nil hne
    exact ⟨c, cs, rfl, by simp [starts, hdigits c]⟩
  | name hc => exact ⟨_, _, rfl, by simp [starts, hc]⟩

def punctuation : List Char :=
  ['(', ')', '{', '}', ',', '.', '-', '+', ';', '/', '*', '!', '=', '<', '>', '"']

theorem not_punctuation {p : Char → Bool} {c : Char} (hp : punctuation.any p = false)
    (hc : p c = true) : Kind.ofChar? c = none ∧ Kind.ofPair? c = none ∧ c ≠ '"' := by
  have hmem : c ∉ punctuation := fun h => List.any_eq_false.mp hp c h hc
  refine ⟨?_, ?_, ?_⟩
  · unfold Kind.ofChar?
    split <;> first | rfl | exact absurd (by decide) hmem
  · unfold Kind.ofPair?
    split <;> first | rfl | exact absurd (by decide) hmem
  · rintro rfl
    exact hmem (by decide)

theorem isBlank_starts {c : Char} (h : Text.isBlank c = true) : starts c = false := by
  obtain ⟨hchar, hpair, hquote⟩ := not_punctuation (by decide) h
  simp [starts, hchar, hpair, hquote, Text.isBlank_isDigit h, Text.isBlank_startsName h]

end Lox.Lexer
