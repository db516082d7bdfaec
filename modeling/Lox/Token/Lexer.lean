import Lox.Token.Basic

/-!
Source text to tokens. Between tokens stand gaps of blanks and comments; a comment runs from `//` to
the end of its line and has to have one. A token is the longest lexeme at its place. Reading stops
at the first fault, or at the end of the text with a token of its own kind.
-/

namespace Lox.Lexer

structure Place where
  line : Nat
  rest : List Char
  deriving DecidableEq, Repr

inductive Fault where
  | unexpectedCharacter (c : Char)
  | unterminatedText
  | unexpectedEnd
  | unterminatedComment
  | invalidNumber (digits : String)
  deriving DecidableEq, Repr

/-- A fault and the place where reading stood when it was found; its line is that of the fault. -/
structure Failure where
  fault : Fault
  place : Place
  deriving DecidableEq, Repr

/-- The place after the blanks and comments. A comment without an end fails where it starts. -/
def skipGap (line : Nat) (rest : List Char) : Except Failure Place :=
  match rest with
  | [] => .ok ⟨line, []⟩
  | '\n' :: cs => skipGap (line + 1) cs
  | '/' :: '/' :: cs =>
    if cs.contains '\n' then skipGap line (cs.dropWhile (· ≠ '\n'))
    else .error ⟨.unterminatedComment, ⟨line, '/' :: '/' :: cs⟩⟩
  | c :: cs => if Text.isBlank c then skipGap line cs else .ok ⟨line, c :: cs⟩
termination_by rest.length
decreasing_by
  · simp
  · have := (List.dropWhile_suffix (fun c => decide (c ≠ '\n')) (l := cs)).length_le
    simp only [List.length_cons]
    omega
  · simp

def make (kind : Kind) (value : Value) (line : Nat) (rest : List Char) :
    Except Failure (Token × Place) :=
  .ok (⟨kind, value, line⟩, ⟨line, rest⟩)

/-- The text from behind an opening quote to the next quote. Its token is on the line it ends on. -/
def text (line : Nat) (cs : List Char) : Except Failure (Token × Place) :=
  let body := cs.takeWhile (· ≠ '"')
  match cs.dropWhile (· ≠ '"') with
  | [] => .error ⟨.unterminatedText, ⟨line, cs⟩⟩
  | _ :: rest => make .string (.text (String.ofList body)) (line + body.count '\n') rest

/-- The digit `c` and all the digits after it, read as one natural number. -/
def number (line : Nat) (c : Char) (cs : List Char) : Except Failure (Token × Place) :=
  let digits := c :: cs.takeWhile Text.isDigit
  let rest := cs.dropWhile Text.isDigit
  match Number.ofNat? (Number.digitsValue digits) with
  | some x => make .number (.number x) line rest
  | none => .error ⟨.invalidNumber (String.ofList digits), ⟨line, rest⟩⟩

def word (line : Nat) (c : Char) (cs : List Char) : Except Failure (Token × Place) :=
  let letters := String.ofList (c :: cs.takeWhile Text.continuesName)
  let rest := cs.dropWhile Text.continuesName
  match Kind.ofWord? letters with
  | some kind => make kind .nil line rest
  | none => make .identifier (.text letters) line rest

def sign (line : Nat) (alone paired : Kind) : List Char → Except Failure (Token × Place)
  | '=' :: rest => make paired .nil line rest
  | rest => make alone .nil line rest

/-- The token that starts with `c`, which no gap does, and goes on in `cs`. -/
def lexeme (line : Nat) (c : Char) (cs : List Char) : Except Failure (Token × Place) :=
  match Kind.ofChar? c, Kind.ofPair? c with
  | some kind, _ => make kind .nil line cs
  | none, some (alone, paired) => sign line alone paired cs
  | none, none =>
    if c = '"' then text line cs
    else if Text.isDigit c then number line c cs
    else if Text.startsName c then word line c cs
    else if c = '\x00' then .error ⟨.unexpectedEnd, ⟨line, cs⟩⟩
    else .error ⟨.unexpectedCharacter c, ⟨line, cs⟩⟩

def next (p : Place) : Except Failure (Token × Place) :=
  match skipGap p.line p.rest with
  | .error failure => .error failure
  | .ok ⟨line, []⟩ => make .eof .nil line []
  | .ok ⟨line, c :: cs⟩ => lexeme line c cs

theorem length_dropWhile_le {α : Type} (p : α → Bool) (l : List α) :
    (l.dropWhile p).length ≤ l.length :=
  (List.dropWhile_suffix p).length_le

theorem skipGap_length_le {line : Nat} {rest : List Char} {q : Place}
    (h : skipGap line rest = .ok q) : q.rest.length ≤ rest.length := by
  fun_induction skipGap line rest with
  | case1 => cases h; simp
  | case2 line cs ih => have := ih h; simp; omega
  | case3 line cs _ ih =>
    have := ih h
    have := length_dropWhile_le (fun c => decide (c ≠ '\n')) cs
    simp
    omega
  | case4 => simp at h
  | case5 line c cs _ _ _ ih => have := ih h; simp; omega
  | case6 => cases h; simp

theorem make_rest {kind : Kind} {value : Value} {line : Nat} {rest : List Char} {t : Token}
    {q : Place} (h : make kind value line rest = .ok (t, q)) : q.rest = rest := by
  simp only [make, Except.ok.injEq, Prod.mk.injEq] at h
  rw [← h.2]

theorem text_length_le {line : Nat} {cs : List Char} {t : Token} {q : Place}
    (h : text line cs = .ok (t, q)) : q.rest.length ≤ cs.length := by
  have := length_dropWhile_le (fun c => decide (c ≠ '"')) cs
  unfold text at h
  split at h
  · simp at h
  · next hd => rw [make_rest h]; rw [hd] at this; simp at this; omega

theorem number_length_le {line : Nat} {c : Char} {cs : List Char} {t : Token} {q : Place}
    (h : number line c cs = .ok (t, q)) : q.rest.length ≤ cs.length := by
  simp only [number] at h
  split at h
  · rw [make_rest h]; exact length_dropWhile_le _ _
  · simp at h

theorem word_length_le {line : Nat} {c : Char} {cs : List Char} {t : Token} {q : Place}
    (h : word line c cs = .ok (t, q)) : q.rest.length ≤ cs.length := by
  simp only [word] at h
  split at h <;> (rw [make_rest h]; exact length_dropWhile_le _ _)

theorem sign_length_le {line : Nat} {alone paired : Kind} {cs : List Char} {t : Token} {q : Place}
    (h : sign line alone paired cs = .ok (t, q)) : q.rest.length ≤ cs.length := by
  unfold sign at h
  split at h <;> simp [make_rest h]

theorem lexeme_length_le {line : Nat} {c : Char} {cs : List Char} {t : Token} {q : Place}
    (h : lexeme line c cs = .ok (t, q)) : q.rest.length ≤ cs.length := by
  unfold lexeme at h
  split at h
  · exact Nat.le_of_eq (congrArg List.length (make_rest h))
  · exact sign_length_le h
  · split at h
    · exact text_length_le h
    · split at h
      · exact number_length_le h
      · split at h
        · exact word_length_le h
        · split at h <;> simp at h

theorem next_length_lt {p q : Place} {t : Token} (h : next p = .ok (t, q)) (ht : t.kind ≠ .eof) :
    q.rest.length < p.rest.length := by
  unfold next at h
  split at h
  · simp at h
  · simp only [make, Except.ok.injEq, Prod.mk.injEq] at h
    exact absurd (by rw [← h.1]) ht
  · next hg =>
    have := skipGap_length_le hg
    have := lexeme_length_le h
    simp at *
    omega

structure Reading where
  tokens : List Token
  failure : Option Failure
  deriving DecidableEq, Repr

def read (p : Place) : Reading :=
  match _h : next p with
  | .error failure => ⟨[], some failure⟩
  | .ok (t, q) =>
    if _ht : t.kind = .eof then ⟨[t], none⟩
    else
      let later := read q
      ⟨t :: later.tokens, later.failure⟩
termination_by p.rest.length
decreasing_by exact next_length_lt ‹_› ‹_›

def start (source : String) : Place := ⟨1, source.toList⟩

def scan (source : String) : Except Failure (List Token) :=
  match read (start source) with
  | ⟨tokens, none⟩ => .ok tokens
  | ⟨_, some failure⟩ => .error failure

end Lox.Lexer
