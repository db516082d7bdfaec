import Lox.Token.Lexer

/-!
Reading a source step by step. A cursor yields one token at a time and is finished once it has
yielded the last one or met a fault; it can also be moved by single characters, which no line
counter sees.
-/

namespace Lox

/-- The end of the text can be stepped over like a character; `beyond` counts how often it was. -/
structure Cursor where
  source : List Char
  place : Lexer.Place
  beyond : Nat
  finished : Bool
  deriving DecidableEq, Repr

namespace Cursor

def ofSource (source : String) : Cursor := ⟨source.toList, Lexer.start source, 0, false⟩

def index (c : Cursor) : Nat := c.source.length - c.place.rest.length + c.beyond

def atEnd (c : Cursor) : Bool := c.place.rest.isEmpty

inductive Sight where
  | character (c : Char)
  | pastEnd
  | beforeStart
  deriving DecidableEq, Repr

/-- What stands at an index. Negative ones count back from the end, as far as the text goes. -/
def sightAt (source : List Char) (index : Int) : Sight :=
  let size : Int := source.length
  let back := if index < 0 then index + size else index
  if back < 0 then .beforeStart
  else
    match source[back.toNat]? with
    | some c => .character c
    | none => .pastEnd

def peek (c : Cursor) (k : Int) : Sight := sightAt c.source (c.index + k)

def step (c : Cursor) : Cursor :=
  match c.place.rest with
  | [] => { c with beyond := c.beyond + 1 }
  | _ :: rest => { c with place := { c.place with rest } }

def advance (c : Cursor) : Option Char × Cursor :=
  match c.place.rest with
  | [] => (none, c)
  | x :: _ => (some x, c.step)

/-- Takes the next character only if it is the expected one; the end can be expected too. -/
def accept (c : Cursor) (expected : Option Char) : Bool × Cursor :=
  if c.place.rest.head? = expected then (true, c.step) else (false, c)

/-- Passes over blanks and comments. A failure moves the cursor and does not finish it. -/
def skip (c : Cursor) : Option Lexer.Failure × Cursor :=
  match Lexer.skipGap c.place.line c.place.rest with
  | .ok place => (none, { c with place })
  | .error failure => (some failure, { c with place := failure.place })

inductive Yield where
  | token (t : Token)
  | failure (f : Lexer.Failure)
  | nothing
  deriving DecidableEq, Repr

def next (c : Cursor) : Yield × Cursor :=
  if c.finished then (.nothing, c)
  else
    match Lexer.next c.place with
    | .ok (t, place) => (.token t, { c with place, finished := t.kind = .eof })
    | .error failure => (.failure failure, { c with place := failure.place, finished := true })

def restPlace (p : Lexer.Place) : Lexer.Place :=
  match _h : Lexer.next p with
  | .error failure => failure.place
  | .ok (t, q) => if _ht : t.kind = .eof then q else restPlace q
termination_by p.rest.length
decreasing_by exact Lexer.next_length_lt ‹_› ‹_›

/-- All tokens that are left, or the fault that ends them; none if the cursor is finished. -/
def rest (c : Cursor) : Except Lexer.Failure (List Token) × Cursor :=
  if c.finished then (.ok [], c)
  else
    let after := { c with place := restPlace c.place, finished := true }
    match Lexer.read c.place with
    | ⟨tokens, none⟩ => (.ok tokens, after)
    | ⟨_, some failure⟩ => (.error failure, after)

end Cursor

end Lox
