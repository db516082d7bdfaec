import Lox.Token.Basic

/-!
Variables in scope. A scope is a stack of frames, each of which binds some names. The innermost
frame is always there; leaving the outermost one is refused. A name is looked up from the inside
out, and a declaration always goes to the innermost frame, where it may hide a name further out.
-/

namespace Lox

/-- The value that the name's token carries, which is text for every name in a source. -/
abbrev Name := Value

/-- What tells names apart. A truth value has the same key as the number it counts for, and the two
zeros have the same one. -/
def Name.key : Name → Value
  | .bool true => .number 1
  | .bool false => .number 0
  | .number x => .number (if x == 0 then 0 else x)
  | name => name

/-- Bindings in the order in which the names came, each key at most once. -/
abbrev Frame := List (Name × Value)

namespace Frame

def atKey? (key : Value) : Frame → Option Value
  | [] => none
  | binding :: f => if Name.key binding.1 = key then some binding.2 else atKey? key f

def get? (f : Frame) (name : Name) : Option Value := f.atKey? (Name.key name)

def has (f : Frame) (name : Name) : Bool := (f.get? name).isSome

/-- Binds the name. One that was bound already keeps its position and its spelling. -/
def set : Frame → Name → Value → Frame
  | [], name, value => [(name, value)]
  | binding :: f, name, value =>
    if Name.key binding.1 = Name.key name then (binding.1, value) :: f
    else binding :: set f name value

def names (f : Frame) : List Name := f.map Prod.fst

end Frame

/-- The innermost frame and those around it, from the inside out. -/
structure Scope where
  inner : Frame
  outer : List Frame
  deriving DecidableEq, Repr

namespace Scope

def empty : Scope := ⟨[], []⟩

def frames (s : Scope) : List Frame := s.inner :: s.outer

def depth (s : Scope) : Nat := s.frames.length

def globals (s : Scope) : Frame := s.outer.getLastD s.inner

def enter (s : Scope) : Scope := ⟨[], s.frames⟩

def leave? (s : Scope) : Option Scope :=
  match s.outer with
  | [] => none
  | f :: rest => some ⟨f, rest⟩

def leave (s : Scope) : Scope := s.leave?.getD s

/-- The outermost `n` frames, and always one at least. -/
def unwind (s : Scope) (n : Int) : Scope :=
  match s.frames.drop (s.depth - max n.toNat 1) with
  | [] => s
  | f :: rest => ⟨f, rest⟩

def define (s : Scope) (name : Name) (value : Value) : Scope :=
  { s with inner := s.inner.set name value }

def lookupIn (name : Name) : List Frame → Option Value
  | [] => none
  | f :: rest =>
    match f.get? name with
    | some v => some v
    | none => lookupIn name rest

def get? (s : Scope) (name : Name) : Option Value := lookupIn name s.frames

def has (s : Scope) (name : Name) : Bool := s.frames.any (·.has name)

def assignIn (name : Name) (value : Value) : List Frame → Option (List Frame)
  | [] => none
  | f :: rest =>
    if f.has name then some (f.set name value :: rest)
    else (assignIn name value rest).map (f :: ·)

def assign? (s : Scope) (name : Name) (value : Value) : Option Scope :=
  if s.inner.has name then some (s.define name value)
  else (assignIn name value s.outer).map fun outer => { s with outer }

end Scope

end Lox
