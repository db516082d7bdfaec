import Lox.Number
import Lox.Text

/-!
Values and tokens. A value is nil, a boolean, a number or a text. Nothing converts between them:
values of different kinds are never equal, and only nil and false count as false. A token is a kind,
a value and the line it ends on. Text, names and numbers carry a value; the value of any other token
is nil and nothing looks at it. The reserved words end in an underscore here; `class`, `fun`,
`return`, `super` and `this` are reserved without a use.
-/

namespace Lox

inductive Value where
  | nil
  | bool (b : Bool)
  | number (x : Float)
  | text (s : String)
  deriving DecidableEq, Repr

instance : Inhabited Value := ⟨.nil⟩

namespace Value

def truthy : Value → Bool
  | nil => false
  | bool b => b
  | _ => true

def isNumber : Value → Bool
  | number _ => true
  | _ => false

/-- Equality as a program tests it: a NaN differs from itself, and the two zeros are equal. -/
def same : Value → Value → Bool
  | nil, nil => true
  | bool a, bool b => a == b
  | number x, number y => x == y
  | text s, text t => s == t
  | _, _ => false

def display : Value → String
  | nil => "nil"
  | bool b => if b then "true" else "false"
  | number x => Number.display x
  | text s => s

def literal : Value → String
  | text s => "\"" ++ s ++ "\""
  | v => v.display

def listing : Value → String
  | nil => "None"
  | bool b => if b then "True" else "False"
  | number x => Number.listing x
  | text s => Text.quoted s

end Value

inductive Kind where
  | leftParen | rightParen | leftBrace | rightBrace
  | comma | dot | minus | plus | semicolon | slash | star
  | bang | bangEqual | equal | equalEqual | greater | greaterEqual | less | lessEqual
  | identifier | string | number
  | and_ | class_ | else_ | false_ | fun_ | for_ | if_ | nil_ | or_ | print_ | return_ | super_
  | this_ | true_ | var_ | while_
  | eof
  deriving DecidableEq, Repr

namespace Kind

def name : Kind → String
  | leftParen => "LeftParen" | rightParen => "RightParen"
  | leftBrace => "LeftBrace" | rightBrace => "RightBrace"
  | comma => "Comma" | dot => "Dot" | minus => "Minus" | plus => "Plus"
  | semicolon => "Semicolon" | slash => "Slash" | star => "Star"
  | bang => "Bang" | bangEqual => "BangEqual" | equal => "Equal" | equalEqual => "EqualEqual"
  | greater => "Greater" | greaterEqual => "GreaterEqual"
  | less => "Less" | lessEqual => "LessEqual"
  | identifier => "Identifier" | string => "String" | number => "Number"
  | and_ => "And" | class_ => "Class" | else_ => "Else" | false_ => "False_" | fun_ => "Fun"
  | for_ => "For" | if_ => "If" | nil_ => "Nil" | or_ => "Or" | print_ => "Print"
  | return_ => "Return" | super_ => "Super" | this_ => "This" | true_ => "True_" | var_ => "Var"
  | while_ => "While"
  | eof => "Eof"

def all : List Kind :=
  [leftParen, rightParen, leftBrace, rightBrace, comma, dot, minus, plus, semicolon, slash, star,
   bang, bangEqual, equal, equalEqual, greater, greaterEqual, less, lessEqual,
   identifier, string, number,
   and_, class_, else_, false_, fun_, for_, if_, nil_, or_, print_, return_, super_, this_, true_,
   var_, while_, eof]

def listing (k : Kind) : String :=
  "<TokenType." ++ k.name ++ ": " ++ toString (all.idxOf k + 1) ++ ">"

/-- The one spelling of a kind; none for the three kinds whose tokens carry their text. -/
def spelling? : Kind → Option String
  | leftParen => some "(" | rightParen => some ")"
  | leftBrace => some "\x7b" | rightBrace => some "\x7d"
  | comma => some "," | dot => some "." | minus => some "-" | plus => some "+"
  | semicolon => some ";" | slash => some "/" | star => some "*"
  | bang => some "!" | bangEqual => some "!=" | equal => some "=" | equalEqual => some "=="
  | greater => some ">" | greaterEqual => some ">=" | less => some "<" | lessEqual => some "<="
  | and_ => some "and" | class_ => some "class" | else_ => some "else" | false_ => some "false"
  | fun_ => some "fun" | for_ => some "for" | if_ => some "if" | nil_ => some "nil"
  | or_ => some "or" | print_ => some "print" | return_ => some "return" | super_ => some "super"
  | this_ => some "this" | true_ => some "true" | var_ => some "var" | while_ => some "while"
  | eof => some "EOF"
  | identifier | string | number => none

def ofChar? : Char → Option Kind
  | '(' => some leftParen | ')' => some rightParen
  | '{' => some leftBrace | '}' => some rightBrace
  | ',' => some comma | '.' => some dot | '-' => some minus | '+' => some plus
  | ';' => some semicolon | '/' => some slash | '*' => some star
  | _ => none

def ofPair? : Char → Option (Kind × Kind)
  | '!' => some (bang, bangEqual)
  | '=' => some (equal, equalEqual)
  | '<' => some (less, lessEqual)
  | '>' => some (greater, greaterEqual)
  | _ => none

def words : List (String × Kind) :=
  [("and", and_), ("class", class_), ("else", else_), ("false", false_), ("for", for_),
   ("fun", fun_), ("if", if_), ("nil", nil_), ("or", or_), ("print", print_), ("return", return_),
   ("super", super_), ("this", this_), ("true", true_), ("var", var_), ("while", while_)]

def ofWord? (word : String) : Option Kind := words.lookup word

end Kind

structure Token where
  kind : Kind
  value : Value
  line : Int
  deriving DecidableEq, Repr

namespace Token

/-- Whether a token can be written at all: a number has to have a value that is one. -/
def isWritable (t : Token) : Bool := t.kind ≠ .number || t.value.isNumber

/-- Whether what is written for a token is a text, and not some other value. -/
def isTextual (t : Token) : Bool :=
  match t.kind, t.value with
  | .string, .text _ | .identifier, .text _ => true
  | .string, _ | .identifier, _ => false
  | _, _ => true

def lexeme (t : Token) : String :=
  match t.kind.spelling?, t.value with
  | some spelling, _ => spelling
  | none, .number x => if t.kind = .number then Number.display x else Number.listing x
  | none, .text s => s
  | none, v => v.listing

def display (t : Token) : String := "[" ++ t.lexeme ++ "]"

def listing (t : Token) : String :=
  let value := if t.value = .nil then "" else " value=" ++ t.value.listing
  "<Token type=" ++ t.kind.name ++ value ++ " line=" ++ toString t.line ++ ">"

end Token

end Lox
