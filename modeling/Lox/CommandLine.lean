import Lox.Text

/-!
The arguments of the program: options, at most one file, and nothing else. Long options can be cut
short as long as one option is left that starts so, and short ones can share a dash. What follows a
lone `--` is not an option, whatever it looks like.
-/

namespace Lox.CommandLine

inductive Flag where
  | help
  | verbose
  | logFile
  | parse
  | version
  deriving DecidableEq, Repr

def spellings : List (String × Flag) :=
  [("-h", .help), ("--help", .help), ("-v", .verbose), ("--verbose", .verbose),
   ("--log-file", .logFile), ("--parse", .parse), ("--version", .version)]

def Flag.ofSpelling? (text : String) : Option Flag := spellings.lookup text

def Flag.title (f : Flag) : String :=
  "/".intercalate ((spellings.filter (·.2 = f)).map (·.1))

inductive Misuse where
  | ambiguous (given : String) (candidates : List String)
  | missingArgument (flag : Flag)
  | ignoredArgument (flag : Flag) (argument : String)
  | unrecognized (arguments : List String)
  deriving DecidableEq, Repr

def Misuse.message : Misuse → String
  | ambiguous given candidates =>
    "ambiguous option: " ++ given ++ " could match " ++ ", ".intercalate candidates
  | missingArgument flag => "argument " ++ flag.title ++ ": expected one argument"
  | ignoredArgument flag argument =>
    "argument " ++ flag.title ++ ": ignored explicit argument " ++ Text.quoted argument
  | unrecognized arguments => "unrecognized arguments: " ++ " ".intercalate arguments

/-- What an argument holds besides an option: nothing, a value behind an equals sign, or more
characters behind a short option, before which an equals sign makes no difference. -/
inductive Attachment where
  | nothing
  | value (text : String)
  | joined (rest : List Char)
  deriving DecidableEq, Repr

inductive Word where
  | flag (f : Flag) (attached : Attachment)
  | unknown (text : String)
  | plain (text : String)
  | separator
  deriving DecidableEq, Repr

def splitEquals? (text : String) : Option (String × String) :=
  match text.toList.dropWhile (· ≠ '=') with
  | [] => none
  | _ :: value => some (String.ofList (text.toList.takeWhile (· ≠ '=')), String.ofList value)

def isShort : List Char → Bool
  | '-' :: '-' :: _ => false
  | _ => true

def candidates (text : String) : List (String × Flag) :=
  let stem := (splitEquals? text).elim text Prod.fst
  spellings.filter fun spelling => stem.toList.isPrefixOf spelling.1.toList

def dropLineEnd (cs : List Char) : List Char :=
  if cs.getLast? = some '\n' then cs.dropLast else cs

/-- A minus sign and digits, with a point before the last of them at most. A line may end there. -/
def isNegativeNumber (cs : List Char) : Bool :=
  match dropLineEnd cs with
  | '-' :: digits =>
    match digits.dropWhile Text.isDecimal with
    | [] => !digits.isEmpty
    | '.' :: fraction => !fraction.isEmpty && fraction.all Text.isDecimal
    | _ => false
  | _ => false

/-- What starts with a dash and is no option is still plain if it is a number or holds a space. -/
def unlisted (text : String) : Word :=
  if isNegativeNumber text.toList || text.toList.contains ' ' then .plain text else .unknown text

def abbreviated (text : String) : Except Misuse Word :=
  if isShort text.toList then
    match Flag.ofSpelling? (String.ofList (text.toList.take 2)) with
    | some f => .ok (.flag f (.joined (text.toList.drop 2)))
    | none => .ok (unlisted text)
  else
    match candidates text with
    | [] => .ok (unlisted text)
    | [(_, f)] => .ok (.flag f ((splitEquals? text).elim .nothing fun split => .value split.2))
    | several => .error (.ambiguous text (several.map Prod.fst))

def spelledOut? (text : String) : Option Word := do
  let (name, value) ← splitEquals? text
  let f ← Flag.ofSpelling? name
  if isShort name.toList && !value.isEmpty then return .flag f (.joined value.toList)
  return .flag f (.value value)

def Word.ofArgument (text : String) : Except Misuse Word :=
  match text.toList with
  | '-' :: _ :: _ =>
    match Flag.ofSpelling? text, spelledOut? text with
    | some f, _ => .ok (.flag f .nothing)
    | none, some word => .ok word
    | none, none => abbreviated text
  | _ => .ok (.plain text)

def Word.ofArguments : List String → Except Misuse (List Word)
  | [] => .ok []
  | argument :: rest =>
    if argument = "--" then .ok (.separator :: rest.map .plain)
    else do
      let word ← Word.ofArgument argument
      let words ← Word.ofArguments rest
      return word :: words

/-- Where the log goes to. The separator is taken away wherever it stands as a value, and then no
name is left. -/
inductive LogFile where
  | named (path : String)
  | nameless
  deriving DecidableEq, Repr

def LogFile.ofValue (value : String) : LogFile := if value = "--" then nameless else named value

structure Options where
  file : Option String
  verbosity : Nat
  logFile : Option LogFile
  parseOnly : Bool
  deriving DecidableEq, Repr

inductive Request where
  | help
  | version
  | complain (m : Misuse)
  | run (options : Options)
  deriving DecidableEq, Repr

/-- What has been gathered so far. The place of the file is taken by the first arguments that are
not options, even if they turn out to be the separator alone. -/
structure Draft where
  options : Options
  fileTaken : Bool
  extras : List String
  deriving DecidableEq, Repr

def Draft.empty : Draft := ⟨⟨none, 0, none, false⟩, false, []⟩

def Draft.takeFile (d : Draft) (file : Option String) : Draft :=
  { d with options := { d.options with file }, fileTaken := true }

def Draft.addExtra (d : Draft) (text : String) : Draft := { d with extras := d.extras ++ [text] }

def Draft.apply (d : Draft) : Flag → Except Request Draft
  | .help => .error .help
  | .version => .error .version
  | .verbose => .ok { d with options := { d.options with verbosity := d.options.verbosity + 1 } }
  | .parse => .ok { d with options := { d.options with parseOnly := true } }
  | .logFile => .error (.complain (.missingArgument .logFile))

def Draft.applyAll (d : Draft) (flags : List Flag) : Except Request Draft :=
  flags.foldlM Draft.apply d

def Draft.setLogFile (d : Draft) (value : String) : Draft :=
  { d with options := { d.options with logFile := some (.ofValue value) } }

/-- The options behind one dash, of which `f` is the first. From the first character that names
none, the rest would be an argument of the option before, which takes none. -/
def cluster (f : Flag) : List Char → Except Misuse (List Flag)
  | [] => .ok [f]
  | c :: rest =>
    match Flag.ofSpelling? (String.ofList ['-', c]) with
    | none => .error (.ignoredArgument f (String.ofList (c :: rest)))
    | some g => do return f :: (← cluster g rest)

def flagsOf (f : Flag) : Attachment → Except Misuse (List Flag)
  | .nothing => .ok [f]
  | .value text => .error (.ignoredArgument f text)
  | .joined rest => cluster f rest

def Draft.takeFlags (d : Draft) (f : Flag) (attached : Attachment) : Except Request Draft :=
  match flagsOf f attached with
  | .error m => .error (.complain m)
  | .ok flags => d.applyAll flags

def gather (d : Draft) : List Word → Except Request Draft
  | [] => .ok d
  | .flag .logFile (.value path) :: rest => gather (d.setLogFile path) rest
  | .flag .logFile .nothing :: .plain path :: rest => gather (d.setLogFile path) rest
  | .flag f attached :: rest => do
    let d ← d.takeFlags f attached
    gather d rest
  | .unknown text :: rest => gather (d.addExtra text) rest
  | .plain text :: .separator :: rest =>
    if d.fileTaken then gather ((d.addExtra text).addExtra "--") rest
    else gather (d.takeFile (some text)) rest
  | .plain text :: rest =>
    if d.fileTaken then gather (d.addExtra text) rest else gather (d.takeFile (some text)) rest
  | .separator :: .plain text :: rest =>
    if d.fileTaken then gather ((d.addExtra "--").addExtra text) rest
    else gather (d.takeFile (some text)) rest
  | .separator :: rest =>
    if d.fileTaken then gather (d.addExtra "--") rest else gather (d.takeFile none) rest

def Request.ofArguments (arguments : List String) : Request :=
  match Word.ofArguments arguments with
  | .error m => .complain m
  | .ok words =>
    match gather .empty words with
    | .error request => request
    | .ok d => if d.extras.isEmpty then .run d.options else .complain (.unrecognized d.extras)

def usage : String := "usage: treelox [-h] [-v] [--log-file PATH] [--parse] [--version] [file]\n"

def version : String := "treelox 0.1.0\n"

def help : String :=
  usage ++
  "\nTree-walking interpreter for a small Lox dialect.\n" ++
  "\npositional arguments:\n" ++
  "  file             file to interpret and run (if empty, goes to command-line\n" ++
  "                   mode)\n" ++
  "\noptions:\n" ++
  "  -h, --help       show this help message and exit\n" ++
  "  -v, --verbose    log more of what the interpreter does (-v for info, -vv for\n" ++
  "                   debug)\n" ++
  "  --log-file PATH  also write a full debug log to PATH\n" ++
  "  --parse          print syntax trees instead of running\n" ++
  "  --version        show program's version number and exit\n"

def Misuse.complaint (m : Misuse) : String := usage ++ "treelox: error: " ++ m.message ++ "\n"

end Lox.CommandLine
