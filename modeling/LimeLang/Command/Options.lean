import LimeLang.Text.Quoted

/-! The arguments of the command: one path and two flags. Long flags may be cut short as long
as it is clear which one is meant. -/

namespace LimeLang

inductive Flag
  | help
  | debug
deriving DecidableEq, Repr

def Flag.title : Flag → String
  | help => "-h/--help"
  | debug => "--debug"

/-- All spellings of flags, in the order in which messages list them. -/
def flagSpellings : List (String × Flag) :=
  [("-h", .help), ("--help", .help), ("--debug", .debug)]

structure Options where
  path : String
  debug : Bool
deriving DecidableEq, Repr

inductive UsageError
  | ambiguous (arg : String) (spellings : List String)
  | ignoredValue (flag : Flag) (value : String)
  | missingPath
  | unrecognized (args : List String)
deriving DecidableEq, Repr

def UsageError.message : UsageError → String
  | ambiguous arg spellings =>
    "ambiguous option: " ++ arg ++ " could match " ++ ", ".intercalate spellings
  | ignoredValue flag value =>
    "argument " ++ flag.title ++ ": ignored explicit argument " ++ Text.quoted value
  | missingPath => "the following arguments are required: file_path"
  | unrecognized args => "unrecognized arguments: " ++ " ".intercalate args

/-- What the arguments ask for. -/
inductive Request
  | run (options : Options)
  | help
  | wrong (error : UsageError)
deriving DecidableEq, Repr

/-- An argument, classified on its own. -/
inductive Argument
  | plain (text : String)
  | separator
  /-- A flag, with the value written to it. -/
  | flag (flag : Flag) (isShort : Bool) (value : Option String)
  | unknown (text : String)
deriving DecidableEq, Repr

namespace Argument

/-- What stands before and behind the first equals sign. -/
def splitValue (cs : List Char) : List Char × Option String :=
  match cs.dropWhile (· ≠ '=') with
  | [] => (cs, none)
  | _ :: value => (cs.takeWhile (· ≠ '='), some (String.ofList value))

def isNegativeNumber : List Char → Bool
  | '-' :: cs =>
    match cs.dropWhile Text.isAsciiDigit with
    | [] => !cs.isEmpty
    | '.' :: ds => !ds.isEmpty && ds.all Text.isAsciiDigit
    | _ => false
  | _ => false

/-- The flags that an argument may be meant as, if it is not spelled out. -/
def candidates (cs : List Char) : List (String × Argument) :=
  match cs with
  | '-' :: '-' :: _ =>
    let (name, value) := splitValue cs
    flagSpellings.filterMap fun s =>
      if name.isPrefixOf s.1.toList then some (s.1, .flag s.2 false value) else none
  | '-' :: c :: value =>
    flagSpellings.filterMap fun s =>
      if s.1.toList = ['-', c] then some (s.1, .flag s.2 true (some (String.ofList value)))
      else if cs.isPrefixOf s.1.toList then some (s.1, .flag s.2 false none)
      else none
  | _ => []

def spelled? (name : String) (value : Option String) : Option Argument :=
  (flagSpellings.lookup name).map fun f => .flag f (name.length = 2) value

def classify (arg : String) : Except UsageError Argument :=
  let cs := arg.toList
  if cs.head? ≠ some '-' || cs.length = 1 then .ok (.plain arg)
  else
    let (name, value) := splitValue cs
    match (spelled? arg none).or (value.bind fun v => spelled? (String.ofList name) (some v)) with
    | some a => .ok a
    | none =>
      match candidates cs with
      | [(_, a)] => .ok a
      | [] => .ok (if isNegativeNumber cs || cs.contains ' ' then .plain arg else .unknown arg)
      | several => .error (.ambiguous arg (several.map Prod.fst))

/-- Behind the separator nothing is a flag. -/
def classifyAll : List String → Except UsageError (List Argument)
  | [] => .ok []
  | arg :: args =>
    if arg = "--" then .ok (.separator :: args.map .plain)
    else do
      let a ← classify arg
      return a :: (← classifyAll args)

/-- Flags take no value. Only what follows a short flag may be more short flags. -/
def checkShort (flag : Flag) (whole : String) : List Char → Option UsageError
  | [] => none
  | 'h' :: cs => checkShort flag (String.ofList cs) cs
  | _ => some (.ignoredValue flag whole)

def checkValue (flag : Flag) (isShort : Bool) : Option String → Option UsageError
  | none => none
  | some value =>
    if isShort && !value.isEmpty then checkShort flag value value.toList
    else some (.ignoredValue flag value)

end Argument

/-- What has been read of the arguments. -/
structure OptionsSoFar where
  path : Option String
  debug : Bool
  extra : List String

namespace OptionsSoFar

def finish (s : OptionsSoFar) : Request :=
  match s.path with
  | none => .wrong .missingPath
  | some path => if s.extra.isEmpty then .run ⟨path, s.debug⟩ else .wrong (.unrecognized s.extra)

/-- Reads arguments in order. A separator is dropped where it stands next to the path. -/
def read (s : OptionsSoFar) : List Argument → Request
  | [] => s.finish
  | .plain text :: .separator :: rest =>
    if s.path.isNone then { s with path := some text }.read rest
    else { s with extra := s.extra ++ [text, "--"] }.read rest
  | .plain text :: rest =>
    if s.path.isNone then { s with path := some text }.read rest
    else { s with extra := s.extra ++ [text] }.read rest
  | .separator :: rest =>
    if s.path.isNone then s.read rest else { s with extra := s.extra ++ ["--"] }.read rest
  | .unknown text :: rest => { s with extra := s.extra ++ [text] }.read rest
  | .flag f isShort value :: rest =>
    match Argument.checkValue f isShort value with
    | some error => .wrong error
    | none =>
      match f with
      | .help => .help
      | .debug => { s with debug := true }.read rest

end OptionsSoFar

namespace Request

def ofArguments (args : List String) : Request :=
  match Argument.classifyAll args with
  | .error error => .wrong error
  | .ok items => OptionsSoFar.read ⟨none, false, []⟩ items

end Request

def usage (program : String) : String := "usage: " ++ program ++ " [-h] [--debug] file_path"

def helpText (program : String) : List String :=
  [usage program, "",
    "LimeLang v0.0.3-alpha", "",
    "positional arguments:",
    "  file_path   Path to your entry point lime file (ex. \x60main.lime\x60)", "",
    "options:",
    "  -h, --help  show this help message and exit",
    "  --debug     Prints internal debug information"]

def UsageError.report (program : String) (e : UsageError) : String :=
  usage program ++ "\n" ++ program ++ ": error: " ++ e.message ++ "\n"

end LimeLang
