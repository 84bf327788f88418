import LimeLang.Code.Check
import LimeLang.Code.Run
import LimeLang.Command.Options
import LimeLang.Compile
import LimeLang.Tree.Descent
import LimeLang.Tree.Document

/-! The command of each edition: it reads a source file, goes as far with it as the edition
does, and leaves lines of output, files and an ending. -/

namespace LimeLang

/-- Stages whose time is reported. -/
inductive Stage
  | parsing
  | compiling
  | running
deriving DecidableEq, Repr

/-- A line of output, where what depends on the machine is left open. -/
inductive Line
  | text (s : String)
  | duration (stage : Stage)
  /-- What is wrong with code that cannot be run. -/
  | diagnosis
  /-- The output of the program itself. -/
  | program (s : String)
deriving DecidableEq, Repr

def Stage.report (time : String) : Stage → String
  | parsing => "\n\n=== Parsed in: " ++ time ++ " ms. ==="
  | compiling => "=== Compiled in: " ++ time ++ " ms. ==="
  | running => "=== Executed in " ++ time ++ " ms. ==="

/-- Why the command breaks off. -/
inductive Crash
  | file (error : FileError)
  | reading (cause : BreakOff)
  | incomplete (part : Missing)
  | compile (failure : Failure)
  | unwritable (part : Code.Absent)
  | refused
  | stuck
deriving DecidableEq, Repr

def Crash.message : Crash → String
  | file error => error.message
  | reading cause => cause.message
  | incomplete part => part.message
  | compile failure => failure.message
  | unwritable part => part.message
  | refused => "invalid code"
  | stuck => "the program cannot go on"

inductive Ending
  | exit (code : Nat)
  | crash (cause : Crash)
deriving DecidableEq, Repr

/-- What is fixed when the command starts. -/
structure Setting where
  edition : Edition
  /-- The name under which usage messages speak of the command. -/
  program : String
  triple : String

/-- What the command has done so far. -/
structure Report where
  files : Files
  lines : List Line
  complaints : String

abbrev Command := ExceptT Ending (StateM Report)

namespace Command

def line (l : Line) : Command Unit := modify fun r => { r with lines := r.lines ++ [l] }

def say (s : String) : Command Unit := line (.text s)

def sayAll (xs : List String) : Command Unit := xs.forM say

def crash {α : Type} (c : Crash) : Command α := throw (.crash c)

def readFile (path : String) : Command String := do
  match (← get).files.read path.toList with
  | .ok text => return text
  | .error error => crash (.file error)

def debugDirectory : String := "debug"

/-- Files are opened before their text is made, so they are left empty if there is none. -/
def writeFile (name : String) (text : Except Crash String) : Command Unit := do
  match (← get).files.write debugDirectory name (text.toOption.getD "") with
  | .error error => crash (.file error)
  | .ok files =>
    modify fun r => { r with files }
    match text with
    | .ok _ => pure ()
    | .error c => crash c

def listTokens (s : Setting) (source : String) : Command Unit := do
  let (lines, failure) := (Cursor.start source).listing s.edition (source.length + 1)
  sayAll lines
  match failure with
  | some error => crash (.reading (.number error))
  | none => pure ()

def treeText (s : Setting) (p : Program) : Except Crash String :=
  let document := Program.document s.edition p
  match document.missing? with
  | some part => .error (.incomplete part)
  | none => .ok (document.write 0)

def writeTree (s : Setting) (p : Program) : Command Unit := do
  writeFile "ast.json" (treeText s p)
  say "Wrote AST to debug/ast.json successfully"

/-- The first two tokens are read before the rest, and `between` happens in between. -/
def parse (s : Setting) (source : String) (between : Command Unit) : Command Parsed := do
  let first := Scan.upToEof s.edition 2 (Cursor.start source)
  let attempt := Attempt.ofSource s.edition maxOpenCalls source
  sayAll (first.notices.map Notice.message)
  if first.failure.isNone then between
  sayAll ((attempt.notices.drop first.notices.length).map Notice.message)
  match attempt.result with
  | .error cause => crash (.reading cause)
  | .ok parsed => return parsed

/-- Parsing that ends the command if there are mistakes. -/
def parseWell (s : Setting) (source : String) : Command Program := do
  let parsed ← parse s source (pure ())
  if parsed.errors.isEmpty then return parsed.program
  else
    sayAll (parsed.errors.map ParseError.message)
    throw (.exit 1)

def compile (s : Setting) (p : Program) : Command Session := do
  let (result, session) := (Session.start s.edition).compile s.edition (← get).files p
  sayAll session.output
  match result with
  | .ok () => return session
  | .error .brokenPallet => throw (.exit 1)
  | .error failure => crash (.compile failure)

def codeText (s : Setting) (session : Session) : Except Crash String :=
  match session.assembly.text s.triple with
  | .ok text => .ok text
  | .error part => .error (.unwritable part)

/-- Ends the command if compiling recorded mistakes. -/
def checkErrors (session : Session) : Command Unit := do
  if !session.errors.isEmpty then
    say "==== COMPILER ERRORS ===="
    sayAll (session.errors.map CompileError.message)
    throw (.exit 1)

/-- More steps than any run gets through. -/
def runFuel : Nat := 1000000000000

/-- Strings of accepted code have one byte for each character, so bytes are characters. -/
def outputText (bytes : List UInt8) :
    String := String.ofList (bytes.map fun b => Char.ofNat b.toNat)

/-- The number that a result is reported as. -/
def resultNumber : Code.Value → Int
  | .int 1 b => b.toNat
  | .int _ b => b.toInt
  | _ => 0

/-- Code that is fit to run is run from `main`. -/
def execute (s : Setting) (session : Session) : Command Int := do
  match codeText s session with
  | .error c =>
    say c.message
    crash c
  | .ok _ =>
    if session.assembly.isAccepted then
      match session.assembly.call runFuel "main" [] with
      | .done (x, out) =>
        if !out.isEmpty then line (.program (outputText out))
        return resultNumber x
      | _ => crash .stuck
    else
      line .diagnosis
      crash .refused

def reportResult (debug : Bool) (result : Int) : Command Unit := do
  if debug then
    line (.duration .parsing)
    line (.duration .compiling)
  say ("\n\nProgram returned: " ++ toString result)
  line (.duration .running)

/-- Where an edition looks for its source. -/
def sourcePath (e : Edition) : String :=
  if !e.has .trees then "tests/lexer.lime"
  else if !e.has .code then "tests/parser.lime"
  else if !e.has .declarations then "tests/compiler.lime"
  else "tests/test.lime"

/-- What the arguments ask for, if it is to run something. -/
def options (s : Setting) (args : List String) : Command Options := do
  match Request.ofArguments args with
  | .run o => return o
  | .help =>
    sayAll (helpText s.program)
    throw (.exit 0)
  | .wrong error =>
    modify fun r => { r with complaints := r.complaints ++ error.report s.program }
    throw (.exit 2)

/-- The path to the source; an empty one stands for the usual place. -/
def sourceOf (o : Options) (e : Edition) : String :=
  if o.path.isEmpty then sourcePath e else o.path

/-- The editions with a command line. -/
def commandLine (s : Setting) (args : List String) : Command Unit := do
  let o ← options s args
  let program ← parseWell s (← readFile (sourceOf o s.edition))
  let session ← compile s program
  checkErrors session
  reportResult o.debug (← execute s session)

/-- The editions that make code, but have no command line. -/
def compiler (s : Setting) : Command Unit := do
  let program ← parseWell s (← readFile (sourcePath s.edition))
  if !s.edition.has .declarations then
    say "===== PARSER DEBUG ====="
    writeTree s program
  let session ← compile s program
  writeFile "ir.ll" (codeText s session)
  if s.edition.has .functions then
    checkErrors session
    reportResult false (← execute s session)

/-- The edition that stops at trees. It takes no notice of mistakes. -/
def treeMaker (s : Setting) : Command Unit := do
  let source ← readFile (sourcePath s.edition)
  say "===== LEXER DEBUG ====="
  listTokens s source
  let parsed ← parse s source (say "===== PARSER DEBUG =====")
  writeTree s parsed.program

def script (s : Setting) (args : List String) : Command Unit := do
  if s.edition.has .commandLine then commandLine s args
  else if s.edition.has .code then compiler s
  else if s.edition.has .trees then treeMaker s
  else listTokens s (← readFile (sourcePath s.edition))

/-- Runs the command with the given files. -/
def run (s : Setting) (args : List String) (files : Files) : Ending × Report :=
  match (ExceptT.run (script s args)).run ⟨files, [], ""⟩ with
  | (.ok (), r) => (.exit 0, r)
  | (.error ending, r) => (ending, r)

end Command

end LimeLang
