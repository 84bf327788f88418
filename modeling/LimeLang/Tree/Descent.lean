import LimeLang.Token.Scan
import LimeLang.Tree.Parse

/-! How deep reading goes. The readers of trees call each other, and there is room for only so many
calls that are open at the same time. The readers are followed here without their trees and errors:
the calls that they make, and the lexemes that they move over. A call for which there is no room
breaks reading off, and so does a lexeme that could not be scanned. -/

namespace LimeLang

/-- Why reading breaks off. -/
inductive BreakOff
  | number (error : NumberTooLong)
  | tooDeep
deriving DecidableEq, Repr

def BreakOff.message : BreakOff → String
  | number error => error.message
  | tooDeep => "maximum recursion depth exceeded"

/-- How many more calls may be open, and why the lexemes end before the source does, if so. -/
structure Descent.Limits where
  room : Nat
  failure : Option NumberTooLong

/-- A reader that keeps nothing but the lexemes before it. -/
abbrev Descent := ReaderT Descent.Limits (ExceptT BreakOff (StateM (List Lexeme)))

namespace Descent

def current : Descent Lexeme := fun _ rest => (.ok (rest.headD .eof), rest)

def peekKind : Descent Kind := fun _ rest => (.ok (rest.tail.headD .eof).kind, rest)

/-- Moves on. The lexeme behind the next one is scanned for that. -/
def advance : Descent Unit := fun limits rest =>
  match limits.failure, rest.tail.tail with
  | some error, [] => (.error (.number error), rest)
  | _, _ => (.ok (), rest.tail)

/-- Moves on if the next lexeme is of this kind. -/
def expect (k : Kind) : Descent Bool := do
  if (← peekKind) = k then
    advance
    return true
  else return false

/-- The same where it does not matter whether the lexeme is there. -/
def pass (k : Kind) : Descent Unit := do
  let _ ← expect k
  return

/-- Moves on to the next semicolon, or to the end. -/
def skipToSemicolon : Descent Unit := fun limits rest =>
  let later := rest.dropWhile fun l => l.kind ≠ .semicolon
  match limits.failure, later.tail with
  | some error, [] => (.error (.number error), rest)
  | _, _ => (.ok (), later)

/-- Makes a call, which is open until it returns. -/
def call {α : Type} (x : Descent α) : Descent α := fun limits rest =>
  match limits.room with
  | 0 => (.error .tooDeep, rest)
  | room + 1 => x { limits with room } rest

/-- Calls a reader that looks at the current lexeme only. -/
def glance : Descent Unit := call (pure ())

def moreParams : Nat → Descent Unit
  | 0 => throw .tooDeep
  | fuel + 1 => do
    if (← peekKind) = .comma then
      advance
      advance
      if ← expect .colon then
        advance
        moreParams fuel
    else pass .rparen

def params (fuel : Nat) : Descent Unit := do
  if (← peekKind) = .rparen then advance
  else
    advance
    if ← expect .colon then
      advance
      moreParams fuel

variable (e : Edition)

mutual

def expr : Nat → Nat → Descent Unit
  | 0, _ => throw .tooDeep
  | fuel + 1, level => do
    match ← current with
    | ⟨.int, .int _⟩ => do glance; continued fuel level
    | ⟨.float, .float _⟩ => do glance; continued fuel level
    | ⟨.ident, .text _⟩ =>
      if e.has .functions then do glance; continued fuel level
      else return
    | ⟨.trueWord, _⟩ => do glance; continued fuel level
    | ⟨.falseWord, _⟩ => do glance; continued fuel level
    | ⟨.string, .text _⟩ => do glance; continued fuel level
    | ⟨.lparen, _⟩ => do
      call do
        advance
        call (expr fuel 0)
        pass .rparen
      continued fuel level
    | ⟨.ifWord, _⟩ => do
      call (conditional fuel)
      continued fuel level
    | ⟨.minus, _⟩ =>
      if e.has .compoundAssignment then do
        call do
          advance
          call (expr fuel prefixLevel)
        continued fuel level
      else return
    | ⟨.bang, _⟩ => do
      call do
        advance
        call (expr fuel prefixLevel)
      continued fuel level
    | ⟨_, _⟩ => return

def continued : Nat → Nat → Descent Unit
  | 0, _ => throw .tooDeep
  | fuel + 1, level => do
    match (← peekKind).continuation? e with
    | none => return
    | some c =>
      if level < c.level then
        advance
        match c with
        | .infixed op => do
          call do
            advance
            call (expr fuel op.level)
          continued fuel level
        | .step _ => do
          glance
          continued fuel level
        | .call =>
          if e.has .parameters then do
            call (call (arguments fuel))
            continued fuel level
          else do
            call (pass .rparen)
            continued fuel level
      else return

def arguments : Nat → Descent Unit
  | 0 => throw .tooDeep
  | fuel + 1 => do
    if (← peekKind) = .rparen then advance
    else
      advance
      call (expr fuel 0)
      moreArguments fuel

def moreArguments : Nat → Descent Unit
  | 0 => throw .tooDeep
  | fuel + 1 => do
    if (← peekKind) = .comma then
      advance
      advance
      call (expr fuel 0)
      moreArguments fuel
    else pass .rparen

def conditional : Nat → Descent Unit
  | 0 => throw .tooDeep
  | fuel + 1 => do
    advance
    call (expr fuel 0)
    if ← expect .lbrace then
      call (block fuel)
      if (← peekKind) = .elseWord then
        advance
        if ← expect .lbrace then call (block fuel)

def block : Nat → Descent Unit
  | 0 => throw .tooDeep
  | fuel + 1 => do
    advance
    statements fuel true

def statements : Nat → Bool → Descent Unit
  | 0, _ => throw .tooDeep
  | fuel + 1, inBlock => do
    let k := (← current).kind
    if k = .eof || (inBlock && k = .rbrace) then return
    else
      call (statement fuel)
      advance
      statements fuel inBlock

def statement : Nat → Descent Unit
  | 0 => throw .tooDeep
  | fuel + 1 => do
    let k := (← current).kind
    if k = .ident && (← peekKind).isAssignment e then call (assignment fuel)
    else
      match k with
      | .letWord => call (letVar fuel)
      | .fnWord => call (function fuel)
      | .returnWord => call do
        advance
        call (expr fuel 0)
        pass .semicolon
      | .whileWord => call do
        advance
        call (expr fuel 0)
        if ← expect .lbrace then call (block fuel)
      | .breakWord => call advance
      | .continueWord => call advance
      | .forWord => call (forLoop fuel)
      | .importWord => call do
        if ← expect .string then pass .semicolon
      | _ => call do
        call (expr fuel 0)
        if (← peekKind) = .semicolon then advance

def assignment : Nat → Descent Unit
  | 0 => throw .tooDeep
  | fuel + 1 => do
    advance
    advance
    call (expr fuel 0)
    advance

def letVar : Nat → Descent Unit
  | 0 => throw .tooDeep
  | fuel + 1 => do
    if !(← expect .ident) then return
    if !(← expect .colon) then return
    if !(← expect .typeWord) then return
    if !(← expect .eq) then return
    advance
    call (expr fuel 0)
    skipToSemicolon

def function : Nat → Descent Unit
  | 0 => throw .tooDeep
  | fuel + 1 => do
    if !(← expect .ident) then return
    if !(← expect .lparen) then return
    if e.has .parameters then call (params fuel)
    if !e.has .parameters then
      if !(← expect .rparen) then return
    if !(← expect .arrow) then return
    advance
    if !(← expect .lbrace) then return
    call (block fuel)

def expressionStep : Nat → Descent Unit
  | 0 => throw .tooDeep
  | fuel + 1 => do
    call (expr fuel 0)
    advance

def forLoop : Nat → Descent Unit
  | 0 => throw .tooDeep
  | fuel + 1 => do
    if !(← expect .lparen) then return
    if !(← expect .letWord) then return
    call (letVar fuel)
    advance
    call (expr fuel 0)
    if !(← expect .semicolon) then return
    advance
    if e.has .stepping then expressionStep fuel else call (assignment fuel)
    if !(← expect .lbrace) then return
    call (block fuel)

end

/-- Follows the reader over a scanned source. Two lexemes are scanned before it begins. -/
def ofScan (room : Nat) (scan : Scan) : Except BreakOff Unit × List Lexeme :=
  match scan.failure, scan.lexemes.tail with
  | some error, [] => (.error (.number error), scan.lexemes)
  | failure, _ => statements e (8 * scan.lexemes.length + 8) false ⟨room, failure⟩ scan.lexemes

end Descent

/-- Calls that may be open while statements are read. Of a thousand in all, two are open before, and
six are left for what is done with a single token. -/
def maxOpenCalls : Nat := 992

/-- What comes of reading a source: the tree or what broke reading off, and the notices until
then. -/
structure Attempt where
  result : Except BreakOff Parsed
  notices : List Notice

def Attempt.ofSource (e : Edition) (room : Nat) (source : String) : Attempt :=
  let scan := Scan.ofSource e source
  match Descent.ofScan e room scan with
  | (.ok (), _) => ⟨.ok (.ofLexemes e scan.lexemes), scan.notices⟩
  | (.error (.number error), _) => ⟨.error (.number error), scan.notices⟩
  | (.error .tooDeep, rest) =>
    -- the current lexeme and the next one have been scanned as well
    let seen := scan.lexemes.length - rest.length + 2
    ⟨.error .tooDeep, (Scan.upToEof e seen (.start source)).notices⟩

end LimeLang
