import LimeLang.Tree

/-! Reading trees from lexemes by precedence climbing. The reader stands on a current lexeme
and looks one ahead; it records errors and goes on, so it reads every list of lexemes to its
end. -/

namespace LimeLang

inductive ParseError
  | expected (wanted found : Kind)
  | noPrefix (found : Kind)
  | nestedTooDeep
deriving DecidableEq, Repr

def ParseError.message : ParseError → String
  | expected wanted found =>
    "Expected next token to be " ++ wanted.title ++ ", got " ++ found.title ++ " instead."
  | noPrefix found => "No Prefix Parse Function for " ++ found.title ++ " found"
  | nestedTooDeep => "Nesting is too deep"

/-- The lexemes from the current one on, and the errors so far. -/
structure Reading where
  rest : List Lexeme
  errors : List ParseError

namespace Reading

def current (s : Reading) : Lexeme := s.rest.headD .eof

def peek (s : Reading) : Lexeme := s.rest.tail.headD .eof

def advance (s : Reading) : Reading := { s with rest := s.rest.tail }

def report (s : Reading) (e : ParseError) : Reading := { s with errors := s.errors ++ [e] }

end Reading

abbrev Reader := StateM Reading

namespace Reader

def current : Reader Lexeme := fun s => (s.current, s)

def peekKind : Reader Kind := fun s => (s.peek.kind, s)

def advance : Reader Unit := fun s => ((), s.advance)

def report (e : ParseError) : Reader Unit := fun s => ((), s.report e)

/-- Moves on if the next lexeme is of this kind, and records an error if not. -/
def expect (k : Kind) : Reader Bool := fun s =>
  if s.peek.kind = k then (true, s.advance) else (false, s.report (.expected k s.peek.kind))

/-- Moves on to the next semicolon, or to the end. -/
def skipToSemicolon : Reader Unit := fun s =>
  ((), { s with rest := s.rest.dropWhile fun l => l.kind ≠ .semicolon })

end Reader

/-- How an expression may go on after an operand. -/
inductive Continuation
  | infixed (op : InfixOp)
  | call
  | step (op : StepOp)

def Continuation.level : Continuation → Nat
  | infixed op => op.level
  | call => callLevel
  | step _ => stepLevel

def Kind.continuation? (e : Edition) : Kind → Option Continuation
  | plus => some (.infixed .add)
  | minus => some (.infixed .sub)
  | asterisk => some (.infixed .mul)
  | slash => some (.infixed .div)
  | modulus => some (.infixed .rem)
  | pow => some (.infixed .pow)
  | lt => some (.infixed .lt)
  | gt => some (.infixed .gt)
  | ltEq => some (.infixed .le)
  | gtEq => some (.infixed .ge)
  | eqEq => some (.infixed .eq)
  | notEq => some (.infixed .ne)
  | lparen => if e.has .calls then some .call else none
  | plusPlus => some (.step .increment)
  | minusMinus => some (.step .decrement)
  | _ => none

def Kind.isAssignment (e : Edition) : Kind → Bool
  | eq => e.has .reassignment
  | plusEq | minusEq | mulEq | divEq => true
  | _ => false

namespace Parse

open Reader

/-- Parameters after the first, up to the closing parenthesis. -/
def moreParams : Nat → List Param → Reader (Option (List Param))
  | 0, _ => do report .nestedTooDeep; return none
  | fuel + 1, acc => do
    if (← peekKind) = .comma then
      advance
      advance
      let name := (← current).literal
      if ← expect .colon then
        advance
        moreParams fuel (acc ++ [⟨name, (← current).literal⟩])
      else return none
    else if ← expect .rparen then return some acc
    else return none

/-- The parameters of a function, from its opening parenthesis on. -/
def params (fuel : Nat) : Reader (Option (List Param)) := do
  if (← peekKind) = .rparen then
    advance
    return some []
  else
    advance
    let name := (← current).literal
    if ← expect .colon then
      advance
      moreParams fuel [⟨name, (← current).literal⟩]
    else return none

variable (e : Edition)

mutual

/-- An expression whose operators all bind more strongly than `level`. -/
def expr : Nat → Nat → Reader Expr
  | 0, _ => do report .nestedTooDeep; return .missing
  | fuel + 1, level => do
    match ← current with
    | ⟨.int, .int n⟩ => continued fuel level (.int n)
    | ⟨.float, .float x⟩ => continued fuel level (.float x)
    | ⟨.ident, .text s⟩ =>
      if e.has .functions then continued fuel level (.ident s)
      else do report (.noPrefix .ident); return .missing
    | ⟨.trueWord, _⟩ => continued fuel level (.bool true)
    | ⟨.falseWord, _⟩ => continued fuel level (.bool false)
    | ⟨.string, .text s⟩ => continued fuel level (.str s)
    | ⟨.lparen, _⟩ => do
      advance
      let inner ← expr fuel 0
      let closed ← expect .rparen
      continued fuel level (if closed then inner else .missing)
    | ⟨.ifWord, _⟩ => do continued fuel level (← conditional fuel)
    | ⟨.minus, _⟩ =>
      if e.has .compoundAssignment then do
        advance
        continued fuel level (.prefixed .neg (← expr fuel prefixLevel))
      else do report (.noPrefix .minus); return .missing
    | ⟨.bang, _⟩ => do
      advance
      continued fuel level (.prefixed .not (← expr fuel prefixLevel))
    | ⟨k, _⟩ => do report (.noPrefix k); return .missing

/-- Goes on from an operand as long as the next operator binds more strongly than `level`. -/
def continued : Nat → Nat → Expr → Reader Expr
  | 0, _, _ => do report .nestedTooDeep; return .missing
  | fuel + 1, level, left => do
    match (← peekKind).continuation? e with
    | none => return left
    | some c =>
      if level < c.level then
        advance
        match c with
        | .infixed op => do
          advance
          continued fuel level (.infixed left op (← expr fuel op.level))
        | .step op => continued fuel level (.stepped left op)
        | .call =>
          if e.has .parameters then do
            match ← arguments fuel with
            | some args => continued fuel level (.call left args)
            | none => continued fuel level (.openCall left)
          else do
            let closed ← expect .rparen
            continued fuel level (if closed then .call left [] else .missing)
      else return left

/-- The arguments of a call, from its opening parenthesis on. -/
def arguments : Nat → Reader (Option (List Expr))
  | 0 => do report .nestedTooDeep; return none
  | fuel + 1 => do
    if (← peekKind) = .rparen then
      advance
      return some []
    else
      advance
      moreArguments fuel [← expr fuel 0]

def moreArguments : Nat → List Expr → Reader (Option (List Expr))
  | 0, _ => do report .nestedTooDeep; return none
  | fuel + 1, acc => do
    if (← peekKind) = .comma then
      advance
      advance
      moreArguments fuel (acc ++ [← expr fuel 0])
    else if ← expect .rparen then return some acc
    else return none

/-- A conditional, from its keyword on. -/
def conditional : Nat → Reader Expr
  | 0 => do report .nestedTooDeep; return .missing
  | fuel + 1 => do
    advance
    let condition ← expr fuel 0
    if ← expect .lbrace then
      let body ← block fuel
      if (← peekKind) = .elseWord then
        advance
        if ← expect .lbrace then return .ifElse condition body (← block fuel)
        else return .missing
      else return .ifThen condition body
    else return .missing

/-- The statements of a block, from its opening brace to its closing one. -/
def block : Nat → Reader (List Stmt)
  | 0 => do report .nestedTooDeep; return []
  | fuel + 1 => do
    advance
    statements fuel true

/-- Statements up to the end, or up to a closing brace if they stand in a block. -/
def statements : Nat → Bool → Reader (List Stmt)
  | 0, _ => do report .nestedTooDeep; return []
  | fuel + 1, inBlock => do
    let k := (← current).kind
    if k = .eof || (inBlock && k = .rbrace) then return []
    else
      let s ← statement fuel
      advance
      return s.toList ++ (← statements fuel inBlock)

def statement : Nat → Reader (Option Stmt)
  | 0 => do report .nestedTooDeep; return none
  | fuel + 1 => do
    let k := (← current).kind
    if k = .ident && (← peekKind).isAssignment e then return some (← assignment fuel)
    else
      match k with
      | .letWord => letVar fuel
      | .fnWord => function fuel
      | .returnWord => do
        advance
        let value ← expr fuel 0
        if ← expect .semicolon then return some (.ret value) else return none
      | .whileWord => do
        advance
        let condition ← expr fuel 0
        if ← expect .lbrace then return some (.whileLoop condition (← block fuel))
        else return none
      | .breakWord => do
        advance
        return some .breakLoop
      | .continueWord => do
        advance
        return some .continueLoop
      | .forWord => forLoop fuel
      | .importWord => do
        if ← expect .string then
          let path := (← current).literal.display
          if ← expect .semicolon then return some (.importPallet path) else return none
        else return none
      | _ => do
        let value ← expr fuel 0
        if (← peekKind) = .semicolon then advance
        return some (.expr value)

/-- An assignment; whatever stands in the places of its target and operator is taken. -/
def assignment : Nat → Reader Stmt
  | 0 => do report .nestedTooDeep; return .missing
  | fuel + 1 => do
    let target := (← current).literal
    advance
    let op ← current
    advance
    let value ← expr fuel 0
    advance
    return .assign target (if e.has .compoundAssignment then op.literal else plainAssign) value

def letVar : Nat → Reader (Option Stmt)
  | 0 => do report .nestedTooDeep; return none
  | fuel + 1 => do
    if !(← expect .ident) then return none
    let name := (← current).literal.display
    if !(← expect .colon) then return none
    if !(← expect .typeWord) then return none
    let type := (← current).literal.display
    if !(← expect .eq) then return none
    advance
    let value ← expr fuel 0
    skipToSemicolon
    return some (.letVar name value type)

def function : Nat → Reader (Option Stmt)
  | 0 => do report .nestedTooDeep; return none
  | fuel + 1 => do
    if !(← expect .ident) then return none
    let name := (← current).literal.display
    if !(← expect .lparen) then return none
    let parameters ← if e.has .parameters then params fuel else pure (some [])
    if !e.has .parameters then
      if !(← expect .rparen) then return none
    if !(← expect .arrow) then return none
    advance
    let returnType := (← current).literal
    if !(← expect .lbrace) then return none
    return some (.fn name parameters returnType (← block fuel))

/-- The step of a loop when it is an expression. -/
def expressionStep : Nat → Reader Stmt
  | 0 => do report .nestedTooDeep; return .missing
  | fuel + 1 => do
    let value ← expr fuel 0
    advance
    return .bare value

def forLoop : Nat → Reader (Option Stmt)
  | 0 => do report .nestedTooDeep; return none
  | fuel + 1 => do
    if !(← expect .lparen) then return none
    if !(← expect .letWord) then return none
    let init ← letVar fuel
    advance
    let condition ← expr fuel 0
    if !(← expect .semicolon) then return none
    advance
    let step ← if e.has .stepping then expressionStep fuel else assignment fuel
    if !(← expect .lbrace) then return none
    return some (.forLoop (init.getD .missing) condition step (← block fuel))

end

end Parse

/-- The tree of a program and the errors met in reading it. -/
structure Parsed where
  program : Program
  errors : List ParseError

/-- Between two lexemes that are consumed there are fewer than seven nested calls. -/
def Parsed.ofLexemes (e : Edition) (lexemes : List Lexeme) : Parsed :=
  let r := Parse.statements e (8 * lexemes.length + 8) false ⟨lexemes, []⟩
  ⟨r.1, r.2.errors⟩

end LimeLang
