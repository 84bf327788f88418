import LimeLang.Edition
import LimeLang.Number.Layout
import LimeLang.Text.Quoted

/-! Tokens: their kinds, the literals they carry, and the words and operators that each
edition reserves. -/

namespace LimeLang

inductive Kind
  | eof | illegal
  | ident | int | float | string
  | plus | minus | asterisk | slash | pow | modulus
  | eq | plusEq | minusEq | mulEq | divEq
  | lt | gt | eqEq | notEq | ltEq | gtEq
  | colon | comma | semicolon | arrow | lparen | rparen | lbrace | rbrace
  | bang | plusPlus | minusMinus
  | letWord | fnWord | returnWord | ifWord | elseWord | trueWord | falseWord
  | whileWord | breakWord | continueWord | forWord | importWord
  | typeWord
deriving DecidableEq, Repr

def Kind.name : Kind → String
  | eof => "EOF"
  | illegal => "ILLEGAL"
  | ident => "IDENT"
  | int => "INT"
  | float => "FLOAT"
  | string => "STRING"
  | plus => "PLUS"
  | minus => "MINUS"
  | asterisk => "ASTERISK"
  | slash => "SLASH"
  | pow => "POW"
  | modulus => "MODULUS"
  | eq => "EQ"
  | plusEq => "PLUS_EQ"
  | minusEq => "MINUS_EQ"
  | mulEq => "MUL_EQ"
  | divEq => "DIV_EQ"
  | lt => "LT"
  | gt => "GT"
  | eqEq => "EQ_EQ"
  | notEq => "NOT_EQ"
  | ltEq => "LT_EQ"
  | gtEq => "GT_EQ"
  | colon => "COLON"
  | comma => "COMMA"
  | semicolon => "SEMICOLON"
  | arrow => "ARROW"
  | lparen => "LPAREN"
  | rparen => "RPAREN"
  | lbrace => "LBRACE"
  | rbrace => "RBRACE"
  | bang => "BANG"
  | plusPlus => "PLUS_PLUS"
  | minusMinus => "MINUS_MINUS"
  | letWord => "LET"
  | fnWord => "FN"
  | returnWord => "RETURN"
  | ifWord => "IF"
  | elseWord => "ELSE"
  | trueWord => "TRUE"
  | falseWord => "FALSE"
  | whileWord => "WHILE"
  | breakWord => "BREAK"
  | continueWord => "CONTINUE"
  | forWord => "FOR"
  | importWord => "IMPORT"
  | typeWord => "TYPE"

/-- A kind as messages show it. -/
def Kind.title (k : Kind) : String := "TokenType." ++ k.name

/-- What a token carries: a number's value, or text for all other tokens. -/
inductive Literal
  | text (s : String)
  | int (n : Nat)
  | float (x : Number.Double)
deriving DecidableEq, Repr

namespace Literal

open scoped Number

def display : Literal → String
  | text s => s
  | int n => toString n
  | float x => Number.Layout.message.write x

/-- The literal as a message shows it when it has to be told apart from other text. -/
def quoted : Literal → String
  | text s => Text.quoted s
  | l => l.display

/-- A float without fractional part names the same thing as its integer. -/
def key : Literal → Literal
  | float x =>
    match x.toExact with
    | .finite false m q =>
      if (m * 2 ^ q.toNat) % 2 ^ (-q).toNat = 0 then int (m * 2 ^ q.toNat / 2 ^ (-q).toNat)
      else float x
    | _ => float x
  | l => l

/-- Whether two literals name the same thing. -/
def same (a b : Literal) : Bool := a.key = b.key

theorem same_refl (a : Literal) : a.same a = true := by simp [same]

end Literal

/-- A token without its place in the source. -/
structure Lexeme where
  kind : Kind
  literal : Literal
deriving DecidableEq, Repr

def Lexeme.eof : Lexeme := ⟨.eof, .text ""⟩

structure Token extends Lexeme where
  line : Nat
  position : Nat
deriving DecidableEq, Repr

def Token.display (t : Token) : String :=
  "Token[" ++ t.kind.title ++ " : " ++ t.literal.display ++ " : Line " ++ toString t.line ++
    " : Position " ++ toString t.position ++ "]"

/-- A spelling with the kind of its tokens and the feature that brought it. -/
structure Spelling where
  text : String
  kind : Kind
  feature : Feature

def keywords : List Spelling := [
  ⟨"let", .letWord, .declarations⟩,
  ⟨"fn", .fnWord, .functions⟩,
  ⟨"return", .returnWord, .functions⟩,
  ⟨"if", .ifWord, .conditions⟩,
  ⟨"else", .elseWord, .conditions⟩,
  ⟨"true", .trueWord, .conditions⟩,
  ⟨"false", .falseWord, .conditions⟩,
  ⟨"while", .whileWord, .whileLoops⟩,
  ⟨"break", .breakWord, .forLoops⟩,
  ⟨"continue", .continueWord, .forLoops⟩,
  ⟨"for", .forWord, .forLoops⟩,
  ⟨"import", .importWord, .pallets⟩]

/-- Second spellings of keywords and punctuation. -/
def slang : List Spelling := [
  ⟨"lit", .letWord, .declarations⟩,
  ⟨"be", .eq, .declarations⟩,
  ⟨"rn", .semicolon, .declarations⟩,
  ⟨"bruh", .fnWord, .functions⟩,
  ⟨"pause", .returnWord, .functions⟩,
  ⟨"3--D", .arrow, .functions⟩,
  ⟨"sus", .ifWord, .conditions⟩,
  ⟨"imposter", .elseWord, .conditions⟩,
  ⟨"wee", .whileWord, .whileLoops⟩,
  ⟨"yeet", .breakWord, .forLoops⟩,
  ⟨"anothaone", .continueWord, .forLoops⟩,
  ⟨"dab", .forWord, .forLoops⟩,
  ⟨"gib", .importWord, .pallets⟩]

def typeWords : List Spelling := [
  ⟨"int", .typeWord, .declarations⟩,
  ⟨"float", .typeWord, .declarations⟩,
  ⟨"str", .typeWord, .strings⟩,
  ⟨"void", .typeWord, .strings⟩]

/-- The operators and punctuation marks, longer ones first. -/
def operators : List Spelling := [
  ⟨"->", .arrow, .functions⟩,
  ⟨"==", .eqEq, .conditions⟩,
  ⟨"!=", .notEq, .conditions⟩,
  ⟨"<=", .ltEq, .conditions⟩,
  ⟨">=", .gtEq, .conditions⟩,
  ⟨"+=", .plusEq, .compoundAssignment⟩,
  ⟨"-=", .minusEq, .compoundAssignment⟩,
  ⟨"*=", .mulEq, .compoundAssignment⟩,
  ⟨"/=", .divEq, .compoundAssignment⟩,
  ⟨"++", .plusPlus, .stepping⟩,
  ⟨"--", .minusMinus, .stepping⟩,
  ⟨"+", .plus, .expressions⟩,
  ⟨"-", .minus, .expressions⟩,
  ⟨"*", .asterisk, .expressions⟩,
  ⟨"/", .slash, .expressions⟩,
  ⟨"^", .pow, .expressions⟩,
  ⟨"%", .modulus, .expressions⟩,
  ⟨";", .semicolon, .expressions⟩,
  ⟨"(", .lparen, .expressions⟩,
  ⟨")", .rparen, .expressions⟩,
  ⟨"=", .eq, .declarations⟩,
  ⟨":", .colon, .declarations⟩,
  ⟨"\x7b", .lbrace, .functions⟩,
  ⟨"\x7d", .rbrace, .functions⟩,
  ⟨"<", .lt, .conditions⟩,
  ⟨">", .gt, .conditions⟩,
  ⟨",", .comma, .parameters⟩,
  ⟨"!", .bang, .compoundAssignment⟩]

/-- The kind of a word: a keyword, its slang, the name of a type, or an identifier. -/
def Kind.ofWord (e : Edition) (word : String) : Kind :=
  match (keywords ++ slang ++ typeWords).find? fun s => e.has s.feature && s.text == word with
  | some s => s.kind
  | none => .ident

end LimeLang
