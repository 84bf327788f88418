import LimeLang.Token
import LimeLang.Text.Classes

/-! Reading tokens from source text. Each step skips blanks and takes the longest lexeme of
the class that the next character begins. -/

namespace LimeLang

/-- A place in the source: what is still to be read, how many characters have been read, and
the line. Reading on at the end of the source still moves the position. -/
structure Cursor where
  rest : List Char
  position : Nat
  line : Nat
deriving DecidableEq, Repr

/-- A number had a second decimal point at this place. -/
structure Notice where
  line : Nat
  position : Nat
deriving DecidableEq, Repr

def Notice.message (n : Notice) : String :=
  "Too many decimals in number on line " ++ toString n.line ++ ", position " ++
    toString n.position

/-- An integer literal has more digits than can be read. -/
structure NumberTooLong where
  digits : Nat
deriving DecidableEq, Repr

def maxDigits : Nat := 4300

def NumberTooLong.message (e : NumberTooLong) : String :=
  "Exceeds the limit (4300 digits) for integer string conversion: value has " ++
    toString e.digits ++ " digits; use sys.set_int_max_str_digits() to increase the limit"

/-- One step of reading. -/
structure Scanned where
  result : Except NumberTooLong Token
  after : Cursor
  notice : Option Notice

def isBlank (c : Char) : Bool := c = ' ' || c = '\t' || c = '\n' || c = '\r'

def startsWord (c : Char) : Bool := Text.isAsciiLetter c || c = '_'

def continuesWord (c : Char) : Bool := startsWord c || Text.isAlphanumeric c

theorem continuesWord_of_startsWord {c : Char} (h : startsWord c = true) :
    continuesWord c = true := by simp [continuesWord, h]

def digitValue (c : Char) : Nat := c.toNat - '0'.toNat

/-- The longest operator of the edition that begins the text. -/
def operator? (e : Edition) (cs : List Char) : Option Spelling :=
  operators.find? fun s => e.has s.feature && s.text.toList.isPrefixOf cs

namespace Cursor

def start (source : String) : Cursor := ⟨source.toList, 0, 1⟩

def skip (c : Cursor) (n : Nat) : Cursor :=
  { c with rest := c.rest.drop n, position := c.position + n }

def skipBlanks (c : Cursor) : Cursor :=
  let blanks := c.rest.takeWhile isBlank
  { (c.skip blanks.length) with line := c.line + blanks.count '\n' }

def token (c : Cursor) (k : Kind) (l : Literal) : Token := ⟨⟨k, l⟩, c.line, c.position⟩

/-- A number, at a cursor that stands on a digit. The token stands behind its last digit. -/
def number (c : Cursor) : Scanned :=
  let whole := c.rest.takeWhile Text.isAsciiDigit
  match c.rest.dropWhile Text.isAsciiDigit with
  | '.' :: tail =>
    let fraction := tail.takeWhile Text.isAsciiDigit
    let after := c.skip (whole.length + 1 + fraction.length)
    if after.rest.head? = some '.' then
      let text := String.ofList (whole ++ '.' :: fraction)
      ⟨.ok (after.token .illegal (.text text)), after, some ⟨after.line, after.position⟩⟩
    else
      let value := Number.Binary.ofDecimal (whole.map digitValue) (fraction.map digitValue)
      ⟨.ok (after.token .float (.float value)), after, none⟩
  | _ =>
    let after := c.skip whole.length
    if maxDigits < whole.length then ⟨.error ⟨whole.length⟩, after, none⟩
    else
      let value := (whole.map digitValue).foldl (fun n d => 10 * n + d) 0
      ⟨.ok (after.token .int (.int value)), after, none⟩

/-- A word; the token stands behind its last letter. -/
def word (e : Edition) (c : Cursor) : Scanned :=
  let letters := c.rest.takeWhile continuesWord
  let after := c.skip letters.length
  let text := String.ofList letters
  ⟨.ok (after.token (.ofWord e text) (.text text)), after, none⟩

/-- A string, up to the next quote or the end; the token stands on that quote. -/
def string (c : Cursor) : Scanned :=
  let body := c.rest.tail.takeWhile (· ≠ '"')
  let last := c.skip (body.length + 1)
  ⟨.ok (last.token .string (.text (String.ofList body))), last.skip 1, none⟩

/-- An operator; the token stands on its last character. -/
def operator (c : Cursor) (s : Spelling) : Scanned :=
  let last := c.skip (s.text.length - 1)
  ⟨.ok (last.token s.kind (.text s.text)), last.skip 1, none⟩

/-- The lexeme at a cursor that does not stand on a blank. -/
def lexeme (e : Edition) (c : Cursor) : Scanned :=
  match c.rest with
  | [] => ⟨.ok (c.token .eof (.text "")), c.skip 1, none⟩
  | ch :: _ =>
    match operator? e c.rest with
    | some s => c.operator s
    | none =>
      if ch = '"' && e.has .strings then c.string
      else if startsWord ch && e.has .declarations then c.word e
      else if Text.isAsciiDigit ch then c.number
      else ⟨.ok (c.token .illegal (.text ch.toString)), c.skip 1, none⟩

def next (e : Edition) (c : Cursor) : Scanned := c.skipBlanks.lexeme e

end Cursor

/-- All that comes from reading some tokens: the tokens, the notices, and, if reading stopped
short, why. -/
structure Scan where
  tokens : List Token
  notices : List Notice
  failure : Option NumberTooLong
  cursor : Cursor

namespace Scan

/-- Reads up to the end of the source, or `fuel` tokens. -/
def upToEof (e : Edition) : Nat → Cursor → Scan
  | 0, c => ⟨[], [], none, c⟩
  | fuel + 1, c =>
    let s := c.next e
    match s.result with
    | .error failure => ⟨[], s.notice.toList, some failure, s.after⟩
    | .ok t =>
      if t.kind = .eof then ⟨[t], s.notice.toList, none, s.after⟩
      else
        let r := upToEof e fuel s.after
        { r with tokens := t :: r.tokens, notices := s.notice.toList ++ r.notices }

/-- Reads the whole source; its tokens end with an end-of-file token. -/
def ofSource (e : Edition) (source : String) : Scan :=
  let c := Cursor.start source
  upToEof e (c.rest.length + 1) c

/-- The lexemes without the end of the file. -/
def lexemes (s : Scan) : List Lexeme :=
  (s.tokens.filter fun t => t.kind ≠ .eof).map Token.toLexeme

end Scan

/-- The next `n` tokens at a cursor, as long as there are no failures. -/
def Cursor.takeTokens (e : Edition) : Nat → Cursor → List Token × Cursor
  | 0, c => ([], c)
  | n + 1, c =>
    match (c.next e).result with
    | .error _ => ([], (c.next e).after)
    | .ok t =>
      let r := takeTokens e n (c.next e).after
      (t :: r.1, r.2)

/-- Lines for all tokens up to the last character of the source, with notices between them.
The end of the file is listed only if blanks come before it. -/
def Cursor.listing (e : Edition) : Nat → Cursor → List String × Option NumberTooLong
  | 0, _ => ([], none)
  | fuel + 1, c =>
    if c.rest = [] then ([], none)
    else
      let s := c.next e
      let notices := s.notice.toList.map Notice.message
      match s.result with
      | .error failure => (notices, some failure)
      | .ok t =>
        let r := listing e fuel s.after
        (notices ++ t.display :: r.1, r.2)

end LimeLang
