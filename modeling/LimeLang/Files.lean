/-! A tree of text files, and how a path leads to one of them. -/

namespace LimeLang

structure Files where
  texts : List (String × String)
  directories : List String

inductive FileError
  | notFound
  | isDirectory
  | notDirectory
  | nullCharacter
  | nameTooLong
deriving DecidableEq, Repr

def FileError.message : FileError → String
  | notFound => "No such file or directory"
  | isDirectory => "Is a directory"
  | notDirectory => "Not a directory"
  | nullCharacter => "embedded null byte"
  | nameTooLong => "File name too long"

namespace Files

/-- The parts of a path between its slashes. -/
def components : List Char → List (List Char)
  | [] => [[]]
  | c :: cs =>
    if c = '/' then [] :: components cs
    else match components cs with
      | [] => [[c]]
      | w :: ws => (c :: w) :: ws

def join : List (List Char) → List Char
  | [] => []
  | [w] => w
  | w :: ws => w ++ '/' :: join ws

/-- A path without empty parts, single dots, and parts that a double dot takes back. -/
def normalize (path : List Char) : List Char :=
  join ((components path).foldl (fun ws w =>
    if w = [] || w = ['.'] then ws
    else if w = ['.', '.'] && !ws.isEmpty && ws.getLast? ≠ some w then ws.dropLast
    else ws ++ [w]) [])

def hasDirectory (f : Files) (path : List (List Char)) : Bool :=
  f.directories.any (fun d => d.toList = join path) ||
    f.texts.any fun t => (join path ++ ['/']).isPrefixOf t.1.toList

def text? (f : Files) (path : List (List Char)) : Option String :=
  (f.texts.find? fun t => t.1.toList = join path).map Prod.snd

def maxNameBytes : Nat := 255

/-- Follows the parts of a path from a directory. Nothing is known outside the tree. -/
def walk (f : Files) : List (List Char) → List (List Char) → Except FileError String
  | _, [] => .error .isDirectory
  | dir, w :: ws =>
    if w = [] || w = ['.'] then walk f dir ws
    else if w = ['.', '.'] then
      if dir.isEmpty then .error (if ws.isEmpty then .isDirectory else .notFound)
      else walk f dir.dropLast ws
    else if maxNameBytes < (w.flatMap String.utf8EncodeChar).length then .error .nameTooLong
    else if f.hasDirectory (dir ++ [w]) then walk f (dir ++ [w]) ws
    else match f.text? (dir ++ [w]) with
      | some t => if ws.isEmpty then .ok t else .error .notDirectory
      | none => .error .notFound

/-- Every line ending becomes a newline. -/
def newlines : List Char → List Char
  | [] => []
  | '\r' :: '\n' :: cs => '\n' :: newlines cs
  | '\r' :: cs => '\n' :: newlines cs
  | c :: cs => c :: newlines cs

def read (f : Files) (path : List Char) : Except FileError String :=
  if path.contains '\x00' then .error .nullCharacter
  else if path.head? = some '/' then .error .notFound
  else (f.walk [] (components path)).map fun t => String.ofList (newlines t.toList)

/-- Writes a file of a directory, in place of one of the same name. -/
def write (f : Files) (directory name text : String) : Except FileError Files :=
  let path := directory ++ "/" ++ name
  if f.hasDirectory [directory.toList] then
    .ok { f with texts := f.texts.filter (·.1 ≠ path) ++ [(path, text)] }
  else .error .notFound

end Files

end LimeLang
