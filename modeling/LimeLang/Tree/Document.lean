import LimeLang.Tree

/-! Trees written as documents of named fields, and the text of a document. A tree with missing
parts has a document as well, but no written form. -/

namespace LimeLang

inductive Document
  | null
  | bool (b : Bool)
  | int (n : Nat)
  | float (x : Number.Double)
  | str (s : String)
  | list (items : List Document)
  | record (fields : List (String × Document))
  | missingNode
  | missingList

/-- Why a document cannot be written: a node, or a list of nodes, is missing. -/
inductive Missing
  | node
  | list
deriving DecidableEq, Repr

def Missing.message : Missing → String
  | node => "'NoneType' object has no attribute 'json'"
  | list => "'NoneType' object is not iterable"

namespace Document

def ofLiteral : Literal → Document
  | .text s => str s
  | .int n => int n
  | .float x => float x

def node (kind : String) (fields : List (String × Document)) : Document :=
  record (("type", str kind) :: fields)

mutual

/-- The first missing part, in the order in which the document is written. -/
def missing? : Document → Option Missing
  | null | bool _ | int _ | float _ | str _ => none
  | list items => missingItem? items
  | record fields => missingField? fields
  | missingNode => some .node
  | missingList => some .list

def missingItem? : List Document → Option Missing
  | [] => none
  | d :: ds => (missing? d).or (missingItem? ds)

def missingField? : List (String × Document) → Option Missing
  | [] => none
  | (_, d) :: fs => (missing? d).or (missingField? fs)

end

def escape (c : Char) : List Char :=
  if c = '"' || c = '\\' then ['\\', c]
  else if c = '\n' then ['\\', 'n']
  else if c = '\r' then ['\\', 'r']
  else if c = '\t' then ['\\', 't']
  else if c.toNat = 8 then ['\\', 'b']
  else if c.toNat = 12 then ['\\', 'f']
  else if 0x20 ≤ c.toNat && c.toNat < 0x7f then [c]
  else if c.toNat < 0x10000 then '\\' :: 'u' :: Text.hex 4 c.toNat
  else
    let n := c.toNat - 0x10000
    '\\' :: 'u' :: (Text.hex 4 (0xd800 + n / 0x400) ++
      '\\' :: 'u' :: Text.hex 4 (0xdc00 + n % 0x400))

def writeString (s : String) : String := "\"" ++ String.ofList (s.toList.flatMap escape) ++ "\""

def newline (indent : Nat) : String := "\n" ++ String.ofList (List.replicate indent ' ')

mutual

/-- Text with four blanks of indentation for each level. -/
def write (indent : Nat) : Document → String
  | null | missingNode | missingList => "null"
  | bool b => if b then "true" else "false"
  | int n => toString n
  | float x => Number.Layout.document.write x
  | str s => writeString s
  | list [] => "[]"
  | list (d :: ds) =>
    "[" ++ newline (indent + 4) ++ write (indent + 4) d ++ writeItems (indent + 4) ds ++
      newline indent ++ "]"
  | record [] => "\x7b\x7d"
  | record ((k, d) :: fs) =>
    "\x7b" ++ newline (indent + 4) ++ writeString k ++ ": " ++ write (indent + 4) d ++
      writeFields (indent + 4) fs ++ newline indent ++ "\x7d"

def writeItems (indent : Nat) : List Document → String
  | [] => ""
  | d :: ds => "," ++ newline indent ++ write indent d ++ writeItems indent ds

def writeFields (indent : Nat) : List (String × Document) → String
  | [] => ""
  | (k, d) :: fs =>
    "," ++ newline indent ++ writeString k ++ ": " ++ write indent d ++ writeFields indent fs

end

end Document

open Document

def identifier (l : Literal) : Document := node "IdentifierLiteral" [("value", .ofLiteral l)]

def Param.document (p : Param) : Document :=
  node "FunctionParameter" [("name", .ofLiteral p.name), ("value_type", .ofLiteral p.type)]

mutual

def Expr.document (e : Edition) : Expr → Document
  | .missing => .missingNode
  | .int n => node "IntegerLiteral" [("value", .int n)]
  | .float x => node "FloatLiteral" [("value", .float x)]
  | .ident s => identifier (.text s)
  | .bool b => node "BooleanLiteral" [("value", .bool b)]
  | .str s => node "StringLiteral" [("value", .str s)]
  | .infixed l op r =>
    node "InfixExpression" [("left_node", l.document e), ("operator", .str op.text),
      ("right_node", r.document e)]
  | .prefixed op r =>
    node "PrefixExpression" [("operator", .str op.text), ("right_node", r.document e)]
  | .stepped l op =>
    node "PostfixExpression" [("left_node", l.document e), ("operator", .str op.text)]
  | .call f args =>
    node "CallExpression" [("function", f.document e), ("arguments", .list (Expr.documents e args))]
  | .openCall f => node "CallExpression" [("function", f.document e), ("arguments", .missingList)]
  | .ifThen c body =>
    node "IfStatement" [("condition", c.document e),
      ("consequence", node "BlockStatement" [("statements", .list (Stmt.documents e body))]),
      ("alternative", .null)]
  | .ifElse c body alternative =>
    node "IfStatement" [("condition", c.document e),
      ("consequence", node "BlockStatement" [("statements", .list (Stmt.documents e body))]),
      ("alternative", node "BlockStatement" [("statements", .list (Stmt.documents e alternative))])]

def Expr.documents (e : Edition) : List Expr → List Document
  | [] => []
  | x :: xs => x.document e :: Expr.documents e xs

def Stmt.document (e : Edition) : Stmt → Document
  | .missing => .missingNode
  | .expr x => node "ExpressionStatement" [("expr", x.document e)]
  | .bare x => x.document e
  | .letVar name value type =>
    node "LetStatement" [("name", identifier (.text name)), ("value", value.document e),
      ("value_type", .str type)]
  | .ret value => node "ReturnStatement" [("return_value", value.document e)]
  | .fn name params returnType body =>
    node "FunctionStatement" [("name", identifier (.text name)),
      ("return_type", .ofLiteral returnType),
      ("parameters", match params with
        | some ps => .list (ps.map Param.document)
        | none => .missingList),
      ("body", node "BlockStatement" [("statements", .list (Stmt.documents e body))])]
  | .assign target op value =>
    node "AssignStatement" (("ident", identifier target) ::
      ((if e.has .compoundAssignment then [("operator", .ofLiteral op)] else []) ++
        [("right_value", value.document e)]))
  | .whileLoop c body =>
    node "WhileStatement" [("condition", c.document e),
      ("body", node "BlockStatement" [("statements", .list (Stmt.documents e body))])]
  | .breakLoop => node "BreakStatement" []
  | .continueLoop => node "ContinueStatement" []
  | .forLoop init c step body =>
    node "ForStatement" [("var_declaration", init.document e), ("condition", c.document e),
      ("action", step.document e),
      ("body", node "BlockStatement" [("statements", .list (Stmt.documents e body))])]
  | .importPallet path => node "ImportStatement" [("file_path", .str path)]

def Stmt.documents (e : Edition) : List Stmt → List Document
  | [] => []
  | s :: ss => s.document e :: Stmt.documents e ss

end

/-- The document of a program, in which each statement is labelled with its kind. -/
def Program.document (e : Edition) (p : Program) : Document :=
  node "Program" [("statements", .list (p.map fun s => .record [(s.kind, s.document e)]))]

end LimeLang
