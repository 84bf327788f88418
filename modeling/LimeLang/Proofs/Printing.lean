import LimeLang.Proofs.ExactDecimal
import LimeLang.Tree.Parse

/-! Canonical texts of programs. Every expression stands in parentheses, and one blank stands
between two lexemes. -/

namespace LimeLang

def InfixOp.kind : InfixOp → Kind
  | add => .plus
  | sub => .minus
  | mul => .asterisk
  | div => .slash
  | rem => .modulus
  | pow => .pow
  | lt => .lt
  | gt => .gt
  | le => .ltEq
  | ge => .gtEq
  | eq => .eqEq
  | ne => .notEq

def InfixOp.feature : InfixOp → Feature
  | lt | gt | le | ge | eq | ne => .conditions
  | _ => .expressions

def PrefixOp.kind : PrefixOp → Kind
  | neg => .minus
  | not => .bang

def StepOp.kind : StepOp → Kind
  | increment => .plusPlus
  | decrement => .minusMinus

def assignments : List Spelling := [
  ⟨"=", .eq, .reassignment⟩,
  ⟨"+=", .plusEq, .compoundAssignment⟩,
  ⟨"-=", .minusEq, .compoundAssignment⟩,
  ⟨"*=", .mulEq, .compoundAssignment⟩,
  ⟨"/=", .divEq, .compoundAssignment⟩]

def assignKind (op : Literal) : Kind :=
  match assignments.find? fun s => .text s.text = op with
  | some s => s.kind
  | none => .illegal

namespace Lexeme

def infixOp (op : InfixOp) : Lexeme := ⟨op.kind, .text op.text⟩

def prefixOp (op : PrefixOp) : Lexeme := ⟨op.kind, .text op.text⟩

def step (op : StepOp) : Lexeme := ⟨op.kind, .text op.text⟩

def name (s : String) : Lexeme := ⟨.ident, .text s⟩

/-- A name in the place of a type; it may be a reserved one. -/
def type (e : Edition) (l : Literal) : Lexeme := ⟨.ofWord e l.display, l⟩

def lparen : Lexeme := ⟨.lparen, .text "("⟩

def rparen : Lexeme := ⟨.rparen, .text ")"⟩

def lbrace : Lexeme := ⟨.lbrace, .text "\x7b"⟩

def rbrace : Lexeme := ⟨.rbrace, .text "\x7d"⟩

def semicolon : Lexeme := ⟨.semicolon, .text ";"⟩

def comma : Lexeme := ⟨.comma, .text ","⟩

def colon : Lexeme := ⟨.colon, .text ":"⟩

def arrow : Lexeme := ⟨.arrow, .text "->"⟩

def equals : Lexeme := ⟨.eq, .text "="⟩

end Lexeme

def grouped (ls : List Lexeme) : List Lexeme := .lparen :: (ls ++ [.rparen])

def braced (ls : List Lexeme) : List Lexeme := .lbrace :: (ls ++ [.rbrace])

def separated : List (List Lexeme) → List Lexeme
  | [] => []
  | ls :: rest => ls ++ rest.flatMap fun ms => .comma :: ms

def Param.lexemes (e : Edition) (p : Param) : List Lexeme :=
  [⟨.ident, p.name⟩, .colon, .type e p.type]

def Expr.isConditional : Expr → Bool
  | .ifThen .. | .ifElse .. => true
  | _ => false

mutual

def Expr.lexemes (e : Edition) : Expr → List Lexeme
  | .missing | .openCall _ => []
  | .int n => [⟨.int, .int n⟩]
  | .float x => [⟨.float, .float x⟩]
  | .ident s => [.name s]
  | .bool true => [⟨.trueWord, .text "true"⟩]
  | .bool false => [⟨.falseWord, .text "false"⟩]
  | .str s => [⟨.string, .text s⟩]
  | .infixed l op r => grouped (l.lexemes e) ++ .infixOp op :: grouped (r.lexemes e)
  | .prefixed op r => .prefixOp op :: grouped (r.lexemes e)
  | .stepped l op => grouped (l.lexemes e) ++ [.step op]
  | .call f args => grouped (f.lexemes e) ++ grouped (separated (argumentLexemes e args))
  | .ifThen c body =>
    ⟨.ifWord, .text "if"⟩ :: (grouped (c.lexemes e) ++ braced (lexemes e body))
  | .ifElse c body alternative =>
    ⟨.ifWord, .text "if"⟩ :: (grouped (c.lexemes e) ++ (braced (lexemes e body) ++
      ⟨.elseWord, .text "else"⟩ :: braced (lexemes e alternative)))

def argumentLexemes (e : Edition) : List Expr → List (List Lexeme)
  | [] => []
  | x :: xs => grouped (x.lexemes e) :: argumentLexemes e xs

/-- The lexemes of a statement. Conditionals stand without parentheses. -/
def Stmt.lexemes (e : Edition) : Stmt → List Lexeme
  | .missing => []
  | .expr x => (if x.isConditional then x.lexemes e else grouped (x.lexemes e)) ++ [.semicolon]
  | .bare x => grouped (x.lexemes e)
  | .letVar name x type =>
    ⟨.letWord, .text "let"⟩ :: .name name :: .colon :: ⟨.typeWord, .text type⟩ :: .equals ::
      (grouped (x.lexemes e) ++ [.semicolon])
  | .ret x => ⟨.returnWord, .text "return"⟩ :: (grouped (x.lexemes e) ++ [.semicolon])
  | .fn name params returnType body =>
    ⟨.fnWord, .text "fn"⟩ :: .name name ::
      (grouped (separated ((params.getD []).map (Param.lexemes e))) ++
        .arrow :: .type e returnType :: braced (lexemes e body))
  | .assign target op x =>
    ⟨.ident, target⟩ :: ⟨assignKind op, op⟩ :: (grouped (x.lexemes e) ++ [.semicolon])
  | .whileLoop c body =>
    ⟨.whileWord, .text "while"⟩ :: (grouped (c.lexemes e) ++ braced (lexemes e body))
  | .breakLoop => [⟨.breakWord, .text "break"⟩, .semicolon]
  | .continueLoop => [⟨.continueWord, .text "continue"⟩, .semicolon]
  | .forLoop init c next body =>
    ⟨.forWord, .text "for"⟩ :: .lparen :: (init.lexemes e ++ (grouped (c.lexemes e) ++ .semicolon ::
      (stepLexemes e next ++ .rparen :: braced (lexemes e body))))
  | .importPallet path => [⟨.importWord, .text "import"⟩, ⟨.string, .text path⟩, .semicolon]

/-- The step of a loop has no semicolon. -/
def stepLexemes (e : Edition) : Stmt → List Lexeme
  | .assign target op x => ⟨.ident, target⟩ :: ⟨assignKind op, op⟩ :: grouped (x.lexemes e)
  | .bare x => grouped (x.lexemes e)
  | _ => []

def lexemes (e : Edition) : List Stmt → List Lexeme
  | [] => []
  | s :: ss => s.lexemes e ++ lexemes e ss

end

/-- A lexeme as it is written. Numbers are written exactly. -/
def Lexeme.spelling (l : Lexeme) : List Char :=
  match l.literal with
  | .int n => Nat.toDigits 10 n
  | .float x => x.wholeDigits ++ '.' :: x.fractionDigits
  | .text s => if l.kind = .string then '"' :: (s.toList ++ ['"']) else s.toList

def spaced : List Lexeme → List Char
  | [] => []
  | [l] => l.spelling
  | l :: ls => l.spelling ++ ' ' :: spaced ls

def Program.print (e : Edition) (p : Program) : String := String.ofList (spaced (lexemes e p))

def isWordText (s : String) : Bool :=
  match s.toList with
  | [] => false
  | c :: t => startsWord c && t.all continuesWord

def Edition.isName (e : Edition) (s : String) : Bool := isWordText s && Kind.ofWord e s = .ident

def Edition.isNameLiteral (e : Edition) : Literal → Bool
  | .text s => e.isName s
  | _ => false

def Edition.isTypeName (e : Edition) : Literal → Bool
  | .text s => isWordText s && (Kind.ofWord e s = .ident || Kind.ofWord e s = .typeWord)
  | _ => false

def Edition.isAssignment (e : Edition) (op : Literal) : Bool :=
  assignments.any fun s => .text s.text = op && e.has s.feature

def Param.isPrintable (e : Edition) (p : Param) : Bool :=
  e.isNameLiteral p.name && e.isTypeName p.type

def hasNoQuote (s : String) : Bool := !s.toList.contains '"'

/-- Expressions of an edition that have a text. A number has one if reading can give it. -/
def Expr.isPrintable (e : Edition) : Expr → Bool
  | .missing | .openCall _ | .ifThen .. | .ifElse .. => false
  | .int n => n < 10 ^ maxDigits
  | .float x => x.bits ≤ Number.Format.double.infinityBits
  | .ident s => e.has .functions && e.isName s
  | .bool _ => e.has .conditions
  | .str s => e.has .strings && hasNoQuote s
  | .infixed l op r => e.has op.feature && l.isPrintable e && r.isPrintable e
  | .prefixed _ r => e.has .compoundAssignment && r.isPrintable e
  | .stepped l _ => e.has .stepping && l.isPrintable e
  | .call f args =>
    e.has .calls && f.isPrintable e && arePrintable args && (args.isEmpty || e.has .parameters)
where
  arePrintable : List Expr → Bool
    | [] => true
    | x :: xs => x.isPrintable e && arePrintable xs

def Stmt.isLet : Stmt → Bool
  | .letVar .. => true
  | _ => false

/-- The step of a loop: an assignment in the first editions with loops, an expression later. -/
def Stmt.isStep (e : Edition) : Stmt → Bool
  | .assign target op x =>
    !e.has .stepping && e.isNameLiteral target && e.isAssignment op && x.isPrintable e
  | .bare x => e.has .stepping && x.isPrintable e
  | _ => false

mutual

def Stmt.isPrintable (e : Edition) : Stmt → Bool
  | .missing | .bare _ => false
  | .expr (.ifThen c body) => e.has .conditions && c.isPrintable e && arePrintable e body
  | .expr (.ifElse c body alternative) =>
    e.has .conditions && c.isPrintable e && arePrintable e body && arePrintable e alternative
  | .expr x => x.isPrintable e
  | .letVar name x type =>
    e.has .declarations && e.isName name && x.isPrintable e &&
      (isWordText type && Kind.ofWord e type = .typeWord)
  | .ret x => e.has .functions && x.isPrintable e
  | .fn _ none _ _ => false
  | .fn name (some params) returnType body =>
    e.has .functions && e.isName name && params.all (Param.isPrintable e) &&
      (params.isEmpty || e.has .parameters) && e.isTypeName returnType && arePrintable e body
  | .assign target op x =>
    e.has .reassignment && e.isNameLiteral target && e.isAssignment op && x.isPrintable e
  | .whileLoop c body => e.has .whileLoops && c.isPrintable e && arePrintable e body
  | .breakLoop | .continueLoop => e.has .forLoops
  | .forLoop init c next body =>
    e.has .forLoops && (init.isLet && init.isPrintable e) && c.isPrintable e &&
      next.isStep e && arePrintable e body
  | .importPallet path => e.has .pallets && hasNoQuote path

def arePrintable (e : Edition) : List Stmt → Bool
  | [] => true
  | s :: ss => s.isPrintable e && arePrintable e ss

end

theorem Stmt.isPrintable_expr {e : Edition} {x : Expr} (hc : x.isConditional = false) :
    (Stmt.expr x).isPrintable e = x.isPrintable e := by
  cases x <;> simp_all [Expr.isConditional, Stmt.isPrintable]

theorem Stmt.lexemes_expr {e : Edition} {x : Expr} (hc : x.isConditional = false) :
    (Stmt.expr x).lexemes e = grouped (x.lexemes e) ++ [.semicolon] := by
  simp [Stmt.lexemes, hc]

/-- What a property of statements and a property of lists of statements need to hold of all that
have a text. -/
structure PrintableCases (e : Edition) (P : Stmt → Prop) (Q : List Stmt → Prop) : Prop where
  expr : ∀ x, x.isConditional = false → x.isPrintable e = true → P (.expr x)
  ifThen : ∀ c body, e.has .conditions = true → c.isPrintable e = true → Q body →
    P (.expr (.ifThen c body))
  ifElse : ∀ c body alternative, e.has .conditions = true → c.isPrintable e = true → Q body →
    Q alternative → P (.expr (.ifElse c body alternative))
  letVar : ∀ name x type, (Stmt.letVar name x type).isPrintable e = true → P (.letVar name x type)
  ret : ∀ x, e.has .functions = true → x.isPrintable e = true → P (.ret x)
  fn : ∀ name params returnType body, e.has .functions = true → e.isName name = true →
    params.all (Param.isPrintable e) = true → params.isEmpty = true ∨ e.has .parameters = true →
    e.isTypeName returnType = true → Q body → P (.fn name (some params) returnType body)
  assign : ∀ target op x, e.has .reassignment = true → e.isNameLiteral target = true →
    e.isAssignment op = true → x.isPrintable e = true → P (.assign target op x)
  whileLoop : ∀ c body, e.has .whileLoops = true → c.isPrintable e = true → Q body →
    P (.whileLoop c body)
  breakLoop : e.has .forLoops = true → P .breakLoop
  continueLoop : e.has .forLoops = true → P .continueLoop
  forLoop : ∀ name x type c next body, e.has .forLoops = true →
    (Stmt.letVar name x type).isPrintable e = true → c.isPrintable e = true → next.isStep e = true →
    Q body → P (.forLoop (.letVar name x type) c next body)
  importPallet : ∀ path, e.has .pallets = true → hasNoQuote path = true → P (.importPallet path)
  nil : Q []
  cons : ∀ s ss, s.isPrintable e = true → P s → Q ss → Q (s :: ss)

mutual

theorem PrintableCases.stmt {e : Edition} {P : Stmt → Prop} {Q : List Stmt → Prop}
    (hcases : PrintableCases e P Q) : ∀ s : Stmt, s.isPrintable e = true → P s
  | .missing | .bare _ | .fn _ none _ _ => by simp [Stmt.isPrintable]
  | .expr (.ifThen c body) => by
    intro h
    simp only [Stmt.isPrintable, Bool.and_eq_true] at h
    exact hcases.ifThen c body h.1.1 h.1.2 (hcases.stmts body h.2)
  | .expr (.ifElse c body alternative) => by
    intro h
    simp only [Stmt.isPrintable, Bool.and_eq_true] at h
    exact hcases.ifElse c body alternative h.1.1.1 h.1.1.2 (hcases.stmts body h.1.2)
      (hcases.stmts alternative h.2)
  | .expr .missing | .expr (.int _) | .expr (.float _) | .expr (.ident _) | .expr (.bool _)
  | .expr (.str _) | .expr (.infixed ..) | .expr (.prefixed ..) | .expr (.stepped ..)
  | .expr (.call ..) | .expr (.openCall _) => by
    intro h
    rw [Stmt.isPrintable_expr rfl] at h
    exact hcases.expr _ rfl h
  | .letVar name x type => hcases.letVar name x type
  | .ret x => by
    intro h
    simp only [Stmt.isPrintable, Bool.and_eq_true] at h
    exact hcases.ret x h.1 h.2
  | .fn name (some params) returnType body => by
    intro h
    simp only [Stmt.isPrintable, Bool.and_eq_true, Bool.or_eq_true] at h
    obtain ⟨⟨⟨⟨⟨hf, hn⟩, hps⟩, hp⟩, ht⟩, hb⟩ := h
    exact hcases.fn name params returnType body hf hn hps hp ht (hcases.stmts body hb)
  | .assign target op x => by
    intro h
    simp only [Stmt.isPrintable, Bool.and_eq_true] at h
    exact hcases.assign target op x h.1.1.1 h.1.1.2 h.1.2 h.2
  | .whileLoop c body => by
    intro h
    simp only [Stmt.isPrintable, Bool.and_eq_true] at h
    exact hcases.whileLoop c body h.1.1 h.1.2 (hcases.stmts body h.2)
  | .breakLoop => fun h => hcases.breakLoop (by simpa [Stmt.isPrintable] using h)
  | .continueLoop => fun h => hcases.continueLoop (by simpa [Stmt.isPrintable] using h)
  | .forLoop init c next body => by
    intro h
    simp only [Stmt.isPrintable, Bool.and_eq_true] at h
    obtain ⟨⟨⟨⟨hf, hi, hp⟩, hc⟩, hs⟩, hb⟩ := h
    obtain ⟨name, x, type, rfl⟩ : ∃ name x type, init = .letVar name x type := by
      cases init <;> simp [Stmt.isLet] at hi ⊢
    exact hcases.forLoop name x type c next body hf hp hc hs (hcases.stmts body hb)
  | .importPallet path => by
    intro h
    simp only [Stmt.isPrintable, Bool.and_eq_true] at h
    exact hcases.importPallet path h.1 h.2

theorem PrintableCases.stmts {e : Edition} {P : Stmt → Prop} {Q : List Stmt → Prop}
    (hcases : PrintableCases e P Q) : ∀ ss : List Stmt, arePrintable e ss = true → Q ss
  | [] => fun _ => hcases.nil
  | s :: ss => by
    intro h
    simp only [arePrintable, Bool.and_eq_true] at h
    exact hcases.cons s ss h.1 (hcases.stmt s h.1) (hcases.stmts ss h.2)

end

end LimeLang
