import LimeLang.Proofs.ExpressionGrammar
import LimeLang.Proofs.Spelling

/-! The ways of writing a program: parentheses may stand around every expression and are needed only
where operators would bind otherwise, and a semicolon behind an expression may be left out. Where a
text departs from this, the places are listed. -/

namespace LimeLang

variable {l : Lexeme} {e : Edition}

/-- A place where a text departs from the grammar. -/
inductive Slip
  /-- Lexemes that stand for no part of the program. -/
  | skipped (ls : List Lexeme)
  /-- A lexeme in the place of one of another kind. -/
  | instead (wanted : Kind) (found : Lexeme)
  /-- The text ends before a lexeme of this kind. -/
  | missing (wanted : Kind)

namespace Slip

def skip (ls : List Lexeme) : List Slip := if ls.isEmpty then [] else [.skipped ls]

def check (wanted : Kind) (l : Lexeme) :
    List Slip := if l.kind = wanted then [] else [.instead wanted l]

/-- The last lexeme of a statement, which may be missing where the text ends. -/
def checkEnd (wanted : Kind) : Option Lexeme → List Slip
  | none => [.missing wanted]
  | some l => check wanted l

/-- Types are names, most of them reserved. -/
def checkType (l : Lexeme) : List Slip := if l.kind = .ident then [] else check .typeWord l

def checkAssign (e : Edition) (l : Lexeme) : List Slip :=
  if e.has .compoundAssignment && l.kind.isAssignment e then [] else check .eq l

/-- A statement at the end of a text needs no semicolon. -/
def isHarmless : Slip → Bool
  | missing .semicolon => true
  | _ => false

end Slip

/-- Forms that cannot be taken apart by an operator next to them. -/
def closedLevel : Nat := 9

/-- Parts of a program that have texts. -/
inductive Part
  /-- An expression, and how strongly its outermost operator binds. -/
  | expr (x : Expr) (level : Nat)
  | args (xs : List Expr)
  | block (ss : List Stmt)
  | stmts (ss : List Stmt)
  | stmt (s : Stmt)
  /-- A statement without its last lexeme, as the step of a loop. -/
  | step (s : Stmt)

inductive ParamsWrittenAs : List Param → List Lexeme → List Slip → Prop
  | none : ParamsWrittenAs [] [] []
  | first {n c t : Lexeme} (hc : c.kind = .colon) :
      ParamsWrittenAs [⟨n.literal, t.literal⟩] [n, c, t] (Slip.check .ident n ++ Slip.checkType t)
  | more {ps : List Param} {ls : List Lexeme} {σ : List Slip} {m n c t : Lexeme}
      (h : ParamsWrittenAs ps ls σ) (hps : ps ≠ []) (hm : m.kind = .comma) (hc : c.kind = .colon) :
      ParamsWrittenAs (ps ++ [⟨n.literal, t.literal⟩]) (ls ++ [m, n, c, t])
        (σ ++ (Slip.check .ident n ++ Slip.checkType t))

/-- The texts of the parts of a program, with the places where they depart from the grammar. -/
inductive WrittenAs (e : Edition) : Part → List Lexeme → List Slip → Prop
  | int (n : Nat) : WrittenAs e (.expr (.int n) closedLevel) [⟨.int, .int n⟩] []
  | float (x : Number.Double) : WrittenAs e (.expr (.float x) closedLevel) [⟨.float, .float x⟩] []
  | ident (s : String) : WrittenAs e (.expr (.ident s) closedLevel) [⟨.ident, .text s⟩] []
  | str (s : String) : WrittenAs e (.expr (.str s) closedLevel) [⟨.string, .text s⟩] []
  | trueWord {l : Lexeme} (hl : l.kind = .trueWord) :
      WrittenAs e (.expr (.bool true) closedLevel) [l] []
  | falseWord {l : Lexeme} (hl : l.kind = .falseWord) :
      WrittenAs e (.expr (.bool false) closedLevel) [l] []
  | group {x : Expr} {n : Nat} {l r : Lexeme} {ls : List Lexeme} {σ : List Slip}
      (hl : l.kind = .lparen) (hx : WrittenAs e (.expr x n) ls σ) (hr : r.kind = .rparen) :
      WrittenAs e (.expr x closedLevel) (l :: (ls ++ [r])) σ
  | infixed {x y : Expr} {op : InfixOp} {m n : Nat} {o : Lexeme} {ls ms : List Lexeme}
      {σ τ : List Slip}
      (hx : WrittenAs e (.expr x m) ls σ) (hm : op.level ≤ m) (ho : o.kind = op.kind)
      (hy : WrittenAs e (.expr y n) ms τ) (hn : op.level < n) :
      WrittenAs e (.expr (.infixed x op y) op.level) (ls ++ o :: ms) (σ ++ τ)
  | prefixed {x : Expr} {op : PrefixOp} {n : Nat} {o : Lexeme} {ls : List Lexeme} {σ : List Slip}
      (ho : o.kind = op.kind) (hx : WrittenAs e (.expr x n) ls σ) (hn : prefixLevel ≤ n) :
      WrittenAs e (.expr (.prefixed op x) prefixLevel) (o :: ls) σ
  | stepped {x : Expr} {op : StepOp} {n : Nat} {o : Lexeme} {ls : List Lexeme} {σ : List Slip}
      (hx : WrittenAs e (.expr x n) ls σ) (hn : stepLevel ≤ n) (ho : o.kind = op.kind) :
      WrittenAs e (.expr (.stepped x op) closedLevel) (ls ++ [o]) σ
  | call {f : Expr} {xs : List Expr} {n : Nat} {l r : Lexeme} {ls ms : List Lexeme}
      {σ τ : List Slip}
      (hf : WrittenAs e (.expr f n) ls σ) (hn : callLevel ≤ n) (hl : l.kind = .lparen)
      (hxs : WrittenAs e (.args xs) ms τ) (hr : r.kind = .rparen) :
      WrittenAs e (.expr (.call f xs) closedLevel) (ls ++ l :: (ms ++ [r])) (σ ++ τ)
  | ifThen {c : Expr} {body : List Stmt} {n : Nat} {k : Lexeme} {ls ms : List Lexeme}
      {σ τ : List Slip}
      (hk : k.kind = .ifWord) (hc : WrittenAs e (.expr c n) ls σ)
        (hbody : WrittenAs e (.block body) ms τ) :
      WrittenAs e (.expr (.ifThen c body) closedLevel) (k :: (ls ++ ms)) (σ ++ τ)
  | ifElse {c : Expr} {body alternative : List Stmt} {n : Nat} {k k' : Lexeme}
      {ls ms ns : List Lexeme}
      {σ τ υ : List Slip} (hk : k.kind = .ifWord) (hc : WrittenAs e (.expr c n) ls σ)
      (hbody : WrittenAs e (.block body) ms τ) (hk' : k'.kind = .elseWord)
      (halternative : WrittenAs e (.block alternative) ns υ) :
      WrittenAs e (.expr (.ifElse c body alternative) closedLevel) (k :: (ls ++ (ms ++ k' :: ns)))
        (σ ++ (τ ++ υ))
  | noArgs : WrittenAs e (.args []) [] []
  | firstArg {x : Expr} {n : Nat} {ls : List Lexeme} {σ : List Slip}
      (hx : WrittenAs e (.expr x n) ls σ) : WrittenAs e (.args [x]) ls σ
  | moreArgs {x : Expr} {xs : List Expr} {n : Nat} {m : Lexeme} {ls ms : List Lexeme}
      {σ τ : List Slip} (hxs : WrittenAs e (.args xs) ls σ) (hne : xs ≠ []) (hm : m.kind = .comma)
      (hx : WrittenAs e (.expr x n) ms τ) :
      WrittenAs e (.args (xs ++ [x])) (ls ++ m :: ms) (σ ++ τ)
  | block {ss : List Stmt} {l r : Lexeme} {ls : List Lexeme} {σ : List Slip} (hl : l.kind = .lbrace)
      (hss : WrittenAs e (.stmts ss) ls σ) (hr : r.kind = .rbrace) :
      WrittenAs e (.block ss) (l :: (ls ++ [r])) σ
  | openBlock {ss : List Stmt} {l : Lexeme} {ls : List Lexeme} {σ : List Slip}
      (hl : l.kind = .lbrace)
      (hss : WrittenAs e (.stmts ss) ls σ) :
        WrittenAs e (.block ss) (l :: ls) (σ ++ [.missing .rbrace])
  | nil : WrittenAs e (.stmts []) [] []
  | cons {s : Stmt} {ss : List Stmt} {ls ms : List Lexeme} {σ τ : List Slip}
      (hs : WrittenAs e (.stmt s) ls σ)
      (hss : WrittenAs e (.stmts ss) ms τ) : WrittenAs e (.stmts (s :: ss)) (ls ++ ms) (σ ++ τ)
  | expr {x : Expr} {n : Nat} {ls : List Lexeme} {σ : List Slip}
      (hx : WrittenAs e (.expr x n) ls σ) : WrittenAs e (.stmt (.expr x)) ls σ
  | closedExpr {x : Expr} {n : Nat} {r : Lexeme} {ls : List Lexeme} {σ : List Slip}
      (hx : WrittenAs e (.expr x n) ls σ) (hr : r.kind = .semicolon) :
      WrittenAs e (.stmt (.expr x)) (ls ++ [r]) σ
  | letVar {x : Expr} {n : Nat} {k name c type q : Lexeme} {ls ms : List Lexeme} {r : Option Lexeme}
      {σ : List Slip} (hk : k.kind = .letWord) (hname : name.kind = .ident) (hc : c.kind = .colon)
      (htype : type.kind = .typeWord) (hq : q.kind = .eq) (hx : WrittenAs e (.expr x n) ls σ)
      (hms : ∀ l ∈ ms, l.kind ≠ .semicolon) (hr : ∀ l ∈ r, l.kind = .semicolon) :
      WrittenAs e (.stmt (.letVar name.literal.display x type.literal.display))
        (k :: name :: c :: type :: q :: (ls ++ (ms ++ r.toList)))
        (σ ++ (Slip.skip ms ++ Slip.checkEnd .semicolon r))
  | ret {x : Expr} {n : Nat} {k r : Lexeme} {ls : List Lexeme} {σ : List Slip}
      (hk : k.kind = .returnWord) (hx : WrittenAs e (.expr x n) ls σ) (hr : r.kind = .semicolon) :
      WrittenAs e (.stmt (.ret x)) (k :: (ls ++ [r])) σ
  | fn {ps : List Param} {body : List Stmt} {k name l r a type : Lexeme} {ls ms : List Lexeme}
      {σ τ : List Slip} (hk : k.kind = .fnWord) (hname : name.kind = .ident) (hl : l.kind = .lparen)
      (hps : ParamsWrittenAs ps ls σ) (hr : r.kind = .rparen) (ha : a.kind = .arrow)
      (hbody : WrittenAs e (.block body) ms τ) :
      WrittenAs e (.stmt (.fn name.literal.display (some ps) type.literal body))
        (k :: name :: l :: (ls ++ r :: a :: type :: ms)) (σ ++ (Slip.checkType type ++ τ))
  | assign {target op : Literal} {x : Expr} {r : Option Lexeme} {ls : List Lexeme} {σ : List Slip}
      (h : WrittenAs e (.step (.assign target op x)) ls σ) :
      WrittenAs e (.stmt (.assign target op x)) (ls ++ r.toList) (σ ++ Slip.checkEnd .semicolon r)
  | whileLoop {c : Expr} {body : List Stmt} {n : Nat} {k : Lexeme} {ls ms : List Lexeme}
      {σ τ : List Slip} (hk : k.kind = .whileWord) (hc : WrittenAs e (.expr c n) ls σ)
      (hbody : WrittenAs e (.block body) ms τ) :
      WrittenAs e (.stmt (.whileLoop c body)) (k :: (ls ++ ms)) (σ ++ τ)
  | breakLoop {k : Lexeme} {r : Option Lexeme} (hk : k.kind = .breakWord) :
      WrittenAs e (.stmt .breakLoop) (k :: r.toList) (Slip.checkEnd .semicolon r)
  | continueLoop {k : Lexeme} {r : Option Lexeme} (hk : k.kind = .continueWord) :
      WrittenAs e (.stmt .continueLoop) (k :: r.toList) (Slip.checkEnd .semicolon r)
  | forLoop {init next : Stmt} {c : Expr} {body : List Stmt} {n : Nat} {k l m r : Lexeme}
      {is ls ms ns : List Lexeme} {σ τ υ φ : List Slip} (hk : k.kind = .forWord)
      (hl : l.kind = .lparen)
      (hinit : WrittenAs e (.stmt init) is σ) (hlet : init.isLet = true)
        (hc : WrittenAs e (.expr c n) ls τ)
      (hm : m.kind = .semicolon) (hnext : WrittenAs e (.step next) ms υ)
      (hbody : WrittenAs e (.block body) ns φ) :
      WrittenAs e (.stmt (.forLoop init c next body))
        (k :: l :: (is ++ (ls ++ m :: (ms ++ r :: ns))))
        (σ ++ (τ ++ (υ ++ (Slip.check .rparen r ++ φ))))
  | importPallet {k path r : Lexeme} (hk : k.kind = .importWord) (hpath : path.kind = .string)
      (hr : r.kind = .semicolon) : WrittenAs e (.stmt (.importPallet path.literal.display))
      [k, path, r] []
  | exprStep {x : Expr} {n : Nat} {ls : List Lexeme} {σ : List Slip}
      (hx : WrittenAs e (.expr x n) ls σ) : WrittenAs e (.step (.bare x)) ls σ
  | assignStep {x : Expr} {n : Nat} {target op : Lexeme} {ls : List Lexeme} {σ : List Slip}
      (hx : WrittenAs e (.expr x n) ls σ) :
      WrittenAs e (.step (.assign target.literal
          (if e.has .compoundAssignment then op.literal else plainAssign) x))
        (target :: op :: ls) (Slip.check .ident target ++ (Slip.checkAssign e op ++ σ))

/-- The operator of an assignment, which may be a second spelling of the plain one. -/
def Lexeme.assignOp (e : Edition) (op : Literal) : Lexeme :=
  if assignKind op = .illegal then .type e op else ⟨assignKind op, op⟩

mutual

def Expr.content (e : Edition) : Expr → List Lexeme
  | .missing | .openCall _ => []
  | .int n => [⟨.int, .int n⟩]
  | .float x => [⟨.float, .float x⟩]
  | .ident s => [.name s]
  | .bool true => [⟨.trueWord, .text "true"⟩]
  | .bool false => [⟨.falseWord, .text "false"⟩]
  | .str s => [⟨.string, .text s⟩]
  | .infixed x op y => x.content e ++ .infixOp op :: y.content e
  | .prefixed op x => .prefixOp op :: x.content e
  | .stepped x op => x.content e ++ [.step op]
  | .call f xs => f.content e ++ separated (argumentContents e xs)
  | .ifThen c body => ⟨.ifWord, .text "if"⟩ :: (c.content e ++ braced (contents e body))
  | .ifElse c body alternative => ⟨.ifWord, .text "if"⟩ ::
      (c.content e ++ (braced (contents e body) ++ ⟨.elseWord, .text "else"⟩ ::
        braced (contents e alternative)))

def argumentContents (e : Edition) : List Expr → List (List Lexeme)
  | [] => []
  | x :: xs => x.content e :: argumentContents e xs

def Stmt.content (e : Edition) : Stmt → List Lexeme
  | .missing => []
  | .expr x | .bare x => x.content e
  | .letVar name x type => ⟨.letWord, .text "let"⟩ :: .name name :: .colon ::
      ⟨.typeWord, .text type⟩ :: .equals :: x.content e
  | .ret x => ⟨.returnWord, .text "return"⟩ :: x.content e
  | .fn name params returnType body => ⟨.fnWord, .text "fn"⟩ :: .name name ::
      (separated ((params.getD []).map (Param.lexemes e)) ++
        .arrow :: .type e returnType :: braced (contents e body))
  | .assign target op x => ⟨.ident, target⟩ :: .assignOp e op :: x.content e
  | .whileLoop c body => ⟨.whileWord, .text "while"⟩ :: (c.content e ++ braced (contents e body))
  | .breakLoop => [⟨.breakWord, .text "break"⟩]
  | .continueLoop => [⟨.continueWord, .text "continue"⟩]
  | .forLoop init c next body => ⟨.forWord, .text "for"⟩ ::
      (init.content e ++ (c.content e ++ (next.content e ++ braced (contents e body))))
  | .importPallet path => [⟨.importWord, .text "import"⟩, ⟨.string, .text path⟩]

def contents (e : Edition) : List Stmt → List Lexeme
  | [] => []
  | s :: ss => s.content e ++ contents e ss

end

def Part.content (e : Edition) : Part → List Lexeme
  | .expr x _ => x.content e
  | .args xs => separated (argumentContents e xs)
  | .block ss => braced (contents e ss)
  | .stmts ss => contents e ss
  | .stmt s | .step s => s.content e

namespace Lexeme

/-- The same lexeme, or a second spelling of it. -/
def Alike (l m : Lexeme) : Prop :=
  l = m ∨ l.kind = m.kind ∧ ∃ s ∈ slang, s.kind = l.kind ∧ l.literal = .text s.text

/-- The lexemes that a source can have. -/
inductive Scanned (e : Edition) : Lexeme → Prop
  | int (n : Nat) : Scanned e ⟨.int, .int n⟩
  | float (x : Number.Double) : Scanned e ⟨.float, .float x⟩
  | word (w : String) : Scanned e ⟨.ofWord e w, .text w⟩
  | string (s : String) : Scanned e ⟨.string, .text s⟩
  | operator {s : Spelling} (hs : s ∈ operators) : Scanned e ⟨s.kind, .text s.text⟩
  | illegal (s : String) : Scanned e ⟨.illegal, .text s⟩

end Lexeme

theorem fixed_kinds : ∀ s ∈ operators ++ keywords,
    s.kind ∉ [Kind.int, .float, .string, .illegal, .ident, .typeWord] := by decide

theorem fixed_texts : ∀ s ∈ operators ++ keywords, ∀ t ∈ operators ++ keywords, s.kind = t.kind →
    s.text = t.text := by decide +kernel

theorem Kind.ofWord_cases (e : Edition) (w : String) : Kind.ofWord e w = .ident ∨
    ∃ s ∈ keywords ++ slang ++ typeWords, s.kind = Kind.ofWord e w ∧ s.text = w := by
  rw [Kind.ofWord]
  split
  · rename_i s hs
    have htext := List.find?_some hs
    simp only [Bool.and_eq_true, beq_iff_eq] at htext
    exact .inr ⟨s, List.mem_of_find?_eq_some hs, rfl, htext.2⟩
  · exact .inl rfl

namespace Lexeme.Scanned

variable {e : Edition} {l : Lexeme}

/-- The kind of a lexeme that does not carry a name or a value fixes its text, up to slang. -/
theorem alike (h : l.Scanned e) {s : Spelling} (hs : s ∈ operators ++ keywords)
    (hk : l.kind = s.kind) : l.Alike ⟨s.kind, .text s.text⟩ := by
  have hother := fixed_kinds s hs
  rw [← hk] at hother
  cases h with
  | int | float | string | illegal => simp at hother
  | @operator t ht =>
    have htext := fixed_texts t (List.mem_append_left _ ht) s hs hk
    exact .inl (by rw [← hk, htext])
  | word w =>
    rcases Kind.ofWord_cases e w with hw | ⟨t, ht, hkind, rfl⟩
    · simp [hw] at hother
    · rcases List.mem_append.mp ht with ht | ht
      · rcases List.mem_append.mp ht with ht | ht
        · have htext := fixed_texts t (List.mem_append_right _ ht) s hs (hkind.trans hk)
          exact .inl (by rw [← hk, htext])
        · exact .inr ⟨hk, t, ht, hkind, rfl⟩
      · have htype : ∀ t ∈ typeWords, t.kind = .typeWord := by decide
        rw [← hkind, htype t ht] at hother
        simp at hother

theorem operators_not_words : ∀ s ∈ operators, s.kind ≠ .ident ∧ s.kind ≠ .typeWord ∧
    s.kind ≠ .string := by
  decide

/-- A name in the place of a type is written as it is. -/
theorem type_eq (h : l.Scanned e) (hk : l.kind = .ident ∨ l.kind = .typeWord) :
    l = .type e l.literal := by
  cases h with
  | word w => rfl
  | int | float | string | illegal => simp at hk
  | operator hs =>
    obtain ⟨hident, htype, -⟩ := operators_not_words _ hs
    exact absurd hk (by simp [hident, htype])

theorem literal_eq (h : l.Scanned e) (hk : l.kind ∈ [Kind.ident, .typeWord, .string]) :
    l.literal = .text l.literal.display := by
  cases h with
  | int | float => simp at hk
  | word | string | illegal | operator => rfl

theorem eq_mk (h : l.Scanned e) {k : Kind} (hk : l.kind = k)
    (hmem : k ∈ [Kind.ident, .typeWord, .string]) : l = ⟨k, .text l.literal.display⟩ := by
  rw [← h.literal_eq (hk ▸ hmem), ← hk]

end Lexeme.Scanned

def Kind.isBracket : Kind → Bool
  | lparen | rparen | lbrace | rbrace => true
  | _ => false

inductive Balanced : List Lexeme → Prop
  | nil : Balanced []
  | plain {l : Lexeme} {ls : List Lexeme} (hl : l.kind.isBracket = false) (h : Balanced ls) :
      Balanced (l :: ls)
  | group {l r : Lexeme} {ls ms : List Lexeme} (hl : l.kind = .lparen) (h : Balanced ls)
      (hr : r.kind = .rparen) (h' : Balanced ms) : Balanced (l :: (ls ++ r :: ms))
  | block {l r : Lexeme} {ls ms : List Lexeme} (hl : l.kind = .lbrace) (h : Balanced ls)
      (hr : r.kind = .rbrace) (h' : Balanced ms) : Balanced (l :: (ls ++ r :: ms))

theorem Balanced.append {ls ms : List Lexeme} (h : Balanced ls) (hms : Balanced ms) :
    Balanced (ls ++ ms) := by
  induction h with
  | nil => exact hms
  | plain hl _ ih => exact .plain hl ih
  | group hl h hr _ _ ih =>
    rw [List.cons_append, List.append_assoc, List.cons_append]
    exact .group hl h hr ih
  | block hl h hr _ _ ih =>
    rw [List.cons_append, List.append_assoc, List.cons_append]
    exact .block hl h hr ih

/-- The lexemes are balanced and, up to marks and second spellings, those of the second list. -/
structure Spells (ls ms : List Lexeme) : Prop where
  balanced : Balanced ls
  alike : List.Forall₂ Lexeme.Alike (withoutMarks ls) ms

namespace Spells

variable {l r m : Lexeme} {ls ls' ms ms' : List Lexeme}

theorem nil : Spells [] [] := ⟨.nil, .nil⟩

theorem append (h : Spells ls ms) (h' : Spells ls' ms') : Spells (ls ++ ls') (ms ++ ms') := by
  refine ⟨h.balanced.append h'.balanced, ?_⟩
  rw [withoutMarks_append]
  exact List.rel_append h.alike h'.alike

theorem marks (h : Spells ls ms) (h' : Spells ls' []) : Spells (ls ++ ls') ms := by
  rw [← List.append_nil ms]
  exact h.append h'

theorem group (hl : l.kind = .lparen) (h : Spells ls ms) (hr : r.kind = .rparen) :
    Spells (l :: (ls ++ [r])) ms := by
  refine ⟨.group hl h.balanced hr .nil, ?_⟩
  have hmarks : withoutMarks (l :: (ls ++ [r])) = withoutMarks ls := by simp [withoutMarks, hl, hr]
  rw [hmarks]
  exact h.alike

theorem semicolon (hl : l.kind = .semicolon) : Spells [l] [] :=
  ⟨.plain (by rw [hl]; rfl) .nil, by simp [withoutMarks, hl]⟩

theorem block (hl : l.kind = .lbrace) (h : Spells ls ms) (hr : r.kind = .rbrace)
    (hlm : l.Alike .lbrace) (hrm : r.Alike .rbrace) : Spells (l :: (ls ++ [r])) (braced ms) := by
  refine ⟨.block hl h.balanced hr .nil, ?_⟩
  have hmarks : withoutMarks (l :: (ls ++ [r])) = l :: (withoutMarks ls ++ [r]) := by
    simp [withoutMarks, hl, hr]
  rw [hmarks]
  exact .cons hlm (List.rel_append h.alike (.cons hrm .nil))

theorem plain (hk : l.kind ∉ [Kind.lparen, .rparen, .semicolon, .lbrace, .rbrace]) (h : l.Alike m)
    (hls : Spells ls ms) : Spells (l :: ls) (m :: ms) := by
  simp only [List.mem_cons, List.not_mem_nil, or_false, not_or] at hk
  obtain ⟨h₁, h₂, h₃, h₄, h₅⟩ := hk
  refine ⟨.plain ?_ hls.balanced, ?_⟩
  · cases hkind : l.kind <;> simp_all [Kind.isBracket]
  · have hmarks : withoutMarks (l :: ls) = l :: withoutMarks ls := by
      simp [withoutMarks, h₁, h₂, h₃]
    rw [hmarks]
    exact .cons h hls.alike

end Spells

/-- The spelling of the lexemes of a kind that carry neither a name nor a value. -/
def Kind.fixedText? (k : Kind) : Option String :=
  ((operators ++ keywords).find? fun s => s.kind = k).map Spelling.text

theorem Lexeme.Scanned.fixed (h : l.Scanned e) {k : Kind} {text : String} (hk : l.kind = k)
    (ht : k.fixedText? = some text) : l.Alike ⟨k, .text text⟩ := by
  obtain ⟨s, hs, rfl⟩ := Option.map_eq_some_iff.mp ht
  have hkind : s.kind = k := by simpa using List.find?_some hs
  subst hkind
  exact h.alike (List.mem_of_find?_eq_some hs) hk

theorem Spells.fixed {ls ms : List Lexeme} {k : Kind} {text : String} (hl : l.Scanned e)
    (hk : l.kind = k) (ht : k.fixedText? = some text)
    (hplain : k ∉ [Kind.lparen, .rparen, .semicolon, .lbrace, .rbrace]) (h : Spells ls ms) :
    Spells (l :: ls) (⟨k, .text text⟩ :: ms) :=
  .plain (hk ▸ hplain) (hl.fixed hk ht) h

/-- The departures from the grammar are at most semicolons that are missing at the end. -/
def Slip.Harmless (σ : List Slip) : Prop := ∀ x ∈ σ, x.isHarmless = true

namespace Slip.Harmless

variable {σ τ : List Slip} {l : Lexeme} {k : Kind}

theorem append_iff : Harmless (σ ++ τ) ↔ Harmless σ ∧ Harmless τ := List.forall_mem_append

theorem check (h : Harmless (Slip.check k l)) : l.kind = k := by
  by_contra hk
  rw [Slip.check, if_neg hk] at h
  exact absurd (h _ List.mem_cons_self) (by simp [isHarmless])

theorem checkType (h : Harmless (Slip.checkType l)) : l.kind = .ident ∨ l.kind = .typeWord := by
  by_cases hk : l.kind = .ident
  · exact .inl hk
  · rw [Slip.checkType, if_neg hk] at h
    exact .inr h.check

theorem skip {ls : List Lexeme} (h : Harmless (Slip.skip ls)) : ls = [] := by
  cases ls with
  | nil => rfl
  | cons l ls => exact absurd (h (.skipped (l :: ls)) (by simp [Slip.skip])) (by simp [isHarmless])

end Slip.Harmless

theorem InfixOp.fixedText (op : InfixOp) : op.kind.fixedText? = some op.text := by
  cases op <;> decide

theorem PrefixOp.fixedText (op : PrefixOp) : op.kind.fixedText? = some op.text := by
  cases op <;> decide

theorem StepOp.fixedText (op : StepOp) : op.kind.fixedText? = some op.text := by
  cases op <;> decide

theorem separated_snoc {lss : List (List Lexeme)} (h : lss ≠ []) (ms : List Lexeme) :
    separated (lss ++ [ms]) = separated lss ++ .comma :: ms := by
  cases lss with
  | nil => exact absurd rfl h
  | cons ls lss => simp [separated]

theorem argumentContents_append (e : Edition) (xs ys : List Expr) :
    argumentContents e (xs ++ ys) = argumentContents e xs ++ argumentContents e ys := by
  induction xs with
  | nil => rfl
  | cons x xs ih => simp [argumentContents, ih]

section Harmless

variable {e : Edition} {ls : List Lexeme} {σ : List Slip}

theorem Spells.ending {r : Option Lexeme} (h : Slip.Harmless (Slip.checkEnd .semicolon r)) :
    Spells r.toList [] := by
  cases r with
  | none => exact .nil
  | some l => exact .semicolon h.check

theorem ParamsWrittenAs.spells {ps : List Param} (h : ParamsWrittenAs ps ls σ)
    (hσ : Slip.Harmless σ)
    (hls : ∀ l ∈ ls, l.Scanned e) : Spells ls (separated (ps.map (Param.lexemes e))) := by
  have hparam : ∀ n c t : Lexeme, n.Scanned e → c.Scanned e → t.Scanned e → c.kind = .colon →
      Slip.Harmless (Slip.check .ident n ++ Slip.checkType t) →
      Spells [n, c, t] (Param.lexemes e ⟨n.literal, t.literal⟩) := by
    intro n c t hn hc ht hcolon hσ
    obtain ⟨hname, htype⟩ := Slip.Harmless.append_iff.mp hσ
    have htype := htype.checkType
    refine .plain (by rw [hname.check]; decide) (.inl (by rw [← hname.check])) ?_
    refine .fixed hc hcolon (by decide) (by decide) (.plain ?_ (.inl (ht.type_eq htype)) .nil)
    rcases htype with htype | htype <;> rw [htype] <;> decide
  induction h with
  | none => exact .nil
  | @first n c t hc =>
    simp only [List.forall_mem_cons] at hls
    exact hparam n c t hls.1 hls.2.1 hls.2.2.1 hc hσ
  | @more ps ls σ m n c t h hps hm hc ih =>
    obtain ⟨hls, hlast⟩ := List.forall_mem_append.mp hls
    obtain ⟨hσ, hlast'⟩ := Slip.Harmless.append_iff.mp hσ
    simp only [List.forall_mem_cons] at hlast
    rw [List.map_append, List.map_singleton, separated_snoc (by simpa using hps)]
    refine (ih hσ hls).append (.fixed hlast.1 hm (by decide) (by decide) ?_)
    exact hparam n c t hlast.2.1 hlast.2.2.1 hlast.2.2.2.1 hc hlast'

theorem Slip.Harmless.checkAssign {op : Lexeme} (h : Slip.Harmless (Slip.checkAssign e op)) :
    op.kind = .eq ∨ e.has .compoundAssignment = true ∧ op.kind.isAssignment e = true := by
  rw [Slip.checkAssign] at h
  split at h
  · exact .inr (by simp_all)
  · exact .inl h.check

theorem assignKinds : ∀ k : Kind, k = .eq ∨ k.isAssignment e = true →
    k ∈ [Kind.eq, .plusEq, .minusEq, .mulEq, .divEq] := by
  intro k hk
  cases k <;> simp [Kind.isAssignment] at hk ⊢

theorem assignKind_operators : ∀ s ∈ operators,
    s.kind ∈ [Kind.eq, .plusEq, .minusEq, .mulEq, .divEq] →
    assignKind (.text s.text) = s.kind := by decide

theorem assignKind_words : ∀ s ∈ keywords ++ slang ++ typeWords,
    s.kind ∈ [Kind.eq, .plusEq, .minusEq, .mulEq, .divEq] →
    assignKind (.text s.text) = .illegal := by decide

/-- The operator of an assignment is kept as it is written, except where there is only one. -/
theorem Lexeme.Scanned.assignOp {op : Lexeme} (h : op.Scanned e)
    (hσ : Slip.Harmless (Slip.checkAssign e op)) :
    op.kind ∉ [Kind.lparen, .rparen, .semicolon, .lbrace, .rbrace] ∧
      op.Alike (.assignOp e (if e.has .compoundAssignment then op.literal else plainAssign)) := by
  have hkind := assignKinds op.kind (hσ.checkAssign.imp_right And.right)
  refine ⟨fun hmem => ?_, ?_⟩
  · cases hk : op.kind <;> simp [hk] at hkind hmem
  by_cases hc : e.has .compoundAssignment = true
  · -- every operator is its own spelling, so the literal tells which one it was
    rw [if_pos hc]
    cases h with
    | int | float | string | illegal => simp at hkind
    | @operator s hs =>
      have hassign := assignKind_operators s hs hkind
      refine .inl ?_
      rw [Lexeme.assignOp, hassign, if_neg (by rintro h; simp [h] at hkind)]
    | word w =>
      rcases Kind.ofWord_cases e w with hw | ⟨s, hs, hword, rfl⟩
      · simp [hw] at hkind
      · have hassign := assignKind_words s hs (hword ▸ hkind)
        exact .inl (by rw [Lexeme.assignOp, if_pos hassign]; rfl)
  · rw [if_neg hc]
    have heq : op.kind = .eq := hσ.checkAssign.resolve_right fun h => hc h.1
    exact h.fixed heq (by decide)

/-- A text that does not depart from the grammar is balanced and, up to parentheses, semicolons and
second spellings, consists of just the lexemes of the program. -/
theorem WrittenAs.spells {part : Part} (h : WrittenAs e part ls σ) (hσ : Slip.Harmless σ)
    (hls : ∀ l ∈ ls, l.Scanned e) : Spells ls (part.content e) := by
  induction h with
  | int n => exact .plain (by simp) (.inl rfl) .nil
  | float x => exact .plain (by simp) (.inl rfl) .nil
  | ident s => exact .plain (by simp) (.inl rfl) .nil
  | str s => exact .plain (by simp) (.inl rfl) .nil
  | trueWord hl => exact .fixed (hls _ List.mem_cons_self) hl (by decide) (by decide) .nil
  | falseWord hl => exact .fixed (hls _ List.mem_cons_self) hl (by decide) (by decide) .nil
  | group hl _ hr ih =>
    obtain ⟨-, hls⟩ := List.forall_mem_cons.mp hls
    exact .group hl (ih hσ (List.forall_mem_append.mp hls).1) hr
  | @infixed x y op m n o ls ms σ τ _ _ ho _ _ ihx ihy =>
    obtain ⟨hls, hms⟩ := List.forall_mem_append.mp hls
    obtain ⟨ho', hms⟩ := List.forall_mem_cons.mp hms
    obtain ⟨hσ, hτ⟩ := Slip.Harmless.append_iff.mp hσ
    refine (ihx hσ hls).append (.fixed ho' ho op.fixedText ?_ (ihy hτ hms))
    cases op <;> decide
  | @prefixed x op n o ls σ ho _ _ ih =>
    obtain ⟨ho', hls⟩ := List.forall_mem_cons.mp hls
    refine .fixed ho' ho op.fixedText ?_ (ih hσ hls)
    cases op <;> decide
  | @stepped x op n o ls σ _ _ ho ih =>
    obtain ⟨hls, ho'⟩ := List.forall_mem_append.mp hls
    refine (ih hσ hls).append (.fixed (ho' o List.mem_cons_self) ho op.fixedText ?_ .nil)
    cases op <;> decide
  | call _ _ hl _ hr ihf ihxs =>
    obtain ⟨hls, hms⟩ := List.forall_mem_append.mp hls
    obtain ⟨-, hms⟩ := List.forall_mem_cons.mp hms
    obtain ⟨hσ, hτ⟩ := Slip.Harmless.append_iff.mp hσ
    exact (ihf hσ hls).append (.group hl (ihxs hτ (List.forall_mem_append.mp hms).1) hr)
  | ifThen hk _ _ ihc ihbody =>
    obtain ⟨hk', hls⟩ := List.forall_mem_cons.mp hls
    obtain ⟨hls, hms⟩ := List.forall_mem_append.mp hls
    obtain ⟨hσ, hτ⟩ := Slip.Harmless.append_iff.mp hσ
    exact .fixed hk' hk (by decide) (by decide) ((ihc hσ hls).append (ihbody hτ hms))
  | ifElse hk _ _ hk₁ _ ihc ihbody ihalternative =>
    obtain ⟨hk', hls⟩ := List.forall_mem_cons.mp hls
    obtain ⟨hls, hms⟩ := List.forall_mem_append.mp hls
    obtain ⟨hms, hns⟩ := List.forall_mem_append.mp hms
    obtain ⟨hk₁', hns⟩ := List.forall_mem_cons.mp hns
    obtain ⟨hσ, hτ⟩ := Slip.Harmless.append_iff.mp hσ
    obtain ⟨hτ, hυ⟩ := Slip.Harmless.append_iff.mp hτ
    refine .fixed hk' hk (by decide) (by decide) ((ihc hσ hls).append ((ihbody hτ hms).append ?_))
    exact .fixed hk₁' hk₁ (by decide) (by decide) (ihalternative hυ hns)
  | noArgs => exact .nil
  | firstArg _ ih => simpa [Part.content, argumentContents, separated] using ih hσ hls
  | @moreArgs x xs n m ls ms σ τ hxs hne hm _ ihxs ihx =>
    obtain ⟨hls, hms⟩ := List.forall_mem_append.mp hls
    obtain ⟨hm', hms⟩ := List.forall_mem_cons.mp hms
    obtain ⟨hσ, hτ⟩ := Slip.Harmless.append_iff.mp hσ
    have hcontents : argumentContents e xs ≠ [] := by
      cases xs with
      | nil => exact absurd rfl hne
      | cons y ys => simp [argumentContents]
    rw [Part.content, argumentContents_append]
    change Spells _ (separated (argumentContents e xs ++ [x.content e]))
    rw [separated_snoc hcontents]
    exact (ihxs hσ hls).append (.fixed hm' hm (by decide) (by decide) (ihx hτ hms))
  | block hl _ hr ih =>
    obtain ⟨hl', hls⟩ := List.forall_mem_cons.mp hls
    obtain ⟨hls, hr'⟩ := List.forall_mem_append.mp hls
    refine .block hl (ih hσ hls) hr (hl'.fixed hl (by decide)) ?_
    exact (hr' _ List.mem_cons_self).fixed hr (by decide)
  | openBlock _ _ _ =>
    exact absurd ((Slip.Harmless.append_iff.mp hσ).2 _ List.mem_cons_self)
      (by simp [Slip.isHarmless])
  | nil => exact .nil
  | cons _ _ ihs ihss =>
    obtain ⟨hls, hms⟩ := List.forall_mem_append.mp hls
    obtain ⟨hσ, hτ⟩ := Slip.Harmless.append_iff.mp hσ
    exact (ihs hσ hls).append (ihss hτ hms)
  | expr _ ih => exact ih hσ hls
  | closedExpr _ hr ih =>
    obtain ⟨hls, -⟩ := List.forall_mem_append.mp hls
    exact (ih hσ hls).marks (.semicolon hr)
  | letVar hk hname hc htype hq _ hms hr ih =>
    simp only [List.forall_mem_cons, List.forall_mem_append] at hls
    obtain ⟨hk', hname', hc', htype', hq', hls, -⟩ := hls
    simp only [Slip.Harmless.append_iff] at hσ
    obtain ⟨hσ, hskip, hend⟩ := hσ
    rw [hskip.skip, List.nil_append]
    refine .fixed hk' hk (by decide) (by decide) ?_
    refine .plain (by rw [hname]; decide) (.inl (hname'.eq_mk hname (by decide))) ?_
    refine .fixed hc' hc (by decide) (by decide) ?_
    refine .plain (by rw [htype]; decide) (.inl (htype'.eq_mk htype (by decide))) ?_
    exact .fixed hq' hq (by decide) (by decide) ((ih hσ hls).marks (.ending hend))
  | ret hk _ hr ih =>
    obtain ⟨hk', hls⟩ := List.forall_mem_cons.mp hls
    obtain ⟨hls, -⟩ := List.forall_mem_append.mp hls
    exact .fixed hk' hk (by decide) (by decide) ((ih hσ hls).marks (.semicolon hr))
  | @fn ps body k name l r a type ls ms σ τ hk hname hl hps hr ha _ ih =>
    simp only [List.forall_mem_cons, List.forall_mem_append] at hls
    obtain ⟨hk', hname', -, hls, -, ha', htype', hms⟩ := hls
    obtain ⟨hσ, hτ⟩ := Slip.Harmless.append_iff.mp hσ
    obtain ⟨htype, hτ⟩ := Slip.Harmless.append_iff.mp hτ
    have htype := htype.checkType
    refine .fixed hk' hk (by decide) (by decide) ?_
    refine .plain (by rw [hname]; decide) (.inl (hname'.eq_mk hname (by decide))) ?_
    have hparams := Spells.group hl (hps.spells hσ hls) hr
    have hrest : Spells (a :: type :: ms)
        (.arrow :: .type e type.literal :: braced (contents e body)) := by
      refine .fixed ha' ha (by decide) (by decide)
        (.plain ?_ (.inl (htype'.type_eq htype)) (ih hτ hms))
      rcases htype with htype | htype <;> rw [htype] <;> decide
    simpa using hparams.append hrest
  | assign _ ih =>
    obtain ⟨hls, -⟩ := List.forall_mem_append.mp hls
    obtain ⟨hσ, hend⟩ := Slip.Harmless.append_iff.mp hσ
    exact (ih hσ hls).marks (.ending hend)
  | whileLoop hk _ _ ihc ihbody =>
    obtain ⟨hk', hls⟩ := List.forall_mem_cons.mp hls
    obtain ⟨hls, hms⟩ := List.forall_mem_append.mp hls
    obtain ⟨hσ, hτ⟩ := Slip.Harmless.append_iff.mp hσ
    exact .fixed hk' hk (by decide) (by decide) ((ihc hσ hls).append (ihbody hτ hms))
  | breakLoop hk =>
    obtain ⟨hk', -⟩ := List.forall_mem_cons.mp hls
    exact .fixed hk' hk (by decide) (by decide) (.ending hσ)
  | continueLoop hk =>
    obtain ⟨hk', -⟩ := List.forall_mem_cons.mp hls
    exact .fixed hk' hk (by decide) (by decide) (.ending hσ)
  | @forLoop init next c body n k l m r is ls ms ns σ τ υ φ hk hl _ _ _ hm _ _ ihinit ihc ihnext
      ihbody =>
    simp only [List.forall_mem_cons, List.forall_mem_append] at hls
    obtain ⟨hk', -, his, hls, -, hms, -, hns⟩ := hls
    simp only [Slip.Harmless.append_iff] at hσ
    obtain ⟨hσ, hτ, hυ, hr, hφ⟩ := hσ
    refine .fixed hk' hk (by decide) (by decide) ?_
    have htest := (ihc hτ hls).marks (.semicolon hm)
    have hhead := Spells.group hl (((ihinit hσ his).append htest).append (ihnext hυ hms)) hr.check
    simpa [Part.content] using hhead.append (ihbody hφ hns)
  | importPallet hk hpath hr =>
    simp only [List.forall_mem_cons] at hls
    refine .fixed hls.1 hk (by decide) (by decide) ?_
    exact .plain (by rw [hpath]; decide) (.inl (hls.2.1.eq_mk hpath (by decide))) (.semicolon hr)
  | exprStep _ ih => exact ih hσ hls
  | @assignStep x n target op ls σ _ ih =>
    simp only [List.forall_mem_cons] at hls
    obtain ⟨-, hop, hls⟩ := hls
    simp only [Slip.Harmless.append_iff] at hσ
    obtain ⟨htarget, hassign, hσ⟩ := hσ
    obtain ⟨hplain, halike⟩ := hop.assignOp hassign
    refine .plain (by rw [htarget.check]; decide) (.inl ?_) (.plain hplain halike (ih hσ hls))
    rw [← htarget.check]

end Harmless

theorem Reads.scanned {cs w : List Char} (h : Reads e cs w l) : l.Scanned e := by
  cases h with
  | numeral _ h =>
    cases h with
    | int _ => exact .int _
    | secondPoint _ _ => exact .illegal _
    | float _ _ => exact .float _
  | word _ _ => exact .word _
  | string _ _ _ _ => exact .string _
  | operator hs _ _ => exact .operator hs
  | illegal _ _ _ => exact .illegal _

theorem Tokenization.scanned {cs last : List Char} {ps : List Piece}
    (h : Tokenization e cs ps last) : ∀ l ∈ ps.map Piece.lexeme, l.Scanned e := by
  induction h with
  | done _ => simp
  | piece _ hr _ ih => simpa using ⟨hr.scanned, by simpa using ih⟩

section Canonical

variable {e : Edition}

def Lexeme.isMark (l : Lexeme) : Bool := l.kind = .lparen || l.kind = .rparen || l.kind = .semicolon

theorem withoutMarks_cons (hl : l.isMark = false) (ls : List Lexeme) :
    withoutMarks (l :: ls) = l :: withoutMarks ls := by
  simp only [Lexeme.isMark, Bool.or_eq_false_iff, decide_eq_false_iff_not] at hl
  simp [withoutMarks, hl]

theorem withoutMarks_mark (hl : l.isMark = true) (ls : List Lexeme) :
    withoutMarks (l :: ls) = withoutMarks ls := by
  simp only [Lexeme.isMark, Bool.or_eq_true, decide_eq_true_eq] at hl
  rcases hl with (hl | hl) | hl <;> simp [withoutMarks, hl]

theorem withoutMarks_nil : withoutMarks [] = [] := rfl

theorem withoutMarks_grouped (ls : List Lexeme) : withoutMarks (grouped ls) = withoutMarks ls := by
  rw [grouped, withoutMarks_mark rfl, withoutMarks_append, withoutMarks_mark rfl, withoutMarks_nil]
  exact List.append_nil _

theorem withoutMarks_closed (ls : List Lexeme) :
    withoutMarks (ls ++ [.semicolon]) = withoutMarks ls := by
  rw [withoutMarks_append, withoutMarks_mark rfl, withoutMarks_nil, List.append_nil]

theorem withoutMarks_braced (ls : List Lexeme) :
    withoutMarks (braced ls) = braced (withoutMarks ls) := by
  rw [braced, withoutMarks_cons rfl, withoutMarks_append, withoutMarks_cons rfl, withoutMarks_nil,
    braced]

theorem withoutMarks_separated (lss : List (List Lexeme)) :
    withoutMarks (separated lss) = separated (lss.map withoutMarks) := by
  cases lss with
  | nil => rfl
  | cons ls lss =>
    have hrest : withoutMarks (lss.flatMap fun ms => .comma :: ms) =
        (lss.map withoutMarks).flatMap fun ms => .comma :: ms := by
      induction lss with
      | nil => rfl
      | cons ms lss ih =>
        rw [List.flatMap_cons, withoutMarks_append, withoutMarks_cons rfl, ih]
        rfl
    rw [separated, withoutMarks_append, hrest, List.map_cons, separated]

theorem InfixOp.not_mark (op : InfixOp) : (Lexeme.infixOp op).isMark = false := by cases op <;> rfl

theorem PrefixOp.not_mark (op : PrefixOp) :
    (Lexeme.prefixOp op).isMark = false := by cases op <;> rfl

theorem StepOp.not_mark (op : StepOp) : (Lexeme.step op).isMark = false := by cases op <;> rfl

mutual

theorem Expr.content_eq : ∀ x : Expr, x.isPrintable e = true →
    x.content e = withoutMarks (x.lexemes e)
  | .missing | .openCall _ | .ifThen .. | .ifElse .. => by simp [Expr.isPrintable]
  | .int _ | .float _ | .ident _ | .bool true | .bool false | .str _ => fun _ => by
    simp only [Expr.content, Expr.lexemes]
    rfl
  | .infixed l op r => by
    intro h
    simp only [Expr.isPrintable, Bool.and_eq_true] at h
    rw [Expr.content, Expr.lexemes, withoutMarks_append, withoutMarks_grouped,
      withoutMarks_cons op.not_mark,
      withoutMarks_grouped, Expr.content_eq l h.1.2, Expr.content_eq r h.2]
  | .prefixed op r => by
    intro h
    simp only [Expr.isPrintable, Bool.and_eq_true] at h
    rw [Expr.content, Expr.lexemes, withoutMarks_cons op.not_mark, withoutMarks_grouped,
      Expr.content_eq r h.2]
  | .stepped l op => by
    intro h
    simp only [Expr.isPrintable, Bool.and_eq_true] at h
    rw [Expr.content, Expr.lexemes, withoutMarks_append, withoutMarks_grouped,
      withoutMarks_cons op.not_mark, withoutMarks_nil, Expr.content_eq l h.2]
  | .call f args => by
    intro h
    simp only [Expr.isPrintable, Bool.and_eq_true] at h
    rw [Expr.content, Expr.lexemes, withoutMarks_append, withoutMarks_grouped, withoutMarks_grouped,
      withoutMarks_separated, Expr.content_eq f h.1.1.2, argumentContents_eq args h.1.2]

theorem argumentContents_eq : ∀ xs : List Expr, Expr.isPrintable.arePrintable e xs = true →
    argumentContents e xs = (argumentLexemes e xs).map withoutMarks
  | [] => fun _ => by simp only [argumentContents, argumentLexemes, List.map_nil]
  | x :: xs => by
    intro h
    simp only [Expr.isPrintable.arePrintable, Bool.and_eq_true] at h
    rw [argumentContents, argumentLexemes, List.map_cons, withoutMarks_grouped,
      Expr.content_eq x h.1, argumentContents_eq xs h.2]

end

theorem Edition.isTypeName_not_mark {l : Literal} (h : e.isTypeName l = true) :
    (Lexeme.type e l).isMark = false := by
  cases l with
  | int | float => simp [isTypeName] at h
  | text w =>
    simp only [isTypeName, Bool.and_eq_true, Bool.or_eq_true, decide_eq_true_eq] at h
    rcases h.2 with hk | hk <;> simp [Lexeme.isMark, Lexeme.type, Literal.display, hk]

theorem Param.withoutMarks_lexemes {p : Param} (h : p.isPrintable e = true) :
    withoutMarks (p.lexemes e) = p.lexemes e := by
  simp only [Param.isPrintable, Bool.and_eq_true] at h
  rw [Param.lexemes, withoutMarks_cons rfl, withoutMarks_cons rfl,
    withoutMarks_cons (e.isTypeName_not_mark h.2), withoutMarks_nil]

theorem Edition.isAssignment_lexeme {op : Literal} (h : e.isAssignment op = true) :
    (⟨assignKind op, op⟩ : Lexeme).isMark = false ∧ Lexeme.assignOp e op = ⟨assignKind op, op⟩ := by
  obtain ⟨s, hs, rfl, hk, -⟩ := isAssignment_cases h
  have hkinds : ∀ s ∈ assignments, s.kind ∉
    [Kind.lparen, .rparen, .semicolon, .illegal] := by decide
  have hkind := hkinds s hs
  simp only [List.mem_cons, List.not_mem_nil, or_false, not_or] at hkind
  simp [Lexeme.isMark, Lexeme.assignOp, hk, hkind]

theorem letVar_content_eq {name type : String} {x : Expr}
    (h : (Stmt.letVar name x type).isPrintable e = true) :
    (Stmt.letVar name x type).content e = withoutMarks ((Stmt.letVar name x type).lexemes e) := by
  simp only [Stmt.isPrintable, Bool.and_eq_true] at h
  rw [Stmt.content, Stmt.lexemes, withoutMarks_cons rfl, withoutMarks_cons rfl,
    withoutMarks_cons rfl,
    withoutMarks_cons rfl, withoutMarks_cons rfl, withoutMarks_closed, withoutMarks_grouped,
    Expr.content_eq x h.1.2]

theorem step_content_eq {s : Stmt} (h : s.isStep e = true) :
    s.content e = withoutMarks (stepLexemes e s) := by
  cases s with
  | assign target op x =>
    simp only [Stmt.isStep, Bool.and_eq_true] at h
    obtain ⟨hmark, hop⟩ := e.isAssignment_lexeme h.1.2
    rw [Stmt.content, stepLexemes, withoutMarks_cons rfl, withoutMarks_cons hmark,
      withoutMarks_grouped, hop, Expr.content_eq x h.2]
  | bare x =>
    simp only [Stmt.isStep, Bool.and_eq_true] at h
    rw [Stmt.content, stepLexemes, withoutMarks_grouped, Expr.content_eq x h.2]
  | _ => simp [Stmt.isStep] at h

theorem contents_cases : PrintableCases e (fun s => s.content e = withoutMarks (s.lexemes e))
    (fun ss => contents e ss = withoutMarks (lexemes e ss)) where
  expr := by
    intro x hc hx
    rw [Stmt.lexemes_expr hc, withoutMarks_closed, withoutMarks_grouped, Stmt.content,
      Expr.content_eq x hx]
  ifThen := by
    intro c body _ hc hbody
    simp only [Stmt.lexemes, Expr.isConditional, if_true, withoutMarks_closed]
    rw [Stmt.content, Expr.content, Expr.lexemes, withoutMarks_cons rfl, withoutMarks_append,
      withoutMarks_grouped, withoutMarks_braced, Expr.content_eq c hc, hbody]
  ifElse := by
    intro c body alternative _ hc hbody halternative
    simp only [Stmt.lexemes, Expr.isConditional, if_true, withoutMarks_closed]
    rw [Stmt.content, Expr.content, Expr.lexemes, withoutMarks_cons rfl, withoutMarks_append,
      withoutMarks_grouped, withoutMarks_append, withoutMarks_braced, withoutMarks_cons rfl,
      withoutMarks_braced, Expr.content_eq c hc, hbody, halternative]
  letVar := fun name x type h => letVar_content_eq h
  ret := by
    intro x _ hx
    rw [Stmt.content, Stmt.lexemes, withoutMarks_cons rfl, withoutMarks_closed,
      withoutMarks_grouped, Expr.content_eq x hx]
  fn := by
    intro name params returnType body _ _ hps _ ht hbody
    have hparams : (params.map (Param.lexemes e)).map withoutMarks = params.map
        (Param.lexemes e) := by
      rw [List.map_map]
      exact List.map_congr_left fun p hp =>
        Param.withoutMarks_lexemes (List.all_eq_true.mp hps p hp)
    rw [Stmt.content, Stmt.lexemes, withoutMarks_cons rfl, withoutMarks_cons rfl,
      withoutMarks_append, withoutMarks_grouped, withoutMarks_separated, withoutMarks_cons rfl,
      withoutMarks_cons (e.isTypeName_not_mark ht), withoutMarks_braced, Option.getD_some, hparams,
        hbody]
  assign := by
    intro target op x _ _ ho hx
    obtain ⟨hmark, hop⟩ := e.isAssignment_lexeme ho
    rw [Stmt.content, Stmt.lexemes, withoutMarks_cons rfl, withoutMarks_cons hmark,
      withoutMarks_closed, withoutMarks_grouped, hop, Expr.content_eq x hx]
  whileLoop := by
    intro c body _ hc hbody
    rw [Stmt.content, Stmt.lexemes, withoutMarks_cons rfl, withoutMarks_append,
      withoutMarks_grouped, withoutMarks_braced, Expr.content_eq c hc, hbody]
  breakLoop := fun _ => by rw [Stmt.content, Stmt.lexemes]; rfl
  continueLoop := fun _ => by rw [Stmt.content, Stmt.lexemes]; rfl
  forLoop := by
    intro name x type c next body _ h hc hs hbody
    rw [Stmt.content, Stmt.lexemes, withoutMarks_cons rfl, withoutMarks_mark rfl,
      withoutMarks_append,
      withoutMarks_append, withoutMarks_grouped, withoutMarks_mark rfl, withoutMarks_append,
      withoutMarks_mark rfl, withoutMarks_braced, letVar_content_eq h, Expr.content_eq c hc,
      step_content_eq hs, hbody]
  importPallet := fun path _ _ => by rw [Stmt.content, Stmt.lexemes]; rfl
  nil := by rw [contents, lexemes]; rfl
  cons := by
    intro s ss _ hs hss
    rw [contents, lexemes, withoutMarks_append, hs, hss]

/-- What a program consists of is what its canonical text has besides parentheses and semicolons. -/
theorem contents_eq {p : Program} (hp : arePrintable e p = true) :
    contents e p = withoutMarks (lexemes e p) :=
  contents_cases.stmts p hp

end Canonical

end LimeLang
