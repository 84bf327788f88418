import LimeLang.Proofs.Printing
import LimeLang.Proofs.Tokenization

/-! The grammar of the editions that have only expressions, and phrases: expressions with the
parentheses they are written with. An expression ends where no operator follows it, so lexemes
can be divided into expressions in one greedy way only. -/

namespace LimeLang

variable {ls : List Lexeme} {l : Lexeme}

def Kind.isArithmetic : Kind → Bool
  | plus | minus | asterisk | slash | modulus | pow => true
  | _ => false

theorem InfixOp.level_lt (op : InfixOp) : op.level < prefixLevel := by cases op <;> decide

mutual

/-- A number, or an expression in parentheses. -/
inductive IsOperand : List Lexeme → Prop
  | number {l : Lexeme} : l.kind = .int ∨ l.kind = .float → IsOperand [l]
  | group {l r : Lexeme} {ls : List Lexeme} : l.kind = .lparen → IsExpression ls →
      r.kind = .rparen → IsOperand (l :: (ls ++ [r]))

/-- Operands with operators between them. -/
inductive IsExpression : List Lexeme → Prop
  | operand {ls : List Lexeme} : IsOperand ls → IsExpression ls
  | infixed {l : Lexeme} {ls ms : List Lexeme} : IsOperand ls → l.kind.isArithmetic = true →
      IsExpression ms → IsExpression (ls ++ l :: ms)

end

/-- Expressions, each with or without a semicolon behind it. -/
inductive AreExpressions : List Lexeme → Prop
  | nil : AreExpressions []
  | plain {ls ms : List Lexeme} : IsExpression ls → AreExpressions ms → AreExpressions (ls ++ ms)
  | closed {l : Lexeme} {ls ms : List Lexeme} : IsExpression ls → l.kind = .semicolon →
      AreExpressions ms → AreExpressions (ls ++ l :: ms)

def dropSemicolon : List Lexeme → List Lexeme
  | [] => []
  | l :: ls => if l.kind = .semicolon then ls else l :: ls

/-- A division into expressions, each the longest one that begins where it begins. A semicolon
behind an expression belongs to none of them. -/
inductive GreedySplit : List Lexeme → List (List Lexeme) → Prop
  | nil : GreedySplit [] []
  | cons {ls rest : List Lexeme} {parts : List (List Lexeme)} : IsExpression ls →
      (∀ ms, ms <+: ls ++ rest → IsExpression ms → ms.length ≤ ls.length) →
      GreedySplit (dropSemicolon rest) parts → GreedySplit (ls ++ rest) (ls :: parts)

/-- An expression as it is written. -/
inductive Phrase
  | int (n : Nat)
  | float (x : Number.Double)
  | group (inner : Phrase)
  | infixed (left : Phrase) (op : InfixOp) (right : Phrase)

namespace Phrase

def lexemes : Phrase → List Lexeme
  | int n => [⟨.int, .int n⟩]
  | float x => [⟨.float, .float x⟩]
  | group p => grouped p.lexemes
  | infixed l op r => l.lexemes ++ .infixOp op :: r.lexemes

/-- The tree of a phrase, which does not show the parentheses. -/
def expr : Phrase → Expr
  | int n => .int n
  | float x => .float x
  | group p => p.expr
  | infixed l op r => .infixed l.expr op r.expr

def operator? : Phrase → Option InfixOp
  | infixed _ op _ => some op
  | _ => none

/-- Operators without parentheses bind at least as strongly as the one whose left side they are on,
and more strongly than the one whose right side they are on. -/
def Ordered : Phrase → Prop
  | int _ | float _ => True
  | group p => p.Ordered
  | infixed l op r => l.Ordered ∧ r.Ordered ∧ (∀ o ∈ l.operator?, op.level ≤ o.level) ∧
      ∀ o ∈ r.operator?, op.level < o.level

end Phrase

/-- The numbers and operators of a tree from left to right. -/
def Expr.yield : Expr → List Lexeme
  | .int n => [⟨.int, .int n⟩]
  | .float x => [⟨.float, .float x⟩]
  | .infixed l op r => l.yield ++ .infixOp op :: r.yield
  | _ => []

def Stmt.yield : Stmt → List Lexeme
  | .expr x => x.yield
  | _ => []

def withoutMarks (ls : List Lexeme) : List Lexeme :=
  ls.filter fun l => l.kind ≠ .lparen && l.kind ≠ .rparen && l.kind ≠ .semicolon

theorem withoutMarks_append (ls ms : List Lexeme) :
    withoutMarks (ls ++ ms) = withoutMarks ls ++ withoutMarks ms := List.filter_append _ _

theorem InfixOp.kind_not_mark (op : InfixOp) :
    op.kind ≠ .lparen ∧ op.kind ≠ .rparen ∧ op.kind ≠ .semicolon := by
  cases op <;> decide

theorem Phrase.yield_expr (p : Phrase) : p.expr.yield = withoutMarks p.lexemes := by
  induction p with
  | int n => rfl
  | float x => rfl
  | group p ih =>
    simp only [expr, ih, lexemes, grouped, withoutMarks, Lexeme.lparen, Lexeme.rparen]
    simp
  | infixed l op r ihl ihr =>
    have hop : withoutMarks (.infixOp op :: r.lexemes) = .infixOp op :: withoutMarks r.lexemes :=
      List.filter_cons_of_pos (by simp [Lexeme.infixOp, op.kind_not_mark])
    simp only [expr, Expr.yield, ihl, ihr, lexemes, withoutMarks_append, hop]

theorem withoutMarks_dropSemicolon (ls : List Lexeme) :
    withoutMarks (dropSemicolon ls) = withoutMarks ls := by
  cases ls with
  | nil => rfl
  | cons l ls =>
    by_cases h : l.kind = .semicolon
    · simp [dropSemicolon, withoutMarks, h]
    · simp [dropSemicolon, h]

theorem dropSemicolon_subset (ls : List Lexeme) : dropSemicolon ls ⊆ ls := by
  cases ls with
  | nil => exact List.Subset.refl []
  | cons l ls =>
    rw [dropSemicolon]
    split
    · exact List.subset_cons_self l ls
    · exact List.Subset.refl _

def BeginsWithOperator (ls : List Lexeme) : Prop :=
  ∃ l ms, ls = l :: ms ∧ l.kind.isArithmetic = true

theorem not_beginsWithOperator (h : l.kind.isArithmetic = false) :
    ¬ BeginsWithOperator (l :: ls) := by
  rintro ⟨m, ms, heq, hm⟩
  obtain ⟨rfl, -⟩ := List.cons.inj heq
  simp [h] at hm

mutual

theorem IsOperand.unique {a : List Lexeme} : IsOperand a → ∀ {b r t : List Lexeme}, IsOperand b →
    a ++ r = b ++ t → a = b ∧ r = t
  | .number hl, b, r, t => by
    intro hb h
    cases hb with
    | number _ => simpa using h
    | group hk _ _ =>
      obtain ⟨rfl, -⟩ := List.cons.inj h
      simp [hk] at hl
  | .group hl hls hr, b, r, t => by
    intro hb h
    cases hb with
    | number hk =>
      obtain ⟨rfl, -⟩ := List.cons.inj h
      simp [hl] at hk
    | group _ hms hr' =>
      simp only [List.cons_append, List.append_assoc, List.cons.injEq] at h
      obtain ⟨rfl, h⟩ := h
      have hstop : ∀ {l : Lexeme} {ls : List Lexeme}, l.kind = .rparen →
          ¬ BeginsWithOperator (l :: ls) := fun hl => not_beginsWithOperator (by rw [hl]; rfl)
      obtain rfl := hls.unique hms (hstop hr) (hstop hr') h
      obtain ⟨rfl, rfl⟩ := List.cons.inj (List.append_cancel_left h)
      exact ⟨rfl, rfl⟩

theorem IsExpression.unique {v : List Lexeme} : IsExpression v → ∀ {w r t : List Lexeme},
    IsExpression w → ¬ BeginsWithOperator r → ¬ BeginsWithOperator t → v ++ r = w ++ t → v = w
  | .operand ha, w, r, t => by
    intro hw hr ht h
    cases hw with
    | operand hb => exact (ha.unique hb h).1
    | infixed hb hk _ =>
      rw [List.append_assoc] at h
      obtain ⟨-, rfl⟩ := ha.unique hb h
      exact absurd ⟨_, _, rfl, hk⟩ hr
  | .infixed ha hk hms, w, r, t => by
    intro hw hr ht h
    rw [List.append_assoc] at h
    cases hw with
    | operand hb =>
      obtain ⟨-, rfl⟩ := ha.unique hb h
      exact absurd ⟨_, _, rfl, hk⟩ ht
    | infixed hb _ hns =>
      rw [List.append_assoc] at h
      obtain ⟨rfl, hcons⟩ := ha.unique hb h
      obtain ⟨rfl, hrest⟩ := List.cons.inj hcons
      rw [hms.unique hns hr ht hrest]

end

/-- An expression with no operator behind it is the longest that begins there. -/
theorem IsExpression.longest {ls rest : List Lexeme} (h : IsExpression ls)
    (hrest : ¬ BeginsWithOperator rest) :
    ∀ ms, ms <+: ls ++ rest → IsExpression ms → ms.length ≤ ls.length := by
  intro ms hms hexpr
  by_contra hlt
  obtain ⟨u, rfl⟩ := List.prefix_of_prefix_length_le (List.prefix_append ls rest) hms (by omega)
  have hu : ¬ BeginsWithOperator u := by
    rintro ⟨l, us, rfl, hl⟩
    obtain ⟨t, ht⟩ := hms
    rw [List.append_assoc] at ht
    exact hrest ⟨l, us ++ t, (List.append_cancel_left ht).symm, hl⟩
  have heq := h.unique hexpr hu (r := u) (t := []) (by rintro ⟨l, ms, hn, -⟩; simp at hn) (by simp)
  exact hlt (by rw [← heq])

theorem IsExpression.append {ls ms : List Lexeme} : IsExpression ls →
    l.kind.isArithmetic = true → IsExpression ms → IsExpression (ls ++ l :: ms)
  | .operand ha, hl, hms => .infixed ha hl hms
  | .infixed ha hk hns, hl, hms => by
    have hh := IsExpression.infixed ha hk (hns.append hl hms)
    simpa using hh

theorem IsOperand.head (h : IsOperand ls) :
    ∃ l ms, ls = l :: ms ∧ (l.kind = .int ∨ l.kind = .float ∨ l.kind = .lparen) := by
  cases h with
  | number h => exact ⟨_, _, rfl, by tauto⟩
  | group h _ _ => exact ⟨_, _, rfl, .inr (.inr h)⟩

theorem IsOperand.length_pos (h : IsOperand ls) : 0 < ls.length := by
  obtain ⟨l, ms, rfl, -⟩ := h.head
  simp

theorem IsExpression.head (h : IsExpression ls) :
    ∃ l ms, ls = l :: ms ∧ (l.kind = .int ∨ l.kind = .float ∨ l.kind = .lparen) := by
  cases h with
  | operand h => exact h.head
  | infixed h _ _ =>
    obtain ⟨l, ms, rfl, hl⟩ := h.head
    exact ⟨l, _, rfl, hl⟩

theorem IsExpression.length_pos (h : IsExpression ls) : 0 < ls.length := by
  obtain ⟨l, ms, rfl, -⟩ := h.head
  simp

theorem GreedySplit.areExpressions {parts : List (List Lexeme)} (h : GreedySplit ls parts) :
    AreExpressions ls := by
  induction h with
  | nil => exact .nil
  | @cons ls rest parts hls _ _ ih =>
    cases rest with
    | nil => exact .plain hls ih
    | cons l rest =>
      by_cases hl : l.kind = .semicolon
      · rw [dropSemicolon, if_pos hl] at ih
        exact .closed hls hl ih
      · rw [dropSemicolon, if_neg hl] at ih
        exact .plain hls ih

theorem GreedySplit.unique {parts parts' : List (List Lexeme)} (h : GreedySplit ls parts)
    (h' : GreedySplit ls parts') : parts = parts' := by
  induction h generalizing parts' with
  | nil =>
    generalize hn : ([] : List Lexeme) = ms at h'
    cases h' with
    | nil => rfl
    | cons hms _ _ =>
      obtain ⟨l, t, rfl, -⟩ := hms.head
      simp at hn
  | @cons ls rest parts hls hmax _ ih =>
    generalize hn : ls ++ rest = ns at h'
    cases h' with
    | nil =>
      obtain ⟨l, t, rfl, -⟩ := hls.head
      simp at hn
    | @cons ms rest' parts' hms hmax' hparts =>
      have hle : ls.length ≤ ms.length := hmax' ls (hn ▸ List.prefix_append ls rest) hls
      have hge : ms.length ≤ ls.length := hmax ms (hn ▸ List.prefix_append ms rest') hms
      obtain ⟨rfl, rfl⟩ := List.append_inj hn (by omega)
      rw [ih hparts]

theorem GreedySplit.withoutMarks_eq {parts : List (List Lexeme)} (h : GreedySplit ls parts) :
    withoutMarks ls = parts.flatMap withoutMarks := by
  induction h with
  | nil => rfl
  | cons _ _ _ ih =>
    rw [withoutMarks_append, List.flatMap_cons, ← ih, withoutMarks_dropSemicolon]

/-- The lexemes of the editions that have only expressions. -/
inductive Lexeme.IsEarly : Lexeme → Prop
  | int (n : Nat) : IsEarly ⟨.int, .int n⟩
  | float (x : Number.Double) : IsEarly ⟨.float, .float x⟩
  | operator {op : InfixOp} : op.kind.isArithmetic = true → IsEarly (.infixOp op)
  | lparen : IsEarly .lparen
  | rparen : IsEarly .rparen
  | semicolon : IsEarly .semicolon
  | illegal (l : Literal) : IsEarly ⟨.illegal, l⟩

theorem Lexeme.IsEarly.kind_ne_eof (h : l.IsEarly) : l.kind ≠ .eof := by
  cases h with
  | @operator op _ => cases op <;> decide
  | int _ | float _ | lparen | rparen | semicolon | illegal _ =>
    simp [Lexeme.lparen, Lexeme.rparen, Lexeme.semicolon]

theorem Lexeme.IsEarly.number (h : l.IsEarly) (hl : l.kind = .int ∨ l.kind = .float) :
    (∃ k, l = ⟨.int, .int k⟩) ∨ ∃ y, l = ⟨.float, .float y⟩ := by
  cases h with
  | int k => exact .inl ⟨k, rfl⟩
  | float y => exact .inr ⟨y, rfl⟩
  | @operator op _ => cases op <;> simp [Lexeme.infixOp, InfixOp.kind] at hl
  | lparen | rparen | semicolon | illegal _ =>
    simp [Lexeme.lparen, Lexeme.rparen, Lexeme.semicolon] at hl

theorem operators_early : ∀ s ∈ operators, s.feature.since ≤ 4 →
    (⟨s.kind, .text s.text⟩ : Lexeme) ∈ [.lparen, .rparen, .semicolon] ∨
      ∃ op ∈ [InfixOp.add, .sub, .mul, .div, .rem, .pow],
        ⟨s.kind, .text s.text⟩ = Lexeme.infixOp op := by
  decide

theorem Edition.since_le_of_has {e : Edition} {f : Feature} {n : Nat} (he : e.number ≤ n)
    (hf : e.has f = true) : f.since ≤ n := by
  simp only [Edition.has, decide_eq_true_eq] at hf
  omega

theorem Reads.isEarly {e : Edition} {cs w : List Char} (h : Reads e cs w l) (he : e.number ≤ 4) :
    l.IsEarly := by
  cases h with
  | numeral _ h =>
    cases h with
    | int _ => exact .int _
    | secondPoint _ _ => exact .illegal _
    | float _ _ => exact .float _
  | word hd _ => exact absurd (Edition.since_le_of_has he hd) (by decide)
  | string hs _ _ _ => exact absurd (Edition.since_le_of_has he hs) (by decide)
  | operator hs hf _ =>
    rcases operators_early _ hs (Edition.since_le_of_has he hf) with h | ⟨op, hop, h⟩
    · simp only [List.mem_cons, List.not_mem_nil, or_false] at h
      rcases h with h | h | h
      · exact h ▸ .lparen
      · exact h ▸ .rparen
      · exact h ▸ .semicolon
    · rw [h]
      refine .operator ?_
      simp only [List.mem_cons, List.not_mem_nil, or_false] at hop
      rcases hop with rfl | rfl | rfl | rfl | rfl | rfl <;> rfl
  | illegal _ _ _ => exact .illegal _

theorem Tokenization.isEarly {e : Edition} {cs last : List Char} {ps : List Piece}
    (h : Tokenization e cs ps last) (he : e.number ≤ 4) : ∀ l ∈ ps.map Piece.lexeme, l.IsEarly := by
  induction h with
  | done _ => simp
  | piece _ hr _ ih => simpa using ⟨hr.isEarly he, by simpa using ih⟩

end LimeLang
