import LimeLang.Proofs.ReadTrees
import Mathlib.Data.List.Forall2

/-! Two texts that differ in the spelling of one reserved lexeme are read in step. The trees can
differ only in the words that they take over from the text as they stand. -/

namespace LimeLang

/-- A word that a tree takes from the text without regard to the kind of its lexeme. -/
inductive TreeWord
  /-- What stood in the place of a parameter, of a type or of the target of an assignment. -/
  | taken (l : Literal)
  /-- The operator of an assignment, with its target. -/
  | operator (target op : Literal)
deriving DecidableEq

def Param.words (p : Param) : List TreeWord := [.taken p.name, .taken p.type]

mutual

def Expr.words : Expr → List TreeWord
  | .missing | .int _ | .float _ | .ident _ | .bool _ | .str _ => []
  | .infixed l _ r => l.words ++ r.words
  | .prefixed _ x | .stepped x _ | .openCall x => x.words
  | .call f args => f.words ++ argumentWords args
  | .ifThen c body => c.words ++ words body
  | .ifElse c body alternative => c.words ++ (words body ++ words alternative)

def argumentWords : List Expr → List TreeWord
  | [] => []
  | x :: xs => x.words ++ argumentWords xs

def Stmt.words : Stmt → List TreeWord
  | .missing | .breakLoop | .continueLoop | .importPallet _ => []
  | .expr x | .bare x | .ret x | .letVar _ x _ => x.words
  | .assign target op x => .taken target :: .operator target op :: x.words
  | .fn _ params type body => .taken type :: ((params.getD []).flatMap Param.words ++ words body)
  | .whileLoop c body => c.words ++ words body
  | .forLoop init c step body => init.words ++ (c.words ++ (step.words ++ words body))

/-- The words of a program, wherever they stand in it. -/
def words : List Stmt → List TreeWord
  | [] => []
  | s :: ss => s.words ++ words ss

end

/-- Another spelling for one lexeme of a text, which stands behind `before`. -/
structure Respelling where
  kind : Kind
  old : Literal
  new : Literal
  before : Option Lexeme

namespace Respelling

/-- The words that may come from the lexeme. An operator is kept only in the editions that have
several of them, and there it stands behind its target. -/
def Spells (e : Edition) (r : Respelling) : TreeWord → Prop
  | .taken l => l = r.old
  | .operator target op => e.has .compoundAssignment = true ∧ op = r.old ∧
      ∃ l ∈ r.before, l.literal = target

/-- The literal `a` in the place of the word, and what it becomes. -/
def Turns (e : Edition) (r : Respelling) (v : TreeWord) (a b : Literal) : Prop :=
  a = b ∨ r.Spells e v ∧ a = r.old ∧ b = r.new

end Respelling

structure Param.Respelt (e : Edition) (r : Respelling) (p q : Param) : Prop where
  name : r.Turns e (.taken p.name) p.name q.name
  type : r.Turns e (.taken p.type) p.type q.type

mutual

/-- Trees that agree up to the words that come from the lexeme. -/
inductive Expr.Respelt (e : Edition) (r : Respelling) : Expr → Expr → Prop
  | same (x : Expr) : Expr.Respelt e r x x
  | infixed {x x' y y' : Expr} (op : InfixOp) (hx : Expr.Respelt e r x x')
      (hy : Expr.Respelt e r y y') : Expr.Respelt e r (.infixed x op y) (.infixed x' op y')
  | prefixed {x x' : Expr} (op : PrefixOp) (hx : Expr.Respelt e r x x') :
      Expr.Respelt e r (.prefixed op x) (.prefixed op x')
  | stepped {x x' : Expr} (op : StepOp) (hx : Expr.Respelt e r x x') :
      Expr.Respelt e r (.stepped x op) (.stepped x' op)
  | call {f f' : Expr} {xs xs' : List Expr} (hf : Expr.Respelt e r f f')
      (hxs : List.Forall₂ (Expr.Respelt e r) xs xs') : Expr.Respelt e r (.call f xs) (.call f' xs')
  | openCall {f f' : Expr} (hf : Expr.Respelt e r f f') :
      Expr.Respelt e r (.openCall f) (.openCall f')
  | ifThen {c c' : Expr} {body body' : List Stmt} (hc : Expr.Respelt e r c c')
      (hbody : List.Forall₂ (Stmt.Respelt e r) body body') :
      Expr.Respelt e r (.ifThen c body) (.ifThen c' body')
  | ifElse {c c' : Expr} {body body' alternative alternative' : List Stmt}
      (hc : Expr.Respelt e r c c') (hbody : List.Forall₂ (Stmt.Respelt e r) body body')
      (halternative : List.Forall₂ (Stmt.Respelt e r) alternative alternative') :
      Expr.Respelt e r (.ifElse c body alternative) (.ifElse c' body' alternative')

inductive Stmt.Respelt (e : Edition) (r : Respelling) : Stmt → Stmt → Prop
  | same (s : Stmt) : Stmt.Respelt e r s s
  | expr {x x' : Expr} (hx : Expr.Respelt e r x x') : Stmt.Respelt e r (.expr x) (.expr x')
  | bare {x x' : Expr} (hx : Expr.Respelt e r x x') : Stmt.Respelt e r (.bare x) (.bare x')
  | letVar {x x' : Expr} (name type : String) (hx : Expr.Respelt e r x x') :
      Stmt.Respelt e r (.letVar name x type) (.letVar name x' type)
  | ret {x x' : Expr} (hx : Expr.Respelt e r x x') : Stmt.Respelt e r (.ret x) (.ret x')
  | fn {ps ps' : Option (List Param)} {type type' : Literal} {body body' : List Stmt}
      (name : String)
      (hps : Option.Rel (List.Forall₂ (Param.Respelt e r)) ps ps')
        (htype : r.Turns e (.taken type) type type')
      (hbody : List.Forall₂ (Stmt.Respelt e r) body body') :
      Stmt.Respelt e r (.fn name ps type body) (.fn name ps' type' body')
  | assign {target target' op op' : Literal} {x x' : Expr}
      (htarget : r.Turns e (.taken target) target target')
      (hop : r.Turns e (.operator target op) op op') (hx : Expr.Respelt e r x x') :
      Stmt.Respelt e r (.assign target op x) (.assign target' op' x')
  | whileLoop {c c' : Expr} {body body' : List Stmt} (hc : Expr.Respelt e r c c')
      (hbody : List.Forall₂ (Stmt.Respelt e r) body body') :
      Stmt.Respelt e r (.whileLoop c body) (.whileLoop c' body')
  | forLoop {init init' step step' : Stmt} {c c' : Expr} {body body' : List Stmt}
      (hinit : Stmt.Respelt e r init init') (hc : Expr.Respelt e r c c')
      (hstep : Stmt.Respelt e r step step') (hbody : List.Forall₂ (Stmt.Respelt e r) body body') :
      Stmt.Respelt e r (.forLoop init c step body) (.forLoop init' c' step' body')

end

/-! ### Trees without such words -/

section Unkept

variable {e : Edition} {r : Respelling}

theorem Respelling.Turns.eq {v : TreeWord} {a b : Literal} (h : r.Turns e v a b)
    (hv : ¬ r.Spells e v) : a = b :=
  h.resolve_right fun hh => hv hh.1

theorem params_eq {ps ps' : List Param} (h : List.Forall₂ (Param.Respelt e r) ps ps')
    (hu : ∀ v ∈ ps.flatMap Param.words, ¬ r.Spells e v) : ps = ps' := by
  induction h with
  | nil => rfl
  | @cons p q ps ps' hp _ ih =>
    rw [List.flatMap_cons, List.forall_mem_append] at hu
    obtain ⟨name, type⟩ := p
    obtain ⟨name', type'⟩ := q
    obtain rfl : name = name' := hp.name.eq (hu.1 _ (by simp [Param.words]))
    obtain rfl : type = type' := hp.type.eq (hu.1 _ (by simp [Param.words]))
    rw [ih hu.2]

mutual

theorem Expr.eq_of_respelt : ∀ (x : Expr) {x' : Expr}, x.Respelt e r x' →
    (∀ v ∈ x.words, ¬ r.Spells e v) → x = x'
  | .missing, _, h, _ | .int _, _, h, _ | .float _, _, h, _ | .ident _, _, h, _ | .bool _, _, h, _
  | .str _, _, h, _ => by
    cases h
    rfl
  | .infixed x op y, _, h, hu => by
    rw [Expr.words, List.forall_mem_append] at hu
    cases h with
    | same => rfl
    | infixed _ hx hy => rw [Expr.eq_of_respelt x hx hu.1, Expr.eq_of_respelt y hy hu.2]
  | .prefixed op x, _, h, hu => by
    rw [Expr.words] at hu
    cases h with
    | same => rfl
    | prefixed _ hx => rw [Expr.eq_of_respelt x hx hu]
  | .stepped x op, _, h, hu => by
    rw [Expr.words] at hu
    cases h with
    | same => rfl
    | stepped _ hx => rw [Expr.eq_of_respelt x hx hu]
  | .openCall x, _, h, hu => by
    rw [Expr.words] at hu
    cases h with
    | same => rfl
    | openCall hx => rw [Expr.eq_of_respelt x hx hu]
  | .call f xs, _, h, hu => by
    rw [Expr.words, List.forall_mem_append] at hu
    cases h with
    | same => rfl
    | call hf hxs => rw [Expr.eq_of_respelt f hf hu.1, arguments_eq_of_respelt xs hxs hu.2]
  | .ifThen c body, _, h, hu => by
    rw [Expr.words, List.forall_mem_append] at hu
    cases h with
    | same => rfl
    | ifThen hc hbody => rw [Expr.eq_of_respelt c hc hu.1, eq_of_respelt body hbody hu.2]
  | .ifElse c body alternative, _, h, hu => by
    rw [Expr.words, List.forall_mem_append, List.forall_mem_append] at hu
    cases h with
    | same => rfl
    | ifElse hc hbody halternative =>
      rw [Expr.eq_of_respelt c hc hu.1, eq_of_respelt body hbody hu.2.1,
        eq_of_respelt alternative halternative hu.2.2]

theorem arguments_eq_of_respelt : ∀ (xs : List Expr) {xs' : List Expr},
    List.Forall₂ (Expr.Respelt e r) xs xs' → (∀ v ∈ argumentWords xs, ¬ r.Spells e v) → xs = xs'
  | [], _, .nil, _ => rfl
  | x :: xs, _, .cons hx hxs, hu => by
    rw [argumentWords, List.forall_mem_append] at hu
    rw [Expr.eq_of_respelt x hx hu.1, arguments_eq_of_respelt xs hxs hu.2]

theorem Stmt.eq_of_respelt : ∀ (s : Stmt) {s' : Stmt}, s.Respelt e r s' →
    (∀ v ∈ s.words, ¬ r.Spells e v) → s = s'
  | .missing, _, h, _ | .breakLoop, _, h, _ | .continueLoop, _, h, _
  | .importPallet _, _, h, _ => by
    cases h
    rfl
  | .expr x, _, h, hu => by
    rw [Stmt.words] at hu
    cases h with
    | same => rfl
    | expr hx => rw [Expr.eq_of_respelt x hx hu]
  | .bare x, _, h, hu => by
    rw [Stmt.words] at hu
    cases h with
    | same => rfl
    | bare hx => rw [Expr.eq_of_respelt x hx hu]
  | .ret x, _, h, hu => by
    rw [Stmt.words] at hu
    cases h with
    | same => rfl
    | ret hx => rw [Expr.eq_of_respelt x hx hu]
  | .letVar name x type, _, h, hu => by
    rw [Stmt.words] at hu
    cases h with
    | same => rfl
    | letVar _ _ hx => rw [Expr.eq_of_respelt x hx hu]
  | .assign target op x, _, h, hu => by
    rw [Stmt.words, List.forall_mem_cons, List.forall_mem_cons] at hu
    cases h with
    | same => rfl
    | assign htarget hop hx => rw [htarget.eq hu.1, hop.eq hu.2.1, Expr.eq_of_respelt x hx hu.2.2]
  | .fn name ps type body, _, h, hu => by
    rw [Stmt.words, List.forall_mem_cons, List.forall_mem_append] at hu
    cases h with
    | same => rfl
    | fn _ hps htype hbody =>
      rw [htype.eq hu.1, eq_of_respelt body hbody hu.2.2]
      cases hps with
      | none => rfl
      | some hps => rw [params_eq hps hu.2.1]
  | .whileLoop c body, _, h, hu => by
    rw [Stmt.words, List.forall_mem_append] at hu
    cases h with
    | same => rfl
    | whileLoop hc hbody => rw [Expr.eq_of_respelt c hc hu.1, eq_of_respelt body hbody hu.2]
  | .forLoop init c step body, _, h, hu => by
    rw [Stmt.words, List.forall_mem_append, List.forall_mem_append, List.forall_mem_append] at hu
    cases h with
    | same => rfl
    | forLoop hinit hc hstep hbody =>
      rw [Stmt.eq_of_respelt init hinit hu.1, Expr.eq_of_respelt c hc hu.2.1,
        Stmt.eq_of_respelt step hstep hu.2.2.1, eq_of_respelt body hbody hu.2.2.2]

theorem eq_of_respelt : ∀ (ss : List Stmt) {ss' : List Stmt}, List.Forall₂ (Stmt.Respelt e r) ss
    ss' → (∀ v ∈ words ss, ¬ r.Spells e v) → ss = ss'
  | [], _, .nil, _ => rfl
  | s :: ss, _, .cons hs hss, hu => by
    rw [words, List.forall_mem_append] at hu
    rw [Stmt.eq_of_respelt s hs hu.1, eq_of_respelt ss hss hu.2]

end

end Unkept

/-! ### Reading in step -/

namespace Respelling

/-- The two spellings of the lexeme, or one lexeme twice. -/
def Pairs (r : Respelling) (l m : Lexeme) : Prop := l = m ∨ l = ⟨r.kind, r.old⟩ ∧
    m = ⟨r.kind, r.new⟩

/-- The readings stand at the same place of the two texts. -/
structure Aligns (r : Respelling) (s t : Reading) : Prop where
  errors : s.errors = t.errors
  rest : s.rest = t.rest ∨ ∃ xs ys, s.rest = xs ++ ⟨r.kind, r.old⟩ :: ys ∧
    t.rest = xs ++ ⟨r.kind, r.new⟩ :: ys ∧ (xs = [] ∨ xs.getLast? = r.before)

variable {r : Respelling} {s t : Reading} {l m : Lexeme}

theorem Pairs.kind (h : r.Pairs l m) : l.kind = m.kind := by
  obtain rfl | ⟨rfl, rfl⟩ := h <;> rfl

theorem Pairs.eq (h : r.Pairs l m) (hk : l.kind ≠ r.kind) : l = m :=
  h.resolve_right fun hh => hk (by rw [hh.1])

theorem Pairs.taken (e : Edition) (h : r.Pairs l m) :
    r.Turns e (.taken l.literal) l.literal m.literal := by
  obtain rfl | ⟨rfl, rfl⟩ := h
  · exact .inl rfl
  · exact .inr ⟨rfl, rfl, rfl⟩

namespace Aligns

theorem advance (h : r.Aligns s t) : r.Aligns s.advance t.advance := by
  refine ⟨h.errors, ?_⟩
  obtain hrest | ⟨xs, ys, hs, ht, hbefore⟩ := h.rest
  · exact .inl (congrArg List.tail hrest)
  · cases xs with
    | nil => exact .inl (by rw [Reading.advance, Reading.advance, hs, ht]; rfl)
    | cons x xs =>
      refine .inr ⟨xs, ys, by rw [Reading.advance, hs]; rfl, by rw [Reading.advance, ht]; rfl, ?_⟩
      cases xs with
      | nil => exact .inl rfl
      | cons y xs => exact hbefore.imp (fun hnil => by cases hnil) fun hlast => by simpa using hlast

theorem current (h : r.Aligns s t) : r.Pairs s.current t.current := by
  obtain hrest | ⟨xs, ys, hs, ht, -⟩ := h.rest
  · exact .inl (by rw [Reading.current, hrest, ← Reading.current])
  · rw [Reading.current, Reading.current, hs, ht]
    cases xs with
    | nil => exact .inr ⟨rfl, rfl⟩
    | cons x xs => exact .inl rfl

theorem peek (h : r.Aligns s t) : s.peek.kind = t.peek.kind := h.advance.current.kind

/-- Where the lexeme is next, the one before it is at hand. -/
theorem operator (e : Edition) (h : r.Aligns s t) (he : e.has .compoundAssignment = true) :
    r.Turns e (.operator s.current.literal s.advance.current.literal) s.advance.current.literal
      t.advance.current.literal := by
  obtain hrest | ⟨xs, ys, hs, ht, hbefore⟩ := h.rest
  · exact .inl (by simp only [Reading.advance, Reading.current, hrest])
  · rw [Reading.current, Reading.current, Reading.current, Reading.advance, Reading.advance, hs, ht]
    cases xs with
    | nil => exact .inl rfl
    | cons x xs =>
      cases xs with
      | nil =>
        exact .inr ⟨⟨he, rfl, x, (hbefore.resolve_left (List.cons_ne_nil _ _)).symm, rfl⟩, rfl, rfl⟩
      | cons y xs => exact .inl rfl

theorem report (h : r.Aligns s t) (err : ParseError) : r.Aligns (s.report err) (t.report err) :=
  ⟨congrArg (· ++ [err]) h.errors, h.rest⟩

theorem skipToSemicolon (h : r.Aligns s t) :
    r.Aligns (Reader.skipToSemicolon s).2 (Reader.skipToSemicolon t).2 := by
  obtain ⟨herrors, hrest⟩ := h
  refine ⟨herrors, ?_⟩
  obtain hrest | ⟨xs, ys, hs, ht, hbefore⟩ := hrest
  · exact .inl (by simp only [Reader.skipToSemicolon, hrest])
  · simp only [Reader.skipToSemicolon, hs, ht]
    clear hs ht
    induction xs with
    | nil =>
      by_cases hk : r.kind = .semicolon
      · exact .inr ⟨[], ys, by simp [hk], by simp [hk], .inl rfl⟩
      · exact .inl (by simp [hk])
    | cons x xs ih =>
      by_cases hx : x.kind = .semicolon
      · exact .inr ⟨x :: xs, ys, by simp [hx], by simp [hx], hbefore⟩
      · have hbehind : xs = [] ∨ xs.getLast? = r.before := by
          cases xs with
          | nil => exact .inl rfl
          | cons y xs =>
            exact hbefore.imp (fun hnil => by cases hnil) fun hlast => by simpa using hlast
        simpa [hx] using ih hbehind

end Aligns

end Respelling

/-- From aligned readings, the readers give results in the relation and come to aligned readings. -/
def SharesReading {α : Type} (r : Respelling) (x y : Reader α) (R : α → α → Prop) : Prop :=
  ∀ ⦃s t : Reading⦄, r.Aligns s t → R (x s).1 (y t).1 ∧ r.Aligns (x s).2 (y t).2

namespace SharesReading

variable {r : Respelling} {α β : Type} {P : α → α → Prop} {Q : β → β → Prop}

theorem pure {a b : α} (h : P a b) : SharesReading r (Pure.pure a) (Pure.pure b) P :=
  fun _ _ hst => ⟨h, hst⟩

theorem bind {x y : Reader α} {f g : α → Reader β} (h : SharesReading r x y P)
    (hf : ∀ a b, P a b → SharesReading r (f a) (g b) Q) : SharesReading r (x >>= f) (y >>= g) Q :=
  fun _ _ hst => hf _ _ (h hst).1 (h hst).2

theorem report {x y : Reader β} (err : ParseError) (h : SharesReading r x y Q) :
    SharesReading r (Reader.report err >>= fun _ => x) (Reader.report err >>= fun _ => y) Q :=
  fun _ _ hst => h (hst.report err)

theorem current {f g : Lexeme → Reader β} (h : ∀ l m, r.Pairs l m → SharesReading r (f l) (g m) Q) :
    SharesReading r (Reader.current >>= f) (Reader.current >>= g) Q :=
    fun _ _ hst => h _ _ hst.current hst

/-- Where a reader does not look at the literal of the lexeme, it may be taken to be the same. -/
theorem currentKind {f g : Lexeme → Reader β} (hold : g ⟨r.kind, r.old⟩ = g ⟨r.kind, r.new⟩)
    (h : ∀ l, SharesReading r (f l) (g l) Q) :
      SharesReading r (Reader.current >>= f) (Reader.current >>= g) Q := by
  refine current fun l m hlm => ?_
  obtain rfl | ⟨rfl, rfl⟩ := hlm
  · exact h l
  · exact hold ▸ h _

theorem peekKind {f g : Kind → Reader β} (h : ∀ k, SharesReading r (f k) (g k) Q) :
    SharesReading r (Reader.peekKind >>= f) (Reader.peekKind >>= g) Q := by
  intro s t hst
  change Q (f s.peek.kind s).1 (g t.peek.kind t).1 ∧
    r.Aligns (f s.peek.kind s).2 (g t.peek.kind t).2
  rw [← hst.peek]
  exact h _ hst

theorem advance {x y : Reader β} (h : SharesReading r x y Q) :
    SharesReading r (Reader.advance >>= fun _ => x) (Reader.advance >>= fun _ => y) Q :=
  fun _ _ hst => h hst.advance

theorem skipToSemicolon {x y : Reader β} (h : SharesReading r x y Q) :
    SharesReading r (Reader.skipToSemicolon >>= fun _ => x) (Reader.skipToSemicolon >>= fun _ => y)
      Q :=
  fun _ _ hst => h hst.skipToSemicolon

theorem expect {k : Kind} {f g : Bool → Reader β} (ht : SharesReading r (f true) (g true) Q)
    (hf : SharesReading r (f false) (g false) Q) :
    SharesReading r (Reader.expect k >>= f) (Reader.expect k >>= g) Q := by
  intro s t hst
  by_cases hk : s.peek.kind = k
  · rw [Reader.expect_bind hk, Reader.expect_bind (hst.peek ▸ hk)]
    exact ht hst.advance
  · rw [Reader.expect_bind_of_ne hk, Reader.expect_bind_of_ne (hst.peek ▸ hk), hst.peek]
    exact report _ hf hst

theorem expectOther {k : Kind} {f g : Bool → Reader β} {f' g' : Lexeme → Reader β} (hk : k ≠ r.kind)
    (ht : ∀ l, SharesReading r (f' l) (g' l) Q) (hf : SharesReading r (f false) (g false) Q)
    (hf' : f true = (Reader.current >>= f')) (hg' : g true = (Reader.current >>= g')) :
    SharesReading r (Reader.expect k >>= f) (Reader.expect k >>= g) Q := by
  intro s t hst
  by_cases hs : s.peek.kind = k
  · rw [Reader.expect_bind hs, Reader.expect_bind (hst.peek ▸ hs), hf', hg']
    have hsame : s.advance.current = t.advance.current := hst.advance.current.eq fun hh =>
      hk (hs ▸ hh)
    change Q (f' s.advance.current s.advance).1 (g' t.advance.current t.advance).1 ∧
      r.Aligns (f' s.advance.current s.advance).2 (g' t.advance.current t.advance).2
    rw [← hsame]
    exact ht _ hst.advance
  · rw [Reader.expect_bind_of_ne hs, Reader.expect_bind_of_ne (hst.peek ▸ hs), hst.peek]
    exact report _ hf hst

theorem ite {p : Prop} [Decidable p] {x x' y y' : Reader α} (ht : p → SharesReading r x x' P)
    (hf : ¬ p → SharesReading r y y' P) :
      SharesReading r (if p then x else y) (if p then x' else y') P := by
  split
  · exact ht ‹p›
  · exact hf ‹¬ p›

end SharesReading

/-- The kinds that have a second spelling. Their literals are never looked at in expressions. -/
def Kind.isReserved : Kind → Bool
  | letWord | eq | semicolon | fnWord | returnWord | arrow | ifWord | elseWord | whileWord
  | breakWord | continueWord | forWord | importWord => true
  | _ => false

/-- With fuel `n`, the readers of an edition go in step. -/
structure InStep (e : Edition) (r : Respelling) (n : Nat) : Prop where
  expr (level : Nat) : SharesReading r (Parse.expr e n level) (Parse.expr e n level)
    (Expr.Respelt e r)
  continued (level : Nat) {x x' : Expr} (hx : x.Respelt e r x') :
    SharesReading r (Parse.continued e n level x) (Parse.continued e n level x') (Expr.Respelt e r)
  arguments : SharesReading r (Parse.arguments e n) (Parse.arguments e n)
    (Option.Rel (List.Forall₂ (Expr.Respelt e r)))
  moreArguments {xs xs' : List Expr} (hxs : List.Forall₂ (Expr.Respelt e r) xs xs') :
    SharesReading r (Parse.moreArguments e n xs) (Parse.moreArguments e n xs')
      (Option.Rel (List.Forall₂ (Expr.Respelt e r)))
  conditional : SharesReading r (Parse.conditional e n) (Parse.conditional e n) (Expr.Respelt e r)
  block : SharesReading r (Parse.block e n) (Parse.block e n) (List.Forall₂ (Stmt.Respelt e r))
  statements (inBlock : Bool) : SharesReading r (Parse.statements e n inBlock)
    (Parse.statements e n inBlock) (List.Forall₂ (Stmt.Respelt e r))
  statement : SharesReading r (Parse.statement e n) (Parse.statement e n)
    (Option.Rel (Stmt.Respelt e r))
  assignment : SharesReading r (Parse.assignment e n) (Parse.assignment e n) (Stmt.Respelt e r)
  letVar : SharesReading r (Parse.letVar e n) (Parse.letVar e n) (Option.Rel (Stmt.Respelt e r))
  function : SharesReading r (Parse.function e n) (Parse.function e n)
    (Option.Rel (Stmt.Respelt e r))
  expressionStep : SharesReading r (Parse.expressionStep e n) (Parse.expressionStep e n)
    (Stmt.Respelt e r)
  forLoop : SharesReading r (Parse.forLoop e n) (Parse.forLoop e n) (Option.Rel (Stmt.Respelt e r))

theorem moreParams_follow (e : Edition) (r : Respelling) (n : Nat) {ps ps' : List Param}
    (hps : List.Forall₂ (Param.Respelt e r) ps ps') :
    SharesReading r (Parse.moreParams n ps) (Parse.moreParams n ps')
      (Option.Rel (List.Forall₂ (Param.Respelt e r))) := by
  induction n generalizing ps ps' with
  | zero => exact .report _ (.pure .none)
  | succ n ih =>
    rw [Parse.moreParams, Parse.moreParams]
    refine .peekKind fun k => .ite (fun _ => ?_) fun _ => .expect (.pure (.some hps)) (.pure .none)
    refine .advance (.advance (.current fun name name' hname => .expect ?_ (.pure .none)))
    refine .advance (.current fun type type' htype => ih ?_)
    exact List.rel_append hps (.cons ⟨hname.taken e, htype.taken e⟩ .nil)

theorem params_follow (e : Edition) (r : Respelling) (n : Nat) :
    SharesReading r (Parse.params n) (Parse.params n)
      (Option.Rel (List.Forall₂ (Param.Respelt e r))) := by
  rw [Parse.params]
  refine .peekKind fun k => .ite (fun _ => .advance (.pure (.some .nil))) fun _ => ?_
  refine .advance (.current fun name name' hname => .expect ?_ (.pure .none))
  refine .advance (.current fun type type' htype => moreParams_follow e r n ?_)
  exact .cons ⟨hname.taken e, htype.taken e⟩ .nil

namespace InStep

variable {e : Edition} {r : Respelling} {n : Nat}

theorem of_zero : InStep e r 0 where
  expr _ := .report _ (.pure (.same _))
  continued _ _ _ _ := .report _ (.pure (.same _))
  arguments := .report _ (.pure .none)
  moreArguments _ := .report _ (.pure .none)
  conditional := .report _ (.pure (.same _))
  block := .report _ (.pure .nil)
  statements _ := .report _ (.pure .nil)
  statement := .report _ (.pure .none)
  assignment := .report _ (.pure (.same _))
  letVar := .report _ (.pure .none)
  function := .report _ (.pure .none)
  expressionStep := .report _ (.pure (.same _))
  forLoop := .report _ (.pure .none)

variable (h : InStep e r n)

include h

theorem block_succ : SharesReading r (Parse.block e (n + 1)) (Parse.block e (n + 1))
    (List.Forall₂ (Stmt.Respelt e r)) := by
  rw [Parse.block]
  exact .advance (h.statements _)

theorem statements_succ (inBlock : Bool) : SharesReading r (Parse.statements e (n + 1) inBlock)
    (Parse.statements e (n + 1) inBlock) (List.Forall₂ (Stmt.Respelt e r)) := by
  rw [Parse.statements]
  refine .currentKind rfl fun l => .ite (fun _ => .pure .nil) fun _ =>
    .bind h.statement fun s s' hs => ?_
  refine .advance (.bind (h.statements _) fun ss ss' hss => .pure (List.rel_append ?_ hss))
  cases hs with
  | none => exact .nil
  | some hs => exact .cons hs .nil

theorem arguments_succ : SharesReading r (Parse.arguments e (n + 1)) (Parse.arguments e (n + 1))
    (Option.Rel (List.Forall₂ (Expr.Respelt e r))) := by
  rw [Parse.arguments]
  refine .peekKind fun k => .ite (fun _ => .advance (.pure (.some .nil))) fun _ => ?_
  exact .advance (.bind (h.expr _) fun x x' hx => h.moreArguments (.cons hx .nil))

theorem moreArguments_succ {xs xs' : List Expr} (hxs : List.Forall₂ (Expr.Respelt e r) xs xs') :
    SharesReading r (Parse.moreArguments e (n + 1) xs) (Parse.moreArguments e (n + 1) xs')
      (Option.Rel (List.Forall₂ (Expr.Respelt e r))) := by
  rw [Parse.moreArguments, Parse.moreArguments]
  refine .peekKind fun k => .ite (fun _ => ?_) fun _ => .expect (.pure (.some hxs)) (.pure .none)
  refine .advance (.advance (.bind (h.expr _) fun x x' hx => h.moreArguments ?_))
  exact List.rel_append hxs (.cons hx .nil)

theorem continued_succ (level : Nat) {x x' : Expr} (hx : x.Respelt e r x') :
    SharesReading r (Parse.continued e (n + 1) level x) (Parse.continued e (n + 1) level x')
      (Expr.Respelt e r) := by
  rw [Parse.continued, Parse.continued]
  refine .peekKind fun k => ?_
  split
  · exact .pure hx
  · refine .ite (fun _ => .advance ?_) fun _ => .pure hx
    split
    · exact .advance (.bind (h.expr _) fun y y' hy => h.continued _ (.infixed _ hx hy))
    · exact h.continued _ (.stepped _ hx)
    · refine .ite (fun _ => .bind h.arguments fun args args' hargs => ?_) fun _ => .expect ?_ ?_
      · cases hargs with
        | none => exact h.continued _ (.openCall hx)
        | some hargs => exact h.continued _ (.call hx hargs)
      · exact h.continued _ (.call hx .nil)
      · exact h.continued _ (.same _)

theorem expr_succ (hk : r.kind.isReserved = true) (level : Nat) :
    SharesReading r (Parse.expr e (n + 1) level) (Parse.expr e (n + 1) level)
      (Expr.Respelt e r) := by
  have hatom : ∀ x : Expr, SharesReading r (Parse.continued e n level x)
      (Parse.continued e n level x) (Expr.Respelt e r) := fun x => h.continued level (.same x)
  have hno : ∀ k, SharesReading r (do Reader.report (.noPrefix k); return Expr.missing)
      (do Reader.report (.noPrefix k); return Expr.missing) (Expr.Respelt e r) :=
    fun k => .report _ (.pure (.same _))
  have hprefixed : ∀ op, SharesReading r
      (do Reader.advance; Parse.continued e n level (.prefixed op (← Parse.expr e n prefixLevel)))
      (do Reader.advance; Parse.continued e n level (.prefixed op (← Parse.expr e n prefixLevel)))
      (Expr.Respelt e r) :=
    fun op => .advance (.bind (h.expr _) fun x x' hx => h.continued _ (.prefixed _ hx))
  rw [Parse.expr]
  refine .currentKind ?_ fun l => ?_
  · obtain ⟨kind, old, new, before⟩ := r
    cases kind <;> first | rfl | cases hk
  split
  · exact hatom _
  · exact hatom _
  · exact .ite (fun _ => hatom _) fun _ => hno _
  · exact hatom _
  · exact hatom _
  · exact hatom _
  · refine .advance (.bind (h.expr _) fun x x' hx =>
      .expect (h.continued _ hx) (h.continued _ (.same _)))
  · exact .bind h.conditional fun x x' hx => h.continued _ hx
  · exact .ite (fun _ => hprefixed _) fun _ => hno _
  · exact hprefixed _
  · exact hno _

theorem conditional_succ : SharesReading r (Parse.conditional e (n + 1))
    (Parse.conditional e (n + 1)) (Expr.Respelt e r) := by
  rw [Parse.conditional]
  refine .advance (.bind (h.expr _) fun c c' hc => .expect ?_ (.pure (.same _)))
  refine .bind h.block fun body body' hbody => .peekKind fun k => .ite (fun _ => ?_) fun _ => ?_
  · refine .advance (.expect ?_ (.pure (.same _)))
    exact .bind h.block fun alternative alternative' ha => .pure (.ifElse hc hbody ha)
  · exact .pure (.ifThen hc hbody)

theorem assignment_succ : SharesReading r (Parse.assignment e (n + 1)) (Parse.assignment e (n + 1))
    (Stmt.Respelt e r) := by
  rw [Parse.assignment]
  intro s t hst
  -- the target is read while the lexeme may be next
  have hop : r.Turns e (.operator s.current.literal (if e.has .compoundAssignment = true then
      s.advance.current.literal else plainAssign))
      (if e.has .compoundAssignment = true then s.advance.current.literal else plainAssign)
      (if e.has .compoundAssignment = true then t.advance.current.literal else plainAssign) := by
    split
    · exact hst.operator e ‹_›
    · exact .inl rfl
  have hvalue : SharesReading r
      (do
        let value ← Parse.expr e n 0
        Reader.advance
        return Stmt.assign s.current.literal
          (if e.has .compoundAssignment = true then s.advance.current.literal
            else plainAssign) value)
      (do
        let value ← Parse.expr e n 0
        Reader.advance
        return Stmt.assign t.current.literal
          (if e.has .compoundAssignment = true then t.advance.current.literal
            else plainAssign) value)
      (Stmt.Respelt e r) :=
    .bind (h.expr _) fun x x' hx => .advance (.pure (.assign (hst.current.taken e) hop hx))
  exact hvalue hst.advance.advance

theorem letVar_succ (hk : r.kind.isReserved = true) : SharesReading r (Parse.letVar e (n + 1))
    (Parse.letVar e (n + 1)) (Option.Rel (Stmt.Respelt e r)) := by
  have hident : Kind.ident ≠ r.kind := fun hh => by rw [← hh] at hk; cases hk
  have htype : Kind.typeWord ≠ r.kind := fun hh => by rw [← hh] at hk; cases hk
  rw [Parse.letVar]
  refine .expectOther hident (fun name => ?_) (.pure .none) rfl rfl
  refine .expect (.expectOther htype (fun type => ?_) (.pure .none) rfl rfl) (.pure .none)
  refine .expect (.advance (.bind (h.expr _) fun x x' hx => .skipToSemicolon ?_)) (.pure .none)
  exact .pure (.some (.letVar _ _ hx))

theorem signatureEnd (name : String) {ps ps' : Option (List Param)}
    (hps : Option.Rel (List.Forall₂ (Param.Respelt e r)) ps ps') :
    SharesReading r (Parse.signatureEnd e n name ps) (Parse.signatureEnd e n name ps')
      (Option.Rel (Stmt.Respelt e r)) := by
  rw [Parse.signatureEnd, Parse.signatureEnd]
  refine .expect (.advance (.current fun type type' htype => .expect ?_ (.pure .none)))
    (.pure .none)
  exact .bind h.block fun body body' hbody => .pure (.some (.fn _ hps (htype.taken e) hbody))

theorem function_succ (hk : r.kind.isReserved = true) : SharesReading r (Parse.function e (n + 1))
    (Parse.function e (n + 1)) (Option.Rel (Stmt.Respelt e r)) := by
  have hident : Kind.ident ≠ r.kind := fun hh => by rw [← hh] at hk; cases hk
  rw [Parse.function]
  refine .expectOther hident (fun name => .expect ?_ (.pure .none)) (.pure .none) rfl rfl
  refine .ite (fun hh => absurd hh (by simp)) fun _ => .ite (fun _ => ?_) fun _ => ?_
  · refine .bind (params_follow e r n) fun ps ps' hps => .ite (fun _ => ?_) fun _ =>
      h.signatureEnd _ hps
    exact .expect (h.signatureEnd _ hps) (.pure .none)
  · refine .bind (.pure (.some .nil)) fun ps ps' hps => .ite (fun _ => ?_) fun _ =>
      h.signatureEnd _ hps
    exact .expect (h.signatureEnd _ hps) (.pure .none)

theorem expressionStep_succ : SharesReading r (Parse.expressionStep e (n + 1))
    (Parse.expressionStep e (n + 1)) (Stmt.Respelt e r) := by
  rw [Parse.expressionStep]
  exact .bind (h.expr _) fun x x' hx => .advance (.pure (.bare hx))

theorem forLoop_succ : SharesReading r (Parse.forLoop e (n + 1)) (Parse.forLoop e (n + 1))
    (Option.Rel (Stmt.Respelt e r)) := by
  rw [Parse.forLoop]
  refine .expect (.expect ?_ (.pure .none)) (.pure .none)
  refine .ite (fun hh => absurd hh (by simp)) fun _ => .bind h.letVar fun init init' hinit =>
    .advance ?_
  refine .bind (h.expr _) fun c c' hc => .expect ?_ (.pure .none)
  have hbody : ∀ step step' : Stmt, step.Respelt e r step' → SharesReading r
      (do
        if !(← Reader.expect .lbrace) then return none
        return some (Stmt.forLoop (init.getD .missing) c step (← Parse.block e n)))
      (do
        if !(← Reader.expect .lbrace) then return none
        return some (Stmt.forLoop (init'.getD .missing) c' step' (← Parse.block e n)))
      (Option.Rel (Stmt.Respelt e r)) := by
    intro step step' hstep
    refine .expect (.bind h.block fun body body' hb => .pure (.some (.forLoop ?_ hc hstep hb)))
      (.pure .none)
    cases hinit with
    | none => exact .same _
    | some hinit => exact hinit
  refine .ite (fun hh => absurd hh (by simp)) fun _ => .advance (.ite (fun _ => ?_) fun _ => ?_)
  · exact .bind h.expressionStep hbody
  · exact .bind h.assignment hbody

theorem statement_succ (hk : r.kind.isReserved = true) : SharesReading r (Parse.statement e (n + 1))
    (Parse.statement e (n + 1)) (Option.Rel (Stmt.Respelt e r)) := by
  have hstring : Kind.string ≠ r.kind := fun hh => by rw [← hh] at hk; cases hk
  rw [Parse.statement]
  refine .currentKind rfl fun l => .peekKind fun k => .ite (fun _ => ?_) fun _ => ?_
  · exact .bind h.assignment fun s s' hs => .pure (.some hs)
  split
  · exact h.letVar
  · exact h.function
  · refine .advance (.bind (h.expr _) fun x x' hx =>
      .expect (.pure (.some (.ret hx))) (.pure .none))
  · refine .advance (.bind (h.expr _) fun c c' hc => .expect ?_ (.pure .none))
    exact .bind h.block fun body body' hbody => .pure (.some (.whileLoop hc hbody))
  · exact .advance (.pure (.some (.same _)))
  · exact .advance (.pure (.some (.same _)))
  · exact h.forLoop
  · refine .expectOther hstring (fun path => ?_) (.pure .none) rfl rfl
    exact .expect (.pure (.some (.same _))) (.pure .none)
  · refine .bind (h.expr _) fun x x' hx => .peekKind fun k => ?_
    exact .ite (fun _ => .advance (.pure (.some (.expr hx)))) fun _ => .pure (.some (.expr hx))

omit h in
theorem all (hk : r.kind.isReserved = true) (n : Nat) : InStep e r n := by
  induction n with
  | zero => exact of_zero
  | succ n h => exact {
      expr := h.expr_succ hk
      continued := h.continued_succ
      arguments := h.arguments_succ
      moreArguments := h.moreArguments_succ
      conditional := h.conditional_succ
      block := h.block_succ
      statements := h.statements_succ
      statement := h.statement_succ hk
      assignment := h.assignment_succ
      letVar := h.letVar_succ hk
      function := h.function_succ hk
      expressionStep := h.expressionStep_succ
      forLoop := h.forLoop_succ }

end InStep

/-- A text in which one reserved lexeme is spelled otherwise has the same errors, and the same tree
up to words that come from this lexeme. -/
theorem Parsed.respelt (e : Edition) {r : Respelling} (hk : r.kind.isReserved = true)
    {xs : List Lexeme} (ys : List Lexeme) (hbefore : xs.getLast? = r.before) :
    (Parsed.ofLexemes e (xs ++ ⟨r.kind, r.new⟩ :: ys)).errors =
        (Parsed.ofLexemes e (xs ++ ⟨r.kind, r.old⟩ :: ys)).errors ∧
      List.Forall₂ (Stmt.Respelt e r) (Parsed.ofLexemes e (xs ++ ⟨r.kind, r.old⟩ :: ys)).program
        (Parsed.ofLexemes e (xs ++ ⟨r.kind, r.new⟩ :: ys)).program := by
  have haligned : r.Aligns ⟨xs ++ ⟨r.kind, r.old⟩ :: ys, []⟩ ⟨xs ++ ⟨r.kind, r.new⟩ :: ys, []⟩ :=
    ⟨rfl, .inr ⟨xs, ys, rfl, rfl, .inr hbefore⟩⟩
  obtain ⟨hprogram, hend⟩ := (InStep.all (e := e) hk
    (8 * (xs ++ ⟨r.kind, r.old⟩ :: ys).length + 8)).statements false haligned
  have hlength : (xs ++ ⟨r.kind, r.new⟩ :: ys).length = (xs ++ ⟨r.kind, r.old⟩ ::
    ys).length := by simp
  rw [Parsed.ofLexemes, Parsed.ofLexemes, hlength]
  exact ⟨hend.errors.symm, hprogram⟩

end LimeLang
