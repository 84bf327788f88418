import LimeLang.Proofs.GuardedLoops
import LimeLang.Proofs.PairedRuns

/-! What a `for` loop means. It is its initialisation and a loop whose first test comes behind the
body; a `while` loop is such a loop under its condition. Loops may be written the one way or the
other, anywhere in a program, and the code does the same. -/

namespace LimeLang

open Code

mutual

/-- Whether an expression has no `break` and `continue` that leads out of it, given the files that
have none. -/
def Expr.isJumpFree (quiet : String → Bool) : Expr → Bool
  | .ifThen _ body => areJumpFree quiet body
  | .ifElse _ body alternative => areJumpFree quiet body && areJumpFree quiet alternative
  | _ => true

def Stmt.isJumpFree (quiet : String → Bool) : Stmt → Bool
  | .expr x | .bare x => x.isJumpFree quiet
  | .whileLoop _ body => areJumpFree quiet body
  | .forLoop init _ _ _ => init.isJumpFree quiet
  | .breakLoop | .continueLoop => false
  | .importPallet path => quiet path
  | _ => true

def areJumpFree (quiet : String → Bool) : List Stmt → Bool
  | [] => true
  | st :: ss => st.isJumpFree quiet && areJumpFree quiet ss

end

/-- Whether importing a file writes no jump of a loop around the import. -/
def Files.isJumpFree (e : Edition) (files : Files) : Nat → String → Bool
  | 0, _ => true
  | depth + 1, path =>
    match files.read (Files.normalize ("tests\\" ++ path).toList) with
    | .error _ => true
    | .ok source =>
      areJumpFree (files.isJumpFree e depth)
        (Parsed.ofLexemes e (Scan.ofSource e source).lexemes).program

/-- A loop whose first test comes behind its body: the body and the step run once and then, in the
words of a source, `while c { body next }` runs. Its initialisation computes a number that is not
kept, so it is what is left of a `for` loop whose `let` stands in front of it. -/
def Stmt.untested (c : Expr) (next : Stmt) (body : List Stmt) :
    Stmt := .forLoop (.expr (.int 0)) c next body

mutual

/-- The second expression is the first one with some loops written in another way. -/
inductive Expr.Recast (quiet : String → Bool) : Expr → Expr → Prop
  | refl (x : Expr) : Expr.Recast quiet x x
  | ifThen {c body body'} : Recasts quiet body body' →
      Expr.Recast quiet (.ifThen c body) (.ifThen c body')
  | ifElse {c body body' alternative alternative'} : Recasts quiet body body' →
      Recasts quiet alternative alternative' →
      Expr.Recast quiet (.ifElse c body alternative) (.ifElse c body' alternative')

inductive Stmt.Recast (quiet : String → Bool) : Stmt → Stmt → Prop
  | refl (st : Stmt) : Stmt.Recast quiet st st
  | effect {st st' : Stmt} {x x' : Expr} : st.effect? = some x → st'.effect? = some x' →
      Expr.Recast quiet x x' → Stmt.Recast quiet st st'
  | fn {name params type body body'} : Recasts quiet body body' →
      Stmt.Recast quiet (.fn name params type body) (.fn name params type body')
  | whileLoop {c body body'} : Recasts quiet body body' →
      Stmt.Recast quiet (.whileLoop c body) (.whileLoop c body')
  | forLoop {init init' c next next' body body'} : Stmt.Recast quiet init init' →
      Recasts quiet body body' →
      Stmt.Recast quiet next next' → Stmt.Recast quiet (.forLoop init c next body)
        (.forLoop init' c next' body')
  /-- A `while` loop tests before it begins. -/
  | guarded {c body body' next} : areJumpFree quiet body = true →
      Recasts quiet body (body' ++ [next]) →
      Stmt.Recast quiet (.whileLoop c body) (.expr (.ifThen c [.untested c next body']))

inductive Recasts (quiet : String → Bool) : List Stmt → List Stmt → Prop
  | refl (ss : List Stmt) : Recasts quiet ss ss
  | cons {st st' ss ss'} : Stmt.Recast quiet st st' → Recasts quiet ss ss' →
      Recasts quiet (st :: ss) (st' :: ss')
  /-- A `for` loop initialises and does not test. -/
  | declared {init init' c next next' body body' ss ss'} : Stmt.Recast quiet init init' →
      Recasts quiet body body' → Stmt.Recast quiet next next' → Recasts quiet ss ss' →
      Recasts quiet (.forLoop init c next body :: ss) (init' :: .untested c next' body' :: ss')

end

/-- Statements without statements in them. -/
def Stmt.isPlain : Stmt → Bool
  | .missing | .letVar .. | .ret _ | .assign .. | .breakLoop | .continueLoop | .importPallet _ =>
  true
  | _ => false

section Inversion

variable {quiet : String → Bool} {c : Expr} {body : List Stmt} {st st' : Stmt}

theorem Expr.Recast.of_ifThen {y : Expr} (h : (Expr.ifThen c body).Recast quiet y) :
    ∃ body', y = .ifThen c body' ∧ Recasts quiet body body' := by
  cases h with
  | refl => exact ⟨body, rfl, .refl body⟩
  | ifThen h => exact ⟨_, rfl, h⟩

theorem Expr.Recast.of_ifElse {y : Expr} {alternative : List Stmt}
    (h : (Expr.ifElse c body alternative).Recast quiet y) : ∃ body' alternative',
      y = .ifElse c body' alternative' ∧ Recasts quiet body body' ∧
        Recasts quiet alternative alternative' := by
  cases h with
  | refl => exact ⟨body, alternative, rfl, .refl body, .refl alternative⟩
  | ifElse h h' => exact ⟨_, _, rfl, h, h'⟩

theorem Stmt.Recast.eq_of_plain (h : st.Recast quiet st') (hst : st.isPlain = true) : st' = st := by
  cases h with
  | refl => rfl
  | effect hx =>
    cases st with
    | expr | bare => cases hst
    | _ => cases hx
  | _ => cases hst

theorem Stmt.Recast.of_effect (h : st.Recast quiet st') {x : Expr} (hx : st.effect? = some x) :
    ∃ x', st'.effect? = some x' ∧ x.Recast quiet x' := by
  cases h with
  | refl => exact ⟨x, hx, .refl x⟩
  | effect hy hy' h =>
    obtain rfl := Option.some.inj (hx.symm.trans hy)
    exact ⟨_, hy', h⟩
  | _ => cases hx

theorem Stmt.Recast.of_fn {name : String} {params : Option (List Param)} {type : Literal}
    (h : (Stmt.fn name params type body).Recast quiet st') :
    ∃ body', st' = .fn name params type body' ∧ Recasts quiet body body' := by
  cases h with
  | refl => exact ⟨body, rfl, .refl body⟩
  | effect hx => cases hx
  | fn h => exact ⟨_, rfl, h⟩

theorem Stmt.Recast.of_whileLoop (h : (Stmt.whileLoop c body).Recast quiet st') :
    (∃ body', st' = .whileLoop c body' ∧ Recasts quiet body body') ∨
    ∃ body' next, st' = .expr (.ifThen c [.untested c next body']) ∧ areJumpFree quiet body = true ∧
      Recasts quiet body (body' ++ [next]) := by
  cases h with
  | refl => exact .inl ⟨body, rfl, .refl body⟩
  | effect hx => cases hx
  | whileLoop h => exact .inl ⟨_, rfl, h⟩
  | guarded hfree h => exact .inr ⟨_, _, rfl, hfree, h⟩

theorem Stmt.Recast.of_forLoop {init next : Stmt}
    (h : (Stmt.forLoop init c next body).Recast quiet st') :
    ∃ init' next' body', st' = .forLoop init' c next' body' ∧ init.Recast quiet init' ∧
      Recasts quiet body body' ∧ next.Recast quiet next' := by
  cases h with
  | refl => exact ⟨init, next, body, rfl, .refl init, .refl body, .refl next⟩
  | effect hx => cases hx
  | forLoop hinit hbody hnext => exact ⟨_, _, _, rfl, hinit, hbody, hnext⟩

theorem Recasts.of_cons {ss ts : List Stmt} (h : Recasts quiet (st :: ss) ts) :
    (∃ st' ss', ts = st' :: ss' ∧ st.Recast quiet st' ∧ Recasts quiet ss ss') ∨
    ∃ init init' c next next' body body' ss', st = .forLoop init c next body ∧
      ts = init' :: .untested c next' body' :: ss' ∧ init.Recast quiet init' ∧
      Recasts quiet body body' ∧ next.Recast quiet next' ∧ Recasts quiet ss ss' := by
  cases h with
  | refl => exact .inl ⟨st, ss, rfl, .refl st, .refl ss⟩
  | cons h h' => exact .inl ⟨_, _, rfl, h, h'⟩
  | declared hinit hbody hnext hss =>
      exact .inr ⟨_, _, _, _, _, _, _, _, rfl, rfl, hinit, hbody, hnext, hss⟩

end Inversion

section Scoping

variable {imports : Imports} {quiet : String → Bool}

mutual

theorem Expr.isClear_inLoop (k : Known) (b : Bool) : ∀ x :
    Expr, x.isClear { k with inLoop := b } = x.isClear k
  | .ident _ => rfl
  | .infixed l _ r => by rw [Expr.isClear, Expr.isClear, l.isClear_inLoop k b, r.isClear_inLoop k b]
  | .prefixed _ r => by rw [Expr.isClear, Expr.isClear, r.isClear_inLoop k b]
  | .call f args => by
    rw [Expr.isClear, Expr.isClear, areClear_inLoop k b args]
    rfl
  | .missing | .int _ | .float _ | .bool _ | .str _ | .stepped .. | .openCall _ | .ifThen
      .. | .ifElse .. => by
    rw [Expr.isClear, Expr.isClear] <;> simp

theorem areClear_inLoop (k : Known) (b : Bool) : ∀ xs :
    List Expr, areClear { k with inLoop := b } xs = areClear k xs
  | [] => rfl
  | x :: xs => by rw [areClear, areClear, x.isClear_inLoop k b, areClear_inLoop k b xs]

end

/-- Whether jumps are allowed makes no difference to what has none. -/
def Known.IsFree (scope : Known → Option Known) : Prop :=
  ∀ k k', scope k = some k' → scope { k with inLoop := false } = some { k' with inLoop := false }

mutual

theorem Expr.scope?_isFree (himports : ∀ path, quiet path = true → Known.IsFree (imports path)) :
    ∀ x : Expr, x.isJumpFree quiet = true → ∀ k k', x.scope? imports k = some k' →
      x.scope? imports { k with inLoop := false } = some { k' with inLoop := false }
  | .ifThen c body, hfree, k, _, h => by
    rw [Expr.isJumpFree] at hfree
    obtain ⟨hclear, k₁, hk₁, rfl⟩ := Expr.scope?_ifThen.mp h
    exact Expr.scope?_ifThen.mpr
      ⟨(c.isClear_inLoop k false).trans hclear, _, scopes?_isFree himports body hfree k k₁ hk₁, rfl⟩
  | .ifElse c body alternative, hfree, k, _, h => by
    rw [Expr.isJumpFree, Bool.and_eq_true] at hfree
    obtain ⟨hclear, k₁, hk₁, k₂, hk₂, rfl⟩ := Expr.scope?_ifElse.mp h
    exact Expr.scope?_ifElse.mpr
      ⟨(c.isClear_inLoop k false).trans hclear, _, scopes?_isFree himports body hfree.1 k k₁ hk₁, _,
        scopes?_isFree himports alternative hfree.2 (k.behind k₁) k₂ hk₂, rfl⟩
  | .stepped x op, _, k, _, h => by
    obtain ⟨hclear, rfl⟩ := Expr.scope?_stepped.mp h
    exact Expr.scope?_stepped.mpr ⟨hclear, rfl⟩
  | .missing, _, k, _, h | .int _, _, k, _, h | .float _, _, k, _, h | .bool _, _, k, _, h
  | .str _, _, k, _, h | .openCall _, _, k, _, h | .ident _, _, k, _, h | .infixed .., _, k, _, h
  | .prefixed .., _, k, _, h | .call .., _, k, _, h => by
    simp only [Expr.scope?, Option.ite_none_right_eq_some, Option.some.injEq] at h ⊢
    obtain ⟨hclear, rfl⟩ := h
    exact ⟨(Expr.isClear_inLoop k false _).trans hclear, rfl⟩

theorem Stmt.scope?_isFree (himports : ∀ path, quiet path = true → Known.IsFree (imports path)) :
    ∀ st : Stmt, st.isJumpFree quiet = true → ∀ k k', st.scope? imports k = some k' →
      st.scope? imports { k with inLoop := false } = some { k' with inLoop := false }
  | .expr x, hfree, k, k', h | .bare x, hfree, k, k', h => by
    rw [Stmt.isJumpFree] at hfree
    rw [Stmt.scope?] at h ⊢
    exact Expr.scope?_isFree himports x hfree k k' h
  | .letVar name x type, _, k, _, h => by
    obtain ⟨hclear, rfl⟩ := Stmt.scope?_letVar.mp h
    exact Stmt.scope?_letVar.mpr ⟨by rwa [x.isClear_inLoop], rfl⟩
  | .ret x, _, k, _, h => by
    obtain ⟨hclear, rfl⟩ := Stmt.scope?_ret.mp h
    exact Stmt.scope?_ret.mpr ⟨by rwa [x.isClear_inLoop], rfl⟩
  | .assign target op x, _, k, _, h => by
    obtain ⟨hclear, rfl⟩ := Stmt.scope?_assign.mp h
    exact Stmt.scope?_assign.mpr ⟨by rwa [x.isClear_inLoop], rfl⟩
  | .missing, _, k, _, h => by
    rw [Stmt.scope?] at h ⊢
    rw [Option.some.inj h]
  | .fn name params type body, _, k, _, h => by
    obtain ⟨k₁, hk₁, rfl⟩ := Stmt.scope?_fn.mp h
    exact Stmt.scope?_fn.mpr ⟨k₁, hk₁, rfl⟩
  | .whileLoop c body, hfree, k, _, h => by
    rw [Stmt.isJumpFree] at hfree
    obtain ⟨hclear, k₁, hk₁, hclear₁, rfl⟩ := Stmt.scope?_whileLoop.mp h
    exact Stmt.scope?_whileLoop.mpr
      ⟨(c.isClear_inLoop k false).trans hclear, _, scopes?_isFree himports body hfree k k₁ hk₁,
        (c.isClear_inLoop k₁ false).trans hclear₁, rfl⟩
  | .breakLoop, hfree, _, _, _ | .continueLoop, hfree, _, _, _ => by
    rw [Stmt.isJumpFree] at hfree
    cases hfree
  | .forLoop init c next body, hfree, k, _, h => by
    rw [Stmt.isJumpFree] at hfree
    obtain ⟨k₁, hk₁, k₂, hk₂, k₃, hk₃, hclear, rfl⟩ := Stmt.scope?_forLoop.mp h
    exact Stmt.scope?_forLoop.mpr
      ⟨_, Stmt.scope?_isFree himports init hfree k k₁ hk₁, k₂, hk₂, k₃, hk₃, hclear, rfl⟩
  | .importPallet path, hfree, k, k', h => by
    rw [Stmt.isJumpFree] at hfree
    rw [Stmt.scope?] at h ⊢
    exact himports path hfree k k' h

theorem scopes?_isFree (himports : ∀ path, quiet path = true → Known.IsFree (imports path)) :
    ∀ ss : List Stmt, areJumpFree quiet ss = true → ∀ k k', scopes? imports k ss = some k' →
      scopes? imports { k with inLoop := false } ss = some { k' with inLoop := false }
  | [], _, _, _, h => by
    rw [scopes?] at h ⊢
    rw [Option.some.inj h]
  | st :: ss, hfree, k, k', h => by
    rw [areJumpFree, Bool.and_eq_true] at hfree
    rw [scopes?] at h ⊢
    obtain ⟨k₁, hk₁, h⟩ := Option.bind_eq_some_iff.mp h
    exact Option.bind_eq_some_iff.mpr
      ⟨_, Stmt.scope?_isFree himports st hfree.1 k k₁ hk₁, scopes?_isFree himports ss hfree.2 k₁ k'
      h⟩

end

theorem Files.scope?_isFree (e : Edition) (files : Files) (depth : Nat) (path : String)
    (hfree : files.isJumpFree e depth path = true) : Known.IsFree (files.scope? e depth path) := by
  induction depth generalizing path with
  | zero =>
    intro k k' h
    rw [Files.scope?] at h ⊢
    rw [Option.some.inj h]
  | succ depth ih =>
    intro k k' h
    rw [Files.isJumpFree] at hfree
    rw [Files.scope?] at h ⊢
    cases hread : files.read (Files.normalize ("tests\\" ++ path).toList) with
    | error error =>
      simp only [hread] at h ⊢
      rw [Option.some.inj h]
    | ok source =>
      simp only [hread] at h hfree ⊢
      obtain ⟨k₁, hk₁, rfl⟩ := Option.map_eq_some_iff.mp h
      exact Option.map_eq_some_iff.mpr ⟨_, scopes?_isFree ih _ hfree k k₁ hk₁, rfl⟩

end Scoping

namespace Gen

variable {e : Edition} {importer : String → Gen Unit} {c : Expr} {next : Stmt} {body : List Stmt}

theorem statement_forLoop_eq {init : Stmt} : statement e importer (.forLoop init c next body) = (do
    enterScope
    statement e importer init
    forBody e c (do statements e importer body; statement e importer next)) := by
  rw [statement_forLoop]
  simp only [openFor, forBody, bind_assoc]

theorem statement_untested : statement e importer (.untested c next body) = (do
    enterScope
    forBody e c (do statements e importer body; statement e importer next)) := by
  rw [Stmt.untested, statement_forLoop_eq, statement, effect, pure_bind]

theorem effect_guarded : effect e importer (.ifThen c [.untested c next body]) = (do
    let l ← openGuard e c
    statements e importer (body ++ [next])
    closeGuard e c l) := by
  rw [effect_ifThen, statements_singleton, statement_untested, statements_append,
    statements_singleton]
  simp only [openGuard, closeGuard, forBody, bind_assoc, pure_bind]

end Gen

section Agreeing

variable {e : Edition} {k k₁ k₂ : Known} {c : Expr} {g g' f f' : Gen Unit}

theorem enterLeft_agree : Agree k k Gen.enterScope (pure ()) where
  own _ h := h
  inLoop := rfl
  run ρ _ _ _ h := .ok rfl rfl ⟨ρ, ⟨⟨.refl ρ, .of_blocks rfl _, ⟨List.tail_suffix _, .refl _⟩,
    ⟨List.suffix_rfl, .refl _⟩⟩, rfl, rfl⟩, h.enterLeft⟩

theorem enterRight_agree : Agree k k (pure ()) Gen.enterScope where
  own _ h := h
  inLoop := rfl
  run ρ _ _ _ h := .ok rfl rfl ⟨ρ, ⟨⟨.refl ρ, .of_blocks rfl _, ⟨List.suffix_rfl, .refl _⟩,
    ⟨List.tail_suffix _, .refl _⟩⟩, rfl, rfl⟩, h.enterRight⟩

theorem forLoop_agree (hinit : Agree k k₁ g g') (hbody : Agree { k₁ with inLoop := true } k₂ f f')
    (hc : c.isClear k₂ = true) : Agree k (k₁.behind k₂) (do Gen.enterScope; g; Gen.forBody e c f)
      (do Gen.enterScope; g'; Gen.forBody e c f') := by
  have h := enterLeft_agree.seq (enterRight_agree.seq (hinit.seq (forBody_agree (e := e) hbody hc)))
  simpa only [pure_bind] using h

/-- A `for` loop is its initialisation and a loop without one. -/
theorem declared_agree (hinit : Agree k k₁ g g') (hbody : Agree { k₁ with inLoop := true } k₂ f f')
    (hc : c.isClear k₂ = true) : Agree k (k₁.behind k₂) (do Gen.enterScope; g; Gen.forBody e c f)
      (do g'; Gen.enterScope; Gen.forBody e c f') := by
  have h := enterLeft_agree.seq (hinit.seq (enterRight_agree.seq (forBody_agree (e := e) hbody hc)))
  simpa only [pure_bind] using h

end Agreeing

section Statements

variable {e : Edition} {importer : String → Gen Unit} {imports : Imports} {quiet : String → Bool}
  (he : e.has .functions = true)
  (himport : ∀ path k k', imports path k = some k' → Agree k k' (importer path) (importer path))
  (happend : ∀ path, Appending (importer path)) (hquiet : ∀ path, quiet path = true →
    Known.IsFree (imports path))

include he himport happend hquiet

-- two of the theorems use them through the third one only
set_option linter.unusedSectionVars false

mutual

theorem effect_agree : ∀ (x : Expr) {x' : Expr} {k k' : Known}, x.Recast quiet x' →
    x.scope? imports k = some k' → Agree k k' (Gen.effect e importer x) (Gen.effect e importer x')
  | .missing, _, _, _, hx, h => by
    cases hx
    simp only [Expr.scope?, Option.ite_none_right_eq_some, Option.some.injEq] at h
    obtain ⟨-, rfl⟩ := h
    rw [Gen.effect]
    exact .of_tandem fun _ _ _ _ _ => .throw
  | .int _, _, _, _, hx, h | .float _, _, _, _, hx, h | .ident _, _, _, _, hx, h
  | .bool _, _, _, _, hx, h | .str _, _, _, _, hx, h | .prefixed .., _, _, _, hx, h => by
    cases hx
    simp only [Expr.scope?, Option.ite_none_right_eq_some, Option.some.injEq] at h
    obtain ⟨-, rfl⟩ := h
    rw [Gen.effect]
    exact .of_tandem fun _ _ _ _ h => .pure h trivial
  | .infixed .., _, _, _, hx, h | .call .., _, _, _, hx, h | .openCall _, _, _, _, hx, h => by
    cases hx
    simp only [Expr.scope?, Option.ite_none_right_eq_some, Option.some.injEq] at h
    obtain ⟨hclear, rfl⟩ := h
    rw [Gen.effect]
    exact .of_tandem fun _ _ _ _ h => (value_tandem e _ h hclear).bind fun _ _ _ _ _ _ h _ =>
      .pure h trivial
  | .stepped x op, _, _, _, hx, h => by
    cases hx
    obtain ⟨hclear, rfl⟩ := Expr.scope?_stepped.mp h
    rw [Gen.effect]
    exact .of_tandem fun _ _ _ _ h => step_tandem h hclear
  | .ifThen c body, _, _, _, hx, h => by
    obtain ⟨body', rfl, hbody⟩ := hx.of_ifThen
    obtain ⟨hclear, k₁, hk₁, rfl⟩ := Expr.scope?_ifThen.mp h
    rw [Gen.effect_ifThen, Gen.effect_ifThen]
    exact ifThen_agree hclear (statements_agree body hbody hk₁)
  | .ifElse c body alternative, _, _, _, hx, h => by
    obtain ⟨body', alternative', rfl, hbody, halternative⟩ := hx.of_ifElse
    obtain ⟨hclear, k₁, hk₁, k₂, hk₂, rfl⟩ := Expr.scope?_ifElse.mp h
    rw [Gen.effect_ifElse, Gen.effect_ifElse]
    exact ifElse_agree hclear (statements_agree body hbody hk₁)
      (statements_agree alternative halternative hk₂)

theorem statement_agree : ∀ (st : Stmt) {st' : Stmt} {k k' : Known}, st.Recast quiet st' →
    st.scope? imports k = some k' → Agree k k' (Gen.statement e importer st)
    (Gen.statement e importer st')
  | .missing, _, _, _, hst, h => by
    obtain rfl := hst.eq_of_plain rfl
    rw [Stmt.scope?] at h
    obtain rfl := Option.some.inj h
    rw [Gen.statement]
    exact .of_tandem fun _ _ _ _ _ => .throw
  | .expr x, _, _, _, hst, h | .bare x, _, _, _, hst, h => by
    obtain ⟨x', hx', hx⟩ := hst.of_effect rfl
    rw [Stmt.scope?] at h
    rw [Gen.statement_effect hx', Gen.statement]
    exact effect_agree x hx h
  | .letVar name x type, _, _, _, hst, h => by
    obtain rfl := hst.eq_of_plain rfl
    obtain ⟨hclear, rfl⟩ := Stmt.scope?_letVar.mp h
    obtain ⟨hx, hname⟩ := Bool.and_eq_true_iff.mp hclear
    exact letVar_agree he hx hname
  | .ret x, _, _, _, hst, h => by
    obtain rfl := hst.eq_of_plain rfl
    obtain ⟨hclear, rfl⟩ := Stmt.scope?_ret.mp h
    rw [Gen.statement]
    exact .of_tandem fun _ _ _ _ h => (value_tandem e x h hclear).bind fun _ _ _ _ _ _ h hv =>
      ret_tandem h hv.value
  | .fn name none type body, _, _, _, hst, h => by
    obtain ⟨body', rfl, -⟩ := hst.of_fn
    obtain ⟨k₁, -, rfl⟩ := Stmt.scope?_fn.mp h
    rw [Gen.statement, Gen.statement]
    exact .of_tandem fun _ _ _ _ _ => .throw
  | .fn name (some params) type body, _, _, _, hst, h => by
    obtain ⟨body', rfl, hbody⟩ := hst.of_fn
    obtain ⟨k₁, hk₁, rfl⟩ := Stmt.scope?_fn.mp h
    exact fn_agree (statements_agree body hbody hk₁)
  | .assign target op x, _, _, _, hst, h => by
    obtain rfl := hst.eq_of_plain rfl
    obtain ⟨hclear, rfl⟩ := Stmt.scope?_assign.mp h
    obtain ⟨htarget, hx⟩ := Bool.and_eq_true_iff.mp hclear
    exact .of_tandem fun _ _ _ _ h => assign_tandem e importer h htarget hx
  | .whileLoop c body, _, k, _, hst, h => by
    obtain ⟨hclear, k₁, hk₁, hclear₁, rfl⟩ := Stmt.scope?_whileLoop.mp h
    rw [Gen.statement_whileLoop]
    rcases hst.of_whileLoop with ⟨body', rfl, hbody⟩ | ⟨body', next, rfl, hfree, hbody⟩
    · rw [Gen.statement_whileLoop]
      exact whileLoop_agree hclear (statements_agree body hbody hk₁) hclear₁
    · -- only a `for` loop is noted as a loop, so the bodies agree only where no jump may stand
      have hagree := statements_agree body hbody (scopes?_isFree hquiet body hfree k k₁ hk₁)
      rw [Gen.statement, Gen.effect_guarded]
      exact (guarded_agree (e := e) hclear hagree ((c.isClear_inLoop k₁ false).trans hclear₁)
        (statements_appending happend body) (statements_appending happend (body' ++ [next])) :)
  | .breakLoop, _, _, _, hst, h => by
    obtain rfl := hst.eq_of_plain rfl
    rw [Stmt.scope?] at h
    obtain ⟨hloop, h⟩ := Option.ite_none_right_eq_some.mp h
    obtain rfl := Option.some.inj h
    exact breakLoop_agree hloop
  | .continueLoop, _, _, _, hst, h => by
    obtain rfl := hst.eq_of_plain rfl
    rw [Stmt.scope?] at h
    obtain ⟨hloop, h⟩ := Option.ite_none_right_eq_some.mp h
    obtain rfl := Option.some.inj h
    exact continueLoop_agree hloop
  | .forLoop init c next body, _, _, _, hst, h => by
    obtain ⟨init', next', body', rfl, hinit, hbody, hnext⟩ := hst.of_forLoop
    obtain ⟨k₁, hk₁, k₂, hk₂, k₃, hk₃, hclear, rfl⟩ := Stmt.scope?_forLoop.mp h
    rw [Gen.statement_forLoop_eq, Gen.statement_forLoop_eq]
    exact forLoop_agree (statement_agree init hinit hk₁)
      ((statements_agree body hbody hk₂).seq
        (statement_agree next hnext hk₃)) hclear
  | .importPallet path, _, k, k', hst, h => by
    obtain rfl := hst.eq_of_plain rfl
    rw [Stmt.scope?] at h
    rw [Gen.statement]
    exact himport path k k' h

theorem statements_agree : ∀ (ss : List Stmt) {ss' : List Stmt} {k k' : Known},
    Recasts quiet ss ss' →
    scopes? imports k ss = some k' → Agree k k' (Gen.statements e importer ss)
      (Gen.statements e importer ss')
  | [], _, _, _, hss, h => by
    cases hss
    rw [scopes?] at h
    obtain rfl := Option.some.inj h
    rw [Gen.statements]
    exact .of_tandem fun _ _ _ _ h => .pure h trivial
  | st :: ss, _, k, k', hss, h => by
    rw [scopes?] at h
    obtain ⟨k₁, hk₁, hk'⟩ := Option.bind_eq_some_iff.mp h
    rcases hss.of_cons with ⟨st', ss', rfl, hst, hss'⟩ |
      ⟨_, init', _, _, next', _, body', ss', heq, rfl, hinit, hbody, hnext, hss'⟩
    · rw [Gen.statements, Gen.statements]
      exact (statement_agree st hst hk₁).seq
        (statements_agree ss hss' hk')
    · cases st with
      | forLoop init c next body =>
        obtain ⟨rfl, rfl, rfl, rfl⟩ := Stmt.forLoop.inj heq
        obtain ⟨k₂, hk₂, k₃, hk₃, k₄, hk₄, hclear, rfl⟩ := Stmt.scope?_forLoop.mp hk₁
        have hloop := declared_agree (e := e) (statement_agree init hinit hk₂)
          ((statements_agree body hbody hk₃).seq
            (statement_agree next hnext hk₄)) hclear
        rw [Gen.statements, Gen.statements, Gen.statements, Gen.statement_forLoop_eq,
          Gen.statement_untested]
        simpa only [bind_assoc] using hloop.seq (statements_agree ss hss' hk')
      | _ => cases heq

end

end Statements

section Importing

variable {k k₁ k₂ : Known} {g g' f f' : Gen Unit}

theorem Agree.weaken (h : Agree k k₁ g g') (hown : ∀ name, k.owns name = true → k₂.owns name = true)
    (hloop : k₂.inLoop = k.inLoop) (hadmits : ∀ name, k₂.admits name = true → k₁.admits name = true)
    (hknows : ∀ name, k₁.knows name = true → k₂.knows name = true) : Agree k k₂ g g' where
  own := hown
  inLoop := hloop
  run ρ r s t hst := by
    refine (h.run ρ r s t hst).mono ?_
    rintro _ _ s' t' - - ⟨σ, hret, h'⟩
    exact ⟨σ, hret, h'.weaken hadmits hknows fun hk => h.inLoop.trans (hloop.symm.trans hk)⟩

/-- What a file declares is not relied on. -/
theorem Agree.imported (h : Agree k k₁ g g') {all : List Literal} (hall : k₁.all ⊆ all) :
    Agree k { k with all } g g' := by
  have hknows : ∀ name, k₁.knows name = true → all.any (·.same name) = true := by
    intro name hname
    obtain ⟨l, hl, hsame⟩ := List.any_eq_true.mp hname
    exact List.any_eq_true.mpr ⟨l, hall hl, hsame⟩
  refine h.weaken (fun _ h => h) rfl (fun name hname => ?_) hknows
  rw [Known.admits, Bool.or_eq_true] at hname ⊢
  refine hname.imp (h.own name) fun hname => ?_
  cases hk : k₁.all.any (·.same name) with
  | false => rfl
  | true =>
    rw [hknows name hk] at hname
    cases hname

theorem Agree.choice {c : Prop} [Decidable c] (hg : Agree k k₁ g g') (hf : Agree k k₁ f f') :
    Agree k k₁ (if c then g else f) (if c then g' else f') := by
  split
  · exact hg
  · exact hf

theorem Agree.forM {α : Type} {f : α → Gen Unit} (h : ∀ x, Agree k k (f x) (f x)) (xs : List α) :
    Agree k k (xs.forM f) (xs.forM f) := by
  induction xs with
  | nil => exact .of_tandem fun _ _ _ _ h => .pure h trivial
  | cons x xs ih => exact (h x).seq ih

theorem Agree.noted {m : Session → Session} (hstays : ∀ s : Session, s.Stays (m s))
    (hassembly : ∀ s, (m s).assembly = s.assembly) (hnotes : ∀ s t, s.notes = t.notes →
    (m s).notes = (m t).notes) : Agree k k (modify m) (modify m) :=
  .of_tandem fun _ _ s t h => .noted h rfl rfl (hstays s) (hstays t) (hassembly s) (hassembly t)
    (hnotes s t h.notes) trivial

theorem Agree.get {f f' : Session → Gen Unit} (hown : ∀ name, k.owns name = true →
    k₁.owns name = true)
    (hloop : k₁.inLoop = k.inLoop) (h : ∀ s t, s.notes = t.notes → Agree k k₁ (f s) (f' t)) :
    Agree k k₁ (MonadState.get >>= f) (MonadState.get >>= f') :=
  ⟨hown, hloop, fun ρ r s t hst => .left rfl (.right rfl ((h s t hst.notes).run ρ r s t hst))⟩

variable {e : Edition}

theorem importer_agree (he : e.has .functions = true) (files : Files) (depth : Nat) (path : String)
    (k k' : Known) (h : files.scope? e depth path k = some k') :
    Agree k k' (Gen.importer e files depth path) (Gen.importer e files depth path) := by
  induction depth generalizing path k k' with
  | zero =>
    obtain rfl := Option.some.inj h
    exact .of_tandem fun _ _ _ _ _ => .throw
  | succ depth ih =>
    have hprint : ∀ line, Agree k k (Gen.print line) (Gen.print line) := fun line =>
      .of_tandem fun _ _ _ _ h => print_tandem h line
    rw [Files.scope?] at h
    rw [Gen.importer]
    cases hread : files.read (Files.normalize ("tests\\" ++ path).toList) with
    | error error =>
      simp only [hread] at h ⊢
      obtain rfl := Option.some.inj h
      refine .get (fun _ h => h) rfl fun s t hst => ?_
      rw [show s.pallets = t.pallets from congrArg Notes.pallets hst]
      exact .choice (hprint _) (.of_tandem fun _ _ _ _ _ => .throw)
    | ok source =>
      simp only [hread] at h ⊢
      obtain ⟨k₁, hk₁, rfl⟩ := Option.map_eq_some_iff.mp h
      refine .get (fun _ h => h) rfl fun s t hst => ?_
      rw [show s.pallets = t.pallets from congrArg Notes.pallets hst]
      refine .choice ((hprint _).imported (List.subset_append_right _ _)) ?_
      have hopen : Agree k k (modify fun s => { s with opened := s.opened ++ [path] })
          (modify fun s => { s with opened := s.opened ++ [path] }) :=
        .noted (fun _ => ⟨rfl, rfl, rfl, .refl _⟩) (fun _ => rfl) fun s t h =>
          congrArg (fun n : Notes => { n with opened := n.opened ++ [path] }) h
      have hfinish : ∀ k, Agree k k (modify fun s => { s with pallets := s.pallets ++ [path] })
          (modify fun s => { s with pallets := s.pallets ++ [path] }) := fun k =>
        .noted (fun _ => ⟨rfl, rfl, rfl, .refl _⟩) (fun _ => rfl) fun s t h =>
          congrArg (fun n : Notes => { n with pallets := n.pallets ++ [path] }) h
      refine hopen.seq ((Agree.forM (fun n => hprint _) _).seq ?_)
      cases (Scan.ofSource e source).failure with
      | some failure => exact .fails (fun _ h => h) rfl
      | none =>
        refine .choice ?_ ?_
        · rw [Gen.program, if_pos he]
          have hquiet : ∀ path, (fun _ : String => false) path = true →
              Known.IsFree (files.scope? e depth path) := fun _ h => by cases h
          have hbody := statements_agree he ih (importer_appending he files depth) hquiet
            _ (.refl _) hk₁
          exact (hbody.imported (List.subset_append_left _ _)).seq (hfinish _)
        · exact (hprint _).seq ((Agree.forM (fun error => hprint _) _).seq
            (.fails (fun _ h => h) rfl))

end Importing

section Programs

/-- Before anything is written, both sides have the parameters of the same routines. -/
def Pairing.initial (a : Assembly) : Pairing where
  instrs _ _ _ := False
  blocks _ _ _ := False
  detours _ _ _ := False
  params r n := ∃ f, a.routine? r = some f ∧ n ∈ f.params.map Prod.fst

theorem fits_start (e : Edition) :
    (Pairing.initial (Session.start e).assembly).Fits (Session.start e).assembly
      (Session.start e).assembly where
  outlines n := by
    rw [Assembly.outline?]
    cases hi : (Session.start e).assembly.item? n with
    | none => exact .none
    | some i =>
      cases i with
      | constant c => exact .some (.constant c)
      | routine f =>
        obtain rfl := Session.routine_mem_start
          (Assembly.mem_of_routine? (Assembly.routine?_eq_some.mpr hi))
        exact .some (.routine _ _ _ .none)
  code _ _ _ h := h.elim
  unique _ _ _ _ _ h := h.elim
  left _ _ _ h := h.elim
  right _ _ _ h := h.elim
  mates _ _ _ h := h.elim
  names _ _ _ _ _ h := h.elim
  apart _ _ _ _ _ h := h.elim
  used r n := by
    rintro ⟨f, hf, hn⟩
    obtain ⟨p, hp, rfl⟩ := List.mem_map.mp hn
    obtain rfl := Session.routine_mem_start (Assembly.mem_of_routine? hf)
    exact ⟨_, _, hf, hf, Routine.declare_used _ _ _ _ p hp, Routine.declare_used _ _ _ _ p hp⟩
  given r f hf p hp := ⟨f, hf, List.mem_map_of_mem hp⟩

theorem alike_start (e : Edition) :
    Alike (.initial (Session.start e).assembly) .empty none (Session.start e)
      (Session.start e) := by
  have hcode := Session.code?_start e
  have hvalid := Session.valid_start e
  have hdistinct : (Session.start e).assembly.Distinct := ⟨by simp [hcode], by simp [hcode]⟩
  -- names of a new session stand for globals
  have hglobal : ∀ name b, (Session.start e).scopes.find? name = some b →
      ∃ m ty, b.value = .global m ty := by
    intro name b hb
    rcases hvalid.typed.find? hb with ⟨q, is, _, hq, -⟩ | ⟨r, -, hr, -⟩ | ⟨i, hi, -, hi', -⟩
    · simp [hcode] at hq
    · exact ⟨_, _, hr⟩
    · rcases List.mem_pair.mp hi with rfl | rfl
      · exact ⟨_, _, hi'⟩
      · exact ⟨_, _, hi'⟩
  refine ⟨⟨⟨fits_start e, ⟨hvalid.sound, hdistinct⟩, ⟨hvalid.sound, hdistinct⟩⟩, fun _ _ _ h =>
    h.elim, rfl⟩, rfl, .none, fun name _ => ?_, fun name b n ty hb hv => ?_, fun h => by cases h⟩
  · cases hb : (Session.start e).scopes.find? name with
    | none => exact .none
    | some b =>
      obtain ⟨m, ty, hm⟩ := hglobal name b hb
      exact .some ⟨rfl, hm ▸ .global m ty⟩
  · obtain ⟨m, ty', hm⟩ := hglobal name b hb
    rw [hm] at hv
    cases hv

/-- A `for` loop means its initialisation and a loop that is not tested before its body; a `while`
loop means such a loop under its condition. Wherever loops of a scoped program are written so, it
compiles as before, and every call of a routine prints the same bytes and comes to the same result,
or to none. -/
theorem recast_program_runs_alike {e : Edition} {files : Files} {p q : Program}
    (he : e.has .functions = true)
    (hpq : Recasts (files.isJumpFree e Gen.maxImportDepth) p q)
      (hscoped : p.isScoped e files = true) :
    let left := (Session.start e).compile e files p
    let right := (Session.start e).compile e files q
    (left.1 = .ok () ↔ right.1 = .ok ()) ∧
    (left.1 = .ok () → left.2.errors = right.2.errors ∧ left.2.output = right.2.output ∧
      ∀ name args o, o ≠ .outOfFuel →
        ((∃ n, left.2.assembly.call n name args = o) ↔
          ∃ n, right.2.assembly.call n name args = o)) := by
  intro left right
  rw [Program.isScoped] at hscoped
  obtain ⟨k', hk'⟩ := Option.isSome_iff_exists.mp hscoped
  have hagree := statements_agree he (importer_agree he files Gen.maxImportDepth)
    (importer_appending he files Gen.maxImportDepth)
      (Files.scope?_isFree e files Gen.maxImportDepth) p hpq hk'
  have hrun : ∀ p, (Session.start e).compile e files p =
      (Gen.statements e (Gen.importer e files Gen.maxImportDepth) p).run (Session.start e) := by
    intro p
    rw [Session.compile, Gen.program, if_pos he]
  rcases hagree.run _ _ _ _ (alike_start e) with
    ⟨_, _, s, t, hp, hq, σ, -, hst⟩ | ⟨f, f', s, t, hp, hq⟩
  · have hleft : left = (.ok (), s) := (hrun p).trans hp
    have hright : right = (.ok (), t) := (hrun q).trans hq
    rw [hleft, hright]
    exact ⟨Iff.rfl, fun _ => ⟨congrArg Notes.errors hst.notes, congrArg Notes.output hst.notes,
      fun name args o ho => hst.fits.call_ends hst.settled name args ho⟩⟩
  · have hleft : left = (.error f, s) := (hrun p).trans hp
    have hright : right = (.error f', t) := (hrun q).trans hq
    rw [hleft, hright]
    exact ⟨⟨fun h => (by cases h), fun h => (by cases h)⟩, fun h => (by cases h)⟩

/-- A `while` loop inside of a `for` loop, both written in the other way. -/
theorem recast_program_runs_alike_nested :
    let add : Stmt := .assign (.text "s") (.text "+=") (.ident "j")
    let tell : Stmt := .expr (.call (.ident "printf") [.str "%i ", .ident "s"])
    let below (x : String) (n : Nat) : Expr := .infixed (.ident x) .lt (.int n)
    let p : Program := [.fn "main" (some []) (.text "int")
      [.letVar "s" (.int 0) "int",
       .forLoop (.letVar "i" (.int 0) "int") (below "i" 3)
         (.bare (.stepped (.ident "i") .increment)) [.letVar "j" (.ident "i") "int",
          .whileLoop (below "j" 2) [add, .expr (.stepped (.ident "j") .increment)], tell],
       .ret (.ident "s")]]
    let q : Program := [.fn "main" (some []) (.text "int")
      [.letVar "s" (.int 0) "int", .letVar "i" (.int 0) "int",
       .untested (below "i" 3) (.bare (.stepped (.ident "i") .increment))
         [.letVar "j" (.ident "i") "int",
          .expr (.ifThen (below "j" 2) [.untested (below "j" 2)
          (.bare (.stepped (.ident "j") .increment)) [add]]), tell],
       .ret (.ident "s")]]
    ((Session.start .latest).compile .latest ⟨[], []⟩ p).2.assembly.call 200 "main" [] =
      .done (.int 32 2, [49, 32, 50, 32, 50, 32]) ∧
    let left := (Session.start .latest).compile .latest ⟨[], []⟩ p
    let right := (Session.start .latest).compile .latest ⟨[], []⟩ q
    (left.1 = .ok () ↔ right.1 = .ok ()) ∧
    (left.1 = .ok () → left.2.errors = right.2.errors ∧ left.2.output = right.2.output ∧
      ∀ name args o, o ≠ .outOfFuel →
        ((∃ n, left.2.assembly.call n name args = o) ↔
          ∃ n, right.2.assembly.call n name args = o)) := by
  intro add tell below p q
  have hcall : ((Session.start .latest).compile .latest ⟨[], []⟩ p).2.assembly.call 200 "main" [] =
    .done (.int 32 2, [49, 32, 50, 32, 50, 32]) := by decide +kernel
  have hscoped : p.isScoped .latest ⟨[], []⟩ = true := by decide +kernel
  have hinner : Stmt.Recast (Files.isJumpFree .latest ⟨[], []⟩ Gen.maxImportDepth)
      (.whileLoop (below "j" 2) [add, .expr (.stepped (.ident "j") .increment)])
      (.expr (.ifThen (below "j" 2) [.untested (below "j" 2)
          (.bare (.stepped (.ident "j") .increment)) [add]])) :=
    .guarded rfl (.cons (.refl _) (.cons (.effect rfl rfl (.refl _)) (.refl _)))
  have hpq : Recasts (Files.isJumpFree .latest ⟨[], []⟩ Gen.maxImportDepth) p q :=
    .cons (.fn (.cons (.refl _) (.declared (.refl _) (.cons (.refl _) (.cons hinner (.refl _)))
      (.refl _) (.refl _)))) (.refl _)
  exact ⟨hcall, recast_program_runs_alike (by decide) hpq hscoped⟩

/-- The body of a `for` loop runs even if the condition is false after the initialisation, which
that of a `while` loop does not. -/
theorem for_differs_from_while :
    let add : Stmt := .assign (.text "s") (.text "=") (.infixed (.ident "s") .add (.int 1))
    let first : Stmt := .letVar "i" (.int 5) "int"
    let test : Expr := .infixed (.ident "i") .lt (.int 3)
    let next : Expr := .stepped (.ident "i") .increment
    let program (loop : List Stmt) : Program := [.fn "main" (some []) (.text "int")
      (.letVar "s" (.int 0) "int" :: loop ++ [.ret (.ident "s")])]
    let left := (Session.start .latest).compile .latest ⟨[], []⟩
      (program [.forLoop first test (.bare next) [add]])
    let right := (Session.start .latest).compile .latest ⟨[], []⟩
      (program [first, .whileLoop test [add, .expr next]])
    left.1 = .ok () ∧ right.1 = .ok () ∧ left.2.errors = [] ∧ right.2.errors = [] ∧
      left.2.assembly.call 100 "main" [] = .done (.int 32 1, []) ∧
      right.2.assembly.call 100 "main" [] = .done (.int 32 0, []) := by
  intro add first test next program left right
  refine ⟨?_, ?_, ?_, ?_, ?_, ?_⟩ <;> decide +kernel

end Programs

end LimeLang
