import LimeLang.Proofs.ReadTrees
import LimeLang.Tree.Descent
import Mathlib.Data.List.TakeWhile

/-! The reader of trees needs no more fuel than a multiple of the lexemes that are left: from
there on it never runs out, more fuel changes nothing, and no reader goes back in the text. It has
at most two calls open for each lexeme, and a few. With room for them it is not broken off. -/

namespace LimeLang

namespace Descent

variable {α β : Type} {x : Descent α} {a : α} {f : Option NumberTooLong}
  {rest rest' rest'' : List Lexeme} {d d' b : Nat}

theorem run_bind (x : Descent α) (g : α → Descent β) (limits : Limits) (rest : List Lexeme) :
    (x >>= g) limits rest = match x limits rest with
      | (.ok a, rest') => g a limits rest'
      | (.error cause, rest') => (.error cause, rest') := by
  change (match x limits rest with
    | (r, rest') => ExceptT.bindCont (fun a => g a limits) r rest') = _
  rcases x limits rest with ⟨_ | _, _⟩ <;> rfl

theorem fst_bind_error {limits : Limits} {cause : BreakOff} (g : α → Descent β)
    (h : (x limits rest).1 = .error cause) : ((x >>= g) limits rest).1 = .error cause := by
  rw [run_bind]
  generalize x limits rest = r at h ⊢
  obtain ⟨_, _⟩ := r
  cases h
  rfl

theorem call_short {room : Nat}
    (h : ∀ less, room = less + 1 → (x ⟨less, f⟩ rest).1 = .error .tooDeep) :
    (call x ⟨room, f⟩ rest).1 = .error .tooDeep := by
  cases room with
  | zero => rfl
  | succ room => exact h room rfl

/-- The descent has `d` calls open at the same time. With room for them it comes to `o`, or to the
lexeme that could not be scanned; with less it is broken off. -/
structure Opens (f : Option NumberTooLong) (x : Descent α) (rest : List Lexeme) (d : Nat)
    (o : Option (α × List Lexeme)) : Prop where
  enough : ∀ room, d ≤ room → match o with
    | some (a, rest') => x ⟨room, f⟩ rest = (.ok a, rest')
    | none => ∃ error, f = some error ∧ (x ⟨room, f⟩ rest).1 = .error (.number error)
  short : ∀ room, room < d → (x ⟨room, f⟩ rest).1 = .error .tooDeep

theorem Opens.bind {g : α → Descent β} {o : Option (β × List Lexeme)}
    (hx : Opens f x rest d (some (a, rest'))) (hg : Opens f (g a) rest' d' o) :
    Opens f (x >>= g) rest (max d d') o where
  enough room h := by
    rw [run_bind, hx.enough room (by omega)]
    exact hg.enough room (by omega)
  short room h := by
    by_cases hd : d ≤ room
    · rw [run_bind, hx.enough room hd]
      exact hg.short room (by omega)
    · exact fst_bind_error g (hx.short room (by omega))

theorem Opens.bind_none (g : α → Descent β) (hx : Opens f x rest d none) :
    Opens f (x >>= g) rest d none where
  enough room h := by
    obtain ⟨error, hf, hr⟩ := hx.enough room h
    exact ⟨error, hf, fst_bind_error g hr⟩
  short room h := fst_bind_error g (hx.short room h)

theorem Opens.call {o : Option (α × List Lexeme)} (hx : Opens f x rest d o) :
    Opens f (call x) rest (d + 1) o where
  enough room h := by
    obtain ⟨room, rfl⟩ := Nat.exists_eq_add_of_le' (show 1 ≤ room by omega)
    exact hx.enough room (by omega)
  short room h := call_short fun less hless => hx.short less (by omega)

/-- Where the lexemes end before the source does, there is one behind the current one. -/
def Supplied (f : Option NumberTooLong) (rest : List Lexeme) : Prop := f = none ∨ rest.tail ≠ []

/-- At most `b` calls are open until the descent comes to `a`, with `rest'` before it, or to the
lexeme that could not be scanned. -/
def Reaches (f : Option NumberTooLong) (b : Nat) (x : Descent α) (rest : List Lexeme) (a : α)
    (rest' : List Lexeme) : Prop :=
  ∃ d ≤ b, Opens f x rest d none ∨
    Opens f x rest d (some (a, rest')) ∧ (Supplied f rest → Supplied f rest')

namespace Reaches

theorem of_run (h : ∀ room, x ⟨room, f⟩ rest = (.ok a, rest'))
    (hs : Supplied f rest → Supplied f rest') : Reaches f b x rest a rest' :=
  ⟨0, b.zero_le, .inr ⟨⟨fun room _ => h room, fun _ h => absurd h (Nat.not_lt_zero _)⟩, hs⟩⟩

theorem bind {g : α → Descent β} {c : β} (hx : Reaches f b x rest a rest')
    (hg : Reaches f b (g a) rest' c rest'') : Reaches f b (x >>= g) rest c rest'' := by
  obtain ⟨d, hd, hx | ⟨hx, hs⟩⟩ := hx
  · exact ⟨d, hd, .inl (hx.bind_none g)⟩
  obtain ⟨d', hd', hg | ⟨hg, hs'⟩⟩ := hg
  · exact ⟨_, max_le hd hd', .inl (hx.bind hg)⟩
  · exact ⟨_, max_le hd hd', .inr ⟨hx.bind hg, hs' ∘ hs⟩⟩

theorem call (hx : Reaches f b x rest a rest') :
    Reaches f (b + 1) (Descent.call x) rest a rest' := by
  obtain ⟨d, hd, hx | ⟨hx, hs⟩⟩ := hx
  · exact ⟨d + 1, by omega, .inl hx.call⟩
  · exact ⟨d + 1, by omega, .inr ⟨hx.call, hs⟩⟩

theorem mono {c : Nat} (hx : Reaches f b x rest a rest') (h : b ≤ c) :
    Reaches f c x rest a rest' := by
  obtain ⟨d, hd, hx⟩ := hx
  exact ⟨d, hd.trans h, hx⟩

/-- What moves on does so only if the lexeme behind the one that it moves to has been scanned. -/
theorem of_supply {x : Descent Unit} (h : ∀ limits, x limits rest =
    match limits.failure, rest'.tail with
    | some error, [] => (.error (.number error), rest)
    | _, _ => (.ok (), rest')) : Reaches f b x rest () rest' := by
  match hf : f, ht : rest'.tail with
  | none, _ => exact of_run (fun room => by rw [h]) fun _ => .inl rfl
  | some error, _ :: _ => exact of_run (fun room => by rw [h, ht]) fun _ => .inr (by simp [ht])
  | some error, [] =>
    refine ⟨0, b.zero_le, .inl ⟨fun room _ => ⟨error, rfl, ?_⟩, fun _ h =>
      absurd h (Nat.not_lt_zero _)⟩⟩
    rw [h, ht]

theorem advance : Reaches f b Descent.advance rest () rest.tail :=
  of_supply fun _ => rfl

theorem skipToSemicolon : Reaches f b Descent.skipToSemicolon rest ()
    (rest.dropWhile fun l => l.kind ≠ .semicolon) :=
  of_supply fun _ => rfl

end Reaches

end Descent

theorem Reading.one_lt_length {s : Reading} (h : s.peek.kind ≠ .eof) : 1 < s.rest.length := by
  have htail : s.rest.tail ≠ [] := fun hr => h (by rw [peek, hr]; rfl)
  have hpos : 0 < s.rest.tail.length := List.length_pos_iff.mpr htail
  rw [List.length_tail] at hpos
  omega

/-- With at most `L` lexemes left, two readers do the same, do not go back and do not run out of
fuel. The descent goes the same way, with at most `b` calls open. -/
def Settled {α : Type} (f : Option NumberTooLong) (L b : Nat) (x : Descent Unit) (y y' : Reader α) :
    Prop :=
  ∀ s : Reading, s.rest.length ≤ L → y s = y' s ∧ (y s).2.rest <:+ s.rest ∧
    (.nestedTooDeep ∈ (y s).2.errors → .nestedTooDeep ∈ s.errors) ∧
    x.Reaches f b s.rest () (y s).2.rest

namespace Settled

variable {α β : Type} {f : Option NumberTooLong} {L b : Nat} {x : Descent Unit} {y y' : Reader α}

theorem mono {L' b' : Nat} (h : Settled f L b x y y') (hL : L' ≤ L) (hb : b ≤ b') :
    Settled f L' b' x y y' := by
  intro s hs
  obtain ⟨heq, hrest, hdeep, hx⟩ := h s (hs.trans hL)
  exact ⟨heq, hrest, hdeep, hx.mono hb⟩

theorem pure (a : α) : Settled f L b (Pure.pure ()) (Pure.pure a) (Pure.pure a) :=
  fun _ _ => ⟨rfl, List.suffix_rfl, id, .of_run (fun _ => rfl) id⟩

theorem bind {g : Descent Unit} {h k : α → Reader β} (hx : Settled f L b x y y')
    (hg : ∀ a, Settled f L b g (h a) (k a)) :
    Settled f L b (x >>= fun _ => g) (y >>= h) (y' >>= k) := by
  intro s hs
  obtain ⟨heq, hrest, hdeep, hreach⟩ := hx s hs
  obtain ⟨heq', hrest', hdeep', hreach'⟩ := hg (y s).1 (y s).2 (hrest.length_le.trans hs)
  change h (y s).1 (y s).2 = k (y' s).1 (y' s).2 ∧ (h (y s).1 (y s).2).2.rest <:+ _ ∧
    (_ ∈ (h (y s).1 (y s).2).2.errors → _) ∧ Descent.Reaches _ _ _ _ _ (h (y s).1 (y s).2).2.rest
  rw [← heq]
  exact ⟨heq', hrest'.trans hrest, hdeep ∘ hdeep', hreach.bind hreach'⟩

theorem map (hx : Settled f L b x y y') (g : α → β) :
    Settled f L b x (y >>= fun a => Pure.pure (g a)) (y' >>= fun a => Pure.pure (g a)) := by
  intro s hs
  obtain ⟨heq, hrest⟩ := hx s hs
  exact ⟨congrArg (fun r : α × Reading => (g r.1, r.2)) heq, hrest⟩

theorem call {c : Nat} (hx : Settled f L c x y y') (hc : c < b) :
    Settled f L b (Descent.call x) y y' := by
  intro s hs
  obtain ⟨heq, hrest, hdeep, hreach⟩ := hx s hs
  exact ⟨heq, hrest, hdeep, hreach.call.mono hc⟩

theorem glance (hb : 0 < b) (hx : Settled f L b x y y') :
    Settled f L b (Descent.glance >>= fun _ => x) y y' :=
  .bind (y := Pure.pure ()) (h := fun _ => y) (k := fun _ => y') (.call (.pure ()) hb) fun _ => hx

theorem report {e : ParseError} (he : e ≠ .nestedTooDeep) :
    Settled f L b (Pure.pure ()) (Reader.report e) (Reader.report e) := by
  refine fun s _ => ⟨rfl, List.suffix_rfl, fun h => ?_, .of_run (fun _ => rfl) id⟩
  simpa [Reader.report, Reading.report, he.symm] using h

theorem skipToSemicolon :
    Settled f L b Descent.skipToSemicolon Reader.skipToSemicolon Reader.skipToSemicolon :=
  fun _ _ => ⟨rfl, List.dropWhile_suffix _, id, .skipToSemicolon⟩

/-- Where the readers take the current lexeme and the descent does not. -/
theorem look {h h' : Lexeme → Reader β} (hg : ∀ l, Settled f L b x (h l) (h' l)) :
    Settled f L b x (Reader.current >>= h) (Reader.current >>= h') :=
  fun s hs => hg s.current s hs

theorem current {g : Lexeme → Descent Unit} {h h' : Lexeme → Reader β}
    (hg : ∀ l : Lexeme, l.kind = .eof ∨ 0 < L → Settled f L b (g l) (h l) (h' l)) :
    Settled f L b (Descent.current >>= g) (Reader.current >>= h) (Reader.current >>= h') := by
  intro s hs
  have hl : s.current.kind = .eof ∨ 0 < L := by
    cases hr : s.rest with
    | nil => exact .inl (by simp [Reading.current, hr, Lexeme.eof])
    | cons l ls =>
      rw [hr, List.length_cons] at hs
      exact .inr (by omega)
  obtain ⟨heq, hrest, hdeep, hreach⟩ := hg s.current hl s hs
  exact ⟨heq, hrest, hdeep, .bind (.of_run (fun _ => rfl) id) hreach⟩

theorem peekKind {g : Kind → Descent Unit} {h h' : Kind → Reader β}
    (hg : ∀ k : Kind, k = .eof ∨ 1 < L → Settled f L b (g k) (h k) (h' k)) :
    Settled f L b (Descent.peekKind >>= g) (Reader.peekKind >>= h) (Reader.peekKind >>= h') := by
  intro s hs
  have hk : s.peek.kind = .eof ∨ 1 < L :=
    or_iff_not_imp_left.mpr fun h => (Reading.one_lt_length h).trans_le hs
  obtain ⟨heq, hrest, hdeep, hreach⟩ := hg s.peek.kind hk s hs
  exact ⟨heq, hrest, hdeep, .bind (.of_run (fun _ => rfl) id) hreach⟩

theorem advance {g : Descent Unit} {h h' : Reader β} (hg : Settled f (L - 1) b g h h') :
    Settled f L b (Descent.advance >>= fun _ => g) (Reader.advance >>= fun _ => h)
      (Reader.advance >>= fun _ => h') := by
  intro s hs
  have hlen : s.advance.rest.length = s.rest.length - 1 := List.length_tail
  obtain ⟨heq, hrest, hdeep, hreach⟩ := hg s.advance (by omega)
  exact ⟨heq, hrest.trans (List.tail_suffix _), hdeep, .bind .advance hreach⟩

theorem advance_last : Settled f L b Descent.advance Reader.advance Reader.advance :=
  fun _ _ => ⟨rfl, List.tail_suffix _, id, .advance⟩

theorem expect {k : Kind} {g : Bool → Descent Unit} {h h' : Bool → Reader β} (hk : k ≠ .eof)
    (ht : 1 < L → Settled f (L - 1) b (g true) (h true) (h' true))
    (hf : Settled f L b (g false) (h false) (h' false)) :
    Settled f L b (Descent.expect k >>= g) (Reader.expect k >>= h) (Reader.expect k >>= h') := by
  intro s hs
  have hb : ∀ h : Bool → Reader β, (Reader.expect k >>= h) s =
      if s.peek.kind = k then h true s.advance
      else h false (s.report (.expected k s.peek.kind)) := by
    intro h
    change h (Reader.expect k s).1 (Reader.expect k s).2 = _
    rw [Reader.expect]
    split <;> rfl
  have hd : (Descent.expect k >>= g) = Descent.peekKind >>= fun l =>
      if l = k then Descent.advance >>= fun _ => g true else g false := by
    rw [Descent.expect, bind_assoc]
    congr 1
    funext l
    split <;> simp
  rw [hb h, hb h', hd]
  split
  · rename_i hp
    have hlen : s.advance.rest.length = s.rest.length - 1 := List.length_tail
    have htwo := Reading.one_lt_length (hp ▸ hk)
    obtain ⟨heq, hrest, hdeep, hreach⟩ := ht (by omega) s.advance (by omega)
    refine ⟨heq, hrest.trans (List.tail_suffix _), hdeep, ?_⟩
    refine .bind (a := k) (.of_run (fun _ => by rw [← hp]; rfl) id) ?_
    rw [if_pos rfl]
    exact .bind .advance hreach
  · rename_i hp
    obtain ⟨heq, hrest, hdeep, hreach⟩ := hf (s.report (.expected k s.peek.kind)) hs
    refine ⟨heq, hrest, fun h => ?_, ?_⟩
    · simpa [Reading.report] using hdeep h
    · refine .bind (a := s.peek.kind) (.of_run (fun _ => rfl) id) ?_
      rw [if_neg hp]
      exact hreach

theorem pass {k : Kind} (hk : k ≠ .eof) :
    Settled f L b (Descent.pass k) (Reader.expect k) (Reader.expect k) := by
  rw [← bind_pure (Reader.expect k)]
  exact .expect hk (fun _ => .pure _) (.pure _)

theorem ite {p : Prop} [Decidable p] {z : Descent Unit} {w w' : Reader α}
    (ht : p → Settled f L b x y y') (hf : ¬ p → Settled f L b z w w') :
    Settled f L b (if p then x else z) (if p then y else w) (if p then y' else w') := by
  split
  · exact ht ‹p›
  · exact hf ‹¬ p›

end Settled

/-- Fuel `n` is as good as `n + 1` for every reader that has fewer than about `n / 8` lexemes
before it. The offsets are ranks: a reader that calls another on the same lexemes has a
greater one. So it is with the calls that are open, of which there are two for a lexeme. -/
structure Adequate (f : Option NumberTooLong) (e : Edition) (n : Nat) : Prop where
  moreParams {L : Nat} (h : 8 * L + 1 ≤ n) (acc : List Param) :
    Settled f L 0 (Descent.moreParams n) (Parse.moreParams n acc) (Parse.moreParams (n + 1) acc)
  expr {L : Nat} (h : 8 * L + 2 ≤ n) (level : Nat) :
    Settled f L (2 * L) (Descent.expr e n level) (Parse.expr e n level)
      (Parse.expr e (n + 1) level)
  continued {L : Nat} (h : 8 * L + 1 ≤ n) (level : Nat) (left : Expr) :
    Settled f L (2 * L) (Descent.continued e n level) (Parse.continued e n level left)
      (Parse.continued e (n + 1) level left)
  arguments {L : Nat} (h : 8 * L + 3 ≤ n) (hL : 0 < L) :
    Settled f L (2 * L) (Descent.arguments e n) (Parse.arguments e n) (Parse.arguments e (n + 1))
  moreArguments {L : Nat} (h : 8 * L + 1 ≤ n) (acc : List Expr) :
    Settled f L (2 * L) (Descent.moreArguments e n) (Parse.moreArguments e n acc)
      (Parse.moreArguments e (n + 1) acc)
  conditional {L : Nat} (h : 8 * L + 1 ≤ n) (hL : 0 < L) :
    Settled f L (2 * L - 1) (Descent.conditional e n) (Parse.conditional e n)
      (Parse.conditional e (n + 1))
  block {L : Nat} (h : 8 * L + 6 ≤ n) :
    Settled f L (2 * (L - 1) + 3) (Descent.block e n) (Parse.block e n) (Parse.block e (n + 1))
  statements {L : Nat} (h : 8 * L + 5 ≤ n) (inBlock : Bool) :
    Settled f L (2 * L + 3) (Descent.statements e n inBlock) (Parse.statements e n inBlock)
      (Parse.statements e (n + 1) inBlock)
  statement {L : Nat} (h : 8 * L + 4 ≤ n) (hL : 0 < L) :
    Settled f L (2 * L + 2) (Descent.statement e n) (Parse.statement e n)
      (Parse.statement e (n + 1))
  assignment {L : Nat} (h : 8 * L + 3 ≤ n) :
    Settled f L (2 * L + 1) (Descent.assignment e n) (Parse.assignment e n)
      (Parse.assignment e (n + 1))
  letVar {L : Nat} (h : 8 * L + 3 ≤ n) :
    Settled f L (2 * L + 1) (Descent.letVar e n) (Parse.letVar e n) (Parse.letVar e (n + 1))
  function {L : Nat} (h : 8 * L + 3 ≤ n) :
    Settled f L (2 * L + 1) (Descent.function e n) (Parse.function e n)
      (Parse.function e (n + 1))
  expressionStep {L : Nat} (h : 8 * L + 3 ≤ n) :
    Settled f L (2 * L + 1) (Descent.expressionStep e n) (Parse.expressionStep e n)
      (Parse.expressionStep e (n + 1))
  forLoop {L : Nat} (h : 8 * L + 3 ≤ n) :
    Settled f L (2 * L + 1) (Descent.forLoop e n) (Parse.forLoop e n) (Parse.forLoop e (n + 1))

namespace Adequate

variable {f : Option NumberTooLong} {e : Edition} {n L : Nat}

theorem moreParams_succ (h : Adequate f e n) (hL : 8 * L + 1 ≤ n + 1) (acc : List Param) :
    Settled f L 0 (Descent.moreParams (n + 1)) (Parse.moreParams (n + 1) acc)
      (Parse.moreParams (n + 2) acc) := by
  simp only [Descent.moreParams, Parse.moreParams]
  refine .peekKind fun k hk => .ite (fun hc => ?_) fun _ => ?_
  · have h2 : 1 < L := hk.resolve_left (by simp [hc])
    refine .advance (.advance (.look fun l => .expect (by decide) (fun _ => ?_) (.pure _)))
    exact .advance (.look fun t => h.moreParams (by omega) _)
  · exact .expect (by decide) (fun _ => .pure _) (.pure _)

theorem arguments_succ (h : Adequate f e n) (hL : 8 * L + 3 ≤ n + 1) (hpos : 0 < L) :
    Settled f L (2 * L) (Descent.arguments e (n + 1)) (Parse.arguments e (n + 1))
      (Parse.arguments e (n + 2)) := by
  simp only [Descent.arguments, Parse.arguments]
  refine .peekKind fun k _ => .ite (fun _ => .map .advance_last _) fun _ => .advance ?_
  refine .bind (.call (h.expr (by omega) _) (by omega)) fun a => ?_
  exact (h.moreArguments (by omega) _).mono le_rfl (by omega)

theorem moreArguments_succ (h : Adequate f e n) (hL : 8 * L + 1 ≤ n + 1) (acc : List Expr) :
    Settled f L (2 * L) (Descent.moreArguments e (n + 1)) (Parse.moreArguments e (n + 1) acc)
      (Parse.moreArguments e (n + 2) acc) := by
  simp only [Descent.moreArguments, Parse.moreArguments]
  refine .peekKind fun k hk => .ite (fun hc => ?_) fun _ => ?_
  · have h2 : 1 < L := hk.resolve_left (by simp [hc])
    refine .advance (.advance (.bind (.call (h.expr (by omega) _) (by omega)) fun a => ?_))
    exact (h.moreArguments (by omega) _).mono le_rfl (by omega)
  · exact .expect (by decide) (fun _ => .pure _) (.pure _)

/-- An operand behind its operator, and what it goes on with. -/
theorem operand (h : Adequate f e n) (hL : 8 * L + 1 ≤ n) (hpos : 0 < L) (level inner : Nat)
    (g : Expr → Expr) :
    Settled f L (2 * L)
      (Descent.call (Descent.advance >>= fun _ => Descent.call (Descent.expr e n inner)) >>=
        fun _ => Descent.continued e n level)
      (do Reader.advance; Parse.continued e n level (g (← Parse.expr e n inner)))
      (do Reader.advance; Parse.continued e (n + 1) level (g (← Parse.expr e (n + 1) inner))) := by
  have ho : Settled f L (2 * L)
      (Descent.call (Descent.advance >>= fun _ => Descent.call (Descent.expr e n inner)))
      (Reader.advance >>= fun _ => Parse.expr e n inner)
      (Reader.advance >>= fun _ => Parse.expr e (n + 1) inner) :=
    .call (.advance (.call (h.expr (by omega) _) (Nat.lt_succ_self _))) (by omega)
  exact ho.bind fun r => h.continued (by omega) level (g r)

theorem continued_succ (h : Adequate f e n) (hL : 8 * L + 1 ≤ n + 1) (level : Nat) (left : Expr) :
    Settled f L (2 * L) (Descent.continued e (n + 1) level) (Parse.continued e (n + 1) level left)
      (Parse.continued e (n + 2) level left) := by
  rw [Descent.continued, Parse.continued, Parse.continued]
  refine .peekKind fun k hk => ?_
  cases hc : k.continuation? e with
  | none => exact .pure _
  | some c =>
    have h2 : 1 < L := hk.resolve_left (by rintro rfl; simp [Kind.continuation?] at hc)
    refine .ite (fun _ => .advance ?_) fun _ => .pure _
    cases c with
    | infixed op =>
      exact (h.operand (by omega) (by omega) level _ (Expr.infixed left op)).mono le_rfl (by omega)
    | step op =>
      exact .glance (by omega) ((h.continued (by omega) _ _).mono le_rfl (by omega))
    | call =>
      refine .ite (fun _ => ?_) fun _ => ?_
      · refine .bind (.call (.call (h.arguments (by omega) (by omega)) (Nat.lt_succ_self _))
          (by omega)) fun args => ?_
        cases args with
        | none => exact (h.continued (by omega) _ _).mono le_rfl (by omega)
        | some args => exact (h.continued (by omega) _ _).mono le_rfl (by omega)
      · have hp : Settled f (L - 1) (2 * L) (Descent.call (Descent.pass .rparen))
            (Reader.expect .rparen) (Reader.expect .rparen) :=
          .call (c := 0) (.pass (by decide)) (by omega)
        exact hp.bind fun closed => (h.continued (by omega) _ _).mono le_rfl (by omega)

theorem conditional_succ (h : Adequate f e n) (hL : 8 * L + 1 ≤ n + 1) (hpos : 0 < L) :
    Settled f L (2 * L - 1) (Descent.conditional e (n + 1)) (Parse.conditional e (n + 1))
      (Parse.conditional e (n + 2)) := by
  rw [Descent.conditional, Parse.conditional, Parse.conditional]
  refine .advance (.bind (.call (h.expr (by omega) _) (by omega)) fun c => ?_)
  refine .expect (by decide) (fun _ => ?_) (.pure _)
  refine .bind (.call (h.block (by omega)) (by omega)) fun body => .peekKind fun k _ => ?_
  refine .ite (fun _ => ?_) fun _ => .pure _
  refine .advance (.expect (by decide) (fun _ => ?_) (.pure _))
  exact .map (.call (h.block (by omega)) (by omega)) _

theorem expr_succ (h : Adequate f e n) (hL : 8 * L + 2 ≤ n + 1) (level : Nat) :
    Settled f L (2 * L) (Descent.expr e (n + 1) level) (Parse.expr e (n + 1) level)
      (Parse.expr e (n + 2) level) := by
  have hc : ∀ left, Settled f L (2 * L) (Descent.continued e n level)
      (Parse.continued e n level left) (Parse.continued e (n + 1) level left) :=
    fun left => h.continued (by omega) level left
  have hr : ∀ k, Settled f L (2 * L) (pure ()) (do Reader.report (.noPrefix k); return Expr.missing)
      (do Reader.report (.noPrefix k); return Expr.missing) :=
    fun k => .map (.report (by simp)) _
  rw [Descent.expr, Parse.expr, Parse.expr]
  refine .current fun l hl => ?_
  have hg : l.kind ≠ .eof → ∀ left, Settled f L (2 * L)
      (Descent.glance >>= fun _ => Descent.continued e n level)
      (Parse.continued e n level left) (Parse.continued e (n + 1) level left) := by
    intro hne left
    have hpos : 0 < L := hl.resolve_left hne
    exact .glance (by omega) (hc left)
  split
  · exact hg (by simp) _
  · exact hg (by simp) _
  · exact .ite (fun _ => hg (by simp) _) fun _ => hr _
  · exact hg (by simp) _
  · exact hg (by simp) _
  · exact hg (by simp) _
  · have hpos : 0 < L := hl.resolve_left (by simp)
    have hin : Settled f L (2 * L)
        (Descent.call do
          Descent.advance
          Descent.call (Descent.expr e n 0)
          Descent.pass .rparen)
        (do
          Reader.advance
          let inner ← Parse.expr e n 0
          return if ← Reader.expect .rparen then inner else .missing)
        (do
          Reader.advance
          let inner ← Parse.expr e (n + 1) 0
          return if ← Reader.expect .rparen then inner else .missing) :=
      .call (.advance (.bind (.call (h.expr (by omega) _) (Nat.lt_succ_self _)) fun inner =>
        .map (.pass (by decide)) fun closed => if closed then inner else .missing)) (by omega)
    exact hin.bind hc
  · have hpos : 0 < L := hl.resolve_left (by simp)
    exact .bind (.call (h.conditional (by omega) hpos) (by omega)) hc
  · have hpos : 0 < L := hl.resolve_left (by simp)
    exact .ite (fun _ => h.operand (by omega) hpos level _ (.prefixed .neg)) fun _ => hr _
  · have hpos : 0 < L := hl.resolve_left (by simp)
    exact h.operand (by omega) hpos level _ (.prefixed .not)
  · simp only [*]

theorem block_succ (h : Adequate f e n) (hL : 8 * L + 6 ≤ n + 1) :
    Settled f L (2 * (L - 1) + 3) (Descent.block e (n + 1)) (Parse.block e (n + 1))
      (Parse.block e (n + 2)) := by
  rw [Descent.block, Parse.block, Parse.block]
  exact .advance (h.statements (by omega) _)

theorem statements_succ (h : Adequate f e n) (hL : 8 * L + 5 ≤ n + 1) (inBlock : Bool) :
    Settled f L (2 * L + 3) (Descent.statements e (n + 1) inBlock)
      (Parse.statements e (n + 1) inBlock) (Parse.statements e (n + 2) inBlock) := by
  rw [Descent.statements, Parse.statements, Parse.statements]
  refine .current fun l hl => .ite (fun _ => .pure _) fun hk => ?_
  have hpos : 0 < L := hl.resolve_left (by rintro he; simp [he] at hk)
  refine .bind (.call (h.statement (by omega) hpos) (by omega)) fun t => .advance ?_
  exact .map ((h.statements (by omega) _).mono le_rfl (by omega)) _

theorem assignment_succ (h : Adequate f e n) (hL : 8 * L + 3 ≤ n + 1) :
    Settled f L (2 * L + 1) (Descent.assignment e (n + 1)) (Parse.assignment e (n + 1))
      (Parse.assignment e (n + 2)) := by
  rw [Descent.assignment, Parse.assignment, Parse.assignment]
  refine .look fun target => .advance (.look fun op => .advance ?_)
  exact .bind (.call (h.expr (by omega) _) (by omega)) fun v => .map .advance_last _

theorem letVar_succ (h : Adequate f e n) (hL : 8 * L + 3 ≤ n + 1) :
    Settled f L (2 * L + 1) (Descent.letVar e (n + 1)) (Parse.letVar e (n + 1))
      (Parse.letVar e (n + 2)) := by
  rw [Descent.letVar, Parse.letVar, Parse.letVar]
  refine .expect (by decide) (fun _ => .look fun name => ?_) (.pure _)
  refine .expect (by decide) (fun _ => .expect (by decide) (fun _ => ?_) (.pure _)) (.pure _)
  refine .look fun type => .expect (by decide) (fun _ => .advance ?_) (.pure _)
  exact .bind (.call (h.expr (by omega) _) (by omega)) fun v => .map .skipToSemicolon _

theorem expressionStep_succ (h : Adequate f e n) (hL : 8 * L + 3 ≤ n + 1) :
    Settled f L (2 * L + 1) (Descent.expressionStep e (n + 1)) (Parse.expressionStep e (n + 1))
      (Parse.expressionStep e (n + 2)) := by
  rw [Descent.expressionStep, Parse.expressionStep, Parse.expressionStep]
  exact .bind (.call (h.expr (by omega) _) (Nat.lt_succ_self _)) fun v => .map .advance_last _

theorem params (h : Adequate f e n) (hL : 8 * L + 1 ≤ n) :
    Settled f L 0 (Descent.params n) (Parse.params n) (Parse.params (n + 1)) := by
  rw [Descent.params, Parse.params, Parse.params]
  refine .peekKind fun k _ => .ite (fun _ => .map .advance_last _) fun _ => .advance ?_
  refine .look fun name => .expect (by decide) (fun _ => .advance ?_) (.pure _)
  exact .look fun type => h.moreParams (by omega) _

/-- A block in braces, at the end of a loop or a function. -/
theorem braced (h : Adequate f e n) {b : Nat} (hL : 8 * L ≤ n + 1) (hb : 2 * L < b + 1)
    (g : List Stmt → Stmt) :
    let tail := fun m : Nat => (do
      if !(← Reader.expect .lbrace) then return none
      return some (g (← Parse.block e m)) : Reader (Option Stmt))
    Settled f L b (do
      if !(← Descent.expect .lbrace) then return
      Descent.call (Descent.block e n)) (tail n) (tail (n + 1)) := by
  refine .expect (by decide) (fun _ => ?_) (.pure _)
  exact .map (.call (h.block (by omega)) (by omega)) _

theorem signatureEnd (h : Adequate f e n) {b : Nat} (hL : 8 * L ≤ n + 1) (hb : 2 * L < b + 1)
    (name : String) (ps : Option (List Param)) :
    Settled f L b (do
      if !(← Descent.expect .arrow) then return
      Descent.advance
      if !(← Descent.expect .lbrace) then return
      Descent.call (Descent.block e n)) (Parse.signatureEnd e n name ps)
      (Parse.signatureEnd e (n + 1) name ps) := by
  rw [Parse.signatureEnd, Parse.signatureEnd]
  refine .expect (by decide) (fun _ => .advance (.look fun t => ?_)) (.pure _)
  exact h.braced (by omega) (by omega) _

theorem function_succ (h : Adequate f e n) (hL : 8 * L + 3 ≤ n + 1) :
    Settled f L (2 * L + 1) (Descent.function e (n + 1)) (Parse.function e (n + 1))
      (Parse.function e (n + 2)) := by
  rw [Descent.function, Parse.function, Parse.function]
  refine .expect (by decide) (fun h1 => .look fun name => ?_) (.pure _)
  refine .expect (by decide) (fun h2 => ?_) (.pure _)
  refine .ite (fun hh => absurd hh (by simp)) fun _ => .ite (fun hp => ?_) fun hp => ?_
  · refine .bind (.call (h.params (by omega)) (by omega)) fun ps => ?_
    exact .ite (fun hn => absurd hn (by simp [hp])) fun _ =>
      h.signatureEnd (by omega) (by omega) _ _
  · refine .ite (fun _ => ?_) fun hn => absurd hp (by simpa using hn)
    refine .expect (by decide) (fun _ => ?_) (.pure _)
    exact h.signatureEnd (by omega) (by omega) _ _

theorem forLoop_succ (h : Adequate f e n) (hL : 8 * L + 3 ≤ n + 1) :
    Settled f L (2 * L + 1) (Descent.forLoop e (n + 1)) (Parse.forLoop e (n + 1))
      (Parse.forLoop e (n + 2)) := by
  rw [Descent.forLoop, Parse.forLoop, Parse.forLoop]
  refine .expect (by decide) (fun h1 => .expect (by decide) (fun h2 => ?_) (.pure _)) (.pure _)
  refine .ite (fun hh => absurd hh (by simp)) fun _ => ?_
  refine .bind (.call (h.letVar (by omega)) (by omega)) fun init => .advance ?_
  refine .bind (.call (h.expr (by omega) _) (by omega)) fun c => ?_
  refine .expect (by decide) (fun h3 => ?_) (.pure _)
  refine .ite (fun hh => absurd hh (by simp)) fun _ => .advance (.ite (fun _ => ?_) fun _ => ?_)
  · exact .bind ((h.expressionStep (by omega)).mono le_rfl (by omega)) fun step =>
      h.braced (by omega) (by omega) _
  · exact .bind (.call (h.assignment (by omega)) (by omega)) fun step =>
      h.braced (by omega) (by omega) _

theorem statement_succ (h : Adequate f e n) (hL : 8 * L + 4 ≤ n + 1) (hpos : 0 < L) :
    Settled f L (2 * L + 2) (Descent.statement e (n + 1)) (Parse.statement e (n + 1))
      (Parse.statement e (n + 2)) := by
  rw [Descent.statement, Parse.statement, Parse.statement]
  refine .current fun l _ => .peekKind fun k _ => .ite (fun _ => ?_) fun _ => ?_
  · exact .map (.call (h.assignment (by omega)) (Nat.lt_succ_self _)) _
  generalize l.kind = first
  -- all but the last read a statement of their own in one call
  have hlt : 2 * L + 1 < 2 * L + 2 := Nat.lt_succ_self _
  split
  · exact .call (h.letVar (by omega)) hlt
  · exact .call (h.function (by omega)) hlt
  · refine .call (.advance (.bind (.call (h.expr (by omega) _) (by omega)) fun v => ?_)) hlt
    exact .expect (by decide) (fun _ => .pure _) (.pure _)
  · refine .call (.advance (.bind (.call (h.expr (by omega) _) (by omega)) fun c => ?_)) hlt
    refine .expect (by decide) (fun _ => ?_) (.pure _)
    exact .map (.call (h.block (by omega)) (by omega)) _
  · exact .call (.map .advance_last _) hlt
  · exact .call (.map .advance_last _) hlt
  · exact .call (h.forLoop (by omega)) hlt
  · refine .call (.expect (by decide) (fun _ => .look fun path => ?_) (.pure _)) hlt
    exact .expect (by decide) (fun _ => .pure _) (.pure _)
  · simp only [*]
    refine .call (.bind (.call (h.expr (by omega) _) (by omega)) fun v => .peekKind fun k _ => ?_)
      hlt
    exact .ite (fun _ => .map .advance_last _) fun _ => .pure _

end Adequate

theorem adequate (f : Option NumberTooLong) (e : Edition) (n : Nat) : Adequate f e n := by
  induction n with
  | zero => constructor <;> intros <;> omega
  | succ n h => exact {
      moreParams := h.moreParams_succ
      expr := h.expr_succ
      continued := h.continued_succ
      arguments := h.arguments_succ
      moreArguments := h.moreArguments_succ
      conditional := h.conditional_succ
      block := h.block_succ
      statements := h.statements_succ
      statement := h.statement_succ
      assignment := h.assignment_succ
      letVar := h.letVar_succ
      function := h.function_succ
      expressionStep := h.expressionStep_succ
      forLoop := h.forLoop_succ }

theorem statements_fuel (e : Edition) (inBlock : Bool) (s : Reading) {m n : Nat}
    (hm : 8 * s.rest.length + 5 ≤ m) (hmn : m ≤ n) :
    Parse.statements e m inBlock s = Parse.statements e n inBlock s := by
  induction n, hmn using Nat.le_induction with
  | base => rfl
  | succ n hn ih => exact ih.trans ((adequate none e n).statements (by omega) inBlock s le_rfl).1

theorem statements_not_too_deep {e : Edition} {inBlock : Bool} {s : Reading} {n : Nat}
    (hn : 8 * s.rest.length + 5 ≤ n) (hs : .nestedTooDeep ∉ s.errors) :
    .nestedTooDeep ∉ (Parse.statements e n inBlock s).2.errors :=
  fun h => hs (((adequate none e n).statements hn inBlock s le_rfl).2.2.1 h)

end LimeLang
