import LimeLang.Proofs.ReadingFuel
import LimeLang.Proofs.Spelling

/-! Reading any text comes to an end: lexemes run out with the characters, and the reader of trees
stops only where there are no lexemes left. -/

namespace LimeLang

theorem statements_of_eof {e : Edition} {n : Nat} {inBlock : Bool} {s : Reading}
    (h : s.current.kind = .eof) : Parse.statements e (n + 1) inBlock s = ([], s) := by
  rw [Parse.statements]
  change (if s.current.kind = .eof || (inBlock && s.current.kind = .rbrace) then _ else _ :
    Reader _) s = _
  rw [if_pos (by simp [h])]
  rfl

theorem statements_of_not_eof {e : Edition} {n : Nat} {s : Reading} (h : s.current.kind ≠ .eof) :
    Parse.statements e (n + 1) false s =
      ((Parse.statement e n s).1.toList ++
          (Parse.statements e n false (Parse.statement e n s).2.advance).1,
        (Parse.statements e n false (Parse.statement e n s).2.advance).2) := by
  rw [Parse.statements]
  change (if s.current.kind = .eof || (false && s.current.kind = .rbrace) then _ else _ :
    Reader _) s = _
  rw [if_neg (by simp [h])]
  rfl

/-- Statements outside of a block are read until the end of the file, or until there is no fuel. -/
theorem statements_end (e : Edition) (n : Nat) (s : Reading) :
    .nestedTooDeep ∈ (Parse.statements e n false s).2.errors ∨
      (Parse.statements e n false s).2.current.kind = .eof := by
  induction n generalizing s with
  | zero =>
    left
    rw [Parse.statements]
    exact List.mem_append_right _ (List.mem_singleton.mpr rfl)
  | succ n ih =>
    by_cases h : s.current.kind = .eof
    · right
      rw [statements_of_eof h]
      exact h
    · rw [statements_of_not_eof h]
      exact ih _

theorem Parsed.ofLexemes_run (e : Edition) (ls : List Lexeme) :
    ∃ r : Program × Reading,
      (∀ n, 8 * ls.length + 5 ≤ n → Parse.statements e n false ⟨ls, []⟩ = r) ∧
        .nestedTooDeep ∉ r.2.errors ∧ r.2.current.kind = .eof ∧
        Parsed.ofLexemes e ls = ⟨r.1, r.2.errors⟩ := by
  have hdeep : .nestedTooDeep ∉ (Parse.statements e (8 * ls.length + 5) false ⟨ls, []⟩).2.errors :=
    statements_not_too_deep le_rfl (by simp)
  refine ⟨Parse.statements e (8 * ls.length + 5) false ⟨ls, []⟩, ?_, hdeep, ?_, ?_⟩
  · intro n hn
    exact (statements_fuel e false ⟨ls, []⟩ le_rfl hn).symm
  · exact (statements_end e _ _).resolve_left hdeep
  · have hfuel := statements_fuel e false ⟨ls, []⟩ le_rfl
      (show 8 * ls.length + 5 ≤ 8 * ls.length + 8 by omega)
    rw [Parsed.ofLexemes, ← hfuel]

theorem Scan.kind_ne_eof {scan : Scan} {l : Lexeme} (h : l ∈ scan.lexemes) : l.kind ≠ .eof := by
  rw [scan.lexemes_eq_filter, List.mem_filter] at h
  simpa using h.2

/-- Over lexemes that all come before the end of the file, the reader leaves none behind. -/
theorem statements_rest (e : Edition) {n : Nat} {ls : List Lexeme} (hn : 8 * ls.length + 5 ≤ n)
    (hls : ∀ l ∈ ls, l.kind ≠ .eof) : (Parse.statements e n false ⟨ls, []⟩).2.rest = [] := by
  obtain ⟨-, hrest, hdeep, -⟩ := (adequate none e n).statements hn false ⟨ls, []⟩ le_rfl
  have heof := (statements_end e n ⟨ls, []⟩).resolve_left fun h => by simpa using hdeep h
  generalize Parse.statements e n false ⟨ls, []⟩ = r at hrest heof
  obtain ⟨_, _ | ⟨l, _⟩, _⟩ := r
  · rfl
  · exact absurd heof (hls l (hrest.mem List.mem_cons_self))

theorem Descent.ofScan_of_supplied (e : Edition) (room : Nat) {scan : Scan}
    (h : Supplied scan.failure scan.lexemes) :
    ofScan e room scan = statements e (8 * scan.lexemes.length + 8) false ⟨room, scan.failure⟩
      scan.lexemes := by
  rw [ofScan]
  split
  · rename_i hf ht
    exact absurd h (by simp [Supplied, hf, ht])
  · rfl

/-- The descent over a scanned source has some number of calls open. With room for them it comes
to the end, or to the lexeme that could not be scanned if there is one. -/
theorem Descent.ofScan_opens (e : Edition) (scan : Scan) :
    ∃ depth ≤ 2 * scan.lexemes.length + 3, ∀ room, (ofScan e room scan).1 =
      if room < depth then .error .tooDeep
      else match scan.failure with
        | some error => .error (.number error)
        | none => .ok () := by
  have hn : 8 * scan.lexemes.length + 5 ≤ 8 * scan.lexemes.length + 8 := by omega
  obtain ⟨-, -, -, d, hd, hopens⟩ := (adequate scan.failure e _).statements hn false
    ⟨scan.lexemes, []⟩ le_rfl
  rw [statements_rest e hn fun _ => Scan.kind_ne_eof] at hopens
  by_cases hs : Supplied scan.failure scan.lexemes
  · refine ⟨d, hd, fun room => ?_⟩
    rw [ofScan_of_supplied e room hs]
    split
    · exact hopens.elim (·.short room ‹_›) (·.1.short room ‹_›)
    · rcases hopens with hopens | ⟨hopens, hend⟩
      · obtain ⟨error, hf, hr⟩ := hopens.enough room (by omega)
        rw [hr, hf]
      · have hf : scan.failure = none := (hend hs).resolve_right (by simp)
        rw [hopens.enough room (by omega), hf]
  · simp only [Supplied, not_or, not_not] at hs
    obtain ⟨error, hf⟩ := Option.ne_none_iff_exists'.mp hs.1
    refine ⟨0, Nat.zero_le _, fun room => ?_⟩
    rw [if_neg (Nat.not_lt_zero _), ofScan, hf, hs.2]

theorem Attempt.result_eq (e : Edition) (room : Nat) (source : String) :
    (ofSource e room source).result = (Descent.ofScan e room (.ofSource e source)).1.map
      fun _ => .ofLexemes e (Scan.ofSource e source).lexemes := by
  rw [ofSource]
  generalize Descent.ofScan e room (.ofSource e source) = r
  obtain ⟨(_ | _) | _, _⟩ := r <;> rfl

/-- Every source is divided into pieces, and reading it needs room for some number of open calls, at
most two for each lexeme and three. With less room reading is broken off. With that room it either
fails at a piece that is an integer of more digits than can be read, or all pieces and the end of
the file come to the reader of trees. That reader gives the same from some fuel on, without ever
running out of it, and stops at the end. -/
theorem reading_total_within_depth (e : Edition) (source : String) :
    ∃ ps last, Tokenization e source.toList ps last ∧
      ∃ depth ≤ 2 * (Scan.ofSource e source).lexemes.length + 3,
        (∀ room < depth, (Attempt.ofSource e room source).result = .error .tooDeep) ∧
        ((∃ f, (Scan.ofSource e source).failure = some f ∧ maxDigits < f.digits ∧
            (∃ p ∈ ps, p.lexeme.kind = .int ∧ p.word.length = f.digits) ∧
            ∀ room ≥ depth, (Attempt.ofSource e room source).result = .error (.number f)) ∨
          (Scan.ofSource e source).failure = none ∧
            (∀ p ∈ ps, p.lexeme.kind = .int → p.word.length ≤ maxDigits) ∧
            (Scan.ofSource e source).tokens.map Token.toLexeme = ps.map Piece.lexeme ++ [.eof] ∧
            ∃ r : Program × Reading,
              (∀ n, 8 * ps.length + 5 ≤ n →
                Parse.statements e n false ⟨(Scan.ofSource e source).lexemes, []⟩ = r) ∧
              .nestedTooDeep ∉ r.2.errors ∧ r.2.current.kind = .eof ∧
              ∀ room ≥ depth,
                (Attempt.ofSource e room source).result = .ok ⟨r.1, r.2.errors⟩) := by
  obtain ⟨ps, last, ht⟩ := Tokenization.total e source.toList
  obtain ⟨depth, hdepth, hrun⟩ := Descent.ofScan_opens e (.ofSource e source)
  have hshort : ∀ room < depth, (Attempt.ofSource e room source).result = .error .tooDeep := by
    intro room hroom
    rw [Attempt.result_eq, hrun, if_pos hroom]
    rfl
  refine ⟨ps, last, ht, depth, hdepth, hshort, ?_⟩
  rcases ht.ofSource_cases with ⟨hok, hints, hmap, hls⟩ | ⟨f, hf, hdigits, hp⟩
  · obtain ⟨r, hr, hdeep, heof, hparsed⟩ :=
      Parsed.ofLexemes_run e (Scan.ofSource e source).lexemes
    refine .inr ⟨hok, hints, hmap, r, fun n hn => hr n ?_, hdeep, heof, fun room hroom => ?_⟩
    · rw [hls, List.length_map]
      exact hn
    · rw [Attempt.result_eq, hrun, if_neg (by omega), hok, hparsed]
      rfl
  · refine .inl ⟨f, hf, hdigits, hp, fun room hroom => ?_⟩
    rw [Attempt.result_eq, hrun, if_neg (by omega), hf]
    rfl

theorem Descent.expr_grouped_short (e : Edition) {n room : Nat} (hroom : room < 2 * n)
    (fuel level : Nat) (ls rest : List Lexeme) :
    (expr e fuel level ⟨room, none⟩ (grouped^[n] ls ++ rest)).1 = .error .tooDeep := by
  induction n generalizing room fuel level rest with
  | zero => omega
  | succ n ih =>
    cases fuel with
    | zero => rfl
    | succ fuel =>
      rw [Function.iterate_succ_apply', expr]
      refine fst_bind_error (x := call do advance; call (expr e fuel 0); pass .rparen)
        (fun _ => continued e fuel level) (call_short fun r hr => ?_)
      have hinner : ∀ r' < 2 * n, (expr e fuel 0 ⟨r', none⟩
          (grouped^[n] ls ++ [.rparen] ++ rest)).1 = .error .tooDeep := by
        intro r' hr'
        rw [List.append_assoc]
        exact ih hr' _ _ _
      exact fst_bind_error (x := call (expr e fuel 0)) (fun _ => pass .rparen)
        (call_short fun r' hr' => hinner r' (by omega))

/-- Two calls are open for each pair of parentheses, and three for the statement. -/
theorem Descent.statements_grouped_short (e : Edition) {n room : Nat} (hn : 0 < n)
    (hroom : room < 2 * n + 3) (fuel : Nat) (ls rest : List Lexeme) :
    (statements e fuel false ⟨room, none⟩ (grouped^[n] ls ++ rest)).1 = .error .tooDeep := by
  obtain ⟨n, rfl⟩ := Nat.exists_eq_add_of_le' hn
  match fuel with
  | 0 => rfl
  | 1 =>
    rw [Function.iterate_succ_apply']
    cases room <;> rfl
  | fuel + 2 =>
    have hx : ∀ r, r < 2 * (n + 1) →
        (expr e fuel 0 ⟨r, none⟩ (grouped^[n + 1] ls ++ rest)).1 = .error .tooDeep :=
      fun r hr => expr_grouped_short e hr _ _ _ _
    rw [Function.iterate_succ_apply'] at hx ⊢
    rw [statements]
    refine fst_bind_error (x := call (statement e (fuel + 1)))
      (fun _ => advance >>= fun _ => statements e (fuel + 1) false) (call_short fun r hr => ?_)
    rw [statement]
    refine call_short (x := do
      call (expr e fuel 0)
      if (← peekKind) = .semicolon then advance) fun r' hr' => ?_
    exact fst_bind_error _ (call_short fun r'' hr'' => hx r'' (by omega))

/-- The text of a number in `n` pairs of parentheses, as a statement. -/
def nestedNumber (n : Nat) : String :=
  String.ofList (spaced (grouped^[n] [⟨.int, .int 1⟩] ++ [.semicolon]))

example : nestedNumber 2 = "( ( 1 ) ) ;" := by decide

theorem nestedNumber_too_deep (e : Edition) {n room : Nat} (hn : 0 < n) (hroom : room < 2 * n + 3) :
    (Attempt.ofSource e room (nestedNumber n)).result = .error .tooDeep := by
  have hw : AllWritten e (grouped^[n] [⟨.int, .int 1⟩]) := by
    clear hn hroom
    induction n with
    | zero => exact .cons (.int (Nat.one_lt_pow (by decide) (by decide))) .nil
    | succ n ih =>
      rw [Function.iterate_succ_apply']
      exact ih.grouped
  obtain ⟨hok, hls⟩ := ofSource_spaced (q := "") (hw.append .semicolon)
    (by simp [Lexeme.Closes]) rfl
  rw [String.append_empty] at hok hls
  rw [Attempt.result_eq, nestedNumber, Descent.ofScan_of_supplied e room (.inl hok), hok, hls,
    List.append_assoc, Descent.statements_grouped_short e hn hroom]
  rfl

/-- A number in so many parentheses is well formed and has no long integers; reading it breaks
off. -/
theorem nested_number_not_read :
    (Attempt.ofSource .latest maxOpenCalls (nestedNumber 6000)).result = .error .tooDeep :=
  nestedNumber_too_deep .latest (by decide) (by decide)

end LimeLang
