import LimeLang.Token

/-! Scopes: tables of names in the order in which the names were first defined, and chains of
tables in which the nearest definition of a name counts. -/

namespace LimeLang

variable {β : Type}

/-- The definitions of one scope. -/
abbrev Table (β : Type) := List (Literal × β)

namespace Table

def find? : Table β → Literal → Option β
  | [], _ => none
  | (m, b) :: t, n => if m.same n then some b else find? t n

/-- A name that is defined again keeps its place and its first spelling. -/
def define : Table β → Literal → β → Table β
  | [], n, b => [(n, b)]
  | (m, c) :: t, n, b => if m.same n then (m, b) :: t else (m, c) :: define t n b

theorem find?_define_same (t : Table β) {m n : Literal} (h : m.same n = true) (b : β) :
    find? (define t m b) n = some b := by
  have hs : ∀ k : Literal, k.same m = k.same n := by
    intro k
    simp only [Literal.same, decide_eq_true_eq] at h ⊢
    rw [h]
  induction t with
  | nil => simp [define, find?, h]
  | cons p t ih =>
    obtain ⟨k, c⟩ := p
    by_cases hk : k.same m = true
    · simp [define, find?, hk, hs k ▸ hk]
    · have hn : ¬ k.same n = true := by rw [← hs k]; exact hk
      simp [define, find?, hk, hn, ih]

theorem find?_define_other (t : Table β) {m n : Literal} (h : m.same n = false) (b : β) :
    find? (define t m b) n = find? t n := by
  induction t with
  | nil => simp [define, find?, h]
  | cons p t ih =>
    obtain ⟨k, c⟩ := p
    by_cases hk : k.same m = true
    · have hn : k.same n = false := by
        simp only [Literal.same, decide_eq_true_eq, decide_eq_false_iff_not] at h hk ⊢
        rw [hk]
        exact h
      simp [define, find?, hk, hn]
    · simp [define, find?, hk, ih]

def names (t : Table β) : List Literal := t.map Prod.fst

theorem names_define (t : Table β) (n : Literal) (b : β) :
    names (define t n b) = if (find? t n).isSome then names t else names t ++ [n] := by
  induction t with
  | nil => rfl
  | cons p t ih =>
    obtain ⟨k, c⟩ := p
    by_cases hk : k.same n = true
    · simp [define, find?, names, hk]
    · simp only [names] at ih
      simp only [define, find?, names, hk, Bool.false_eq_true, if_false, List.map_cons, ih]
      split <;> simp

end Table

/-- Scopes from the innermost one outwards. -/
abbrev Chain (β : Type) := List (Table β)

namespace Chain

def find? : Chain β → Literal → Option β
  | [], _ => none
  | t :: ts, n => (t.find? n).or (find? ts n)

/-- Defines a name in the innermost scope. -/
def define : Chain β → Literal → β → Chain β
  | [], n, b => [[(n, b)]]
  | t :: ts, n, b => t.define n b :: ts

/-- Enters a new scope. -/
def enter (c : Chain β) : Chain β := [] :: c

/-- Leaves all scopes but the outermost `depth` ones. -/
def leaveTo (c : Chain β) (depth : Nat) : Chain β := c.drop (c.length - depth)

theorem find?_define_same (c : Chain β) {m n : Literal} (h : m.same n = true) (b : β) :
    find? (define c m b) n = some b := by
  cases c with
  | nil => simp [define, find?, Table.find?, h]
  | cons t ts => simp [define, find?, Table.find?_define_same t h b]

theorem find?_define_other (c : Chain β) {m n : Literal} (h : m.same n = false) (b : β) :
    find? (define c m b) n = find? c n := by
  cases c with
  | nil => simp [define, find?, Table.find?, h]
  | cons t ts => simp [define, find?, Table.find?_define_other t h b]

end Chain

end LimeLang
