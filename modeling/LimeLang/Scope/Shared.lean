import LimeLang.Scope

/-! Scopes that may share their tables. Tables and scopes are numbered in order of creation;
a scope knows its table and its parent. -/

namespace LimeLang

structure SharedScope where
  table : Nat
  parent : Option Nat
  name : String
deriving DecidableEq, Repr

structure SharedScopes (β : Type) where
  tables : List (Table β)
  scopes : List SharedScope

namespace SharedScopes

variable {β : Type}

def empty : SharedScopes β := ⟨[], []⟩

/-- Adds a table; its number is the number of tables so far. -/
def addTable (s : SharedScopes β) (t : Table β) : SharedScopes β :=
  { s with tables := s.tables ++ [t] }

/-- Adds a scope; its number is the number of scopes so far. It shares the given table unless
that is empty, in which case it gets a table of its own. -/
def addScope (s : SharedScopes β) (parent table : Option Nat) (name : String) :
    SharedScopes β :=
  match table with
  | none => { tables := s.tables ++ [[]], scopes := s.scopes ++ [⟨s.tables.length, parent, name⟩] }
  | some i =>
    if (s.tables.getD i []).isEmpty then
      { tables := s.tables ++ [[]], scopes := s.scopes ++ [⟨s.tables.length, parent, name⟩] }
    else { s with scopes := s.scopes ++ [⟨i, parent, name⟩] }

/-- The table of a scope. -/
def tableOf (s : SharedScopes β) (i : Nat) : Table β :=
  match s.scopes[i]? with
  | none => []
  | some n => s.tables.getD n.table []

def define (s : SharedScopes β) (i : Nat) (n : Literal) (b : β) : SharedScopes β :=
  match s.scopes[i]? with
  | none => s
  | some c => { s with tables := s.tables.modify c.table (·.define n b) }

/-- The scopes from `i` outwards, at most `fuel` of them. -/
def path (s : SharedScopes β) : Nat → Nat → List Nat
  | 0, _ => []
  | fuel + 1, i =>
    match s.scopes[i]? with
    | none => []
    | some c => i :: (match c.parent with
      | none => []
      | some p => path s fuel p)

/-- The tables from scope `i` outwards. Parents are older, so a path is not longer than the
number of scopes. -/
def chainOf (s : SharedScopes β) (i : Nat) : Chain β :=
  (s.path s.scopes.length i).map s.tableOf

def find? (s : SharedScopes β) (i : Nat) (n : Literal) : Option β := (s.chainOf i).find? n

end SharedScopes

end LimeLang
