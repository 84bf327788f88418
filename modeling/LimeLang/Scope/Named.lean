import LimeLang.Scope.Shared

/-! Scopes and tables under identifiers, as a list of operations makes them, changes them and asks
for names in them. -/

namespace LimeLang

variable {β : Type}

inductive ScopeOp (β : Type)
  /-- Makes a table with some entries. -/
  | records (id : String) (entries : List (Literal × β))
  /-- Makes a scope. It may have a parent, and a table to share. -/
  | new (id : String) (parent records : Option String) (name : String)
  | define (id : String) (n : Literal) (b : β)
  | lookup (id : String) (n : Literal)

/-- What an operation gives back, with the table of the scope that it is about. -/
inductive ScopeAnswer (β : Type)
  | recorded
  | named (name : String) (records : Table β)
  | defined (b : β) (records : Table β)
  | found (b : Option β) (records : Table β)

/-- An identifier that is given again stands for the newest thing. -/
structure NamedScopes (β : Type) where
  store : SharedScopes β
  tables : List (String × Nat)
  scopes : List (String × Nat)

def Table.ofEntries (entries : List (Literal × β)) : Table β :=
  entries.foldl (fun t entry => t.define entry.1 entry.2) []

namespace NamedScopes

def empty : NamedScopes β := ⟨.empty, [], []⟩

/-- The number behind an identifier. The error is the identifier. -/
def number (xs : List (String × Nat)) (id : String) : Except String Nat :=
  match xs.lookup id with
  | some i => .ok i
  | none => .error id

def number? (xs : List (String × Nat)) : Option String → Except String (Option Nat)
  | none => .ok none
  | some id => (number xs id).map some

def step (s : NamedScopes β) : ScopeOp β → Except String (ScopeAnswer β × NamedScopes β)
  | .records id entries =>
    .ok (.recorded, { s with
      store := s.store.addTable (.ofEntries entries)
      tables := (id, s.store.tables.length) :: s.tables })
  | .new id parent records name => do
    let t ← number? s.tables records
    let p ← number? s.scopes parent
    let i := s.store.scopes.length
    let store := s.store.addScope p t name
    return (.named name (store.tableOf i), { s with store, scopes := (id, i) :: s.scopes })
  | .define id n b => do
    let i ← number s.scopes id
    let store := s.store.define i n b
    return (.defined b (store.tableOf i), { s with store })
  | .lookup id n => do
    let i ← number s.scopes id
    return (.found (s.store.find? i n) (s.store.tableOf i), s)

def run (s : NamedScopes β) : List (ScopeOp β) →
    Except String (List (ScopeAnswer β) × NamedScopes β)
  | [] => .ok ([], s)
  | op :: ops => do
    let (answer, s') ← s.step op
    let (answers, s'') ← s'.run ops
    return (answer :: answers, s'')

end NamedScopes

end LimeLang
