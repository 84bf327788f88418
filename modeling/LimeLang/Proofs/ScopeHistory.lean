import LimeLang.Proofs.NameTracking
import LimeLang.Scope.Named

/-! Scopes that share tables, told by what has been done so far. From the list of operations alone
follows which tables a scope shares with others, what was written to them last, and so what every
name stands for. -/

namespace LimeLang

variable {β : Type}

/-- What has been done, the latest first. -/
abbrev History (β : Type) := List (ScopeOp β)

/-- Where a scope keeps its entries: with the dictionary that it was made from, or on its own. -/
inductive Home
  | shared (dictionary : Nat)
  | own (environment : Nat)
deriving DecidableEq

namespace History

def environments : History β → Nat
  | [] => 0
  | .new .. :: past => environments past + 1
  | _ :: past => environments past

def dictionaries : History β → Nat
  | [] => 0
  | .records .. :: past => dictionaries past + 1
  | _ :: past => dictionaries past

def environment? : History β → String → Option Nat
  | [], _ => none
  | .new id' _ _ _ :: past, id =>
    if id = id' then some (environments past) else environment? past id
  | _ :: past, id => environment? past id

def dictionary? : History β → String → Option Nat
  | [], _ => none
  | .records id' _ :: past, id => if id = id' then some (dictionaries past) else dictionary? past id
  | _ :: past, id => dictionary? past id

def parent? : History β → Nat → Option Nat
  | [], _ => none
  | .new _ parent _ _ :: past, i =>
    if i = environments past then parent.bind (environment? past) else parent? past i
  | _ :: past, i => parent? past i

mutual

/-- A dictionary is shared if there is something in it when the scope is made. -/
def home : History β → Nat → Option Home
  | [], _ => none
  | .new _ _ records _ :: past, i =>
    if i = environments past then
      match records.bind (dictionary? past) with
      | none => some (.own i)
      | some k => if writes past (.shared k) = [] then some (.own i) else some (.shared k)
    else home past i
  | .records .. :: past, i => home past i
  | .define .. :: past, i => home past i
  | .lookup .. :: past, i => home past i

/-- All that was ever written to one place, by any scope that has its home there. -/
def writes : History β → Home → List (Literal × β)
  | [], _ => []
  | .records _ entries :: past, d =>
    if d = .shared (dictionaries past) then entries.reverse else writes past d
  | .define id n b :: past, d =>
    if (environment? past id).bind (home past) = some d then (n, b) :: writes past d
    else writes past d
  | .new .. :: past, d => writes past d
  | .lookup .. :: past, d => writes past d

end

variable {past : History β} {op : ScopeOp β} {i j k : Nat} {d : Home} {id : String}

/-- The places where entries are kept, in the order in which they were made. -/
def homes : History β → List Home
  | [] => []
  | .records .. :: past => homes past ++ [.shared (dictionaries past)]
  | op@(.new ..) :: past =>
    if home (op :: past) (environments past) = some (.own (environments past)) then
      homes past ++ [.own (environments past)]
    else homes past
  | _ :: past => homes past

/-- The way from a scope outwards. -/
inductive Route (past : History β) : Nat → List Nat → Prop
  | outermost {i : Nat} (h : past.parent? i = none) : Route past i [i]
  | inside {i p : Nat} {route : List Nat} (h : past.parent? i = some p)
      (hroute : Route past p route) : Route past i (i :: route)

/-- What was written last under a name, where a scope keeps its entries. -/
def value? (past : History β) (i : Nat) (n : Literal) : Option β :=
  (past.home i).bind fun d => ((past.writes d).find? (·.1.same n)).map Prod.snd

/-- The scope was made from a dictionary in which there was something. -/
def CreatedFrom (past : History β) (i k : Nat) : Prop :=
  ∃ (newer older : History β) (id : String) (parent : Option String) (table name : String),
    past = newer ++ .new id parent (some table) name :: older ∧ older.environments = i ∧
    older.dictionary? table = some k ∧ older.writes (.shared k) ≠ []

theorem environment?_lt (h : past.environment? id = some i) : i < past.environments := by
  induction past with
  | nil => cases h
  | cons op past ih =>
    cases op with
    | new id' parent records name =>
      rw [environment?] at h
      split_ifs at h with hid
      · rw [environments, ← Option.some.inj h]
        omega
      · have := ih h
        rw [environments]
        omega
    | _ => exact ih h

theorem dictionary?_lt (h : past.dictionary? id = some k) : k < past.dictionaries := by
  induction past with
  | nil => cases h
  | cons op past ih =>
    cases op with
    | records id' entries =>
      rw [dictionary?] at h
      split_ifs at h with hid
      · rw [dictionaries, ← Option.some.inj h]
        omega
      · have := ih h
        rw [dictionaries]
        omega
    | _ => exact ih h

theorem parent?_lt (h : past.parent? i = some j) : j < i := by
  induction past with
  | nil => cases h
  | cons op past ih =>
    cases op with
    | new id' parent records name =>
      rw [parent?] at h
      split_ifs at h with hi
      · obtain ⟨id, -, hid⟩ := Option.bind_eq_some_iff.mp h
        exact hi ▸ environment?_lt hid
      · exact ih h
    | _ => exact ih h

theorem Route.unique {route route' : List Nat} (h : past.Route i route) (h' : past.Route i route') :
    route = route' := by
  induction h generalizing route' with
  | outermost h =>
    cases h' with
    | outermost => rfl
    | inside hp => exact absurd (h.symm.trans hp) (by simp)
  | inside h _ ih =>
    cases h' with
    | outermost hp => exact absurd (hp.symm.trans h) (by simp)
    | inside hp hroute =>
      obtain rfl := Option.some.inj (h.symm.trans hp)
      rw [ih hroute]

theorem Route.define {route : List Nat} (h : past.Route i route) (id : String) (n : Literal)
    (b : β) : Route (.define id n b :: past) i route := by
  induction h with
  | outermost h => exact .outermost h
  | inside h _ ih => exact .inside h ih

theorem home_new (past : History β) (id : String) (parent records : Option String) (name : String) :
    home (.new id parent records name :: past) past.environments = some (.own past.environments) ∨
    ∃ k, records.bind past.dictionary? = some k ∧ past.writes (.shared k) ≠ [] ∧
      home (.new id parent records name :: past) past.environments = some (.shared k) := by
  rw [home, if_pos rfl]
  cases hk : records.bind past.dictionary? with
  | none => exact .inl rfl
  | some k =>
    dsimp only
    split_ifs with hwrites
    · exact .inl rfl
    · exact .inr ⟨k, rfl, hwrites, rfl⟩

theorem home_old {parent records : Option String} {name : String} (hi : i ≠ past.environments) :
    home (.new id parent records name :: past) i = home past i := by
  rw [home, if_neg hi]

theorem home_bounded (h : past.home i = some d) :
    i < past.environments ∧ (d = .own i ∨ ∃ k, d = .shared k ∧ k < past.dictionaries) := by
  induction past with
  | nil => cases h
  | cons op past ih =>
    cases op with
    | new id' parent records name =>
      by_cases hi : i = environments past
      · rw [hi] at h ⊢
        refine ⟨by rw [environments]; omega, ?_⟩
        rcases home_new past id' parent records name with hown | ⟨k, hk, -, hshared⟩
        · exact .inl (Option.some.inj (h.symm.trans hown))
        · obtain ⟨id, -, hid⟩ := Option.bind_eq_some_iff.mp hk
          exact .inr ⟨k, Option.some.inj (h.symm.trans hshared), dictionary?_lt hid⟩
      · rw [home_old hi] at h
        obtain ⟨hlt, hd⟩ := ih h
        exact ⟨by rw [environments]; omega, hd⟩
    | records id' entries =>
      obtain ⟨hlt, hd⟩ := ih h
      refine ⟨hlt, hd.imp_right ?_⟩
      rintro ⟨k, rfl, hk⟩
      exact ⟨k, rfl, by rw [dictionaries]; omega⟩
    | _ => exact ih h

theorem writes_own (h : past.environments ≤ i) : past.writes (.own i) = [] := by
  induction past with
  | nil => rfl
  | cons op past ih =>
    cases op with
    | records id' entries =>
      rw [writes, if_neg (by simp)]
      exact ih h
    | new id' parent records name =>
      rw [environments] at h
      exact ih (by omega)
    | define id' n b =>
      rw [writes, if_neg]
      · exact ih h
      · intro heq
        obtain ⟨j, -, hj⟩ := Option.bind_eq_some_iff.mp heq
        obtain ⟨hlt, hown | ⟨k, hk, -⟩⟩ := home_bounded hj
        · obtain rfl := Home.own.inj hown
          exact absurd hlt (Nat.not_lt.mpr h)
        · cases hk
    | lookup id' n => exact ih h

theorem homes_bounded (h : d ∈ past.homes) :
    (∃ i, d = .own i ∧ i < past.environments) ∨ ∃ k, d = .shared k ∧ k < past.dictionaries := by
  induction past with
  | nil => cases h
  | cons op past ih =>
    cases op with
    | records id' entries =>
      rcases List.mem_append.mp h with h | h
      · refine (ih h).imp_right ?_
        rintro ⟨k, rfl, hk⟩
        exact ⟨k, rfl, by rw [dictionaries]; omega⟩
      · exact .inr ⟨_, List.mem_singleton.mp h, by rw [dictionaries]; omega⟩
    | new id' parent records name =>
      rw [homes] at h
      split_ifs at h with hown
      · rcases List.mem_append.mp h with h | h
        · refine (ih h).imp_left ?_
          rintro ⟨i, rfl, hi⟩
          exact ⟨i, rfl, by rw [environments]; omega⟩
        · exact .inl ⟨_, List.mem_singleton.mp h, by rw [environments]; omega⟩
      · refine (ih h).imp_left ?_
        rintro ⟨i, rfl, hi⟩
        exact ⟨i, rfl, by rw [environments]; omega⟩
    | _ => exact ih h

theorem homes_new_own : .own past.environments ∉ past.homes := by
  intro h
  rcases homes_bounded h with ⟨i, hi, hlt⟩ | ⟨k, hk, -⟩
  · obtain rfl := Home.own.inj hi
    omega
  · cases hk

theorem homes_new_shared : .shared past.dictionaries ∉ past.homes := by
  intro h
  rcases homes_bounded h with ⟨i, hi, -⟩ | ⟨k, hk, hlt⟩
  · cases hi
  · obtain rfl := Home.shared.inj hk
    omega

theorem homes_nodup (past : History β) : past.homes.Nodup := by
  have hsnoc : ∀ (ds : List Home) (d : Home), ds.Nodup → d ∉ ds → (ds ++ [d]).Nodup := by
    intro ds d hds hd
    rw [List.nodup_append]
    refine ⟨hds, List.nodup_singleton d, fun d' hd' d'' hd'' heq => hd ?_⟩
    rw [← List.mem_singleton.mp hd'', ← heq]
    exact hd'
  induction past with
  | nil => exact List.nodup_nil
  | cons op past ih =>
    cases op with
    | records id' entries => exact hsnoc _ _ ih homes_new_shared
    | new id' parent records name =>
      rw [homes]
      split_ifs
      · exact hsnoc _ _ ih homes_new_own
      · exact ih
    | _ => exact ih

/-- A dictionary is shared by just the scopes that were made from it while there was something in
it. -/
theorem home_shared_iff : past.home i = some (.shared k) ↔ past.CreatedFrom i k := by
  constructor
  · intro h
    induction past with
    | nil => cases h
    | cons op past ih =>
      have holder (h : home past i = some (.shared k)) : CreatedFrom (op :: past) i k := by
        obtain ⟨newer, older, id, parent, table, name, rfl, hmade⟩ := ih h
        exact ⟨op :: newer, older, id, parent, table, name, rfl, hmade⟩
      cases op with
      | new id' parent records name =>
        by_cases hi : i = environments past
        · rw [hi] at h ⊢
          rcases home_new past id' parent records name with hown | ⟨k', hk', hwrites, hshared⟩
          · rw [hown] at h
            cases h
          · obtain rfl := Home.shared.inj (Option.some.inj (hshared.symm.trans h))
            obtain ⟨table, rfl, htable⟩ := Option.bind_eq_some_iff.mp hk'
            exact ⟨[], past, id', parent, table, name, rfl, rfl, htable, hwrites⟩
        · exact holder (home_old hi ▸ h)
      | _ => exact holder h
  · rintro ⟨newer, older, id, parent, table, name, rfl, rfl, htable, hwrites⟩
    have hmade : home (.new id parent (some table) name :: older)
        older.environments = some (.shared k) := by
      rw [home, if_pos rfl, Option.bind_some, htable]
      exact if_neg hwrites
    -- the scopes that are made later get other numbers
    have hlater : ∀ newer : History β,
        older.environments < environments (newer ++ .new id parent (some table) name :: older) := by
      intro newer
      induction newer with
      | nil => exact Nat.lt_succ_self _
      | cons op newer ih =>
        cases op with
        | new =>
          rw [List.cons_append, environments]
          omega
        | _ => exact ih
    induction newer with
    | nil => exact hmade
    | cons op newer ih =>
      cases op with
      | new =>
        rw [List.cons_append, home_old (Nat.ne_of_lt (hlater newer))]
        exact ih
      | _ => exact ih

end History

namespace Table

/-- The table that comes of some writes, the latest first. -/
def ofWrites (ws : List (Literal × β)) : Table β := ws.foldr (fun w t => t.define w.1 w.2) []

/-- The names of some writes in the order in which they first came up, the latest write first. -/
def firstNames : List (Literal × β) → List Literal
  | [] => []
  | (n, _) :: ws => if (firstNames ws).any (·.same n) then firstNames ws else firstNames ws ++ [n]

variable {ws : List (Literal × β)}

theorem ofEntries_eq (entries : List (Literal × β)) :
    ofEntries entries = ofWrites entries.reverse := by
  rw [ofEntries, ofWrites, List.foldr_reverse]

theorem define_ne_nil (t : Table β) (n : Literal) (b : β) : t.define n b ≠ [] := by
  cases t with
  | nil => simp [define]
  | cons entry t =>
    obtain ⟨m, c⟩ := entry
    rw [define]
    split_ifs <;> simp

theorem ofWrites_eq_nil : ofWrites ws = [] ↔ ws = [] := by
  cases ws with
  | nil => exact ⟨fun _ => rfl, fun _ => rfl⟩
  | cons w ws => simp [ofWrites, define_ne_nil]

theorem find?_ofWrites (ws : List (Literal × β)) (n : Literal) :
    (ofWrites ws).find? n = (ws.find? (·.1.same n)).map Prod.snd := by
  induction ws with
  | nil => rfl
  | cons w ws ih =>
    rw [ofWrites, List.foldr_cons, List.find?_cons]
    cases hw : w.1.same n with
    | true => exact find?_define_same _ hw _
    | false => exact (find?_define_other _ hw _).trans ih

theorem find?_isSome (t : Table β) (n : Literal) : (t.find? n).isSome = t.names.any (·.same n) := by
  induction t with
  | nil => rfl
  | cons entry t ih =>
    obtain ⟨m, b⟩ := entry
    rw [find?, names, List.map_cons, List.any_cons]
    cases hm : m.same n with
    | true => simp
    | false => simpa [names] using ih

theorem names_ofWrites (ws : List (Literal × β)) : (ofWrites ws).names = firstNames ws := by
  induction ws with
  | nil => rfl
  | cons w ws ih =>
    obtain ⟨n, b⟩ := w
    have hdefine : ofWrites ((n, b) :: ws) = (ofWrites ws).define n b := rfl
    rw [hdefine, names_define, find?_isSome, ih, firstNames]

end Table

def SharedScopes.Share (s : SharedScopes β) (i j : Nat) : Prop :=
  ∃ c c', s.scopes[i]? = some c ∧ s.scopes[j]? = some c' ∧ c.table = c'.table

/-- The table that a place should hold. -/
def History.table (past : History β) (d : Home) : Table β := .ofWrites (past.writes d)

/-- The scopes and tables are those that the history tells of. -/
structure NamedScopes.Follows (past : History β) (s : NamedScopes β) : Prop where
  tables : ∀ id, (s.tables.lookup id).map (past.homes[·]?) =
    (past.dictionary? id).map fun k => some (.shared k)
  scopes : ∀ id, s.scopes.lookup id = past.environment? id
  contents : s.store.tables = past.homes.map past.table
  length : s.store.scopes.length = past.environments
  placed : ∀ i c, s.store.scopes[i]? = some c → c.parent = past.parent? i ∧
    ∃ d, past.home i = some d ∧ past.homes[c.table]? = some d

namespace NamedScopes.Follows

variable {past : History β} {s : NamedScopes β} {i j k : Nat} {d : Home} {id : String}
  {c : SharedScope}

theorem getElem?_tables (h : s.Follows past) (t : Nat) :
    s.store.tables[t]? = past.homes[t]?.map past.table := by
  rw [h.contents, List.getElem?_map]

theorem tableOf (h : s.Follows past) (hd : past.home i = some d) :
    s.store.tableOf i = past.table d := by
  have hi : i < s.store.scopes.length := h.length ▸ (History.home_bounded hd).1
  obtain ⟨-, d', hd', htable⟩ := h.placed i _ (List.getElem?_eq_getElem hi)
  obtain rfl := Option.some.inj (hd.symm.trans hd')
  rw [SharedScopes.tableOf, List.getElem?_eq_getElem hi]
  dsimp only
  rw [List.getD_eq_getElem?_getD, h.getElem?_tables, htable]
  rfl

theorem dictionary (h : s.Follows past) {t : Nat} (ht : s.tables.lookup id = some t) :
    ∃ k, past.dictionary? id = some k ∧ past.homes[t]? = some (.shared k) := by
  have hid := h.tables id
  rw [ht, Option.map_some] at hid
  obtain ⟨k, hk, heq⟩ := Option.map_eq_some_iff.mp hid.symm
  exact ⟨k, hk, heq.symm⟩

theorem tables_snoc (h : s.Follows past) (d : Home) (id : String) :
    (s.tables.lookup id).map ((past.homes ++ [d])[·]?) = (past.dictionary? id).map fun k =>
      some (.shared k) := by
  rw [← h.tables id]
  cases ht : s.tables.lookup id with
  | none => rfl
  | some t =>
    obtain ⟨k, -, hk⟩ := h.dictionary ht
    rw [Option.map_some, Option.map_some,
      List.getElem?_append_left (List.getElem?_eq_some_iff.mp hk).1]

theorem empty : (NamedScopes.empty : NamedScopes β).Follows [] where
  tables _ := rfl
  scopes _ := rfl
  contents := rfl
  length := rfl
  placed i c hc := by simp [NamedScopes.empty, SharedScopes.empty] at hc

theorem records (h : s.Follows past) (id : String) (entries : List (Literal × β)) :
    NamedScopes.Follows (.records id entries :: past) { s with
      store := s.store.addTable (.ofEntries entries)
      tables := (id, s.store.tables.length) :: s.tables } where
  tables id' := by
    rw [List.lookup_cons, History.dictionary?, History.homes]
    by_cases hid : id' = id
    · subst hid
      have hlength : s.store.tables.length = past.homes.length := by rw [h.contents,
        List.length_map]
      simp [hlength]
    · rw [if_neg hid, beq_eq_false_iff_ne.mpr hid]
      exact h.tables_snoc _ id'
  scopes := h.scopes
  contents := by
    change s.store.tables ++ [Table.ofEntries entries] = _
    rw [History.homes, List.map_append, h.contents]
    congr 1
    · apply List.map_congr_left
      intro d hd
      rw [History.table, History.table, History.writes, if_neg]
      rintro rfl
      exact History.homes_new_shared hd
    · rw [Table.ofEntries_eq, List.map_singleton, History.table, History.writes, if_pos rfl]
  length := h.length
  placed i c hc := by
    obtain ⟨hparent, d, hd, htable⟩ := h.placed i c hc
    refine ⟨hparent, d, hd, ?_⟩
    rw [History.homes, List.getElem?_append_left (List.getElem?_eq_some_iff.mp htable).1]
    exact htable

theorem number?_tables (h : s.Follows past) {records : Option String} {t : Option Nat}
    (ht : number? s.tables records = .ok t) :
    (records.bind past.dictionary? = none ∧ t = none) ∨
    ∃ k j, records.bind past.dictionary? = some k ∧ t = some j ∧
      past.homes[j]? = some (.shared k) := by
  cases records with
  | none => exact .inl ⟨rfl, (Except.ok.inj ht).symm⟩
  | some id =>
    rw [number?, number] at ht
    cases hlookup : s.tables.lookup id with
    | none =>
      rw [hlookup] at ht
      cases ht
    | some j =>
      rw [hlookup] at ht
      obtain ⟨k, hk, hj⟩ := h.dictionary hlookup
      exact .inr ⟨k, j, hk, (Except.ok.inj ht).symm, hj⟩

theorem number?_scopes (h : s.Follows past) {parent : Option String} {p : Option Nat}
    (hp : number? s.scopes parent = .ok p) : p = parent.bind past.environment? := by
  cases parent with
  | none => exact (Except.ok.inj hp).symm
  | some id =>
    rw [number?, number, h.scopes id] at hp
    rw [Option.bind_some]
    cases hlookup : past.environment? id with
    | none =>
      rw [hlookup] at hp
      cases hp
    | some i =>
      rw [hlookup] at hp
      exact (Except.ok.inj hp).symm

theorem addScope (h : s.Follows past) {records : Option String} {t : Option Nat}
    (ht : number? s.tables records = .ok t) (id : String) (parent : Option String) (p : Option Nat)
    (name : String) :
    (History.home (.new id parent records name :: past)
      past.environments = some (.own past.environments) ∧ s.store.addScope p t name =
        ⟨s.store.tables ++ [[]], s.store.scopes ++ [⟨s.store.tables.length, p, name⟩]⟩) ∨
    ∃ k j, History.home (.new id parent records name :: past) past.environments = some (.shared k) ∧
      past.homes[j]? = some (.shared k) ∧
      s.store.addScope p t name = ⟨s.store.tables, s.store.scopes ++ [⟨j, p, name⟩]⟩ := by
  rw [History.home, if_pos rfl]
  rcases h.number?_tables ht with ⟨hk, rfl⟩ | ⟨k, j, hk, rfl, hj⟩
  · rw [hk]
    exact .inl ⟨rfl, rfl⟩
  · have htable : s.store.tables.getD j [] = past.table (.shared k) := by
      rw [List.getD_eq_getElem?_getD, h.getElem?_tables, hj]
      rfl
    have hempty : (past.table (.shared k)).isEmpty = true ↔ past.writes (.shared k) = [] :=
      List.isEmpty_iff.trans Table.ofWrites_eq_nil
    rw [hk, SharedScopes.addScope, htable]
    dsimp only
    by_cases hwrites : past.writes (.shared k) = []
    · rw [if_pos hwrites, if_pos (hempty.mpr hwrites)]
      exact .inl ⟨rfl, rfl⟩
    · rw [if_neg hwrites, if_neg (mt hempty.mp hwrites)]
      exact .inr ⟨k, j, rfl, hj, rfl⟩

theorem placed_snoc (h : s.Follows past) {parent records : Option String} {name : String}
    {new : SharedScope} (hnew : new.parent = parent.bind past.environment? ∧
      ∃ d, History.home (.new id parent records name :: past) past.environments = some d ∧
        (History.homes (.new id parent records name :: past))[new.table]? = some d)
    (hc : (s.store.scopes ++ [new])[i]? = some c) :
    c.parent = History.parent? (.new id parent records name :: past) i ∧
      ∃ d, History.home (.new id parent records name :: past) i = some d ∧
        (History.homes (.new id parent records name :: past))[c.table]? = some d := by
  by_cases hi : i = past.environments
  · rw [hi, ← h.length, List.getElem?_concat_length] at hc
    obtain rfl := Option.some.inj hc
    rw [hi, History.parent?, if_pos rfl]
    exact hnew
  · have hlt : i < s.store.scopes.length := by
      have := (List.getElem?_eq_some_iff.mp hc).1
      rw [List.length_append, List.length_singleton] at this
      have := h.length
      omega
    rw [List.getElem?_append_left hlt] at hc
    obtain ⟨hparent, d, hd, htable⟩ := h.placed i c hc
    rw [History.parent?, if_neg hi, History.home_old hi]
    refine ⟨hparent, d, hd, ?_⟩
    rw [History.homes]
    split_ifs
    · rw [List.getElem?_append_left (List.getElem?_eq_some_iff.mp htable).1]
      exact htable
    · exact htable

theorem lookup_new (h : s.Follows past) (id id' : String) (parent records : Option String)
    (name : String) : List.lookup id' ((id, s.store.scopes.length) :: s.scopes) =
      History.environment? (.new id parent records name :: past) id' := by
  rw [List.lookup_cons, History.environment?, h.length, h.scopes id']
  by_cases hid : id' = id
  · simp [hid]
  · rw [if_neg hid, beq_eq_false_iff_ne.mpr hid]

theorem new (h : s.Follows past) {parent records : Option String} {t p : Option Nat}
    (ht : number? s.tables records = .ok t) (hp : number? s.scopes parent = .ok p)
    (id name : String) : NamedScopes.Follows (.new id parent records name :: past) { s with
      store := s.store.addScope p t name
      scopes := (id, s.store.scopes.length) :: s.scopes } := by
  have hparent := h.number?_scopes hp
  have hlength : s.store.tables.length = past.homes.length := by rw [h.contents, List.length_map]
  rcases h.addScope ht id parent p name with ⟨hhome, hstore⟩ | ⟨k, j, hhome, hj, hstore⟩
  · have hhomes : History.homes (.new id parent records name :: past) =
        past.homes ++ [.own past.environments] := by rw [History.homes, if_pos hhome]
    rw [hstore]
    refine ⟨fun id' => ?_, fun id' => h.lookup_new id id' parent records name, ?_, ?_, fun i c hc =>
      ?_⟩
    · rw [hhomes]
      exact h.tables_snoc _ id'
    · have hown : past.table (.own past.environments) = [] :=
        Table.ofWrites_eq_nil.mpr (History.writes_own (Nat.le_refl _))
      change s.store.tables ++ [[]] = _
      rw [hhomes, List.map_append, List.map_singleton, h.contents, ← hown]
      rfl
    · change (s.store.scopes ++ [_]).length = _
      rw [List.length_append, h.length]
      rfl
    · refine h.placed_snoc ⟨hparent, _, hhome, ?_⟩ hc
      rw [hhomes, hlength]
      simp
  · have hhomes : History.homes (.new id parent records name :: past) = past.homes := by
      rw [History.homes, if_neg]
      rw [hhome]
      simp
    rw [hstore]
    refine ⟨fun id' => ?_, fun id' => h.lookup_new id id' parent records name, ?_, ?_, fun i c hc =>
      ?_⟩
    · rw [hhomes]
      exact h.tables id'
    · rw [hhomes]
      exact h.contents
    · change (s.store.scopes ++ [_]).length = _
      rw [List.length_append, h.length]
      rfl
    · refine h.placed_snoc ⟨hparent, _, hhome, ?_⟩ hc
      rw [hhomes]
      exact hj

theorem define (h : s.Follows past) (hi : past.environment? id = some i) (n : Literal) (b : β) :
    NamedScopes.Follows (.define id n b :: past) { s with store := s.store.define i n b } := by
  have hlt : i < s.store.scopes.length := h.length ▸ History.environment?_lt hi
  obtain ⟨-, d, hd, hhome⟩ := h.placed i _ (List.getElem?_eq_getElem hlt)
  have hstore : s.store.define i n b =
      { s.store with tables := s.store.tables.modify s.store.scopes[i].table (·.define n b) } := by
    rw [SharedScopes.define, List.getElem?_eq_getElem hlt]
  have hwritten : (past.environment? id).bind past.home = some d := by rw [hi, Option.bind_some, hd]
  rw [hstore]
  refine ⟨h.tables, h.scopes, ?_, h.length, h.placed⟩
  refine List.ext_getElem? fun t => ?_
  change (s.store.tables.modify _ _)[t]? = (past.homes.map _)[t]?
  rw [List.getElem?_modify, List.getElem?_map, h.getElem?_tables]
  cases ht : past.homes[t]? with
  | none => simp
  | some d' =>
    by_cases htable : s.store.scopes[i].table = t
    · rw [htable, ht] at hhome
      obtain rfl := Option.some.inj hhome
      simp only [htable, if_true, Option.map_some, History.table, History.writes, if_pos hwritten]
      rfl
    · have hne : d ≠ d' := by
        rintro rfl
        obtain ⟨hlt₁, heq₁⟩ := List.getElem?_eq_some_iff.mp hhome
        obtain ⟨hlt₂, heq₂⟩ := List.getElem?_eq_some_iff.mp ht
        exact htable ((List.Nodup.getElem_inj_iff past.homes_nodup).mp (heq₁.trans heq₂.symm))
      have hother : (past.environment? id).bind past.home ≠ some d' := by
        rw [hwritten]
        exact fun heq => hne (Option.some.inj heq)
      simp only [if_neg htable, Option.map_some, History.table, History.writes, if_neg hother]
      rfl

theorem number_scopes (h : s.Follows past) {id : String} {i : Nat} :
    number s.scopes id = .ok i ↔ past.environment? id = some i := by
  rw [number, h.scopes id]
  cases past.environment? id with
  | none => simp
  | some j => simp

theorem step (h : s.Follows past) {op : ScopeOp β} {answer : ScopeAnswer β} {s' : NamedScopes β}
    (hstep : s.step op = .ok (answer, s')) : s'.Follows (op :: past) := by
  cases op with
  | records id entries =>
    obtain ⟨-, rfl⟩ := Prod.mk.inj (Except.ok.inj hstep)
    exact h.records id entries
  | new id parent records name =>
    rw [NamedScopes.step] at hstep
    cases ht : number? s.tables records with
    | error id =>
      rw [ht] at hstep
      cases hstep
    | ok t =>
      cases hp : number? s.scopes parent with
      | error id =>
        rw [ht, hp] at hstep
        cases hstep
      | ok p =>
        rw [ht, hp] at hstep
        obtain ⟨-, rfl⟩ := Prod.mk.inj (Except.ok.inj hstep)
        exact h.new ht hp id name
  | define id n b =>
    rw [NamedScopes.step] at hstep
    cases hi : number s.scopes id with
    | error id =>
      rw [hi] at hstep
      cases hstep
    | ok i =>
      rw [hi] at hstep
      obtain ⟨-, rfl⟩ := Prod.mk.inj (Except.ok.inj hstep)
      exact h.define (h.number_scopes.mp hi) n b
  | lookup id n =>
    rw [NamedScopes.step] at hstep
    cases hi : number s.scopes id with
    | error id =>
      rw [hi] at hstep
      cases hstep
    | ok i =>
      rw [hi] at hstep
      obtain ⟨-, rfl⟩ := Prod.mk.inj (Except.ok.inj hstep)
      exact ⟨h.tables, h.scopes, h.contents, h.length, h.placed⟩

theorem run (h : s.Follows past) {ops : List (ScopeOp β)} {answers : List (ScopeAnswer β)}
    {s' : NamedScopes β} (hrun : s.run ops = .ok (answers, s')) :
      s'.Follows (ops.reverse ++ past) := by
  induction ops generalizing s past answers with
  | nil =>
    obtain ⟨-, rfl⟩ := Prod.mk.inj (Except.ok.inj hrun)
    exact h
  | cons op ops ih =>
    rw [NamedScopes.run] at hrun
    cases hstep : s.step op with
    | error id =>
      rw [hstep] at hrun
      cases hrun
    | ok result =>
      obtain ⟨answer, s₁⟩ := result
      rw [hstep] at hrun
      cases hrest : s₁.run ops with
      | error id =>
        simp only [bind, Except.bind, hrest] at hrun
        cases hrun
      | ok result =>
        obtain ⟨answers', s₂⟩ := result
        simp only [bind, Except.bind, hrest] at hrun
        obtain ⟨-, rfl⟩ := Prod.mk.inj (Except.ok.inj hrun)
        rw [List.reverse_cons, List.append_assoc]
        exact ih (h.step hstep) hrest

theorem find?_tableOf (h : s.Follows past) (i : Nat) (n : Literal) :
    (s.store.tableOf i).find? n = past.value? i n := by
  cases hd : past.home i with
  | none =>
    have hscope : s.store.scopes[i]? = none := by
      cases hc : s.store.scopes[i]? with
      | none => rfl
      | some c =>
        obtain ⟨-, d, hd', -⟩ := h.placed i c hc
        rw [hd] at hd'
        cases hd'
    rw [SharedScopes.tableOf, hscope, History.value?, hd]
    rfl
  | some d =>
    rw [h.tableOf hd, History.table, Table.find?_ofWrites, History.value?, hd]
    rfl

/-- Parents are older, so the search is never cut off. -/
theorem route (h : s.Follows past) {fuel i : Nat} (hfuel : i < fuel) (hi : i < past.environments) :
    past.Route i (s.store.path fuel i) := by
  induction fuel generalizing i with
  | zero => omega
  | succ fuel ih =>
    have hlt : i < s.store.scopes.length := h.length ▸ hi
    have hc := List.getElem?_eq_getElem hlt
    obtain ⟨hparent, -⟩ := h.placed i _ hc
    rw [SharedScopes.path, hc]
    dsimp only
    rw [hparent]
    cases hp : past.parent? i with
    | none => exact .outermost hp
    | some p =>
      have hlt := History.parent?_lt hp
      exact .inside hp (ih (by omega) (by omega))

theorem find? (h : s.Follows past) (hi : i < past.environments) :
    ∃ route, past.Route i route ∧ ∀ n, s.store.find? i n = route.findSome? (past.value? · n) := by
  have hroute := h.route (h.length.symm ▸ hi : i < s.store.scopes.length) hi
  refine ⟨_, hroute, fun n => ?_⟩
  rw [SharedScopes.find?, SharedScopes.chainOf]
  generalize s.store.path s.store.scopes.length i = route
  induction route with
  | nil => rfl
  | cons j route ih =>
    rw [List.map_cons, Chain.find?, ih, h.find?_tableOf, List.findSome?_cons]
    cases past.value? j n with
    | none => rfl
    | some b => rfl

theorem home_isSome (h : s.Follows past) (hi : i < past.environments) :
    ∃ d, past.home i = some d := by
  have hlt : i < s.store.scopes.length := h.length ▸ hi
  obtain ⟨-, d, hd, -⟩ := h.placed i _ (List.getElem?_eq_getElem hlt)
  exact ⟨d, hd⟩

theorem share_iff (h : s.Follows past) (hi : i < past.environments) (hj : j < past.environments) :
    s.store.Share i j ↔ past.home i = past.home j := by
  have hci := List.getElem?_eq_getElem (h.length.symm ▸ hi : i < s.store.scopes.length)
  have hcj := List.getElem?_eq_getElem (h.length.symm ▸ hj : j < s.store.scopes.length)
  obtain ⟨-, d, hd, htable⟩ := h.placed i _ hci
  obtain ⟨-, d', hd', htable'⟩ := h.placed j _ hcj
  rw [hd, hd']
  constructor
  · rintro ⟨c, c', hc, hc', heq⟩
    obtain rfl := Option.some.inj (hci.symm.trans hc)
    obtain rfl := Option.some.inj (hcj.symm.trans hc')
    rw [heq, htable'] at htable
    exact htable.symm
  · intro heq
    obtain rfl := Option.some.inj heq
    obtain ⟨hlt, hget⟩ := List.getElem?_eq_some_iff.mp htable
    obtain ⟨hlt', hget'⟩ := List.getElem?_eq_some_iff.mp htable'
    have hsame := (List.Nodup.getElem_inj_iff past.homes_nodup).mp (hget.trans hget'.symm)
    exact ⟨_, _, hci, hcj, hsame⟩

end NamedScopes.Follows

/-- Different scopes have one table just if they were made from one dictionary that was not
empty. -/
theorem History.home_eq_iff {past : History β} {i j : Nat} (hne : i ≠ j) {d : Home}
    (hd : past.home i = some d) :
    past.home i = past.home j ↔ ∃ k, past.CreatedFrom i k ∧ past.CreatedFrom j k := by
  constructor
  · intro heq
    have hd' : past.home j = some d := heq ▸ hd
    obtain ⟨-, hown | ⟨k, rfl, -⟩⟩ := History.home_bounded hd
    · obtain ⟨-, hown' | ⟨k, hk, -⟩⟩ := History.home_bounded hd'
      · exact absurd (Home.own.inj (hown.symm.trans hown')) hne
      · cases hown.symm.trans hk
    · exact ⟨k, History.home_shared_iff.mp hd, History.home_shared_iff.mp hd'⟩
  · rintro ⟨k, hk, hk'⟩
    rw [History.home_shared_iff.mpr hk, History.home_shared_iff.mpr hk']

/-- A definition is seen where the scope has its home, under its name. -/
theorem History.value?_define {past : History β} {id : String} {i : Nat} {d : Home}
    (hi : past.environment? id = some i) (hd : past.home i = some d) (n m : Literal) (b : β)
    (j : Nat) : History.value? (.define id n b :: past) j m = past.value? j m ∨
    (past.home j = some d ∧ n.same m = true ∧
      History.value? (.define id n b :: past) j m = some b) := by
  have hwritten : (past.environment? id).bind past.home = some d := by rw [hi, Option.bind_some, hd]
  have hhome : History.home (.define id n b :: past) j = past.home j := rfl
  rw [History.value?, History.value?, hhome]
  cases hj : past.home j with
  | none => exact .inl rfl
  | some d' =>
    rw [Option.bind_some, Option.bind_some, History.writes]
    by_cases hsame : d' = d
    · subst hsame
      rw [if_pos hwritten, List.find?_cons]
      cases hm : n.same m with
      | true => exact .inr ⟨rfl, rfl, rfl⟩
      | false => exact .inl rfl
    · rw [if_neg]
      · exact .inl rfl
      · rw [hwritten]
        exact fun heq => hsame (Option.some.inj heq).symm

/-- A search comes to another end only if it now ends at a place that has changed. -/
theorem findSome?_changed {α γ : Type} {f g : α → Option γ} {P : α → Prop} {b : γ} {xs : List α}
    (hfg : ∀ x, g x = f x ∨ (P x ∧ g x = some b)) (hne : xs.findSome? g ≠ xs.findSome? f) :
    ∃ before x behind, xs = before ++ x :: behind ∧ (∀ y ∈ before, g y = none) ∧ g x = some b ∧
      P x := by
  induction xs with
  | nil => exact absurd rfl hne
  | cons x xs ih =>
    rcases hfg x with heq | ⟨hP, hgx⟩
    · rw [List.findSome?_cons, List.findSome?_cons, ← heq] at hne
      cases hgx : g x with
      | some c =>
        rw [hgx] at hne
        exact absurd rfl hne
      | none =>
        rw [hgx] at hne
        obtain ⟨before, y, behind, rfl, hbefore, hy⟩ := ih hne
        exact ⟨x :: before, y, behind, rfl, List.forall_mem_cons.mpr ⟨hgx, hbefore⟩, hy⟩
    · exact ⟨[], x, xs, rfl, by simp, hgx, hP⟩

/-- Scopes do what the list of operations tells, whatever they share. A name that is looked up
stands for what was written last under it, by any scope with that table, in the nearest scope on the
way outwards in which something was written under it. A definition changes what a name stands for
only under that name and where the nearest scope with the name then has the table that was written
to. Two scopes have the same table just if they were made from the same dictionary, and each while
there was something in it. Tables keep their names in the order in which these first came up. -/
theorem scopes_follow_history {ops : List (ScopeOp β)} {answers : List (ScopeAnswer β)}
    {s : NamedScopes β} (hrun : NamedScopes.empty.run ops = .ok (answers, s)) :
    let past : History β := ops.reverse
    (∀ id i, past.environment? id = some i → ∃ route, past.Route i route ∧ ∀ n,
      s.step (.lookup id n) =
        .ok (.found (route.findSome? fun j => past.value? j n) (s.store.tableOf i), s)) ∧
    (∀ id i, past.environment? id = some i → ∀ n b, ∃ s',
      s.step (.define id n b) = .ok (.defined b (s'.store.tableOf i), s') ∧
      ∀ j m, j < past.environments → s'.store.find? j m ≠ s.store.find? j m →
        n.same m = true ∧ ∃ before k behind, past.Route j (before ++ k :: behind) ∧
          (∀ l ∈ before, (s'.store.tableOf l).find? m = none) ∧
          (s'.store.tableOf k).find? m = some b ∧ s.store.Share k i) ∧
    (∀ i j, i < past.environments → j < past.environments → i ≠ j →
      (s.store.Share i j ↔ ∃ k, past.CreatedFrom i k ∧ past.CreatedFrom j k)) ∧
    ∀ i, i < past.environments → ∃ d, past.home i = some d ∧
      (s.store.tableOf i).names = Table.firstNames (past.writes d) := by
  intro past
  have h : s.Follows past := by
    have h := NamedScopes.Follows.empty.run hrun
    rwa [List.append_nil] at h
  clear_value past
  refine ⟨fun id i hi => ?_, fun id i hi n b => ?_, fun i j hi hj hne => ?_, fun i hi => ?_⟩
  · obtain ⟨route, hroute, hfind⟩ := h.find? (History.environment?_lt hi)
    refine ⟨route, hroute, fun n => ?_⟩
    rw [NamedScopes.step, h.number_scopes.mpr hi, ← hfind n]
    rfl
  · have hstep : s.step (.define id n b) = .ok (.defined b ((s.store.define i n b).tableOf i),
        { s with store := s.store.define i n b }) := by
      rw [NamedScopes.step, h.number_scopes.mpr hi]
      rfl
    have h' := h.step hstep
    obtain ⟨d, hd⟩ := h.home_isSome (History.environment?_lt hi)
    generalize hs' : { s with store := s.store.define i n b } = s' at hstep h'
    refine ⟨s', by rw [hstep, ← hs'], fun j m hj hchanged => ?_⟩
    obtain ⟨route, hroute, hfind⟩ := h.find? hj
    obtain ⟨route', hroute', hfind'⟩ := h'.find? hj
    obtain rfl := (hroute.define id n b).unique hroute'
    rw [hfind, hfind'] at hchanged
    have hvalue : ∀ l, History.value? (.define id n b :: past) l m = past.value? l m ∨
        ((past.home l = some d ∧ n.same m = true) ∧
            History.value? (.define id n b :: past) l m = some b) := by
      intro l
      refine (History.value?_define hi hd n m b l).imp_right ?_
      rintro ⟨hl, hm, hb⟩
      exact ⟨⟨hl, hm⟩, hb⟩
    obtain ⟨before, k, behind, rfl, hbefore, hk, hhome, hm⟩ := findSome?_changed hvalue hchanged
    refine ⟨hm, before, k, behind, hroute, fun l hl => ?_, ?_, ?_⟩
    · rw [h'.find?_tableOf, hbefore l hl]
    · rw [h'.find?_tableOf, hk]
    · have hlt := (History.home_bounded hhome).1
      exact (h.share_iff hlt (History.environment?_lt hi)).mpr (hhome.trans hd.symm)
  · obtain ⟨d, hd⟩ := h.home_isSome hi
    rw [h.share_iff hi hj, History.home_eq_iff hne hd]
  · obtain ⟨d, hd⟩ := h.home_isSome hi
    exact ⟨d, hd, by rw [h.tableOf hd, History.table, Table.names_ofWrites]⟩

/-- The first and the third scope share a dictionary. The second one is made from an empty
dictionary, and the fourth one takes over the identifier of the first. -/
theorem scopes_follow_history_shared :
    let x : Literal := .text "x"
    let ops : List (ScopeOp Nat) := [.records "full" [(x, 1), (.text "y", 2)], .records "empty" [],
      .new "a" none (some "full") "global", .new "b" (some "a") (some "empty") "inner",
      .new "c" (some "b") (some "full") "inner", .define "c" (.text "z") 3, .define "b" x 7,
        .define "a" x 5,
      .new "a" (some "b") none "global"]
    ∃ answers s, NamedScopes.empty.run ops = .ok (answers, s) ∧
      s.step (.lookup "a" x) = .ok (.found (some 7) (s.store.tableOf 3), s) ∧
      s.step (.lookup "c" x) = .ok (.found (some 5) (s.store.tableOf 2), s) ∧
      s.store.Share 0 2 ∧ ¬ s.store.Share 0 1 ∧
      (s.store.tableOf 0).names = [x, .text "y", .text "z"] := by
  intro x ops
  obtain ⟨answers, s, hrun⟩ : ∃ answers s, NamedScopes.empty.run ops = .ok (answers, s) :=
    ⟨_, _, rfl⟩
  obtain ⟨hlookup, -, hshare, hnames⟩ := scopes_follow_history hrun
  have hb : History.Route ops.reverse 1 [1, 0] := .inside (by decide) (.outermost (by decide))
  obtain ⟨route, hroute, ha⟩ := hlookup "a" 3 (by decide)
  obtain rfl := hroute.unique (.inside (by decide) hb)
  obtain ⟨route, hroute, hc⟩ := hlookup "c" 2 (by decide)
  obtain rfl := hroute.unique (.inside (by decide) hb)
  obtain ⟨d, hd, hnames⟩ := hnames 0 (by decide)
  have hhome : History.home ops.reverse 0 = some (.shared 0) := by decide
  obtain rfl := Option.some.inj (hhome.symm.trans hd)
  refine ⟨answers, s, hrun, ha x, hc x, ?_, fun hcon => ?_, hnames⟩
  · rw [hshare 0 2 (by decide) (by decide) (by decide)]
    exact ⟨0, History.home_shared_iff.mp hhome, History.home_shared_iff.mp (by decide)⟩
  · obtain ⟨k, -, hk⟩ := (hshare 0 1 (by decide) (by decide) (by decide)).mp hcon
    have hown : History.home ops.reverse 1 = some (.own 1) := by decide
    cases hown.symm.trans (History.home_shared_iff.mpr hk)

end LimeLang
