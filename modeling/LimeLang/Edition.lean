/-! The language grew in seventeen editions. Each later edition keeps what the earlier
ones had and adds features, so an edition is a number and a feature knows its first one. -/

namespace LimeLang

structure Edition where
  number : Nat
  valid : 1 ≤ number ∧ number ≤ 17
deriving DecidableEq, Repr

def Edition.latest : Edition := ⟨17, by decide⟩

inductive Feature
  | expressions
  | trees
  | code
  | remainders
  | declarations
  | functions
  | reassignment
  | conditions
  | calls
  | parameters
  | strings
  | whileLoops
  | forLoops
  | compoundAssignment
  | stepping
  | pallets
  | commandLine
deriving DecidableEq, Repr

def Feature.since : Feature → Nat
  | expressions => 1
  | trees => 2
  | code => 3
  | remainders => 4
  | declarations => 5
  | functions => 6
  | reassignment => 7
  | conditions => 8
  | calls => 9
  | parameters => 10
  | strings => 11
  | whileLoops => 12
  | forLoops => 13
  | compoundAssignment => 14
  | stepping => 15
  | pallets => 16
  | commandLine => 17

def Edition.has (e : Edition) (f : Feature) : Bool := f.since ≤ e.number

theorem Edition.has_mono {d e : Edition} {f : Feature} (h : d.number ≤ e.number)
    (hf : d.has f = true) : e.has f = true := by
  simp only [Edition.has, decide_eq_true_eq] at *
  omega

theorem Edition.has_of_since_le {e : Edition} {f g : Feature} (h : f.since ≤ g.since)
    (hg : e.has g = true) : e.has f = true := by
  simp only [Edition.has, decide_eq_true_eq] at *
  omega

theorem Edition.latest_has (f : Feature) : Edition.latest.has f = true := by
  cases f <;> rfl

end LimeLang
