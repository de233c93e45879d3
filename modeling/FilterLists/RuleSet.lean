import FilterLists.Registry

/-!
The rules that the filtering engine serves. A rule set is compiled from a list of filters as a
whole, and the engine replaces the one it serves only by a complete new one.
-/
namespace FilterLists

structure CompiledFilter where
  id : FilterId
  rules : List String
deriving DecidableEq, Repr

structure RuleSet where
  filters : List CompiledFilter := []
  totalRules : Nat := 0
deriving DecidableEq, Repr

namespace RuleSet

def rulesOf (f : Filter) : List String :=
  (f.content.map Content.rules).getD []

/-- Rules are looked up by filter id, so no id may occur twice. -/
def addFilter (s : RuleSet) (f : Filter) : Except Error RuleSet :=
  if s.filters.any (fun c => c.id = f.id) then .error (.duplicateId f.id)
  else
    let rules := rulesOf f
    .ok { filters := s.filters ++ [{ id := f.id, rules }]
          totalRules := s.totalRules + rules.length }

def compile (filters : List Filter) : Except Error RuleSet :=
  filters.foldlM addFilter {}

/-- The rule set of a registry: the local rules and then the loaded filters. -/
def ofRegistry (r : Registry) : Except Error RuleSet :=
  compile (r.userFilter :: r.loaded)

end RuleSet

structure Engine where
  rules : RuleSet := {}
  running : Bool := false
deriving DecidableEq, Repr

namespace Engine

/-- A registry that does not compile leaves the rules in place. -/
def reconfigure (e : Engine) (r : Registry) : Engine × Except Error Unit :=
  match RuleSet.ofRegistry r with
  | .ok rules => ({ e with rules }, .ok ())
  | .error fault => (e, .error fault)

def start (e : Engine) (r : Registry) : Engine × Except Error Unit :=
  match e.reconfigure r with
  | (configured, .ok ()) => ({ configured with running := true }, .ok ())
  | failed => failed

def stop (e : Engine) : Engine :=
  { e with running := false }

end Engine

end FilterLists
