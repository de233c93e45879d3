import FilterLists.Filter
import FilterLists.Json

/-!
Filters as JSON: the persisted record, which can be read back, and the listing for users.
-/
namespace FilterLists

namespace Filter

def toJson (f : Filter) : Json :=
  .object [("id", .integer f.id.toInt), ("url", .text f.url), ("name", .text f.name),
    ("enabled", .boolean f.enabled)]

def id? : Json → Option FilterId
  | .integer n =>
    if Int64.minValue.toInt ≤ n ∧ n ≤ Int64.maxValue.toInt then some (Int64.ofInt n) else none
  | _ => none

def text? : Json → Option String
  | .text s => some s
  | _ => none

def boolean? : Json → Option Bool
  | .boolean b => some b
  | _ => none

/-- Only the URL must be given. Unknown members are passed over. -/
def ofMembers? (members : List (String × Json)) : Option Filter := do
  let id ← ((members.lookup "id").map id?).getD (some 0)
  let url ← (members.lookup "url").bind text?
  let name ← ((members.lookup "name").map text?).getD (some "")
  let enabled ← ((members.lookup "enabled").map boolean?).getD (some false)
  some { id, url, name, enabled }

/-- A list stands for the members by position and may not be too long. -/
def ofJson? : Json → Option Filter
  | .object members => ofMembers? members
  | .list items =>
    if items.length ≤ 4 then ofMembers? (["id", "url", "name", "enabled"].zip items) else none
  | _ => none

end Filter

namespace FilterInfo

/-- The time of the last update is left out when there is none. -/
def toJson (i : FilterInfo) : Json :=
  .object ([("id", .integer i.id.toInt), ("url", .text i.url), ("name", .text i.name),
    ("enabled", .boolean i.enabled), ("rulesCount", .integer i.ruleCount)] ++
    (i.lastUpdated.map (fun t => ("lastUpdated", Json.text t.text))).toList)

def listing (infos : List FilterInfo) : String :=
  Json.render 0 (.list (infos.map toJson))

end FilterInfo

end FilterLists
