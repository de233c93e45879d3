import FilterLists.Config.Basic
import FilterLists.Toml.Reader

/-!
The configuration as a TOML document. Reading fills in what is missing, passes over keys that it
does not know, and takes an array for a record by position. Writing states every setting.
-/
namespace FilterLists.Config.Document

open Toml (Value Members)

/-- The members of a record: those of a table, or the items of an array in the order of the names. A
date or time counts as a table without any of the members. -/
def members? (names : List String) : Value → Option Members
  | .table _ entries =>
    if entries.all (fun entry => names.contains entry.1 || entry.2.passable) then some entries
    else none
  | .array items => some (names.zip items)
  | .tables items => some (names.zip (items.map (Value.table .header)))
  | .moment => some []
  | _ => none

def member? (entries : Members) (name : String) (default : α) (read : Value → Option α) :
    Option α :=
  match entries.lookup name with
  | some v => read v
  | none => some default

def text? : Value → Option String
  | .text s => some s
  | _ => none

def boolean? : Value → Option Bool
  | .boolean b => some b
  | _ => none

def id? : Value → Option FilterId
  | .integer n =>
    if Int64.minValue.toInt ≤ n ∧ n ≤ Int64.maxValue.toInt then some (Int64.ofInt n) else none
  | _ => none

def word32? : Value → Option UInt32
  | .integer n => if 0 ≤ n ∧ n.toNat < UInt32.size then some (UInt32.ofNat n.toNat) else none
  | _ => none

def word64? : Value → Option UInt64
  | .integer n => if 0 ≤ n ∧ n.toNat < UInt64.size then some (UInt64.ofNat n.toNat) else none
  | _ => none

def list? (read : Value → Option α) : Value → Option (List α)
  | .array items => items.mapM read
  | .tables items => (items.map (Value.table .header)).mapM read
  | _ => none

def filter? (v : Value) : Option Filter := do
  let entries ← members? ["id", "url", "name", "enabled"] v
  let id ← member? entries "id" 0 id?
  let url ← (entries.lookup "url").bind text?
  let name ← member? entries "name" "" text?
  let enabled ← member? entries "enabled" false boolean?
  some { id, url, name, enabled }

def logging? (v : Value) : Option LoggingConfig := do
  let entries ← members? ["level", "json"] v
  let default : LoggingConfig := {}
  let level ← member? entries "level" default.level text?
  let json ← member? entries "json" default.json boolean?
  some { level, json }

def filteringNames : List String :=
  ["enabled", "data_dir", "filter_dir", "update_interval_hours", "refresh_tick_secs",
    "fetch_timeout_secs", "max_concurrent_fetches", "user_agent", "user_rules", "filters"]

def filtering? (v : Value) : Option FilteringConfig := do
  let entries ← members? filteringNames v
  let default : FilteringConfig := {}
  let enabled ← member? entries "enabled" default.enabled boolean?
  let dataDir ← member? entries "data_dir" default.dataDir text?
  let filterDir ← member? entries "filter_dir" default.filterDir text?
  let updateIntervalHours ←
    member? entries "update_interval_hours" default.updateIntervalHours word32?
  let refreshTickSecs ← member? entries "refresh_tick_secs" default.refreshTickSecs word64?
  let fetchTimeoutSecs ← member? entries "fetch_timeout_secs" default.fetchTimeoutSecs word64?
  let maxConcurrentFetches ←
    member? entries "max_concurrent_fetches" default.maxConcurrentFetches word64?
  let userAgent ← member? entries "user_agent" default.userAgent text?
  let userRules ← member? entries "user_rules" default.userRules (list? text?)
  let filters ← member? entries "filters" default.filters (list? filter?)
  some { enabled, dataDir, filterDir, updateIntervalHours, refreshTickSecs, fetchTimeoutSecs,
         maxConcurrentFetches, userAgent, userRules, filters }

def config? (entries : Members) : Option Config := do
  let entries ← members? ["logging", "filtering"] (.table .header entries)
  let logging ← member? entries "logging" {} logging?
  let filtering ← member? entries "filtering" {} filtering?
  some { logging, filtering }

def read? (text : String) : Option Config :=
  (Toml.read? text.toList).bind config?

def line (key : String) (value : List Char) : List Char :=
  key.toList ++ " = ".toList ++ value ++ ['\n']

def textValue (s : String) : List Char :=
  Toml.Quoted.write s.toList

def booleanValue (b : Bool) : List Char :=
  (if b then "true" else "false").toList

def naturalValue (n : Nat) : List Char :=
  Nat.toDigits 10 n

def idValue (id : FilterId) : List Char :=
  (toString id.toInt).toList

/-- An array of two texts or more has one a line. -/
def textsValue : List String → List Char
  | [] => "[]".toList
  | [s] => '[' :: textValue s ++ [']']
  | ss =>
    "[\n".toList ++ ss.flatMap (fun s => "    ".toList ++ textValue s ++ ",\n".toList) ++ [']']

def filterLines (f : Filter) : List Char :=
  "\n[[filtering.filters]]\n".toList ++ line "id" (idValue f.id) ++ line "url" (textValue f.url) ++
    line "name" (textValue f.name) ++ line "enabled" (booleanValue f.enabled)

def filtersLines : List Filter → List Char
  | [] => line "filters" "[]".toList
  | fs => fs.flatMap filterLines

def loggingLines (c : LoggingConfig) : List Char :=
  "[logging]\n".toList ++ line "level" (textValue c.level) ++ line "json" (booleanValue c.json)

def filteringLines (c : FilteringConfig) : List Char :=
  "\n[filtering]\n".toList ++ line "enabled" (booleanValue c.enabled) ++
    line "data_dir" (textValue c.dataDir) ++ line "filter_dir" (textValue c.filterDir) ++
    line "update_interval_hours" (naturalValue c.updateIntervalHours.toNat) ++
    line "refresh_tick_secs" (naturalValue c.refreshTickSecs.toNat) ++
    line "fetch_timeout_secs" (naturalValue c.fetchTimeoutSecs.toNat) ++
    line "max_concurrent_fetches" (naturalValue c.maxConcurrentFetches.toNat) ++
    line "user_agent" (textValue c.userAgent) ++ line "user_rules" (textsValue c.userRules) ++
    filtersLines c.filters

def write (c : Config) : String :=
  String.ofList (loggingLines c.logging ++ filteringLines c.filtering)

end FilterLists.Config.Document
