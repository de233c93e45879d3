import FilterLists.Toml.Value

/-!
How headers and key/value pairs build up the tables of a document. A table is defined once: by its
header, by dotted keys, or in braces. Only a table that a header passes through may get its own
header later, and only tables made by dotted keys grow by dotted keys.
-/
namespace FilterLists.Toml.Table

def set (entries : Members) (key : String) (value : Value) : Members :=
  entries.map (fun entry => if entry.1 = key then (key, value) else entry)

def mapLast? (f : α → Option α) : List α → Option (List α)
  | [] => none
  | [a] => (f a).map ([·])
  | a :: rest => (mapLast? f rest).map (a :: ·)

/-- Adds a pair whose key has the given leading parts. -/
def addPair (key : String) (value : Value) : List String → Members → Option Members
  | [], entries =>
    if (entries.lookup key).isSome then none else some (entries ++ [(key, value)])
  | part :: rest, entries =>
    match entries.lookup part with
    | none => do
      let inner ← addPair key value rest []
      some (entries ++ [(part, .table .dotted inner)])
    | some (.table kind inner) =>
      if kind = .dotted ∨ (kind = .implied ∧ rest ≠ []) then do
        let grown ← addPair key value rest inner
        some (set entries part (.table kind grown))
      else none
    | some (.tables items) =>
      if rest = [] then none
      else do
        let grown ← mapLast? (addPair key value rest) items
        some (set entries part (.tables grown))
    | some _ => none

/-- Changes the table at the end of a chain of keys, the last one of each array of tables on the
way. Tables that are missing on the way come into being. -/
def descend (f : Members → Option Members) : List String → Members → Option Members
  | [], entries => f entries
  | part :: rest, entries =>
    match entries.lookup part with
    | none => do
      let inner ← descend f rest []
      some (entries ++ [(part, .table .implied inner)])
    | some (.table kind inner) =>
      if kind = .inlined then none
      else do
        let changed ← descend f rest inner
        some (set entries part (.table kind changed))
    | some (.tables items) => do
      let changed ← mapLast? (descend f rest) items
      some (set entries part (.tables changed))
    | some _ => none

/-- A header in single brackets. -/
def openTable (key : String) (entries : Members) : Option Members :=
  match entries.lookup key with
  | none => some (entries ++ [(key, .table .header [])])
  | some (.table .implied inner) => some (set entries key (.table .header inner))
  | some _ => none

/-- A header in double brackets. -/
def openArray (key : String) (entries : Members) : Option Members :=
  match entries.lookup key with
  | none => some (entries ++ [(key, .tables [[]])])
  | some (.tables items) => some (set entries key (.tables (items ++ [[]])))
  | some _ => none

end FilterLists.Toml.Table
