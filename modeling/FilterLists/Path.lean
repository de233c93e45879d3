import FilterLists.Text.Blank

/-!
File paths. A path keeps its text, since messages repeat it; its parts are the names between the
slashes.
-/
namespace FilterLists.Path

def isAbsolute (path : String) : Bool :=
  path.toList.head? = some '/'

/-- An absolute path replaces the base. -/
def join (base path : String) : String :=
  if isAbsolute path || base = "" then path
  else if base.toList.getLast? = some '/' then base ++ path
  else base ++ "/" ++ path

def parts (path : String) : List String :=
  ((Text.splitAt '/' path.toList).filter (fun part => !part.isEmpty)).map String.ofList

/-- A slash at the end asks for a directory. -/
def asksForDirectory (path : String) : Bool :=
  path.toList.getLast? = some '/'

def maxNameBytes : Nat := 255

def maxBytes : Nat := 4095

/-- Without the dots at the end, which name no directory of their own. -/
def trimDots (parts : List String) : List String :=
  (parts.reverse.dropWhile (· = ".")).reverse

def parent (parts : List String) : List String :=
  trimDots (trimDots parts).dropLast

theorem length_trimDots_le (parts : List String) : (trimDots parts).length ≤ parts.length := by
  have h := (List.dropWhile_sublist (· = ".") (l := parts.reverse)).length_le
  simpa only [trimDots, List.length_reverse] using h

theorem length_parent_lt {parts : List String} (h : parts ≠ []) :
    (parent parts).length < parts.length := by
  have hp : 0 < parts.length := List.length_pos_iff.mpr h
  have ht := length_trimDots_le parts
  have hd := length_trimDots_le (trimDots parts).dropLast
  rw [List.length_dropLast] at hd
  simp only [parent]
  omega

end FilterLists.Path
