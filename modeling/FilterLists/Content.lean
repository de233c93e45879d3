import FilterLists.Text.Blank
import FilterLists.Text.Utf8

/-!
The text of a filter list. A line that is not blank and does not begin with `!` is a rule. The
first well-formed title comment names the list.

`rules` collects the rules and `Summary.ofBytes` counts them without collecting; both read the same
lines.
-/
namespace FilterLists.Content

/-- Lines end at line feeds only and are trimmed. -/
def lines (content : Bytes) : List (List Char) :=
  (Text.splitAt '\n' (Utf8.decodeLossy content)).map Text.trim

def isComment (line : List Char) : Bool :=
  line.head? = some '!'

def isRule (line : List Char) : Bool :=
  !line.isEmpty && !isComment line

def rules (content : Bytes) : List String :=
  ((lines content).filter isRule).map String.ofList

/-- A title follows the words `! Title:` and at least one space. -/
def title? (line : List Char) : Option (List Char) :=
  match Text.after? "! Title:".toList line with
  | some (' ' :: rest) => some (rest.dropWhile (· = ' '))
  | _ => none

structure Summary where
  ruleCount : Nat := 0
  title : Option String := none
deriving DecidableEq, Repr

namespace Summary

def read (s : Summary) (line : List Char) : Summary :=
  if line.isEmpty then s
  else if isComment line then
    match s.title with
    | some _ => s
    | none => { s with title := (title? line).map String.ofList }
  else { s with ruleCount := s.ruleCount + 1 }

def ofBytes (content : Bytes) : Summary :=
  (lines content).foldl read {}

end Summary

end FilterLists.Content
