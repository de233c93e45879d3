import FilterLists.Text.Digits

/-!
JSON values and their text on several lines. Of a number that is not an integer nothing is kept but
that it is one.
-/
namespace FilterLists

inductive Json
  | null
  | boolean (b : Bool)
  | integer (n : Int)
  | fraction
  | text (s : String)
  | list (items : List Json)
  | object (members : List (String × Json))
deriving Inhabited

namespace Json

def escapedChar (c : Char) : List Char :=
  if c = '"' then ['\\', '"']
  else if c = '\\' then ['\\', '\\']
  else if c = '\n' then ['\\', 'n']
  else if c = '\r' then ['\\', 'r']
  else if c = '\t' then ['\\', 't']
  else if c.toNat = 8 then ['\\', 'b']
  else if c.toNat = 12 then ['\\', 'f']
  else if c.toNat < 32 then '\\' :: 'u' :: Text.padded 16 4 c.toNat
  else [c]

def quoted (s : String) : String :=
  String.ofList ('"' :: s.toList.flatMap escapedChar ++ ['"'])

def indentation (depth : Nat) : String :=
  String.ofList (List.replicate (2 * depth) ' ')

mutual

/-- Every item and every member is on a line of its own, indented by two blanks a level. -/
def render (depth : Nat) : Json → String
  | .null => "null"
  | .boolean b => if b then "true" else "false"
  | .integer n => toString n
  | .fraction => "null"
  | .text s => quoted s
  | .list [] => "[]"
  | .list (item :: rest) =>
    "[\n" ++ renderItems (depth + 1) (item :: rest) ++ "\n" ++ indentation depth ++ "]"
  | .object [] => "\x7b\x7d"
  | .object (m :: rest) =>
    "\x7b\n" ++ renderMembers (depth + 1) (m :: rest) ++ "\n" ++ indentation depth ++ "\x7d"

def renderItems (depth : Nat) : List Json → String
  | [] => ""
  | [item] => indentation depth ++ render depth item
  | item :: rest => indentation depth ++ render depth item ++ ",\n" ++ renderItems depth rest

def renderMembers (depth : Nat) : List (String × Json) → String
  | [] => ""
  | [(key, v)] => indentation depth ++ quoted key ++ ": " ++ render depth v
  | (key, v) :: rest =>
    indentation depth ++ quoted key ++ ": " ++ render depth v ++ ",\n" ++ renderMembers depth rest

end

end Json

end FilterLists
