/-!
Unicode blanks (the property `White_Space`) and the removal of blanks at the ends of a text.
-/
namespace FilterLists.Text

def isBlank (c : Char) : Bool :=
  let n := c.toNat
  (9 ≤ n && n ≤ 13) || n == 0x20 || n == 0x85 || n == 0xA0 || n == 0x1680 ||
    (0x2000 ≤ n && n ≤ 0x200A) || n == 0x2028 || n == 0x2029 || n == 0x202F || n == 0x205F ||
    n == 0x3000

def trimLeft (text : List Char) : List Char :=
  text.dropWhile isBlank

def trimRight (text : List Char) : List Char :=
  (text.reverse.dropWhile isBlank).reverse

def trim (text : List Char) : List Char :=
  trimRight (trimLeft text)

/-- The parts of a text between the occurrences of a character; there is always one more part than
there are occurrences. -/
def splitAt (sep : Char) : List Char → List (List Char)
  | [] => [[]]
  | c :: rest =>
    if c = sep then [] :: splitAt sep rest
    else
      match splitAt sep rest with
      | [] => [[c]]
      | part :: parts => (c :: part) :: parts

def after? : List Char → List Char → Option (List Char)
  | [], text => some text
  | _ :: _, [] => none
  | p :: ps, c :: cs => if p = c then after? ps cs else none

end FilterLists.Text
