import FilterLists.Text.Digits

/-!
Quoted texts. Writing takes the plainest of four styles that needs no escapes, and where all need
some, double quotes with escapes. Reading knows all styles and escapes.
-/
namespace FilterLists.Toml.Quoted

inductive Style
  | basic
  | literal
  | longBasic
  | longLiteral
deriving DecidableEq, Repr

/-- Control characters other than tab and line feed have no plain form. -/
def needsEscape (c : Char) : Bool :=
  (c.toNat < 0x20 && c ≠ '\t' && c ≠ '\n') || c.toNat = 0x7F

def longestRun (q : Char) (current longest : Nat) : List Char → Nat
  | [] => longest
  | c :: rest =>
    if c = q then longestRun q (current + 1) (max longest (current + 1)) rest
    else longestRun q 0 longest rest

def styleFor (text : List Char) : Style :=
  let control := text.any needsEscape
  let backslash := text.contains '\\'
  let newline := text.contains '\n'
  let single := longestRun '\'' 0 0 text
  let double := longestRun '"' 0 0 text
  if !control && !backslash && double = 0 && !newline then .basic
  else if !control && single = 0 && !newline then .literal
  else if !control && !backslash && double ≤ 2 then .longBasic
  else if !control && single ≤ 2 then .longLiteral
  else if newline then .longBasic
  else .basic

def hexDigits (width n : Nat) : List Char :=
  (Text.padded 16 width n).map Char.toUpper

/-- How a character is written between double quotes, apart from the quote itself. -/
def escaped (long : Bool) (c : Char) : List Char :=
  if c = '\\' then ['\\', '\\']
  else if c = '\n' then if long then ['\n'] else ['\\', 'n']
  else if c = '\t' then ['\\', 't']
  else if c = '\r' then ['\\', 'r']
  else if c.toNat = 8 then ['\\', 'b']
  else if c.toNat = 12 then ['\\', 'f']
  else if c.toNat < 0x20 ∨ c.toNat = 0x7F then '\\' :: 'u' :: hexDigits 4 c.toNat
  else [c]

/-- The text between double quotes. The long form takes up to two quotes in a row as they are; the
count is that of the quotes just before. -/
def escapedText (long : Bool) (quotes : Nat) : List Char → List Char
  | [] => []
  | c :: rest =>
    if c = '"' then
      if long && quotes < 2 then '"' :: escapedText long (quotes + 1) rest
      else '\\' :: '"' :: escapedText long 0 rest
    else escaped long c ++ escapedText long 0 rest

/-- A long text with line feeds starts on a line of its own. -/
def opening (text : List Char) : List Char :=
  if text.contains '\n' then ['\n'] else []

def write (text : List Char) : List Char :=
  match styleFor text with
  | .basic => '"' :: escapedText false 0 text ++ ['"']
  | .literal => '\'' :: text ++ ['\'']
  | .longBasic =>
    ['"', '"', '"'] ++ opening text ++ escapedText true 0 text ++ ['"', '"', '"']
  | .longLiteral => ['\'', '\'', '\''] ++ opening text ++ text ++ ['\'', '\'', '\'']

def isPlain (c : Char) : Bool :=
  c = '\t' || (0x20 ≤ c.toNat && c.toNat ≠ 0x7F)

def isSpace (c : Char) : Bool :=
  c = ' ' || c = '\t'

def afterNewline? : List Char → Option (List Char)
  | '\n' :: rest => some rest
  | '\r' :: '\n' :: rest => some rest
  | _ => none

def numbered? (digits : List Char) : Option Char := do
  let ds ← digits.mapM (Text.digit? 16)
  let n := Text.valueOf 16 ds
  if n.isValidChar then some (Char.ofNat n) else none

def escape? (c : Char) : Option Char :=
  if c = 'b' then some (Char.ofNat 8)
  else if c = 't' then some '\t'
  else if c = 'n' then some '\n'
  else if c = 'f' then some (Char.ofNat 12)
  else if c = 'r' then some '\r'
  else if c = 'e' then some (Char.ofNat 27)
  else if c = '"' ∨ c = '\\' then some c
  else none

def plain? (c : Char) : Option Char :=
  if isPlain c then some c else none

def prepend? (c : Option Char) (read : Option (List Char × List Char)) :
    Option (List Char × List Char) := do
  let c ← c
  let (text, rest) ← read
  some (c :: text, rest)

def readBasic : List Char → Option (List Char × List Char)
  | [] => none
  | '"' :: rest => some ([], rest)
  | '\\' :: 'x' :: a :: b :: rest => prepend? (numbered? [a, b]) (readBasic rest)
  | '\\' :: 'u' :: a :: b :: c :: d :: rest => prepend? (numbered? [a, b, c, d]) (readBasic rest)
  | '\\' :: 'U' :: a :: b :: c :: d :: e :: f :: g :: h :: rest =>
    prepend? (numbered? [a, b, c, d, e, f, g, h]) (readBasic rest)
  | '\\' :: c :: rest => prepend? (escape? c) (readBasic rest)
  | c :: rest => prepend? (plain? c) (readBasic rest)

def readLiteral : List Char → Option (List Char × List Char)
  | [] => none
  | '\'' :: rest => some ([], rest)
  | c :: rest => prepend? (plain? c) (readLiteral rest)

/-- Whether a backslash before the text ends its line. -/
def endsLine (text : List Char) : Bool :=
  (afterNewline? (text.dropWhile isSpace)).isSome

def longPlain? (c : Char) : Option Char :=
  if isPlain c || c = '\n' then some c else none

/-- The end of a long text takes in up to two quotes before it. After a backslash that ends its line
the blanks and line ends that follow are skipped. -/
def readLongBasic : Bool → List Char → Option (List Char × List Char)
  | _, [] => none
  | _, '"' :: '"' :: '"' :: '"' :: '"' :: rest => some (['"', '"'], rest)
  | _, '"' :: '"' :: '"' :: '"' :: rest => some (['"'], rest)
  | _, '"' :: '"' :: '"' :: rest => some ([], rest)
  | _, '\\' :: 'x' :: a :: b :: rest => prepend? (numbered? [a, b]) (readLongBasic false rest)
  | _, '\\' :: 'u' :: a :: b :: c :: d :: rest =>
    prepend? (numbered? [a, b, c, d]) (readLongBasic false rest)
  | _, '\\' :: 'U' :: a :: b :: c :: d :: e :: f :: g :: h :: rest =>
    prepend? (numbered? [a, b, c, d, e, f, g, h]) (readLongBasic false rest)
  | _, '\\' :: c :: rest =>
    if endsLine (c :: rest) then readLongBasic true rest
    else prepend? (escape? c) (readLongBasic false rest)
  | skipping, '\r' :: '\n' :: rest =>
    if skipping then readLongBasic true rest
    else prepend? (some '\r') (prepend? (some '\n') (readLongBasic false rest))
  | skipping, c :: rest =>
    if skipping && (isSpace c || c = '\n') then readLongBasic true rest
    else prepend? (longPlain? c) (readLongBasic false rest)

def readLongLiteral : List Char → Option (List Char × List Char)
  | [] => none
  | '\'' :: '\'' :: '\'' :: '\'' :: '\'' :: rest => some (['\'', '\''], rest)
  | '\'' :: '\'' :: '\'' :: '\'' :: rest => some (['\''], rest)
  | '\'' :: '\'' :: '\'' :: rest => some ([], rest)
  | '\r' :: '\n' :: rest =>
    prepend? (some '\r') (prepend? (some '\n') (readLongLiteral rest))
  | c :: rest => prepend? (longPlain? c) (readLongLiteral rest)

/-- A line end right after the opening quotes does not count. -/
def afterOpening (text : List Char) : List Char :=
  (afterNewline? text).getD text

def readShort? : List Char → Option (List Char × List Char)
  | '"' :: rest => readBasic rest
  | '\'' :: rest => readLiteral rest
  | _ => none

def read? : List Char → Option (List Char × List Char)
  | '"' :: '"' :: '"' :: rest => readLongBasic false (afterOpening rest)
  | '\'' :: '\'' :: '\'' :: rest => readLongLiteral (afterOpening rest)
  | text => readShort? text

end FilterLists.Toml.Quoted
