import FilterLists.Toml.Quoted
import FilterLists.Toml.Scalar
import FilterLists.Toml.Table

/-!
Reading a TOML document, version 1.1. The result is the table of the document, or nothing where the
text breaks a rule. Arrays and tables in braces may be nested eighty deep, and a key may have eighty
parts.
-/
namespace FilterLists.Toml

namespace Reader

open Quoted (isPlain isSpace afterNewline?)

def isBareKeyChar (c : Char) : Bool :=
  c.isAlphanum || c = '_' || c = '-'

def keyPart? (text : List Char) : Option (String × List Char) :=
  match text with
  | '"' :: _ => (Quoted.readShort? text).map fun (part, rest) => (String.ofList part, rest)
  | '\'' :: _ => (Quoted.readShort? text).map fun (part, rest) => (String.ofList part, rest)
  | _ =>
    let part := text.takeWhile isBareKeyChar
    if part.isEmpty then none else some (String.ofList part, text.dropWhile isBareKeyChar)

/-- A key of up to a number of parts joined by dots, with the last part apart, and the text after
the blanks that follow it. -/
def keyUpTo? : Nat → List Char → Option (List String × String × List Char)
  | 0, _ => none
  | n + 1, text => do
    let (part, rest) ← keyPart? text
    match rest.dropWhile isSpace with
    | '.' :: more => do
      let (parts, last, rest) ← keyUpTo? n (more.dropWhile isSpace)
      some (part :: parts, last, rest)
    | rest => some ([], part, rest)

/-- How deep values may be nested, and the most parts of a key. -/
def maxDepth : Nat := 80

def key? (text : List Char) : Option (List String × String × List Char) :=
  keyUpTo? maxDepth text

def skipFiller (inComment : Bool) : List Char → List Char
  | [] => []
  | '\n' :: rest => skipFiller false rest
  | '\r' :: '\n' :: rest => skipFiller false rest
  | c :: rest =>
    if inComment then if isPlain c then skipFiller true rest else c :: rest
    else if isSpace c then skipFiller false rest
    else if c = '#' then skipFiller true rest
    else c :: rest

mutual

def value? (depth : Nat) : Nat → List Char → Option (Value × List Char)
  | 0, _ => none
  | n + 1, text =>
    match text with
    | '"' :: _ => (Quoted.read? text).map fun (s, rest) => (.text (String.ofList s), rest)
    | '\'' :: _ => (Quoted.read? text).map fun (s, rest) => (.text (String.ofList s), rest)
    | '[' :: rest =>
      if depth < maxDepth then
        (items? (depth + 1) n (skipFiller false rest)).map fun (vs, rest) => (.array vs, rest)
      else none
    | '{' :: rest =>
      if depth < maxDepth then
        (pairs? (depth + 1) n [] (skipFiller false rest)).map fun (entries, rest) =>
          (.table .inlined entries, rest)
      else none
    | _ => Scalar.read? text

def items? (depth : Nat) : Nat → List Char → Option (List Value × List Char)
  | 0, _ => none
  | _ + 1, ']' :: rest => some ([], rest)
  | n + 1, text => do
    let (v, rest) ← value? depth n text
    match skipFiller false rest with
    | ',' :: more => do
      let (vs, rest) ← items? depth n (skipFiller false more)
      some (v :: vs, rest)
    | ']' :: rest => some ([v], rest)
    | _ => none

/-- The pairs of a table in braces up to its closing brace, after the ones read so far. Line ends
and comments may stand anywhere but inside a key. -/
def pairs? (depth : Nat) : Nat → Members → List Char → Option (Members × List Char)
  | 0, _, _ => none
  | _ + 1, entries, '}' :: rest => some (entries, rest)
  | n + 1, entries, text => do
    let (parts, last, rest) ← key? text
    let rest ← Scalar.expect? '=' (skipFiller false rest)
    let (v, rest) ← value? depth n (skipFiller false rest)
    let grown ← Table.addPair last v parts entries
    match skipFiller false rest with
    | ',' :: more => pairs? depth n grown (skipFiller false more)
    | '}' :: rest => some (grown, rest)
    | _ => none

end

/-- The text after the end of a line, on which nothing but blanks and a comment may stand. -/
def lineEnd? (text : List Char) : Option (List Char) :=
  let rest :=
    match text.dropWhile isSpace with
    | '#' :: comment => comment.dropWhile isPlain
    | rest => rest
  match rest with
  | [] => some []
  | _ => afterNewline? rest

/-- A header without its opening brackets: the key and the text after the closing ones. -/
def header? (closing text : List Char) : Option (List String × String × List Char) := do
  let (parts, last, rest) ← key? (text.dropWhile isSpace)
  if closing.isPrefixOf rest then
    let rest ← lineEnd? (rest.drop closing.length)
    some (parts, last, rest)
  else none

/-- Reads line after line into a document, of which the table of the last header is open. The size
bounds the steps that one value takes. -/
def document? (size : Nat) : Nat → List String → Members → List Char → Option Members
  | 0, _, _, _ => none
  | n + 1, path, entries, text =>
    match text.dropWhile isSpace with
    | [] => some entries
    | '[' :: '[' :: rest => do
      let (parts, last, rest) ← header? [']', ']'] rest
      let opened ← Table.descend (Table.openArray last) parts entries
      document? size n (parts ++ [last]) opened rest
    | '[' :: rest => do
      let (parts, last, rest) ← header? [']'] rest
      let opened ← Table.descend (Table.openTable last) parts entries
      document? size n (parts ++ [last]) opened rest
    | c :: rest =>
      if c = '#' || c = '\n' || c = '\r' then do
        let rest ← lineEnd? (c :: rest)
        document? size n path entries rest
      else do
        let (parts, last, rest) ← key? (c :: rest)
        let rest ← Scalar.expect? '=' rest
        let (v, rest) ← value? 0 size (rest.dropWhile isSpace)
        let grown ← Table.descend (Table.addPair last v parts) path entries
        let rest ← lineEnd? rest
        document? size n path grown rest

end Reader

def withoutMark : List Char → List Char
  | c :: rest => if c.toNat = 0xFEFF then rest else c :: rest
  | [] => []

def read? (text : List Char) : Option Members :=
  let text := withoutMark text
  Reader.document? (2 * text.length + 2) (text.length + 1) [] [] text

end FilterLists.Toml
