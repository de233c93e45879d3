import FilterLists.Instant
import FilterLists.Path
import FilterLists.Text.Utf8

/-!
A tree of files and directories with modification times, and the operations on it that the service
needs. A file operation fails as it does on a POSIX system; there are no links.
-/
namespace FilterLists

inductive IoError
  | notFound
  | alreadyExists
  | notADirectory
  | isADirectory
  | nameTooLong
  | nulInName
  | malformedText
  /-- Whatever else the device reports, in its own words. -/
  | other (words : String)
deriving DecidableEq, Repr

def IoError.message : IoError → String
  | .notFound => "No such file or directory (os error 2)"
  | .alreadyExists => "File exists (os error 17)"
  | .notADirectory => "Not a directory (os error 20)"
  | .isADirectory => "Is a directory (os error 21)"
  | .nameTooLong => "File name too long (os error 36)"
  | .nulInName => "file name contained an unexpected NUL byte"
  | .malformedText => "stream did not contain valid UTF-8"
  | .other words => words

inductive Node
  | file (content : Bytes) (modified : Instant)
  | directory (entries : List (String × Node)) (modified : Instant)
deriving Inhabited

abbrev Entries := List (String × Node)

namespace Entries

def erase (entries : Entries) (name : String) : Entries :=
  entries.filter (fun entry => entry.1 ≠ name)

def put (entries : Entries) (name : String) (node : Node) : Entries :=
  (name, node) :: erase entries name

end Entries

namespace Node

def modified : Node → Instant
  | .file _ t => t
  | .directory _ t => t

def isDirectory : Node → Bool
  | .file .. => false
  | .directory .. => true

def child (node : Node) (name : String) : Except IoError Node :=
  match node with
  | .file .. => .error .notADirectory
  | .directory entries _ =>
    if Path.maxNameBytes < name.utf8ByteSize then .error .nameTooLong
    else
      match entries.lookup name with
      | some found => .ok found
      | none => .error .notFound

def descend (node : Node) : List String → Except IoError Node
  | [] => .ok node
  | name :: rest =>
    match node.child name with
    | .ok found => found.descend rest
    | .error e => .error e

/-- Changes what stands at the end of a chain of names, all but the last of which exist. -/
def change (node : Node) (names : List String) (f : Option Node → Option Node) : Node :=
  match names, node with
  | [], _ => (f (some node)).getD node
  | [name], .directory entries t =>
    match f (entries.lookup name) with
    | some new => .directory (Entries.put entries name new) t
    | none => .directory (Entries.erase entries name) t
  | name :: rest, .directory entries t =>
    match entries.lookup name with
    | some found => .directory (Entries.put entries name (found.change rest f)) t
    | none => node
  | _ :: _, .file .. => node

end Node

/-- A whole file tree and the chain of names of the working directory. -/
structure FileTree where
  root : Node
  working : List String := []

namespace FileTree

def isDots (part : String) : Bool :=
  part = "." || part = ".."

/-- Follows parts from a directory, whose chain is given last name first. -/
def follow (root : Node) : List String → List String → Except IoError (List String)
  | chain, [] => .ok chain
  | chain, part :: rest =>
    match root.descend chain.reverse with
    | .error e => .error e
    | .ok node =>
      if isDots part then
        if node.isDirectory then follow root (if part = ".." then chain.tail else chain) rest
        else .error .notADirectory
      else
        match node.child part with
        | .ok _ => follow root (part :: chain) rest
        | .error e => .error e

/-- The chain of names, last first, of what a path leads to. -/
def locate (tree : FileTree) (absolute : Bool) (parts : List String) :
    Except IoError (List String) :=
  follow tree.root (if absolute then [] else tree.working.reverse) parts

def nodeAt (tree : FileTree) (absolute : Bool) (parts : List String) : Except IoError Node := do
  tree.root.descend (← tree.locate absolute parts).reverse

/-- What is wrong with a path whatever files there are. -/
def checkPath (path : String) : Except IoError Unit :=
  if path.toList.contains (Char.ofNat 0) then .error .nulInName
  else if path = "" then .error .notFound
  else if Path.maxBytes < path.utf8ByteSize then .error .nameTooLong
  else .ok ()

def find (tree : FileTree) (path : String) : Except IoError Node := do
  checkPath path
  let node ← tree.nodeAt (Path.isAbsolute path) (Path.parts path)
  if Path.asksForDirectory path && !node.isDirectory then .error .notADirectory else .ok node

def exists? (tree : FileTree) (path : String) : Bool :=
  (tree.find path).isOk

def replace (tree : FileTree) (path : String) (node : Node) : FileTree :=
  match tree.locate (Path.isAbsolute path) (Path.parts path) with
  | .ok chain => { tree with root := tree.root.change chain.reverse (fun _ => some node) }
  | .error _ => tree

def read (tree : FileTree) (path : String) : Except IoError Bytes :=
  match tree.find path with
  | .ok (.file content _) => .ok content
  | .ok (.directory ..) => .error .isADirectory
  | .error e => .error e

/-- Puts a new node under the last part of a path. What stands there already decides whether that is
possible, and so does the enclosing directory. -/
def place (tree : FileTree) (absolute : Bool) (parts : List String) (name : String)
    (allow : Except IoError Node → Except IoError Unit) (node : Node) :
    Except IoError FileTree := do
  let chain ← tree.locate absolute parts
  let directory ← tree.root.descend chain.reverse
  allow (directory.child name)
  .ok { tree with root := tree.root.change (chain.reverse ++ [name]) (fun _ => some node) }

/-- A file may be written where there is nothing or a file. A slash at the end of its path is not
allowed, whether or not there is a directory. -/
def allowFile (asksForDirectory : Bool) : Except IoError Node → Except IoError Unit
  | .error .notADirectory => .error .notADirectory
  | found =>
    if asksForDirectory then .error .isADirectory
    else
      match found with
      | .ok (.directory ..) => .error .isADirectory
      | .ok (.file ..) => .ok ()
      | .error .notFound => .ok ()
      | .error e => .error e

def allowDirectory : Except IoError Node → Except IoError Unit
  | .ok _ => .error .alreadyExists
  | .error .notFound => .ok ()
  | .error e => .error e

def write (tree : FileTree) (path : String) (content : Bytes) (now : Instant) :
    Except IoError FileTree := do
  checkPath path
  let absolute := Path.isAbsolute path
  let parts := Path.parts path
  match parts.getLast? with
  | none => .error .isADirectory
  | some name =>
    if isDots name then
      let _ ← tree.locate absolute parts
      .error .isADirectory
    else
      tree.place absolute parts.dropLast name (allowFile (Path.asksForDirectory path))
        (.file content now)

def makeDirectory (tree : FileTree) (absolute : Bool) (parts : List String) (now : Instant) :
    Except IoError FileTree := do
  match parts.getLast? with
  | none => .error .alreadyExists
  | some name =>
    if isDots name then
      let _ ← tree.locate absolute parts
      .error .alreadyExists
    else tree.place absolute parts.dropLast name allowDirectory (.directory [] now)

/-- A directory that is there already is no failure. -/
def ensureDirectory (tree : FileTree) (absolute : Bool) (parts : List String) (now : Instant) :
    FileTree × Except IoError Unit :=
  match tree.makeDirectory absolute parts now with
  | .ok made => (made, .ok ())
  | .error e =>
    match tree.nodeAt absolute parts with
    | .ok (.directory ..) => (tree, .ok ())
    | _ => (tree, .error e)

/-- Makes a directory and the enclosing ones that are missing. Those that were made stay when the
last one cannot be. -/
def ensureParts (tree : FileTree) (absolute : Bool) (parts : List String) (now : Instant) :
    FileTree × Except IoError Unit :=
  if _ : parts = [] then (tree, .ok ())
  else
    match tree.makeDirectory absolute parts now with
    | .error .notFound =>
      match tree.ensureParts absolute (Path.parent parts) now with
      | (made, .ok ()) => made.ensureDirectory absolute parts now
      | failed => failed
    | _ => tree.ensureDirectory absolute parts now
termination_by parts.length
decreasing_by exact Path.length_parent_lt ‹_›

def ensurePath (tree : FileTree) (path : String) (now : Instant) :
    FileTree × Except IoError Unit :=
  match checkPath path with
  | .ok () => tree.ensureParts (Path.isAbsolute path) (Path.parts path) now
  | .error e => (tree, .error e)

end FileTree

end FilterLists
