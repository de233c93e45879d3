import FilterLists.Config.Basic

/-!
The command line. Options stand before the command that they go with; an option takes the next word
as its value unless that begins with a dash, or a value attached to it. Arguments are read from left
to right, and the first one that asks for help or the version, or that is wrong, decides.
-/
namespace FilterLists

inductive Command
  | run (forceRefresh : Bool)
  | refresh (force : Bool)
  | list
  | add (url name : String) (enabled : Bool)
  | remove (url : String)
  | enable (url : String)
  | disable (url : String)
deriving DecidableEq, Repr

structure Invocation where
  configPath : String := "ferrous-filters.toml"
  workDir : String := "."
  overrides : Overrides := {}
  command : Command := .run false
deriving DecidableEq, Repr

inductive Refusal
  /-- Help or the version was asked for. -/
  | informed
  | misused
deriving DecidableEq, Repr

namespace CommandLine

structure OptionRule where
  name : String
  short : Option Char := none
  takesValue : Bool := true
  accepts : String → Bool := fun _ => true

structure Rules where
  options : List OptionRule := []
  words : Nat := 0
  hasVersion : Bool := false

/-- The arguments read so far. An option that waits for its value, or whose value has not been
checked yet, is pending. -/
structure Reading where
  given : List (String × String) := []
  pending : Option (OptionRule × Option String) := none
  words : List String := []
  onlyWords : Bool := false

/-- A count in decimal digits, which may have a plus sign, of at most 64 bits. -/
def word64? (s : String) : Option UInt64 := do
  let digits :=
    match s.toList with
    | '+' :: rest => rest
    | cs => cs
  let n := Text.valueOf 10 (← digits.mapM (Text.digit? 10))
  if digits ≠ [] ∧ n < UInt64.size then some (UInt64.ofNat n) else none

/-- No option may be given twice. -/
def record (r : Reading) (rule : OptionRule) (value : String) : Except Refusal Reading :=
  if !rule.accepts value || (r.given.lookup rule.name).isSome then .error .misused
  else .ok { r with given := r.given ++ [(rule.name, value)], pending := none }

def settle (r : Reading) : Except Refusal Reading :=
  match r.pending with
  | none => .ok r
  | some (_, none) => .error .misused
  | some (rule, some value) => record r rule value

def awaitsValue (r : Reading) : Bool :=
  match r.pending with
  | some (_, none) => true
  | _ => false

def giveOption (r : Reading) (rule : OptionRule) (attached : Option String) :
    Except Refusal Reading :=
  match rule.takesValue, attached with
  | true, some value => do record (← settle r) rule value
  | true, none => do
    let settled ← settle r
    .ok { settled with pending := some (rule, none) }
  | false, some _ => .error .misused
  | false, none => do record (← settle r) rule "true"

def inform (r : Reading) : Except Refusal Reading := do
  let _ ← settle r
  .error .informed

def readLong (rules : Rules) (r : Reading) (text : List Char) : Except Refusal Reading :=
  let name := String.ofList (text.takeWhile (· ≠ '='))
  let attached :=
    match text.dropWhile (· ≠ '=') with
    | [] => none
    | _ :: value => some (String.ofList value)
  match rules.options.find? (fun rule => rule.name = name) with
  | some rule => giveOption r rule attached
  | none =>
    if name = "help" ∨ (name = "version" ∧ rules.hasVersion) then
      if attached.isSome then .error .misused else inform r
    else .error .misused

/-- An argument that begins with one dash. The rest of the word is the value of an option that takes
one, and an equals sign before the value is left out. -/
def readShort (rules : Rules) (r : Reading) (text : List Char) : Except Refusal Reading :=
  match text with
  | [] => .error .misused
  | c :: rest =>
    match rules.options.find? (fun rule => rule.short = some c) with
    | some rule =>
      match rest with
      | [] => giveOption r rule none
      | '=' :: value => giveOption r rule (some (String.ofList value))
      | value => giveOption r rule (some (String.ofList value))
    | none =>
      if c = 'h' ∨ (c = 'V' ∧ rules.hasVersion) then inform r else .error .misused

def readWord (rules : Rules) (r : Reading) (word : String) : Except Refusal Reading := do
  let settled ← settle r
  if settled.words.length < rules.words then
    .ok { settled with words := settled.words ++ [word] }
  else .error .misused

def readArgument (rules : Rules) (r : Reading) (arg : String) : Except Refusal Reading :=
  if r.onlyWords then readWord rules r arg
  else
    match arg.toList with
    | ['-', '-'] => .ok { r with onlyWords := true }
    | '-' :: '-' :: text => readLong rules r text
    | '-' :: c :: text => readShort rules r (c :: text)
    | _ =>
      match r.pending with
      | some (rule, none) => .ok { r with pending := some (rule, some arg) }
      | _ => readWord rules r arg

def readAll (rules : Rules) (args : List String) : Except Refusal Reading := do
  let r ← args.foldlM (readArgument rules) {}
  let settled ← settle r
  if settled.words.length < rules.words then .error .misused else .ok settled

def commandNames : List String :=
  ["run", "refresh", "list", "add", "remove", "enable", "disable"]

def has (r : Reading) (name : String) : Bool :=
  (r.given.lookup name).isSome

def firstWord (r : Reading) : String :=
  r.words.headD ""

def readCommand (name : String) (args : List String) : Except Refusal Command :=
  if name = "run" then do
    let r ← readAll { options := [{ name := "force-refresh", takesValue := false }] } args
    .ok (.run (has r "force-refresh"))
  else if name = "refresh" then do
    let r ← readAll { options := [{ name := "force", takesValue := false }] } args
    .ok (.refresh (has r "force"))
  else if name = "list" then do
    let _ ← readAll {} args
    .ok .list
  else if name = "add" then do
    let r ← readAll
      { options := [{ name := "name" }, { name := "disabled", takesValue := false }], words := 1 }
      args
    .ok (.add (firstWord r) ((r.given.lookup "name").getD "") (!has r "disabled"))
  else if name = "remove" then do
    .ok (.remove (firstWord (← readAll { words := 1 } args)))
  else if name = "enable" then do
    .ok (.enable (firstWord (← readAll { words := 1 } args)))
  else if name = "disable" then do
    .ok (.disable (firstWord (← readAll { words := 1 } args)))
  else if name = "help" then
    match args with
    | [] => .error .informed
    | [topic] =>
      .error (if topic = "help" ∨ topic ∈ commandNames then .informed else .misused)
    | _ => .error .misused
  else .error .misused

/-- The options that stand before the command. -/
def commonRules : Rules :=
  { options :=
      [{ name := "config", short := some 'c', accepts := fun v => v ≠ "" },
        { name := "work-dir", short := some 'w', accepts := fun v => v ≠ "" },
        { name := "log-level", short := some 'l' },
        { name := "refresh-tick-secs", accepts := fun v => (word64? v).isSome }]
    hasVersion := true }

/-- Reads the common options up to the name of a command, and the command with its own arguments.
A command that asks for help comes before a fault in the option just before it. -/
def readFrom (r : Reading) : List String → Except Refusal (Reading × Command)
  | [] => do .ok (← settle r, .run false)
  | arg :: rest =>
    if !r.onlyWords && !awaitsValue r && (arg = "help" || commandNames.contains arg) then do
      let command ← readCommand arg rest
      .ok (← settle r, command)
    else do readFrom (← readArgument commonRules r arg) rest

def read (args : List String) : Except Refusal Invocation := do
  let (r, command) ← readFrom {} args
  let default : Invocation := {}
  .ok {
    configPath := (r.given.lookup "config").getD default.configPath
    workDir := (r.given.lookup "work-dir").getD default.workDir
    overrides :=
      { logLevel := r.given.lookup "log-level"
        refreshTickSecs := (r.given.lookup "refresh-tick-secs").bind word64? }
    command }

end CommandLine

end FilterLists
