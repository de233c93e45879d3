import FilterLists.Store

/-!
A save as a sequence of steps. Between two steps other operations may reach the same directory, the
device may refuse any step, and a write may take only some of the bytes. A save whose steps follow
one another undisturbed is `Store.save`.
-/
namespace FilterLists

inductive SavePhase
  | makingDirectory
  | numbering
  | creating (temp : String)
  | writing (temp : String) (rest : Bytes)
  | syncing (temp : String)
  | renaming (temp : String)
  | dating
  | discarding (temp : String) (cause : IoError)
  | ended (result : Except Error Filter)

structure Saving where
  filter : Filter
  phase : SavePhase := .makingDirectory

namespace Saving

def goTo (v : Saving) (phase : SavePhase) : Saving :=
  { v with phase }

/-- The temporary file that the save is responsible for. -/
def temp? (v : Saving) : Option String :=
  match v.phase with
  | .creating temp | .writing temp _ | .syncing temp | .renaming temp | .discarding temp _ =>
    some temp
  | _ => none

/-- The next step. A write takes one byte more than the given number, as far as there are any. -/
def step (v : Saving) (faults : Faults) (now : Instant) (more : Nat) (s : Store) :
    Store × Saving :=
  match v.phase with
  | .makingDirectory =>
    match s.ensureDirectory faults now with
    | .ok ready => (ready, v.goTo .numbering)
    | .error e => (s, v.goTo (.ended (.error e)))
  | .numbering =>
    ({ s with saves := s.saves + 1 },
      v.goTo (.creating (Store.tempName v.filter.id s.process s.saves)))
  | .creating temp =>
    match Store.unlessRefused (faults .create) (s.create now temp) with
    | .ok created => (created, v.goTo (.writing temp (v.filter.content.getD [])))
    | .error e => (s, v.goTo (.discarding temp e))
  | .writing temp [] => (s, v.goTo (.syncing temp))
  | .writing temp (b :: rest) =>
    match faults .write with
    | some e => (s, v.goTo (.discarding temp e))
    | none =>
      (s.append now temp (b :: rest.take more), v.goTo (.writing temp (rest.drop more)))
  | .syncing temp =>
    match faults .sync with
    | some e => (s, v.goTo (.discarding temp e))
    | none => (s, v.goTo (.renaming temp))
  | .renaming temp =>
    match Store.unlessRefused (faults .rename) (s.rename temp (Store.fileName v.filter.id)) with
    | .ok renamed => (renamed, v.goTo .dating)
    | .error e => (s, v.goTo (.discarding temp e))
  | .dating =>
    (s, v.goTo (.ended (.ok { v.filter with lastUpdated := s.lastModified faults v.filter })))
  | .discarding temp cause =>
    (s.discard faults temp, v.goTo (.ended (.error (.io (s.filePath v.filter) cause))))
  | .ended _ => (s, v)

/-- Some steps one after another, in which every write takes all bytes. -/
def proceed (v : Saving) (faults : Faults) (now : Instant) (n : Nat) (s : Store) :
    Store × Saving :=
  n.repeat (fun state => state.2.step faults now (v.filter.content.getD []).length state.1) (s, v)

end Saving

/-- A move of one of several saves, given by its place. -/
structure SaveMove where
  place : Nat
  faults : Faults
  now : Instant
  more : Nat := 0

namespace Saving

end Saving

end FilterLists
