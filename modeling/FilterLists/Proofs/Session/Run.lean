import Mathlib
import FilterLists.Session

/-!
A run as a sequence of steps, each of which reads the state, may change it, and succeeds or ends the
run. Every step of a run is given by its result and by the state that it leaves.
-/
namespace FilterLists.Session

section Monad
variable {α β : Type} {x : SessionM α} {f : α → SessionM β} {s t : SessionState}

/-- The result of a step and the state after it. -/
def result (x : SessionM α) (s : SessionState) : Except SessionError α × SessionState :=
  x.run.run s

theorem result_bind (x : SessionM α) (f : α → SessionM β) (s : SessionState) :
    result (x >>= f) s =
      match result x s with
      | (.ok a, t) => result (f a) t
      | (.error e, t) => (.error e, t) := by
  rw [result, ExceptT.run_bind, StateT.run_bind, result]
  rcases x.run.run s with ⟨_ | _, t⟩ <;> rfl

theorem result_pure (a : α) (s : SessionState) : result (pure a) s = (.ok a, s) := rfl

theorem result_get (s : SessionState) : result get s = (.ok s, s) := rfl

theorem result_modify (f : SessionState → SessionState) (s : SessionState) :
    result (modify f) s = (.ok (), f s) := rfl

theorem result_liftConfig (r : Except ConfigError α) (s : SessionState) :
    result (liftConfig r) s = (r.mapError .config, s) := rfl

theorem result_liftService (r : Except Error α) (s : SessionState) :
    result (liftService r) s = (r.mapError .service, s) := rfl

theorem bind_eq_ok {b : β} (h : result (x >>= f) s = (.ok b, t)) :
    ∃ a between, result x s = (.ok a, between) ∧ result (f a) between = (.ok b, t) := by
  rw [result_bind] at h
  rcases hx : result x s with ⟨_ | a, between⟩
  · rw [hx] at h
    cases h
  · rw [hx] at h
    exact ⟨a, between, rfl, h⟩

end Monad

section Steps
variable {setting : Setting} {i : Invocation} {config : Config} {s t : SessionState}

theorem result_updateTree (f : FileTree → Except ConfigError FileTree) (s : SessionState) :
    result (updateTree f) s =
      match f s.tree with
      | .ok tree => (.ok (), { s with tree })
      | .error e => (.error (.config e), s) := by
  rw [updateTree, result_bind, result_get]
  simp only [result_bind, result_liftConfig]
  cases f s.tree <;> rfl

def configuration (tree : FileTree) (i : Invocation) : Except SessionError Config :=
  match Config.load tree (some i.configPath) i.overrides with
  | .error e => .error (.config e)
  | .ok config =>
    match config.validate with
    | .error fault => .error (.config (.invalid fault))
    | .ok () => .ok config

theorem result_loadConfig (i : Invocation) (s : SessionState) :
    result (loadConfig i) s = (configuration s.tree i, s) := by
  rw [loadConfig, result_bind, result_get]
  simp only [result_bind, result_liftConfig, configuration]
  cases hload : Config.load s.tree (some i.configPath) i.overrides with
  | error e => rfl
  | ok config =>
    simp only [Except.mapError]
    cases config.validate <;> rfl

def withCache (setting : Setting) (i : Invocation) (config : Config) (tree : FileTree) : FileTree :=
  (tree.ensurePath (config.filtering.storageDir i.workDir) setting.now).1

def idleService (setting : Setting) (i : Invocation) (config : Config) (tree : FileTree) : Service :=
  let path := config.filtering.storageDir i.workDir
  let store : Store := { path, place := ((withCache setting i config tree).find path).toOption }
  { registry := startRegistry config.filtering setting.now (fun f => store.load Faults.none f), store }

def openedService (setting : Setting) (i : Invocation) (config : Config) (tree : FileTree) :
    Except SessionError Service :=
  let path := config.filtering.storageDir i.workDir
  match (tree.ensurePath path setting.now).2, Client.withUserAgent config.filtering.userAgent with
  | .error e, _ => .error (.service (.io path e))
  | .ok (), .error e => .error (.service e)
  | .ok (), .ok _ =>
    let service := idleService setting i config tree
    if config.filtering.enabled then
      match service.startEngine.2 with
      | .error e => .error (.service e)
      | .ok () => .ok service.startEngine.1
    else .ok service

theorem result_openService (setting : Setting) (i : Invocation) (config : Config)
    (s : SessionState) :
    result (openService setting i config) s =
      (openedService setting i config s.tree,
        { s with tree := withCache setting i config s.tree }) := by
  rw [openService]
  simp only [result_bind, result_get, result_modify, result_liftService, openedService]
  cases (s.tree.ensurePath (config.filtering.storageDir i.workDir) setting.now).2 with
  | error e => rfl
  | ok made =>
    cases Client.withUserAgent config.filtering.userAgent with
    | error e => rfl
    | ok client =>
      simp only [Except.mapError]
      split
      · rw [result_bind, result_liftService]
        rw [idleService, withCache]
        generalize Service.startEngine _ = started
        rcases started with ⟨service, _ | _⟩ <;> rfl
      · rfl

theorem openedService_eq_ok {tree : FileTree} {service : Service}
    (h : openedService setting i config tree = .ok service) :
    (tree.ensurePath (config.filtering.storageDir i.workDir) setting.now).2 = .ok () ∧
      service.registry = (idleService setting i config tree).registry ∧
      service.store = (idleService setting i config tree).store := by
  simp only [openedService] at h
  split at h
  · cases h
  · cases h
  · next hmade _ =>
    refine ⟨hmade, ?_⟩
    split at h
    · split at h
      · cases h
      · cases h
        exact ⟨rfl, rfl⟩
    · cases h
      exact ⟨rfl, rfl⟩

theorem result_saveConfig (setting : Setting) (i : Invocation) (service : Service)
    (s : SessionState) :
    result (saveConfig setting i service) s =
      match Config.saveFilters s.tree i.configPath service.registry.filters setting.now with
      | .ok tree => (.ok (), { s with tree })
      | .error e => (.error (.config e), s) :=
  result_updateTree _ s

def keptCache (tree : FileTree) (service : Service) : FileTree :=
  match service.store.place with
  | some node => tree.replace service.store.path node
  | none => tree

theorem result_keepCache (service : Service) (s : SessionState) :
    result (keepCache service) s = (.ok (), { s with tree := keptCache s.tree service }) := by
  unfold keepCache keptCache
  cases service.store.place <;> rfl

/-- A command that changes the list of subscriptions and nothing else. -/
def edits : Command → Bool
  | .add .. | .remove _ | .enable _ | .disable _ => true
  | .run _ | .refresh _ | .list => false

/-- The service after such a command, and the command's answer. -/
def edited (service : Service) : Command → Service × Except Error Unit
  | .add url name enabled =>
    let (added, answer) := service.addFilter url name enabled
    (added, answer.map fun _ => ())
  | .remove url =>
    let (removed, answer) := service.removeFilter Faults.none url
    (removed, answer.map fun _ => ())
  | .enable url => service.switchFilter Faults.noneFor url true
  | .disable url => service.switchFilter Faults.noneFor url false
  | _ => (service, .ok ())

def editedTree (tree : FileTree) (service : Service) : Command → FileTree
  | .remove _ => keptCache tree service
  | _ => tree

theorem result_perform_edit (hedits : edits i.command = true) (service : Service)
    (s : SessionState) :
    result (perform setting i config service) s =
      match edited service i.command with
      | (_, .error e) => (.error (.service e), s)
      | (after, .ok ()) =>
        result (saveConfig setting i after) { s with tree := editedTree s.tree after i.command } := by
  unfold perform
  cases hcommand : i.command with
  | run force => simp [hcommand, edits] at hedits
  | refresh force => simp [hcommand, edits] at hedits
  | list => simp [hcommand, edits] at hedits
  | add url name enabled =>
    simp only [edited, editedTree, result_bind, result_liftService]
    rcases service.addFilter url name enabled with ⟨added, _ | _⟩ <;> rfl
  | remove url =>
    simp only [edited, editedTree, result_bind, result_liftService]
    rcases service.removeFilter Faults.none url with ⟨removed, _ | _⟩
    · rfl
    · simp only [Except.mapError, result_keepCache]
      rfl
  | enable url =>
    simp only [edited, editedTree, result_bind, result_liftService]
    rcases service.switchFilter Faults.noneFor url true with ⟨enabled, _ | _⟩ <;> rfl
  | disable url =>
    simp only [edited, editedTree, result_bind, result_liftService]
    rcases service.switchFilter Faults.noneFor url false with ⟨disabled, _ | _⟩ <;> rfl

theorem result_perform_list (hcommand : i.command = .list) (service : Service) (s : SessionState) :
    result (perform setting i config service) s =
      (.ok (), { s with printed := some (FilterInfo.listing service.registry.list) }) := by
  rw [perform, hcommand]
  rfl

theorem result_perform_refresh {force : Bool} (hcommand : i.command = .refresh force)
    (service : Service) (s : SessionState) :
    result (perform setting i config service) s =
      match Refresh.execute service (policyOf config.filtering) Faults.noneFor setting.network
          setting.now force with
      | (refreshed, .error e) =>
        (.error (.service e), { s with tree := keptCache s.tree refreshed })
      | (refreshed, .ok _) =>
        result (saveConfig setting i refreshed)
          { tree := keptCache s.tree refreshed
            printed := some (FilterInfo.listing refreshed.registry.list) } := by
  simp only [perform, hcommand, result_bind, result_liftService]
  rcases Refresh.execute service (policyOf config.filtering) Faults.noneFor setting.network
    setting.now force with ⟨refreshed, _ | _⟩ <;>
    simp only [result_keepCache, Except.mapError]
  rfl

theorem result_execute (setting : Setting) (i : Invocation) (s : SessionState) :
    result (execute setting i) s =
      match configuration s.tree i with
      | .error e => (.error e, s)
      | .ok config =>
        match openedService setting i config s.tree with
        | .error e => (.error e, { s with tree := withCache setting i config s.tree })
        | .ok service =>
          result (perform setting i config service)
            { s with tree := withCache setting i config s.tree } := by
  rw [execute, result_bind, result_loadConfig]
  cases configuration s.tree i with
  | error e => rfl
  | ok config =>
    simp only [result_bind, result_openService]
    cases openedService setting i config s.tree <;> rfl

end Steps

section Runs
variable {setting : Setting} {args : List String} {i : Invocation} {tree : FileTree}

/-- A command line that is understood is executed, and the outcome tells how that went. -/
theorem run_of_read (hread : CommandLine.read args = .ok i) (setting : Setting) (tree : FileTree) :
    run setting args tree =
      match result (execute setting i) { tree } with
      | (.ok (), t) => (t.tree, { status := 0, printed := t.printed })
      | (.error e, t) =>
        (t.tree, { status := 1, printed := t.printed, report := some e.report }) := by
  rw [result]
  simp only [run, hread]
  rcases ((execute setting i).run).run { tree } with ⟨_ | _, t⟩ <;> rfl

theorem execute_eq_ok_of_status (hread : CommandLine.read args = .ok i)
    (hstatus : (run setting args tree).2.status = 0) :
    ∃ t, result (execute setting i) { tree } = (.ok (), t) ∧ (run setting args tree).1 = t.tree := by
  rw [run_of_read hread] at hstatus ⊢
  rcases hresult : result (execute setting i) { tree } with ⟨e | ⟨⟩, t⟩
  · simp [hresult] at hstatus
  · exact ⟨t, rfl, rfl⟩

end Runs

end FilterLists.Session
