import FilterLists.LiveService
import FilterLists.Session

/-!
The service as a process among others. It reads the configuration once and saves it with the ids
that it has given, then refreshes in cycles, and at its shutdown writes the names that it knows to
the configuration file. Other processes may change the configuration file and the cache all the
while.
-/
namespace FilterLists

def ServiceEvent.isRefresh : ServiceEvent → Bool
  | .cycleBegins .. | .downloadStarts .. | .downloadEnds .. | .persists .. | .cycleEnds _ => true
  | _ => false

/-- What can happen between the startup of a daemon and its shutdown. -/
inductive DaemonEvent
  | refreshes (e : ServiceEvent) (ofCycle : e.isRefresh = true)
  /-- Another process changes the cache directory. -/
  | cacheChanges (place : Option Node)

namespace Daemon

open Session

/-- What a daemon does before its first cycle. -/
def startUp (setting : Setting) (i : Invocation) : SessionM LiveService := do
  let config ← loadConfig i
  let service ← openService setting i config
  saveConfig setting i service
  pure { service, policy := policyOf config.filtering }

def step (l : LiveService) : DaemonEvent → LiveService
  | .refreshes e _ => l.step e
  | .cacheChanges place => l.withStore { l.service.store with place }

def run (l : LiveService) (events : List DaemonEvent) : LiveService :=
  events.foldl step l

def shutDown (tree : FileTree) (i : Invocation) (l : LiveService) (now : Instant) :
    Except ConfigError FileTree :=
  Config.saveNames tree i.configPath l.service.registry.filters now

end Daemon

end FilterLists
