import FilterLists.FileTree
import FilterLists.Filter
import FilterLists.Validation

/-!
Everything that can go wrong in the service, by cause, and the wording of each cause.
-/
namespace FilterLists

inductive Error
  | notCached (path : String)
  | io (path : String) (cause : IoError)
  | clientRejected (cause : String)
  | requestFailed (url cause : String)
  | transferFailed (url cause : String)
  | unexpectedStatus (url : String) (status : Nat)
  | unexpectedContentType (url contentType : String)
  | duplicateFilter (url : String)
  | unknownFilter (url : String)
  | invalidUrl (fault : UrlFault)
  | invalidName (fault : NameFault)
  | duplicateId (id : FilterId)
deriving DecidableEq, Repr

namespace Error

def message : Error → String
  | .notCached path => "Filter file not found: " ++ path
  | .io path cause => "I/O error: " ++ path ++ ": " ++ cause.message
  | .clientRejected cause => "Fetch failed: " ++ cause
  | .requestFailed url cause => "Fetch failed: request to " ++ url ++ " failed: " ++ cause
  | .transferFailed url cause => "Fetch failed: read error for " ++ url ++ ": " ++ cause
  | .unexpectedStatus url status =>
    "Unexpected HTTP status " ++ toString status ++ " from " ++ url
  | .unexpectedContentType url contentType =>
    "Non-text response " ++ contentType ++ " from " ++ url
  | .duplicateFilter url => "Filter already exists: " ++ url
  | .unknownFilter url => "Filter not found: " ++ url
  | .invalidUrl fault => "Invalid filter URL: " ++ fault.message
  | .invalidName fault => "Invalid filter name: " ++ fault.message
  | .duplicateId id =>
    "Filtering engine reconfiguration failed: filter id " ++ toString id.toInt ++
      " is used by more than one filter"

end Error

end FilterLists
