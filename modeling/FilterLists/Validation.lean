import FilterLists.Text.Blank

/-!
What the URL and the name of a subscription may be. Lengths are counted in bytes of UTF-8.
-/
namespace FilterLists

inductive UrlFault
  | empty
  | tooLong
  | notHttp
  | blank
deriving DecidableEq, Repr

namespace UrlFault

def message : UrlFault → String
  | .empty => "URL cannot be empty"
  | .tooLong => "URL cannot exceed 2048 characters"
  | .notHttp => "URL must start with http:// or https://"
  | .blank => "URL cannot contain whitespace"

end UrlFault

inductive NameFault
  | tooLong
deriving DecidableEq, Repr

namespace NameFault

def message : NameFault → String
  | .tooLong => "Filter name cannot exceed 200 characters"

end NameFault

def checkUrl (url : String) : Except UrlFault Unit :=
  if url.utf8ByteSize = 0 then .error .empty
  else if 2048 < url.utf8ByteSize then .error .tooLong
  else if !url.startsWith "http://" && !url.startsWith "https://" then .error .notHttp
  else if url.toList.any Text.isBlank then .error .blank
  else .ok ()

def checkName (name : String) : Except NameFault Unit :=
  if 200 < name.utf8ByteSize then .error .tooLong else .ok ()

end FilterLists
