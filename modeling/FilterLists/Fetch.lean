import FilterLists.Error

/-!
Downloading a filter list over HTTP. A download changes the working copy only when the answer is
complete plain text with status 200 and its checksum is not the known one.
-/
namespace FilterLists

/-- What comes of a request: no answer, or an answer whose body may break off. -/
inductive Reply
  | failed (cause : String)
  | answered (status : Nat) (contentType : Option Bytes) (body : Except String Bytes)

abbrev Network := String → Reply

def Network.unreachable (cause : String) : Network := fun _ => .failed cause

/-- A client with the user agent that it sends, if it sends one. -/
structure Client where
  userAgent : Option String
deriving DecidableEq, Repr

/-- Header values have no control characters but the tab. -/
def headerAllows (b : UInt8) : Bool :=
  b = 9 || (32 ≤ b && b ≠ 127)

def Client.withUserAgent (userAgent : String) : Except Error Client :=
  if (bytesOf userAgent).all headerAllows then .ok { userAgent := some userAgent }
  else .error (.clientRejected "builder error")

namespace Fetch

def isHeaderBlank (b : UInt8) : Bool :=
  b = 9 || b = 32

def trimHeader (value : Bytes) : Bytes :=
  ((value.dropWhile isHeaderBlank).reverse.dropWhile isHeaderBlank).reverse

/-- The content type in lower case. A value that is not visible ASCII counts as none. -/
def contentTypeText (value : Option Bytes) : String :=
  match value with
  | none => ""
  | some bytes =>
    let bytes := trimHeader bytes
    if bytes.all (fun b => b = 9 || (32 ≤ b && b < 127)) then
      String.ofList (bytes.map (fun b => (Char.ofNat b.toNat).toLower))
    else ""

def isPlainText (contentType : String) : Bool :=
  (Text.after? "text/plain".toList contentType.toList).isSome

/-- Applies a reply to a working copy and tells whether it has new content. -/
def apply (reply : Reply) (f : Filter) : Except Error (Filter × Bool) :=
  match reply with
  | .failed cause => .error (.requestFailed f.url cause)
  | .answered status contentType body =>
    if status ≠ 200 then .error (.unexpectedStatus f.url status)
    else if !isPlainText (contentTypeText contentType) then
      .error (.unexpectedContentType f.url (contentTypeText contentType))
    else
      match body with
      | .error cause => .error (.transferFailed f.url cause)
      | .ok bytes => .ok (f.applyFetched bytes)

end Fetch

end FilterLists
