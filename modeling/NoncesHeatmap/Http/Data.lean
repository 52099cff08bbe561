import Std.Data.TreeMap.Lemmas
import Mathlib.Data.Nat.Notation
import Mathlib.Data.Int.Notation

/-! # `HttpData`

What an `IHttpListener` receives for one exchange: the status (the code of a response, or a
negative libuv error), the user type and RPC id given to `fetch`, the response headers and the
body. The body type is a parameter: the HTTP layer delivers bytes, and the listener of the sync
sees them through `Document::Parse`. -/

namespace NoncesHeatmap
set_option autoImplicit false

/-- `std::map<const std::string, const std::string>`. -/
abbrev Headers := Std.TreeMap String String

structure HttpData (Body : Type) where
  status : ℤ
  userType : ℕ
  rpcId : ℕ
  headers : Headers
  body : Body

namespace HttpData
variable {Body : Type}

def kApplicationJson : String := "application/json"
def kContentTypeL : String := "content-type"
def kTextPlain : String := "text/plain"

def statusOk : ℤ := 200

/-- `isJSON()`: the whole header value is compared. -/
def isJSON (data : HttpData Body) : Bool :=
  match data.headers[kContentTypeL]? with
  | none => false
  | some type => type == kApplicationJson || type == kTextPlain

end HttpData
end NoncesHeatmap
