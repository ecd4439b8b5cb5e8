import Sylar.Lib.Ragel

/-!
# Requests and responses

The model of `HttpRequest` and `HttpResponse` as far as the parsers build them. A string is a list of
bytes; where the source hands `c_str()` to a C function, the function sees it up to the first zero.

Parameters and cookies are not set by the parsers and are left out.
-/

namespace Sylar.Http

abbrev Str := List UInt8

/-- The bytes of a literal. -/
def bytes (s : String) : Str := s.toList.map fun c => UInt8.ofNat c.toNat

/-- What a C function sees of a string. -/
def cStr (s : Str) : Str := s.takeWhile (· ≠ 0)

def tolower (c : UInt8) : UInt8 := if 0x41 ≤ c ∧ c ≤ 0x5A then c + 0x20 else c

/-- What `strcasecmp` compares. -/
def folded (s : Str) : Str := (cStr s).map tolower

/-- `strcasecmp(a.c_str(), b.c_str()) == 0`. -/
def sameNoCase (a b : Str) : Bool := folded a == folded b

/-- `a` before `b` as unsigned characters, a proper prefix first. -/
def lexLess : Str → Str → Bool
  | _, [] => false
  | [], _ :: _ => true
  | a :: as, b :: bs => if a = b then lexLess as bs else decide (a < b)

/-- `CaseInsensitiveLess`. -/
def caseInsensitiveLess (a b : Str) : Bool := lexLess (folded a) (folded b)

/-- A `std::map` ordered by `CaseInsensitiveLess`. -/
abbrev HttpHeaders := List (Str × Str)

namespace HttpHeaders

/-- `headers[name] = value`: an equivalent name keeps its spelling. -/
def assign (name value : Str) : HttpHeaders → HttpHeaders
  | [] => [(name, value)]
  | (k, v) :: rest =>
    if caseInsensitiveLess k name then (k, v) :: assign name value rest
    else if caseInsensitiveLess name k then (name, value) :: (k, v) :: rest
    else (k, value) :: rest

/-- `headers.find(name)`. -/
def find (name : Str) : HttpHeaders → Option Str
  | [] => none
  | (k, v) :: rest =>
    if caseInsensitiveLess k name then find name rest
    else if caseInsensitiveLess name k then none
    else some v

end HttpHeaders

/-! ## Requests -/

inductive HttpMethod where
  | delete | get | head | post | put
  | connect | options | trace
  | copy | lock | mkcol | move | propfind | proppatch | search | unlock | bind | rebind | unbind | acl
  | report | mkactivity | checkout | merge
  | msearch | notify | subscribe | unsubscribe
  | patch | purge
  | mkcalendar
  | link | unlink
  | source
  | invalidMethod
  deriving DecidableEq, Repr

/-- `HTTP_METHOD_MAP`. -/
def httpMethodMap : List (String × HttpMethod) :=
  [("DELETE", .delete), ("GET", .get), ("HEAD", .head), ("POST", .post), ("PUT", .put),
    ("CONNECT", .connect), ("OPTIONS", .options), ("TRACE", .trace), ("COPY", .copy), ("LOCK", .lock),
    ("MKCOL", .mkcol), ("MOVE", .move), ("PROPFIND", .propfind), ("PROPPATCH", .proppatch),
    ("SEARCH", .search), ("UNLOCK", .unlock), ("BIND", .bind), ("REBIND", .rebind), ("UNBIND", .unbind),
    ("ACL", .acl), ("REPORT", .report), ("MKACTIVITY", .mkactivity), ("CHECKOUT", .checkout),
    ("MERGE", .merge), ("M-SEARCH", .msearch), ("NOTIFY", .notify), ("SUBSCRIBE", .subscribe),
    ("UNSUBSCRIBE", .unsubscribe), ("PATCH", .patch), ("PURGE", .purge), ("MKCALENDAR", .mkcalendar),
    ("LINK", .link), ("UNLINK", .unlink), ("SOURCE", .source)]

def stringToHttpMethod (m : Str) : HttpMethod :=
  match httpMethodMap.find? fun entry => bytes entry.1 == m with
  | some entry => entry.2
  | none => .invalidMethod

structure HttpRequest where
  autoClose : Bool
  isWebsocket : Bool
  method : HttpMethod
  version : UInt8
  path : Str
  query : Str
  fragment : Str
  body : Str
  headers : HttpHeaders
  deriving DecidableEq, Repr

/-- The value of `connection`. -/
def connectionValue (close : Bool) : Str := if close then bytes "close" else bytes "keep-alive"

namespace HttpRequest

/-- `set_auto_close`. The `set_header` call in it finds the flag already set, so it only assigns. -/
def setAutoClose (r : HttpRequest) (v : Bool) : HttpRequest :=
  if r.autoClose = v then r
  else
    let r := { r with autoClose := v }
    if r.isWebsocket then r
    else { r with headers := r.headers.assign (bytes "connection") (connectionValue v) }

def setHeader (r : HttpRequest) (name value : Str) : HttpRequest :=
  let r :=
    if sameNoCase name (bytes "connection") then r.setAutoClose (sameNoCase value (bytes "close")) else r
  { r with headers := r.headers.assign name value }

def initHeaders (r : HttpRequest) : HttpRequest :=
  if r.isWebsocket then r else r.setHeader (bytes "connection") (connectionValue r.autoClose)

/-- A request as constructed, with version 1.1 and `auto_close`. -/
def create : HttpRequest :=
  initHeaders ⟨true, false, .get, 0x11, bytes "/", [], [], [], []⟩

/-- `set_body`; the length is printed in decimal. -/
def setBody (r : HttpRequest) (v : Str) : HttpRequest :=
  { r.setHeader (bytes "content-length") (bytes (toString v.length)) with body := v }

end HttpRequest

/-! ## Responses -/

structure HttpResponse where
  close : Bool
  isWebsocket : Bool
  version : UInt8
  /-- An `enum class` over `int`, made by a cast. -/
  status : Int
  reason : Str
  body : Str
  headers : HttpHeaders
  deriving DecidableEq, Repr

namespace HttpResponse

def setHeader (r : HttpResponse) (name value : Str) : HttpResponse :=
  { r with headers := r.headers.assign name value }

def initHeaders (r : HttpResponse) : HttpResponse :=
  if r.isWebsocket then r else r.setHeader (bytes "connection") (connectionValue r.close)

/-- A response as constructed: 200, with version 1.1 and no `close`. -/
def create : HttpResponse :=
  initHeaders ⟨false, false, 0x11, 200, [], [], []⟩

def setBody (r : HttpResponse) (v : Str) : HttpResponse :=
  { r.setHeader (bytes "content-length") (bytes (toString v.length)) with body := v }

end HttpResponse

end Sylar.Http
