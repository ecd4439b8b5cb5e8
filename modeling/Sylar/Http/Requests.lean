import Sylar.Http.Mutators
import Sylar.Http.Receive

/-!
# The request under construction

What `set_header` and `init_headers` do to a request, as far as a parser uses them. A header is found
under its name with the value it was given last; the header `connection` is written over by every
`init_headers`, and with it by every `get_request`.
-/

namespace Sylar.Http

open Lib

namespace HttpRequest

variable {r : HttpRequest} {name value other : Str}

/-! ## `set_header` -/

theorem setAutoClose_rest (r : HttpRequest) (v : Bool) :
    r.setAutoClose v = { r with autoClose := v, headers := (r.setAutoClose v).headers } := by
  unfold setAutoClose
  split
  · rename_i same
    rw [← same]
  · dsimp only
    split
    · rfl
    · rfl

theorem setHeader_connection (same : nameKey name = nameKey connection) (value : Str) :
    r.setHeader name value = { r with
      autoClose := sameNoCase value (bytes "close")
      headers := (r.setAutoClose (sameNoCase value (bytes "close"))).headers.assign name value } := by
  have noticed : sameNoCase name (bytes "connection") = true := sameNoCase_iff.mpr same
  unfold setHeader
  rw [if_pos noticed, setAutoClose_rest]

theorem setHeader_other (ne : nameKey name ≠ nameKey connection) (value : Str) :
    r.setHeader name value = { r with headers := r.headers.assign name value } := by
  have unnoticed : ¬ sameNoCase name (bytes "connection") = true := fun noticed =>
    ne (sameNoCase_iff.mp noticed)
  unfold setHeader
  rw [if_neg unnoticed]

/-- Only the flag and the headers change. -/
theorem setHeader_rest (r : HttpRequest) (name value : Str) :
    r.setHeader name value =
      { r with autoClose := (r.setHeader name value).autoClose, headers := (r.setHeader name value).headers } := by
  by_cases same : nameKey name = nameKey connection
  · rw [setHeader_connection same]
  · rw [setHeader_other same]

theorem body_setHeader : (r.setHeader name value).body = r.body := by rw [setHeader_rest]

theorem isWebsocket_setHeader : (r.setHeader name value).isWebsocket = r.isWebsocket := by
  rw [setHeader_rest]

theorem sorted_setHeader (sorted : r.headers.Sorted) : (r.setHeader name value).headers.Sorted := by
  by_cases same : nameKey name = nameKey connection
  · rw [setHeader_connection same]
    exact (setAutoClose_sorted sorted _).assign
  · rw [setHeader_other same]
    exact sorted.assign

theorem find_setHeader_self (sorted : r.headers.Sorted) (same : nameKey other = nameKey name) :
    (r.setHeader name value).headers.find other = some value := by
  by_cases isConnection : nameKey name = nameKey connection
  · rw [setHeader_connection isConnection]
    exact (setAutoClose_sorted sorted _).find_assign_self same
  · rw [setHeader_other isConnection]
    exact sorted.find_assign_self same

/-- Another header is found as before, unless it is `connection`, which may have been set along. -/
theorem find_setHeader_ne (sorted : r.headers.Sorted) (ne : nameKey other ≠ nameKey name)
    (notConnection : nameKey other ≠ nameKey connection) :
    (r.setHeader name value).headers.find other = r.headers.find other := by
  by_cases isConnection : nameKey name = nameKey connection
  · rw [setHeader_connection isConnection]
    refine ((setAutoClose_sorted sorted _).find_assign_ne ne).trans ?_
    obtain ⟨-, -, same | assigned⟩ := r.setAutoClose_eq (sameNoCase value (bytes "close"))
    · rw [same]
    · rw [assigned]
      exact sorted.find_assign_ne notConnection
  · rw [setHeader_other isConnection]
    exact sorted.find_assign_ne ne

/-! ## `init_headers` -/

theorem body_initHeaders : r.initHeaders.body = r.body := by
  unfold initHeaders
  split
  · rfl
  · exact body_setHeader

theorem isWebsocket_initHeaders : r.initHeaders.isWebsocket = r.isWebsocket := by
  unfold initHeaders
  split
  · rfl
  · exact isWebsocket_setHeader

/-- The value that is written over `connection` is the one that stands for the flag. -/
theorem autoClose_initHeaders : r.initHeaders.autoClose = r.autoClose := by
  have same : ∀ close, sameNoCase (connectionValue close) (bytes "close") = close := by decide
  unfold initHeaders
  split
  · rfl
  · change (r.setHeader connection _).autoClose = _
    rw [setHeader_connection rfl]
    exact same r.autoClose

theorem find_initHeaders_connection (sorted : r.headers.Sorted) (http : r.isWebsocket = false)
    (same : nameKey other = nameKey connection) :
    r.initHeaders.headers.find other = some (connectionValue r.autoClose) := by
  unfold initHeaders
  rw [http, if_neg Bool.false_ne_true]
  exact find_setHeader_self sorted same

theorem sorted_initHeaders (sorted : r.headers.Sorted) : r.initHeaders.headers.Sorted := by
  unfold initHeaders
  split
  · exact sorted
  · exact sorted_setHeader sorted

theorem find_initHeaders_ne (sorted : r.headers.Sorted) (notConnection : nameKey other ≠ nameKey connection) :
    r.initHeaders.headers.find other = r.headers.find other := by
  unfold initHeaders
  split
  · rfl
  · exact find_setHeader_ne sorted notConnection notConnection

/-! ## Names -/

/-- The names are those that were there, the one that is set, and perhaps `connection`. -/
theorem named_setHeader {names : Str → Prop} (named : r.headers.Named names) (isConnection : names connection)
    (isName : names name) : (r.setHeader name value).headers.Named names := by
  by_cases same : nameKey name = nameKey connection
  · rw [setHeader_connection same]
    refine HttpHeaders.Named.assign ?_ isName
    obtain ⟨-, -, kept | assigned⟩ := r.setAutoClose_eq (sameNoCase value (bytes "close"))
    · rw [kept]
      exact named
    · rw [assigned]
      exact named.assign isConnection
  · rw [setHeader_other same]
    exact named.assign isName

theorem named_initHeaders {names : Str → Prop} (named : r.headers.Named names) (isConnection : names connection) :
    r.initHeaders.headers.Named names := by
  unfold initHeaders
  split
  · exact named
  · exact named_setHeader named isConnection isConnection

/-! ## `set_body` -/

end HttpRequest

/-! ## The head of a request -/

/-- What the request line says. -/
structure Head where
  method : HttpMethod
  path : Str
  query : Str
  fragment : Str
  version : UInt8
  deriving DecidableEq, Repr

namespace HttpRequest

variable {r : HttpRequest}

def head (r : HttpRequest) : Head := ⟨r.method, r.path, r.query, r.fragment, r.version⟩

theorem head_setHeader (name value : Str) : (r.setHeader name value).head = r.head := by
  rw [setHeader_rest]
  rfl

theorem head_initHeaders : r.initHeaders.head = r.head := by
  rw [initHeaders]
  split
  · rfl
  · exact head_setHeader _ _

theorem head_setBody (body : Str) : (r.setBody body).head = r.head :=
  head_setHeader (bytes "content-length") (bytes (toString body.length))

end HttpRequest

theorem HttpRequestParser.head_getRequest (parser : HttpRequestParser) :
    parser.getRequest.head = parser.request.head :=
  HttpRequest.head_initHeaders

end Sylar.Http
