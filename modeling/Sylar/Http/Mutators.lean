import Sylar.Http.Headers
import Sylar.Lib.Run

/-!
# The connection flag and its header

The public mutators of `HttpRequest` and `HttpResponse`, and the turn of `HttpServer::handle_client`.
Whether a connection is to be closed is kept twice: in `auto_close_` or `close_`, on which the server
acts, and in the header `connection`, on which the peer acts. The setter of the flag writes the header
too, and `HttpRequest::set_header` writes the flag. But `del_header` and `set_headers` write the header
alone, and so does `HttpResponse::set_header`.

Flag and header agree after every sequence of calls in which none of these writes alone a header that
disagrees with the flag.
-/

namespace Sylar.Http

open Lib

/-- The headers of a call of `set_headers`, which are a `std::map`. -/
structure HeaderMap where
  headers : HttpHeaders
  sorted : headers.Sorted

/-- The calls of public mutators that touch the flag or the headers, on a request or a response. -/
inductive Mutator where
  | setHeader (name value : Str)
  | delHeader (name : Str)
  | setHeaders (v : HeaderMap)
  /-- `set_auto_close` of a request, `set_close` of a response. -/
  | setClose (v : Bool)
  | setWebsocket (v : Bool)
  | initHeaders
  | setBody (v : Str)

/-- The name of the header. -/
def connection : Str := bytes "connection"

/-- A header value that is `close`, ignoring case. -/
def IsClose (value : Str) : Prop := value.map tolower = bytes "close"

instance (value : Str) : Decidable (IsClose value) := inferInstanceAs (Decidable (_ = _))

/-- The header `connection` is present and is `close`, ignoring case. -/
def HttpHeaders.SaysClose (h : HttpHeaders) : Prop := ∃ value, h.find connection = some value ∧ IsClose value

instance (h : HttpHeaders) : Decidable h.SaysClose :=
  match found : h.find connection with
  | some value => decidable_of_iff (IsClose value) (by simp [HttpHeaders.SaysClose, found])
  | none => isFalse (by simp [HttpHeaders.SaysClose, found])

/-! ## Requests -/

namespace HttpRequest

/-- A request as constructed. -/
def construct (version : UInt8) (autoClose : Bool) : HttpRequest :=
  initHeaders ⟨autoClose, false, .get, version, bytes "/", [], [], [], []⟩

def delHeader (r : HttpRequest) (name : Str) : HttpRequest := { r with headers := r.headers.erase name }

def setHeaders (r : HttpRequest) (v : HttpHeaders) : HttpRequest := { r with headers := v }

def setWebsocket (r : HttpRequest) (v : Bool) : HttpRequest :=
  if r.isWebsocket = v then r
  else
    let r := { r with isWebsocket := v }
    if r.isWebsocket then r.delHeader connection else r.setHeader connection (connectionValue r.autoClose)

def mutate (r : HttpRequest) : Mutator → HttpRequest
  | .setHeader name value => r.setHeader name value
  | .delHeader name => r.delHeader name
  | .setHeaders v => r.setHeaders v.headers
  | .setClose v => r.setAutoClose v
  | .setWebsocket v => r.setWebsocket v
  | .initHeaders => r.initHeaders
  | .setBody v => r.setBody v

end HttpRequest

/-! ## Responses -/

namespace HttpResponse

/-- A response as constructed. -/
def construct (version : UInt8) (close : Bool) : HttpResponse :=
  initHeaders ⟨close, false, version, 200, [], [], []⟩

def delHeader (r : HttpResponse) (name : Str) : HttpResponse := { r with headers := r.headers.erase name }

def setHeaders (r : HttpResponse) (v : HttpHeaders) : HttpResponse := { r with headers := v }

def setClose (r : HttpResponse) (v : Bool) : HttpResponse :=
  if r.close = v then r
  else
    let r := { r with close := v }
    if r.isWebsocket then r else r.setHeader connection (connectionValue v)

def setWebsocket (r : HttpResponse) (v : Bool) : HttpResponse :=
  if r.isWebsocket = v then r
  else
    let r := { r with isWebsocket := v }
    if r.isWebsocket then r.delHeader connection else r.setHeader connection (connectionValue r.close)

def mutate (r : HttpResponse) : Mutator → HttpResponse
  | .setHeader name value => r.setHeader name value
  | .delHeader name => r.delHeader name
  | .setHeaders v => r.setHeaders v.headers
  | .setClose v => r.setClose v
  | .setWebsocket v => r.setWebsocket v
  | .initHeaders => r.initHeaders
  | .setBody v => r.setBody v

end HttpResponse

/-! ## The flag and the header -/

/-- The flag and the header agree, unless the message is a websocket's. -/
structure Coherent (close isWebsocket : Bool) (headers : HttpHeaders) : Prop where
  sorted : headers.Sorted
  together : isWebsocket = false → (close = true ↔ headers.SaysClose)

section Header

variable {headers : HttpHeaders} {close isWebsocket : Bool} {name value : Str}

theorem isClose_connectionValue (close : Bool) : IsClose (connectionValue close) ↔ close = true := by
  cases close with
  | true => exact iff_of_true (by decide) rfl
  | false => exact iff_of_false (by decide) Bool.false_ne_true

theorem saysClose_assign_self (sorted : headers.Sorted) (same : nameKey name = nameKey connection) :
    (headers.assign name value).SaysClose ↔ IsClose value := by
  unfold HttpHeaders.SaysClose
  rw [sorted.find_assign_self same.symm]
  simp

theorem saysClose_assign_ne (sorted : headers.Sorted) (ne : nameKey name ≠ nameKey connection) :
    (headers.assign name value).SaysClose ↔ headers.SaysClose := by
  unfold HttpHeaders.SaysClose
  rw [sorted.find_assign_ne ne.symm]

theorem not_saysClose_erase_self (sorted : headers.Sorted) (same : nameKey name = nameKey connection) :
    ¬ (headers.erase name).SaysClose := by
  unfold HttpHeaders.SaysClose
  rw [sorted.find_erase_self same.symm]
  simp

theorem saysClose_erase_ne (sorted : headers.Sorted) (ne : nameKey name ≠ nameKey connection) :
    (headers.erase name).SaysClose ↔ headers.SaysClose := by
  unfold HttpHeaders.SaysClose
  rw [sorted.find_erase_ne ne.symm]

/-- The header is written with the flag's value. -/
theorem Coherent.connection (sorted : headers.Sorted) (close isWebsocket : Bool) :
    Coherent close isWebsocket (headers.assign connection (connectionValue close)) :=
  ⟨sorted.assign, fun _ => by rw [saysClose_assign_self sorted rfl, isClose_connectionValue]⟩

/-- Another header is written. -/
theorem Coherent.assign_ne (h : Coherent close isWebsocket headers) (ne : nameKey name ≠ nameKey Http.connection) :
    Coherent close isWebsocket (headers.assign name value) :=
  ⟨h.sorted.assign, fun off => by rw [saysClose_assign_ne h.sorted ne]; exact h.together off⟩

/-- The header is written. -/
theorem Coherent.assign_self (h : headers.Sorted) (same : nameKey name = nameKey Http.connection)
    (agrees : isWebsocket = false → (close = true ↔ IsClose value)) :
    Coherent close isWebsocket (headers.assign name value) :=
  ⟨h.assign, fun off => by rw [saysClose_assign_self h same]; exact agrees off⟩

/-- A header is erased; if it is `connection`, the flag is off or does not count. -/
theorem Coherent.erase (h : Coherent close isWebsocket headers)
    (off : nameKey name = nameKey Http.connection → isWebsocket = false → close = false) :
    Coherent close isWebsocket (headers.erase name) := by
  refine ⟨h.sorted.erase, fun notWebsocket => ?_⟩
  by_cases same : nameKey name = nameKey Http.connection
  · rw [off same notWebsocket]
    exact iff_of_false Bool.false_ne_true (not_saysClose_erase_self h.sorted same)
  · rw [saysClose_erase_ne h.sorted same]
    exact h.together notWebsocket

end Header

/-- What a call may write alone: `del_header` of `connection` when the flag is off, `set_headers` of
headers that agree with the flag. In a websocket's message the header does not count. -/
def WritesAgreeing (close isWebsocket : Bool) : Mutator → Prop
  | .delHeader name => nameKey name = nameKey connection → isWebsocket = false → close = false
  | .setHeaders v => isWebsocket = false → (close = true ↔ v.headers.SaysClose)
  | _ => True

/-! ## Requests keep them together -/

namespace HttpRequest

def Agrees (r : HttpRequest) : Prop := Coherent r.autoClose r.isWebsocket r.headers

/-- A call on a request that keeps the flag and the header together. `set_header` sees a value up to its
first zero, so `close` followed by a zero is a value that only it takes for `close`; in a websocket's
message that does not count. -/
def Keeps (r : HttpRequest) (c : Mutator) : Prop :=
  WritesAgreeing r.autoClose r.isWebsocket c ∧
    match c with
    | .setHeader name value => nameKey name = nameKey connection → r.isWebsocket = false →
        sameNoCase value (bytes "close") = true → IsClose value
    | _ => True

theorem setAutoClose_eq (r : HttpRequest) (v : Bool) :
    (r.setAutoClose v).autoClose = v ∧ (r.setAutoClose v).isWebsocket = r.isWebsocket ∧
      ((r.setAutoClose v).headers = r.headers ∨
        (r.setAutoClose v).headers = r.headers.assign connection (connectionValue v)) := by
  unfold setAutoClose
  split
  · rename_i same
    exact ⟨same, rfl, .inl rfl⟩
  · dsimp only
    split
    · exact ⟨rfl, rfl, .inl rfl⟩
    · exact ⟨rfl, rfl, .inr rfl⟩

variable {r : HttpRequest}

theorem setAutoClose_sorted (h : r.headers.Sorted) (v : Bool) : (r.setAutoClose v).headers.Sorted := by
  obtain ⟨-, -, same | assigned⟩ := r.setAutoClose_eq v
  · rw [same]
    exact h
  · rw [assigned]
    exact h.assign

theorem Agrees.setAutoClose (h : r.Agrees) (v : Bool) : (r.setAutoClose v).Agrees := by
  unfold HttpRequest.setAutoClose
  split
  · exact h
  · dsimp only
    split
    · rename_i websocket
      exact ⟨h.sorted, fun off => by rw [websocket] at off; cases off⟩
    · exact Coherent.connection h.sorted v _

/-- `set_header` of `connection` sets the flag by the value, whatever they were. -/
theorem agrees_setConnection (sorted : r.headers.Sorted) {name value : Str}
    (same : nameKey name = nameKey connection)
    (exact : r.isWebsocket = false → sameNoCase value (bytes "close") = true → IsClose value) :
    (r.setHeader name value).Agrees := by
  have noticed : sameNoCase name (bytes "connection") = true := sameNoCase_iff.mpr same
  unfold setHeader
  rw [if_pos noticed]
  refine Coherent.assign_self (setAutoClose_sorted sorted _) same fun off => ?_
  rw [(r.setAutoClose_eq _).2.1] at off
  rw [(r.setAutoClose_eq _).1]
  refine ⟨exact off, fun close => ?_⟩
  have clean : cStr value = value := by
    refine List.takeWhile_eq_self_iff.mpr fun c mem => decide_eq_true fun zero => ?_
    have found : tolower c ∈ value.map tolower := List.mem_map_of_mem mem
    rw [close, zero] at found
    revert found
    decide
  rw [sameNoCase, folded, clean, close]
  decide

theorem Agrees.setHeader (h : r.Agrees) {name value : Str}
    (exact : nameKey name = nameKey connection → r.isWebsocket = false →
      sameNoCase value (bytes "close") = true → IsClose value) :
    (r.setHeader name value).Agrees := by
  by_cases same : nameKey name = nameKey connection
  · exact agrees_setConnection h.sorted same (exact same)
  · have unnoticed : ¬ sameNoCase name (bytes "connection") = true := fun noticed =>
      same (sameNoCase_iff.mp noticed)
    unfold HttpRequest.setHeader
    rw [if_neg unnoticed]
    exact h.assign_ne same

/-- The values the code itself writes are clean. -/
theorem exact_connectionValue (close : Bool) :
    sameNoCase (connectionValue close) (bytes "close") = true → IsClose (connectionValue close) := by
  cases close <;> decide

theorem Agrees.initHeaders (h : r.headers.Sorted) (agrees : r.isWebsocket = true → r.Agrees) :
    r.initHeaders.Agrees := by
  unfold HttpRequest.initHeaders
  split
  · rename_i websocket
    exact agrees websocket
  · exact agrees_setConnection h rfl fun _ => exact_connectionValue _

theorem agrees_construct (version : UInt8) (autoClose : Bool) : (construct version autoClose).Agrees :=
  Agrees.initHeaders OrderedMap.Sorted.nil fun websocket => by cases websocket

theorem Agrees.setWebsocket (h : r.Agrees) (v : Bool) : (r.setWebsocket v).Agrees := by
  unfold HttpRequest.setWebsocket
  split
  · exact h
  · dsimp only
    split
    · rename_i on
      exact ⟨h.sorted.erase, fun off => by rw [on] at off; cases off⟩
    · exact agrees_setConnection (r := { r with isWebsocket := v }) h.sorted rfl fun _ => exact_connectionValue _

theorem nameKey_contentLength : nameKey (bytes "content-length") ≠ nameKey connection := by decide

theorem Agrees.setBody (h : r.Agrees) (v : Str) : (r.setBody v).Agrees :=
  h.setHeader fun same => absurd same nameKey_contentLength

theorem Agrees.mutate (h : r.Agrees) {c : Mutator} (keeps : r.Keeps c) : (r.mutate c).Agrees := by
  cases c with
  | setHeader name value => exact h.setHeader keeps.2
  | delHeader name => exact Coherent.erase h keeps.1
  | setHeaders v => exact ⟨v.sorted, keeps.1⟩
  | setClose v => exact h.setAutoClose v
  | setWebsocket v => exact h.setWebsocket v
  | initHeaders => exact Agrees.initHeaders h.sorted fun _ => h
  | setBody v => exact h.setBody v

/-- A call on a request, as a step. -/
def Step (r : HttpRequest) (c : Mutator) (r' : HttpRequest) : Prop := r.mutate c = r'

theorem Agrees.run {r' : HttpRequest} {calls : List Mutator} (h : r.Agrees)
    (run : Run (Guarded Step Keeps) r calls r') : r'.Agrees := by
  refine run.invariant (I := Agrees) (fun s c t h step => ?_) h
  rw [← step.1]
  exact h.mutate step.2

end HttpRequest

/-! ## Responses keep them together -/

namespace HttpResponse

def Agrees (r : HttpResponse) : Prop := Coherent r.close r.isWebsocket r.headers

/-- A call on a response that keeps the flag and the header together. `set_header` writes the header
alone. -/
def Keeps (r : HttpResponse) (c : Mutator) : Prop :=
  WritesAgreeing r.close r.isWebsocket c ∧
    match c with
    | .setHeader name value => nameKey name = nameKey connection → r.isWebsocket = false →
        (r.close = true ↔ IsClose value)
    | _ => True

variable {r : HttpResponse}

theorem Agrees.setHeader (h : r.Agrees) {name value : Str}
    (agrees : nameKey name = nameKey connection → r.isWebsocket = false → (r.close = true ↔ IsClose value)) :
    (r.setHeader name value).Agrees := by
  by_cases same : nameKey name = nameKey connection
  · exact Coherent.assign_self h.sorted same (agrees same)
  · exact h.assign_ne same

theorem Agrees.initHeaders (h : r.headers.Sorted) (agrees : r.isWebsocket = true → r.Agrees) :
    r.initHeaders.Agrees := by
  unfold HttpResponse.initHeaders
  split
  · rename_i websocket
    exact agrees websocket
  · exact Coherent.connection h _ _

theorem agrees_construct (version : UInt8) (close : Bool) : (construct version close).Agrees :=
  Agrees.initHeaders OrderedMap.Sorted.nil fun websocket => by cases websocket

theorem Agrees.setClose (h : r.Agrees) (v : Bool) : (r.setClose v).Agrees := by
  unfold HttpResponse.setClose
  split
  · exact h
  · dsimp only
    split
    · rename_i websocket
      exact ⟨h.sorted, fun off => by rw [websocket] at off; cases off⟩
    · exact Coherent.connection h.sorted v _

theorem Agrees.setWebsocket (h : r.Agrees) (v : Bool) : (r.setWebsocket v).Agrees := by
  unfold HttpResponse.setWebsocket
  split
  · exact h
  · dsimp only
    split
    · rename_i on
      exact ⟨h.sorted.erase, fun off => by rw [on] at off; cases off⟩
    · exact Coherent.connection h.sorted _ _

theorem Agrees.setBody (h : r.Agrees) (v : Str) : (r.setBody v).Agrees :=
  h.assign_ne HttpRequest.nameKey_contentLength

theorem Agrees.mutate (h : r.Agrees) {c : Mutator} (keeps : r.Keeps c) : (r.mutate c).Agrees := by
  cases c with
  | setHeader name value => exact h.setHeader keeps.2
  | delHeader name => exact Coherent.erase h keeps.1
  | setHeaders v => exact ⟨v.sorted, keeps.1⟩
  | setClose v => exact h.setClose v
  | setWebsocket v => exact h.setWebsocket v
  | initHeaders => exact Agrees.initHeaders h.sorted fun _ => h
  | setBody v => exact h.setBody v

/-- A call on a response, as a step. -/
def Step (r : HttpResponse) (c : Mutator) (r' : HttpResponse) : Prop := r.mutate c = r'

theorem Agrees.run {r' : HttpResponse} {calls : List Mutator} (h : r.Agrees)
    (run : Run (Guarded Step Keeps) r calls r') : r'.Agrees := by
  refine run.invariant (I := Agrees) (fun s c t h step => ?_) h
  rw [← step.1]
  exact h.mutate step.2

end HttpResponse

/-! ## The server -/

/-- The response a turn of `handle_client` hands to the servlet. -/
def startResponse (isKeepalive : Bool) (serverName : Str) (req : HttpRequest) : HttpResponse :=
  (HttpResponse.construct req.version (!isKeepalive || req.autoClose)).setHeader (bytes "Server") serverName

/-- The end of a turn of `handle_client`: the response as it is sent, with `handled` what the servlet
returned, and whether the connection is closed. -/
def finishTurn (handled : Bool) (rsp : HttpResponse) : HttpResponse × Bool :=
  let rsp := if handled then rsp else { rsp with status := 500 }.setBody (bytes "500 Internal Server Error")
  (rsp, rsp.close)

/-- Flag and header agree after all calls on a request and on a response that meet a condition, and a
turn of `handle_client` in which the servlet's calls on the response meet it closes the connection
exactly when the response that was sent says so. -/
structure FlagsAgree (onRequest : HttpRequest → Mutator → Prop) (onResponse : HttpResponse → Mutator → Prop) :
    Prop where
  request : ∀ (version : UInt8) (autoClose : Bool) (calls : List Mutator) (r : HttpRequest),
    Run (Guarded HttpRequest.Step onRequest) (.construct version autoClose) calls r →
    r.isWebsocket = false → (r.autoClose = true ↔ r.headers.SaysClose)
  response : ∀ (version : UInt8) (close : Bool) (calls : List Mutator) (r : HttpResponse),
    Run (Guarded HttpResponse.Step onResponse) (.construct version close) calls r →
    r.isWebsocket = false → (r.close = true ↔ r.headers.SaysClose)
  server : ∀ (isKeepalive : Bool) (serverName : Str) (req : HttpRequest) (calls : List Mutator)
    (rsp : HttpResponse) (handled : Bool),
    Run (Guarded HttpResponse.Step onResponse) (startResponse isKeepalive serverName req) calls rsp →
    rsp.isWebsocket = false →
    ((finishTurn handled rsp).2 = true ↔ (finishTurn handled rsp).1.headers.SaysClose)

theorem agrees_startResponse (isKeepalive : Bool) (serverName : Str) (req : HttpRequest) :
    (startResponse isKeepalive serverName req).Agrees := by
  have other : nameKey (bytes "Server") ≠ nameKey connection := by decide
  exact (HttpResponse.agrees_construct _ _).setHeader fun same => absurd same other

/-- Flag and header agree in the runs whose calls keep them together, on requests and on responses; and a turn of
`handle_client` whose servlet makes such calls closes the connection exactly when the response that was sent says
so. -/
theorem flagsAgree_keeps {version : UInt8} {autoClose : Bool} {calls : List Mutator} {r : HttpRequest}
    (request : Run (Guarded HttpRequest.Step HttpRequest.Keeps) (.construct version autoClose) calls r)
    {version' : UInt8} {close : Bool} {calls' : List Mutator} {r' : HttpResponse}
    (response : Run (Guarded HttpResponse.Step HttpResponse.Keeps) (.construct version' close) calls' r')
    {isKeepalive : Bool} {serverName : Str} {req : HttpRequest} {servlet : List Mutator} {rsp : HttpResponse}
    (turn : Run (Guarded HttpResponse.Step HttpResponse.Keeps) (startResponse isKeepalive serverName req) servlet rsp)
    (handled : Bool) :
    (r.isWebsocket = false → (r.autoClose = true ↔ r.headers.SaysClose)) ∧
      (r'.isWebsocket = false → (r'.close = true ↔ r'.headers.SaysClose)) ∧
      (rsp.isWebsocket = false →
        ((finishTurn handled rsp).2 = true ↔ (finishTurn handled rsp).1.headers.SaysClose)) := by
  refine ⟨((HttpRequest.agrees_construct version autoClose).run request).together,
    ((HttpResponse.agrees_construct version' close).run response).together, fun off => ?_⟩
  have h := (agrees_startResponse isKeepalive serverName req).run turn
  cases handled with
  | true => exact h.together off
  | false =>
    have failed : HttpResponse.Agrees { rsp with status := 500 } := h
    exact (failed.setBody _).together off

/-- A request and a response that are told to close, and a servlet that sets a body. -/
theorem flagsAgree_keeps_close : ∃ (r : HttpRequest) (r' rsp : HttpResponse),
    (r.autoClose = true ∧ r.headers.SaysClose) ∧ (r'.close = true ∧ r'.headers.SaysClose) ∧
      ((finishTurn true rsp).2 = true ↔ (finishTurn true rsp).1.headers.SaysClose) := by
  have request : Run (Guarded HttpRequest.Step HttpRequest.Keeps) (.construct 0x11 false) [.setClose true] _ :=
    .single ⟨rfl, trivial, trivial⟩
  have response : Run (Guarded HttpResponse.Step HttpResponse.Keeps) (.construct 0x11 false) [.setClose true] _ :=
    .single ⟨rfl, trivial, trivial⟩
  have turn : Run (Guarded HttpResponse.Step HttpResponse.Keeps)
      (startResponse true (bytes "sylar") (.construct 0x11 false)) [.setBody (bytes "ok")] _ :=
    .single ⟨rfl, trivial, trivial⟩
  obtain ⟨first, second, third⟩ := flagsAgree_keeps request response turn true
  exact ⟨_, _, _, ⟨rfl, (first rfl).mp rfl⟩, ⟨rfl, (second rfl).mp rfl⟩, third rfl⟩

/-- A servlet asks for the connection to be closed through the header: the server keeps it open. -/
theorem not_flagsAgree : ¬ FlagsAgree (fun _ _ => True) fun _ _ => True := by
  intro all
  have open_ := all.server true (bytes "sylar") (.construct 0x11 false)
    [.setHeader (bytes "Connection") (bytes "close")] _ true (.single ⟨rfl, trivial⟩) rfl
  exact absurd (open_.mpr (by decide)) (by decide)

end Sylar.Http
