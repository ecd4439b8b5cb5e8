import Sylar.Http.ResponseTrip
import Sylar.Http.Robust
import Sylar.Http.RoundTrip
import Sylar.Http.Server

/-!
# Requests and responses over a connection

A client sends its requests one at a time by `send_request`, and each when the response to the one before has come. The
server's `handle_client` has each of them as it was made, and the client has each response as the servlet left it but
for the reason, which is printed from the status (`exchange`). For a server that routes none of the paths the whole
conversation is known: one page for each request, up to the first after which the connection is to be closed
(`exchange_notFound`).
-/

namespace Sylar.Http

open Lib Ragel SocketStream ChunkedReader

/-! ## The first of several reads -/

section First

variable {A Obj : Type} {env : Env} {buffSize : Nat} {segment : Str} {rest : Reads}

/-- A header section that is found in one read, behind which nothing comes, is found in it whatever comes. -/
theorem recvHeader_first {machine : Machine A Obj} {fuel : Nat} {obj : Obj} {parser : Parser A Obj} {left : Str}
    {behind : Reads} (nonempty : segment ≠ []) (fits : segment.length ≤ buffSize)
    (got : machine.recvHeader buffSize fuel (machine.parser obj) [] [segment] = some (some (parser, left, behind)))
    (fuel' : Nat) (rest : Reads) : behind = [] ∧
    machine.recvHeader buffSize (fuel' + 1) (machine.parser obj) [] (segment :: rest) =
      some (some (parser, left, rest)) := by
  have noMore : ∀ (fuel : Nat) (parser : Parser A Obj) (unparsed : Str) (x : Parser A Obj × Str × Reads),
      machine.recvHeader buffSize fuel parser unparsed [] ≠ some (some x) := by
    intro fuel parser unparsed x
    cases fuel with
    | zero => exact fun got => nomatch got
    | succ fuel => exact fun got => nomatch got
  cases fuel with
  | zero => cases got
  | succ fuel =>
    rw [Machine.recvHeader, List.length_nil, Nat.sub_zero, Machine.read_of_fed nonempty fits] at got ⊢
    dsimp only at got ⊢
    rw [List.nil_append] at got ⊢
    split at got
    · cases got
    · split at got
      · cases got
      · rename_i clean
        split at got
        · rename_i finished
          rw [if_neg clean, if_pos finished]
          obtain ⟨rfl, same⟩ := Prod.mk.inj (Option.some.inj (Option.some.inj got))
          obtain ⟨rfl, rfl⟩ := Prod.mk.inj same
          exact ⟨rfl, rfl⟩
        · exact absurd got (noMore _ _ _ _)

theorem recvBody_first {length : Nat} {unparsed body : Str} {behind : Reads}
    (got : recvBody length unparsed [] = some (body, behind)) (rest : Reads) :
    recvBody length unparsed rest = some (body, rest) := by
  rw [recvBody] at got ⊢
  split at got
  · rename_i atHand
    rw [if_pos atHand, ← (Prod.mk.inj (Option.some.inj got)).1]
  · rename_i missing
    obtain ⟨n, eq⟩ := Nat.exists_eq_add_one_of_ne_zero (Nat.sub_ne_zero_of_lt (Nat.lt_of_not_le missing))
    rw [eq] at got
    cases got

/-- A request that is received in one read is received in it whatever comes behind. -/
theorem recvRequest_first {m : HttpRequest} {behind : Reads} (nonempty : segment ≠ [])
    (fits : segment.length ≤ buffSize) (got : recvRequest env buffSize [segment] = some (.message m behind)) :
    recvRequest env buffSize (segment :: rest) = some (.message m rest) := by
  rw [recvRequest_eq] at got
  obtain ⟨header, found, finish⟩ := Option.map_eq_some_iff.mp got
  cases header with
  | none => cases finish
  | some header =>
    obtain ⟨parser, unparsed, behind'⟩ := header
    obtain ⟨rfl, found'⟩ := recvHeader_first nonempty fits found (segment :: rest).flatten.length rest
    change parser.obj.finish env unparsed [] = _ at finish
    rw [recvRequest_eq, found', Option.map_some]
    refine congrArg some ?_
    change parser.obj.finish env unparsed rest = _
    rw [HttpRequestParser.finish] at finish ⊢
    split at finish
    · rename_i empty
      rw [if_pos empty, (Received.message.inj finish).1]
    · rename_i some
      split at finish
      · cases finish
      · rename_i room
        split at finish
        · cases finish
        · rename_i gotBody
          rw [if_neg some, if_neg room, recvBody_first gotBody rest]
          exact congrArg (Received.message · rest) (Received.message.inj finish).1

end First

/-! ## The flag of a request -/

section Flag

variable {env : Env} {buffSize : Nat}

/-- No action makes a request a websocket's. -/
theorem keeps_http (uriRelaxed : Bool) (maxSize : Nat) (parser : HttpRequestParser) (a : Request.Action) :
    ((requestMachine uriRelaxed maxSize).action parser a).Keeps fun parser => !parser.request.isWebsocket := by
  have get : ∀ {parser : HttpRequestParser}, (!parser.request.isWebsocket) = true →
      (!parser.getRequest.isWebsocket) = true := by
    intro parser holds
    rw [HttpRequestParser.getRequest, HttpRequest.isWebsocket_initHeaders]
    exact holds
  cases a with
  | writeValue =>
    intro parser parser' field flen value vlen called holds
    obtain ⟨f, -, rest⟩ := Option.bind_eq_some_iff.mp called
    obtain ⟨v, -, rest⟩ := Option.bind_eq_some_iff.mp rest
    obtain rfl := Option.some.inj rest
    dsimp only
    rw [HttpRequest.isWebsocket_setHeader]
    exact get holds
  | requestMethod | fragment | queryString | requestPath =>
    intro parser parser' text length called holds
    obtain ⟨s, -, rfl⟩ := Option.map_eq_some_iff.mp called
    exact get holds
  | httpVersion =>
    intro parser parser' text length called holds
    rw [HttpRequestParser.onRequestVersion] at called
    split at called
    · obtain rfl := Option.some.inj called
      exact get holds
    · split at called
      · obtain rfl := Option.some.inj called
        exact get holds
      · obtain rfl := Option.some.inj called
        exact holds
  | done =>
    show Op.Keeps _ (if parser.xmlSent || parser.jsonSent then _ else _)
    split
    · intro parser parser' text length called holds
      obtain rfl := Option.some.inj called
      exact holds
    · exact fun _ holds => holds
  | requestUri => exact fun _ holds => holds
  | xml | json => exact fun _ holds => holds
  | mark | startField | writeField | startValue | startQuery => trivial

/-- The header `connection` of a request that is received stands for its flag. -/
theorem connection_of_received {reads rest : Reads} {m : HttpRequest}
    (got : recvRequest env buffSize reads = some (.message m rest)) :
    m.headers.find connection = some (connectionValue m.autoClose) := by
  have flagged : ∀ {r : HttpRequest}, r.headers.Sorted → r.isWebsocket = false →
      r.initHeaders.headers.find connection = some (connectionValue r.initHeaders.autoClose) := by
    intro r sorted http
    rw [HttpRequest.autoClose_initHeaders]
    exact HttpRequest.find_initHeaders_connection sorted http rfl
  rw [recvRequest_eq] at got
  obtain ⟨header, found, finish⟩ := Option.map_eq_some_iff.mp got
  cases header with
  | none => cases finish
  | some header =>
    obtain ⟨parser, unparsed, behind⟩ := header
    have sound := sound_of_requestHeader found
    have http := Bool.not_eq_true' _ ▸ Machine.recvHeader_keeps (keeps_http _ _) _ found rfl
    change parser.obj.finish env unparsed behind = _ at finish
    rw [HttpRequestParser.finish] at finish
    split at finish
    · obtain ⟨rfl, -⟩ := Received.message.inj finish
      exact flagged sound.sorted http
    · split at finish
      · cases finish
      · split at finish
        · cases finish
        · obtain ⟨rfl, -⟩ := Received.message.inj finish
          refine flagged (HttpRequest.sorted_setHeader (HttpRequest.sorted_initHeaders sound.sorted)) ?_
          exact HttpRequest.isWebsocket_setHeader.trans (HttpRequest.isWebsocket_initHeaders.trans http)

end Flag

/-! ## One message -/

/-- A request as the server has it. -/
structure Arrives (r m : HttpRequest) : Prop where
  head : m.head = r.head
  headers : m.headers = r.headers
  body : m.body = r.body
  flag : r.headers.find connection = some (connectionValue m.autoClose)

/-- The printed text loses none of the headers. -/
structure HttpResponse.HeadersKept (r : HttpResponse) : Prop where
  connected : (r.headers.find connection).isSome = true
  values : ∀ x ∈ r.headers, ∀ c z, x.2 = c :: z → c ≠ 0x0B ∧ c ≠ 0x0C

/-- A response as the client has it. -/
structure Returns (r m : HttpResponse) : Prop where
  status : m.status = r.status
  reason : m.reason = bytes (httpStatusToString r.status)
  version : m.version = r.version
  headers : r.HeadersKept → m.headers = r.headers
  body : m.body = r.body

/-- A request that a caller makes, of which the text loses nothing, in one read. -/
structure Asked (env : Env) (buffSize : Nat) (r : HttpRequest) : Prop where
  sendable : Sendable env.uriRelaxed r
  readable : Readable env.uriRelaxed r
  oneRead : OneRead env buffSize r.print

/-- A response that a servlet makes, of which the client has the whole body, in one read. -/
structure Answered (env : Env) (buffSize : Nat) (r : HttpResponse) : Prop where
  sendable : r.Sendable
  counted : r.Counted
  oneRead : OneRead env buffSize r.print

section OneMessage

variable {env : Env} {buffSize : Nat} (casts : CastsDecimals env)

include casts

theorem Asked.arrives {r : HttpRequest} (asked : Asked env buffSize r) (rest : Reads) :
    ∃ m, recvRequest env buffSize (r.print :: rest) = some (.message m rest) ∧ Arrives r m := by
  obtain ⟨sendable, ⟨method, path, connected⟩, oneRead⟩ := asked
  obtain ⟨m, received, head, body, -, headers⟩ := received_reference casts sendable oneRead
    ((method_bytes sendable.method).mpr method) (r.reference path sendable.query sendable.fragment) text_reference
  have nonempty : r.print ≠ [] := by
    intro empty
    have none : recvRequest env buffSize [[]] = some .null := by
      rw [recvRequest_eq, Machine.recvHeader, SocketStream.read, if_pos (.inr rfl)]
      rfl
    rw [empty, none] at received
    cases received
  refine ⟨m, recvRequest_first nonempty oneRead.fits received, head.trans ?_, headers connected, body, ?_⟩
  · change (⟨r.method, r.path, (present r.query).getD [], (present r.fragment).getD [], r.version⟩ : Head) = r.head
    rw [getD_present, getD_present]
    rfl
  · rw [← headers connected]
    exact connection_of_received received

open Response in
theorem Answered.returns {r : HttpResponse} (answered : Answered env buffSize r) (rest : Reads) :
    ∃ m, recvResponse env buffSize (r.print :: rest) = some (.message m rest) ∧ Returns r m := by
  obtain ⟨close, made⟩ := answered.sendable.headers
  obtain ⟨n, length, answer⟩ :=
    received_cons casts made answered.sendable.status answered.sendable.version answered.oneRead rest
  have whole : r.body.take n = r.body := by
    refine List.take_eq_self_iff r.body |>.mpr ?_
    rw [length]
    split
    · rename_i pos
      have same := answered.counted pos
      omega
    · exact Nat.le_refl _
  rw [whole] at answer
  obtain ⟨status, reason, version⟩ := withBody_eq ({ HttpResponse.create with
    version := r.version
    status := r.status
    reason := bytes (httpStatusToString r.status)
    headers := assignAll r.headers HttpResponse.create.headers } : HttpResponse) r.body
  refine ⟨_, answer, status, reason, version, fun kept => (headers_withBody made rfl).trans ?_,
    Response.body_withBody rfl⟩
  exact (assignAll_eq_iff made).mpr ⟨kept.connected, (stripped_values made).mpr kept.values⟩

end OneMessage

/-! ## A conversation -/

section Conversation

variable {S : Type} {env : Env} {buffSize : Nat}

/-- The client has the responses up to any one, whatever comes behind it. -/
theorem returns_all (casts : CastsDecimals env) : ∀ {responses : List HttpResponse} (n : Nat),
    (∀ r ∈ responses.take n, Answered env buffSize r) → List.Forall₂ Returns (responses.take n)
      (successive (recvResponse env buffSize) n (responses.map HttpResponse.print)) := by
  intro responses
  induction responses with
  | nil =>
    intro n _
    have none : recvResponse env buffSize [] = some .null := rfl
    cases n with
    | zero => exact .nil
    | succ n =>
      rw [List.map_nil, successive, none]
      exact .nil
  | cons r responses ih =>
    intro n answered
    cases n with
    | zero => exact .nil
    | succ n =>
      rw [List.take_succ_cons] at answered ⊢
      obtain ⟨m, got, returns⟩ := (answered r List.mem_cons_self).returns casts (responses.map HttpResponse.print)
      rw [List.map_cons, successive, got]
      exact .cons returns (ih n fun r mem => answered r (List.mem_cons_of_mem _ mem))

namespace HttpServer

variable {fnmatch : Str → Str → Bool} {server : HttpServer S}

/-- The server has the requests that were sent, and serves them. -/
theorem arrives_all (casts : CastsDecimals env) (fnmatch : Str → Str → Bool) (server : HttpServer S)
    {requests : List HttpRequest}
    (asked : ∀ r ∈ requests, Asked env buffSize r) : ∃ arrived, List.Forall₂ Arrives requests arrived ∧
      ∀ (kept : S) {fuel : Nat}, requests.length < fuel →
        server.handleClient fnmatch env buffSize fuel kept (requests.map HttpRequest.print) =
          some (server.serve fnmatch .closed kept arrived) := by
  induction requests with
  | nil =>
    refine ⟨[], .nil, fun kept fuel more => ?_⟩
    obtain ⟨fuel, rfl⟩ := Nat.exists_eq_add_one_of_ne_zero (Nat.ne_zero_of_lt more)
    rw [List.map_nil, handleClient, recvRequest_nil]
    rfl
  | cons r requests ih =>
    obtain ⟨arrived, all, served⟩ := ih fun r mem => asked r (List.mem_cons_of_mem _ mem)
    obtain ⟨m, got, arrives⟩ := (asked r List.mem_cons_self).arrives casts (requests.map HttpRequest.print)
    refine ⟨m :: arrived, .cons arrives all, fun kept fuel more => ?_⟩
    obtain ⟨fuel, rfl⟩ := Nat.exists_eq_add_one_of_ne_zero (Nat.ne_zero_of_lt more)
    exact handleClient_message got fun kept => served kept (Nat.lt_of_succ_lt_succ more)

/-- A conversation: the server has every request as the client made it and answers them one by one, up to the first
response that closes. And the client has the responses up to any one if each of them is one that it can have, whatever
is sent behind them. -/
theorem exchange (casts : CastsDecimals env) (fnmatch : Str → Str → Bool) (server : HttpServer S) (kept : S)
    {requests : List HttpRequest} (asked : ∀ r ∈ requests, Asked env buffSize r) :
    ∃ arrived served, List.Forall₂ Arrives requests arrived ∧
      served = server.serve fnmatch .closed kept arrived ∧
      server.handleClient fnmatch env buffSize (requests.length + 1) kept (requests.map HttpRequest.print) =
        some served ∧
      ∀ n, (∀ r ∈ served.responses.take n, Answered env buffSize r) → List.Forall₂ Returns (served.responses.take n)
        (successive (recvResponse env buffSize) n (served.responses.map HttpResponse.print)) := by
  obtain ⟨arrived, arrives, served⟩ := arrives_all casts fnmatch server asked
  exact ⟨arrived, _, arrives, rfl, served kept (Nat.lt_succ_self _), returns_all casts⟩

end HttpServer

end Conversation

/-! ## A server that has no page -/

/-- A server that keeps connections alive and has no routes. -/
def bareServer : HttpServer Unit := ⟨true, bytes "sylar", .create NotFoundServlet.handleRequest⟩

theorem asked_postRequest : Asked linuxSigned 512 postRequest where
  sendable := sendable_postRequest
  readable := ⟨by decide, mem_lang_of_reads (by decide) (by decide +kernel), by decide⟩
  oneRead := ⟨by decide, by decide, by decide⟩

section NotFound

variable {S : Type} {env : Env} {buffSize : Nat} {version : UInt8} {close : Bool}

/-- The last value that is assigned at a place counts. -/
theorem assign_assign (name value value' : Str) (h : HttpHeaders) :
    (h.assign name value).assign name value' = h.assign name value' := by
  rw [HttpHeaders.assign_eq, HttpHeaders.assign_eq, HttpHeaders.assign_eq]
  exact OrderedMap.assign_assign

/-- The response of `NotFoundServlet`, in which its own name for the server stands. -/
theorem notFound_startResponse (isKeepalive : Bool) (name : Str) (req : HttpRequest) :
    notFound (startResponse isKeepalive name req) =
      notFound (.construct req.version (!isKeepalive || req.autoClose)) := by
  have same := assign_assign (bytes "Server") name (bytes "sylar/1.0.0")
  rw [notFound, notFound, startResponse]
  simp only [HttpResponse.setHeader, same]

theorem body_notFound (r : HttpResponse) : (notFound r).body = notFoundPage := by
  rw [notFound, HttpResponse.setBody]

theorem responseName_of {name : Str} (token : IsToken name) (connection : nameKey name ≠ nameKey connection)
    (length : nameKey name ≠ nameKey contentLength) (encoding : nameKey name ≠ nameKey (bytes "transfer-encoding")) :
    ResponseName name :=
  ⟨⟨token, connection, length⟩, encoding⟩

theorem isLineValue_of {value : Str} (first : value.head? ≠ some 0x20 ∧ value.head? ≠ some 0x09)
    (oneLine : ∀ c ∈ value, c ≠ 0x0D ∧ c ≠ 0x0A) : IsLineValue value := by
  refine ⟨fun c z eq => ?_, oneLine⟩
  rw [eq] at first
  exact ⟨fun blank => first.1 (congrArg some blank), fun tab => first.2 (congrArg some tab)⟩

/-- The headers of the page are made by setters. -/
theorem made_notFound (r : HttpResponse) (made : Made ResponseName IsLineValue close r.body r.headers) :
    Made ResponseName IsLineValue close (notFound r).body (notFound r).headers := by
  have own : ∀ name, ResponseName name → OwnName name := fun _ isName => isName.own
  have server : ResponseName (bytes "Server") :=
    responseName_of ⟨by decide, by decide +kernel⟩ (by decide) (by decide) (by decide)
  have type : ResponseName (bytes "Content-Type") :=
    responseName_of ⟨by decide, by decide +kernel⟩ (by decide) (by decide) (by decide)
  have isSylar : IsLineValue (bytes "sylar/1.0.0") := isLineValue_of (by decide) (by decide +kernel)
  have isHtml : IsLineValue (bytes "text/html") := isLineValue_of (by decide) (by decide +kernel)
  rw [notFound]
  generalize notFoundPage = page
  exact ((made.setHeader own server isSylar).setHeader own type isHtml).setBody own page

/-- The headers of the page: the server is that of the servlet. -/
def pageHeaders (close : Bool) : HttpHeaders :=
  [(connection, connectionValue close), (contentLength, bytes (toString notFoundPage.length)),
    (bytes "Content-Type", bytes "text/html"), (bytes "Server", bytes "sylar/1.0.0")]

theorem headers_notFound (version : UInt8) (close : Bool) :
    (notFound (.construct version close)).headers = pageHeaders close := by
  have all : ∀ close : Bool, (notFound (.construct 0x11 close)).headers = pageHeaders close := by decide +kernel
  exact all close

theorem headersKept_notFound (version : UInt8) (close : Bool) : (notFound (.construct version close)).HeadersKept := by
  have connected : ∀ close : Bool, ((pageHeaders close).find connection).isSome = true := by decide +kernel
  have values : ∀ close : Bool, ∀ x ∈ pageHeaders close, x.2.head? ≠ some 0x0B ∧ x.2.head? ≠ some 0x0C := by
    decide +kernel
  constructor
  · rw [headers_notFound]
    exact connected close
  · intro x mem c z eq
    rw [headers_notFound] at mem
    have first := values close x mem
    rw [eq] at first
    exact ⟨fun tab => first.1 (congrArg some tab), fun feed => first.2 (congrArg some feed)⟩

/-- The page is a response that comes back. -/
theorem answered_notFound (env : Env) (isVersion : version = 0x11 ∨ version = 0x10) (close : Bool) (fits : 288 ≤ buffSize)
    (room : 288 ≤ env.maxSize) : Answered env buffSize (notFound (.construct version close)) := by
  have all : ∀ version ∈ [(0x11 : UInt8), 0x10], ∀ close : Bool,
      (notFound (.construct version close)).print.length ≤ 288 := by decide +kernel
  have listed : ((404 : Int), "Not Found") ∈ httpStatusMap := by decide +kernel
  have short := all version (by rcases isVersion with rfl | rfl <;> decide) close
  have made := made_notFound _ (HttpResponse.isMade_of_run (.nil (HttpResponse.construct version close))).made
  have counted : Response.noted notFoundPage.length = notFoundPage.length := by decide +kernel
  refine ⟨⟨⟨"Not Found", listed⟩, isVersion, _, made⟩, ?_, ⟨short.trans fits, short.trans room, by omega⟩⟩
  rw [HttpResponse.Counted, body_notFound]
  exact fun _ => counted

/-- The connection is kept behind the response to a request. -/
def keeps (isKeepalive : Bool) (r : HttpRequest) : Bool :=
  isKeepalive && decide (r.headers.find connection = some (connectionValue false))

/-- What is sent for a request whose path is not routed. -/
def page (isKeepalive : Bool) (r : HttpRequest) : HttpResponse :=
  notFound (.construct r.version (!keeps isKeepalive r))

/-- The requests that are answered: up to the first after which the connection is to be closed. -/
def untilClose (isKeepalive : Bool) : List HttpRequest → List HttpRequest
  | [] => []
  | r :: rs =>
    if keeps isKeepalive r then r :: untilClose isKeepalive rs else [r]

theorem untilClose_sublist (isKeepalive : Bool) (requests : List HttpRequest) :
    (untilClose isKeepalive requests).Sublist requests := by
  induction requests with
  | nil => exact List.Sublist.refl _
  | cons r requests ih =>
    rw [untilClose]
    split
    · exact ih.cons_cons r
    · exact (List.nil_sublist requests).cons_cons r

/-- The page as the client has it. -/
structure IsNotFound (isKeepalive : Bool) (r : HttpRequest) (m : HttpResponse) : Prop where
  status : m.status = 404
  reason : m.reason = bytes "Not Found"
  version : m.version = r.version
  headers : m.headers = pageHeaders (!keeps isKeepalive r)
  body : m.body = notFoundPage

namespace HttpServer

variable {fnmatch : Str → Str → Bool} {server : HttpServer S}

/-- What a server sends for requests whose paths it does not route. -/
theorem serve_notFound {requests arrived : List HttpRequest} (arrives : List.Forall₂ Arrives requests arrived)
    (unrouted : ∀ r ∈ requests, server.servletDispatch.matchedServlet fnmatch r.path =
      some NotFoundServlet.handleRequest) (kept : S) :
    server.serve fnmatch .closed kept arrived =
      ⟨(untilClose server.isKeepalive requests).map (page server.isKeepalive), .closed, kept⟩ := by
  induction arrives with
  | nil => rfl
  | cons first rest ih =>
    rename_i r m requests arrived
    have served := ih fun r mem => unrouted r (List.mem_cons_of_mem _ mem)
    have path : m.path = r.path := congrArg Head.path first.head
    have version : m.version = r.version := congrArg Head.version first.head
    have asks : decide (r.headers.find connection = some (connectionValue false)) = !m.autoClose := by
      rw [first.flag]
      cases m.autoClose <;> decide
    have closes : (!server.isKeepalive || m.autoClose) = !keeps server.isKeepalive r := by
      rw [keeps, asks, Bool.not_and, Bool.not_not]
    have turn : server.turn fnmatch kept m = (page server.isKeepalive r, !keeps server.isKeepalive r, kept) := by
      rw [HttpServer.turn, ServletDispatch.handleRequest, path, unrouted r List.mem_cons_self]
      dsimp only
      rw [NotFoundServlet.handleRequest, notFound_startResponse, version, closes, page]
      rfl
    rw [serve, turn, untilClose]
    cases keeps server.isKeepalive r with
    | true =>
      rw [Bool.not_true, if_pos rfl]
      dsimp only
      rw [served, List.map_cons]
    | false => rfl

/-- Two requests with a body, and their responses. -/
theorem exchange_post : ∃ served,
    bareServer.handleClient (fun _ _ => false) linuxSigned 512 3 () [postRequest.print, postRequest.print] =
      some served ∧ served.responses.length = 2 ∧ List.Forall₂ Returns served.responses
        (successive (recvResponse linuxSigned 512) 2 (served.responses.map HttpResponse.print)) := by
  have asked : ∀ r ∈ [postRequest, postRequest], Asked linuxSigned 512 r := by simpa using asked_postRequest
  obtain ⟨arrived, served, arrives, rfl, handled, returns⟩ :=
    exchange castsDecimals_linuxSigned (fun _ _ => false) bareServer () asked
  have unrouted : ∀ r ∈ [postRequest, postRequest], bareServer.servletDispatch.matchedServlet (fun _ _ => false) r.path =
      some NotFoundServlet.handleRequest := fun _ _ => rfl
  have served := serve_notFound arrives unrouted ()
  have both : untilClose bareServer.isKeepalive [postRequest, postRequest] = [postRequest, postRequest] := by decide
  rw [both] at served
  rw [served] at handled returns
  refine ⟨_, handled, rfl, returns 2 fun r mem => ?_⟩
  obtain rfl : r = page bareServer.isKeepalive postRequest := by simpa using mem
  exact answered_notFound linuxSigned (.inr rfl) _ (by decide) (by decide)

/-- A conversation with a server that routes none of the paths: the client has one page for each request that is
answered. -/
theorem exchange_notFound (casts : CastsDecimals env) (fnmatch : Str → Str → Bool) (server : HttpServer S) (kept : S)
    {requests : List HttpRequest} (asked : ∀ r ∈ requests, Asked env buffSize r)
    (unrouted : ∀ r ∈ requests, server.servletDispatch.matchedServlet fnmatch r.path =
      some NotFoundServlet.handleRequest) (fits : 288 ≤ buffSize) (room : 288 ≤ env.maxSize) :
    ∃ pages, server.handleClient fnmatch env buffSize (requests.length + 1) kept (requests.map HttpRequest.print) =
        some ⟨pages, .closed, kept⟩ ∧
      List.Forall₂ (IsNotFound server.isKeepalive) (untilClose server.isKeepalive requests)
        (successive (recvResponse env buffSize) pages.length (pages.map HttpResponse.print)) := by
  obtain ⟨arrived, arrives, handled⟩ := arrives_all casts fnmatch server asked
  have versions : ∀ r ∈ untilClose server.isKeepalive requests, r.version = 0x11 ∨ r.version = 0x10 := fun r mem =>
    (asked r ((untilClose_sublist _ requests).mem mem)).sendable.version
  refine ⟨_, (handled kept (Nat.lt_succ_self _)).trans (congrArg some (serve_notFound arrives unrouted kept)), ?_⟩
  clear handled
  generalize untilClose server.isKeepalive requests = answered at versions
  induction answered with
  | nil => exact .nil
  | cons r answered ih =>
    have answers := answered_notFound env (versions r List.mem_cons_self) (!keeps server.isKeepalive r) fits room
    obtain ⟨m, got, returns⟩ :=
      answers.returns casts ((answered.map (page server.isKeepalive)).map HttpResponse.print)
    have headers := (returns.headers (headersKept_notFound ..)).trans (headers_notFound ..)
    rw [List.map_cons, List.map_cons, List.length_cons, page, successive, got]
    refine .cons ⟨returns.status, returns.reason, returns.version, headers, returns.body.trans (body_notFound _)⟩ ?_
    exact ih fun r mem => versions r (List.mem_cons_of_mem _ mem)

/-- Two requests to a server without routes. -/
theorem exchange_notFound_post : ∃ pages,
    bareServer.handleClient (fun _ _ => false) linuxSigned 512 3 () [postRequest.print, postRequest.print] =
      some ⟨pages, .closed, ()⟩ ∧
    List.Forall₂ (IsNotFound true) [postRequest, postRequest]
      (successive (recvResponse linuxSigned 512) pages.length (pages.map HttpResponse.print)) := by
  have all : ∀ r ∈ [postRequest, postRequest], Asked linuxSigned 512 r := by
    simpa using asked_postRequest
  have both : untilClose bareServer.isKeepalive [postRequest, postRequest] = [postRequest, postRequest] := by decide
  have pages := exchange_notFound castsDecimals_linuxSigned (fun _ _ => false) bareServer () all
    (fun _ _ => rfl) (by decide) (by decide)
  rwa [both] at pages

end HttpServer

end NotFound

end Sylar.Http
