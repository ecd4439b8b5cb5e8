import Sylar.Http.Framing
import Sylar.Http.Mutators
import Sylar.Http.Receive
import Sylar.Http.Servlet

/-!
# The server on a connection

The model of `HttpServer::handle_client`, with the dispatcher and the servlet for what is not found. A servlet is
handed the request and the response that the server has started; it also gets the session, which the servlets of the
model leave alone. What a servlet keeps between its calls is a state that is passed along. What `send_response`
returns is not looked at, so the loop over the requests knows the connection by its reads alone.

Whatever a client sends, and however it is cut into reads, the loop ends, and it has sent one response for each
request that `recv_request` returned, in order and up to the first that closes (`handleClient_eq_serve`). Requests
that are sent one behind the other without waiting are all answered if none of them is read with the start of the
next (`handleClient_pipelined`).
-/

namespace Sylar.Http

open Lib SocketStream ChunkedReader

/-! ## Servlets -/

/-- `handle_request`: what it returns, the response as it leaves it, and what the servlet keeps. -/
abbrev HttpServlet (S : Type) := HttpRequest → HttpResponse → S → Bool × HttpResponse × S

section Servlets

variable {S : Type}

/-- The body that `NotFoundServlet` sends. -/
def notFoundPage : Str :=
  bytes ("<html><head><title>404 Not Found</title></head>" ++ "<body><center><h1>404 Not Found</h1></center>" ++
    "<hr><center>sylar http server</center></body></html>")

def notFound (response : HttpResponse) : HttpResponse :=
  (({ response with status := 404 }.setHeader (bytes "Server") (bytes "sylar/1.0.0")).setHeader
    (bytes "Content-Type") (bytes "text/html")).setBody notFoundPage

def NotFoundServlet.handleRequest : HttpServlet S := fun _ response kept => (true, notFound response, kept)

/-- Without any servlet the dispatcher refuses. -/
def ServletDispatch.handleRequest (fnmatch : Str → Str → Bool) (d : ServletDispatch (HttpServlet S)) : HttpServlet S :=
  fun request response kept =>
    match d.matchedServlet fnmatch request.path with
    | some servlet => servlet request response kept
    | none => (false, response, kept)

end Servlets

/-! ## The loop over the requests -/

structure HttpServer (S : Type) where
  isKeepalive : Bool
  name : Str
  servletDispatch : ServletDispatch (HttpServlet S)

/-- How `handle_client` is left: through `close()`, by an exception that it does not catch, or by an assertion that
fails. -/
inductive Ending where
  | closed
  | escaped
  | aborted
  deriving DecidableEq, Repr

/-- What `handle_client` has sent, how it was left, and what the servlets keep. -/
structure Served (S : Type) where
  responses : List HttpResponse
  ending : Ending
  kept : S
  deriving DecidableEq, Repr

namespace HttpServer

variable {S : Type} (fnmatch : Str → Str → Bool) (server : HttpServer S)

/-- A turn of the loop behind `recv_request`: the response that is sent, whether it closes, and what the servlets
keep. -/
def turn (kept : S) (req : HttpRequest) : HttpResponse × Bool × S :=
  let (handled, rsp, kept) :=
    server.servletDispatch.handleRequest fnmatch req (startResponse server.isKeepalive server.name req) kept
  let (rsp, close) := finishTurn handled rsp
  (rsp, close, kept)

/-- `handle_client`. -/
def handleClient (env : Env) (buffSize : Nat) : Nat → S → Reads → Option (Served S)
  | 0, _, _ => none
  | fuel + 1, kept, reads =>
    match recvRequest env buffSize reads with
    | none => none
    | some .null => some ⟨[], .closed, kept⟩
    | some .escaped => some ⟨[], .escaped, kept⟩
    | some .aborted => some ⟨[], .aborted, kept⟩
    | some (.message req reads) =>
      match server.turn fnmatch kept req with
      | (rsp, true, kept) => some ⟨[rsp], .closed, kept⟩
      | (rsp, false, kept) =>
        (handleClient env buffSize fuel kept reads).map fun served =>
          { served with responses := rsp :: served.responses }

/-- The responses to some requests, up to the first that closes; if none does, the end is that of the requests. -/
def serve (ending : Ending) : S → List HttpRequest → Served S
  | kept, [] => ⟨[], ending, kept⟩
  | kept, req :: reqs =>
    match server.turn fnmatch kept req with
    | (rsp, true, kept) => ⟨[rsp], .closed, kept⟩
    | (rsp, false, kept) =>
      let served := serve ending kept reqs
      { served with responses := rsp :: served.responses }

end HttpServer

/-! ## A request takes a byte -/

section Progress

variable {A Obj : Type} {buffSize : Nat}

theorem recvHeader_shrinks {machine : Machine A Obj} (fuel : Nat) : ∀ {parser parser' : Parser A Obj}
    {unparsed left : Str} {reads rest : Reads},
    machine.recvHeader buffSize fuel parser unparsed reads = some (some (parser', left, rest)) →
    rest.flatten.length < reads.flatten.length := by
  induction fuel with
  | zero => exact fun got => nomatch got
  | succ fuel ih =>
    intro parser parser' unparsed left reads rest got
    rw [Machine.recvHeader] at got
    split at got
    · cases got
    · rename_i taken
      obtain ⟨nonempty, count⟩ := read_spec taken
      have pos := List.length_pos_iff.mpr nonempty
      split at got
      · cases got
      · dsimp only at got
        split at got
        · cases got
        · split at got
          · obtain ⟨-, same⟩ := Prod.mk.inj (Option.some.inj (Option.some.inj got))
            obtain ⟨-, rfl⟩ := Prod.mk.inj same
            omega
          · have less := ih got
            omega

theorem readFixLengthLoop_shrinks (fuel : Nat) : ∀ {length : Nat} {got : Str} {reads rest : Reads},
    readFixLengthLoop fuel length reads = some (got, rest) → rest.flatten.length ≤ reads.flatten.length := by
  induction fuel with
  | zero =>
    intro length got reads rest done
    cases length with
    | zero =>
      obtain ⟨-, rfl⟩ := Prod.mk.inj (Option.some.inj done)
      exact Nat.le_refl _
    | succ length => cases done
  | succ fuel ih =>
    intro length got reads rest done
    cases length with
    | zero =>
      obtain ⟨-, rfl⟩ := Prod.mk.inj (Option.some.inj done)
      exact Nat.le_refl _
    | succ length =>
      obtain ⟨⟨first, reads₁⟩, taken, more⟩ := Option.bind_eq_some_iff.mp done
      obtain ⟨⟨others, reads₂⟩, looped, last⟩ := Option.bind_eq_some_iff.mp more
      obtain ⟨-, rfl⟩ := Prod.mk.inj (Option.some.inj last)
      have count := (read_spec taken).2
      have less := ih looped
      omega

theorem recvBody_shrinks {length : Nat} {unparsed body : Str} {reads rest : Reads}
    (got : recvBody length unparsed reads = some (body, rest)) : rest.flatten.length ≤ reads.flatten.length := by
  rw [recvBody] at got
  split at got
  · obtain ⟨-, rfl⟩ := Prod.mk.inj (Option.some.inj got)
    exact Nat.le_refl _
  · obtain ⟨⟨more, rest'⟩, looped, last⟩ := Option.map_eq_some_iff.mp got
    obtain ⟨-, rfl⟩ := Prod.mk.inj last
    exact readFixLengthLoop_shrinks _ looped

theorem recvRequest_shrinks {env : Env} {reads rest : Reads} {m : HttpRequest}
    (got : recvRequest env buffSize reads = some (.message m rest)) :
    rest.flatten.length < reads.flatten.length := by
  rw [recvRequest_eq] at got
  obtain ⟨header, found, finish⟩ := Option.map_eq_some_iff.mp got
  cases header with
  | none => cases finish
  | some header =>
    obtain ⟨parser, unparsed, behind⟩ := header
    have less := recvHeader_shrinks _ found
    change parser.obj.finish env unparsed behind = _ at finish
    rw [HttpRequestParser.finish] at finish
    split at finish
    · obtain ⟨-, rfl⟩ := Received.message.inj finish
      exact less
    · split at finish
      · cases finish
      · split at finish
        · cases finish
        · rename_i gotBody
          obtain ⟨-, rfl⟩ := Received.message.inj finish
          exact Nat.lt_of_le_of_lt (recvBody_shrinks gotBody) less

theorem recvRequest_isSome (env : Env) (buffSize : Nat) (reads : Reads) : (recvRequest env buffSize reads).isSome = true := by
  rw [recvRequest_eq, Option.isSome_map]
  exact Machine.recvHeader_isSome _ (Nat.lt_succ_self _)

end Progress

/-! ## What is sent -/

namespace HttpServer

variable {S : Type} {fnmatch : Str → Str → Bool} {server : HttpServer S} {env : Env} {buffSize : Nat}

/-- The turn on a request, and what is left to be served. -/
theorem handleClient_message {fuel : Nat} {kept : S} {reads rest : Reads} {req : HttpRequest}
    (got : recvRequest env buffSize reads = some (.message req rest)) {ending : Ending} {reqs : List HttpRequest}
    (behind : ∀ kept, server.handleClient fnmatch env buffSize fuel kept rest =
      some (server.serve fnmatch ending kept reqs)) :
    server.handleClient fnmatch env buffSize (fuel + 1) kept reads =
      some (server.serve fnmatch ending kept (req :: reqs)) := by
  rw [handleClient, got, serve]
  dsimp only
  obtain ⟨rsp, close, kept'⟩ := server.turn fnmatch kept req
  cases close with
  | true => rfl
  | false =>
    dsimp only
    rw [behind kept']
    rfl

/-- The loop ends on whatever comes, and has answered the requests that `recv_request` returned. Whether an exception
ends it is a matter of the connection. -/
theorem handleClient_eq_serve (env : Env) (buffSize : Nat) (reads : Reads) : ∃ ending,
    ∀ (fnmatch : Str → Str → Bool) (server : HttpServer S) (kept : S),
      server.handleClient fnmatch env buffSize (reads.flatten.length + 1) kept reads =
        some (server.serve fnmatch ending kept
          (successive (recvRequest env buffSize) (reads.flatten.length + 1) reads)) := by
  suffices all : ∀ (fuel : Nat) {reads : Reads}, reads.flatten.length < fuel → ∃ ending,
      ∀ (fnmatch : Str → Str → Bool) (server : HttpServer S) (kept : S),
        server.handleClient fnmatch env buffSize fuel kept reads =
          some (server.serve fnmatch ending kept (successive (recvRequest env buffSize) fuel reads)) from
    all (reads.flatten.length + 1) (Nat.lt_succ_self _)
  intro fuel
  induction fuel with
  | zero => exact fun lt => absurd lt (Nat.not_lt_zero _)
  | succ fuel ih =>
    intro reads lt
    obtain ⟨received, got⟩ := Option.isSome_iff_exists.mp (recvRequest_isSome env buffSize reads)
    rw [successive, got]
    cases received with
    | null =>
      refine ⟨.closed, fun fnmatch server kept => ?_⟩
      rw [handleClient, got]
      rfl
    | escaped =>
      refine ⟨.escaped, fun fnmatch server kept => ?_⟩
      rw [handleClient, got]
      rfl
    | aborted =>
      refine ⟨.aborted, fun fnmatch server kept => ?_⟩
      rw [handleClient, got]
      rfl
    | message req rest =>
      have less := recvRequest_shrinks got
      obtain ⟨ending, behind⟩ := ih (show rest.flatten.length < fuel by omega)
      exact ⟨ending, fun fnmatch server kept => handleClient_message got (behind fnmatch server)⟩

/-! ## Requests one behind the other -/

theorem recvRequest_nil (env : Env) (buffSize : Nat) : recvRequest env buffSize [] = some .null := rfl

/-- More requests than fuel are never there: each takes a byte. -/
theorem length_le_flatten (messages : List (RequestMessage env)) :
    messages.length ≤ (messages.flatMap fun m => m.frame.text).length := by
  induction messages with
  | nil => exact Nat.le_refl _
  | cons m messages ih =>
    have pos := List.length_pos_iff.mpr m.frame.nonempty
    rw [List.flatMap_cons, List.length_append, Frame.length_text, List.length_cons]
    omega

/-- Requests that are sent one behind the other are answered one by one and in order, up to the first response that
closes, if every header section is inside one read and what is behind each request is left for the next call. Then
the connection is closed. -/
theorem handleClient_pipelined (fnmatch : Str → Str → Bool) (server : HttpServer S) (kept : S)
    (messages : List (RequestMessage env)) {reads : Reads} (fed : Fed buffSize reads)
    (flat : reads.flatten = messages.flatMap fun m => m.frame.text)
    (headers : HeadersWhole reads 0 (messages.map RequestMessage.frame))
    (leaves : LeavesRest reads 0 (messages.map RequestMessage.frame)) :
    server.handleClient fnmatch env buffSize (reads.flatten.length + 1) kept reads =
      some (server.serve fnmatch .closed kept (messages.map RequestMessage.request)) := by
  suffices all : ∀ (messages : List (RequestMessage env)) {reads : Reads} {kept : S} {fuel : Nat},
      messages.length < fuel → Fed buffSize reads → reads.flatten = (messages.flatMap fun m => m.frame.text) →
      HeadersWhole reads 0 (messages.map RequestMessage.frame) →
      LeavesRest reads 0 (messages.map RequestMessage.frame) →
      server.handleClient fnmatch env buffSize fuel kept reads =
        some (server.serve fnmatch .closed kept (messages.map RequestMessage.request)) by
    refine all messages ?_ fed flat headers leaves
    have le := length_le_flatten messages
    rw [flat]
    omega
  intro messages
  induction messages with
  | nil =>
    intro reads kept fuel more fed flat _ _
    obtain ⟨fuel, rfl⟩ := Nat.exists_eq_add_one_of_ne_zero (Nat.ne_zero_of_lt more)
    obtain rfl : reads = [] := by
      cases reads with
      | nil => rfl
      | cons segment reads =>
        have empty := (List.append_eq_nil_iff.mp flat).1
        exact absurd empty (fed segment List.mem_cons_self).1
    rw [handleClient, recvRequest_nil]
    rfl
  | cons m messages ih =>
    intro reads kept fuel more fed flat headers leaves
    obtain ⟨fuel, rfl⟩ := Nat.exists_eq_add_one_of_ne_zero (Nat.ne_zero_of_lt more)
    rw [List.flatMap_cons] at flat
    rw [List.map_cons] at headers leaves
    obtain ⟨header, headers⟩ := headers
    obtain ⟨-, ends, leaves⟩ := leaves
    have ends' : messages.flatMap (fun m => m.frame.text) ≠ [] → m.frame.EndsWithin reads 0 := by
      intro more
      refine ends fun none => more ?_
      rw [List.map_eq_nil_iff.mp none]
      rfl
    obtain ⟨rest, got, behind, fed'⟩ := m.receives_behind fed flat header ends'
    rw [Nat.zero_add] at headers leaves
    refine handleClient_message got fun kept => ih (Nat.lt_of_succ_lt_succ more) fed' ?_ ?_ ?_
    · rw [behind.flat, flat, List.drop_left]
    · exact HeadersWhole.shift behind.cuts _ headers
    · exact LeavesRest.shift behind.cuts _ leaves

/-- A servlet that counts the requests. -/
def countServlet : HttpServlet Nat := fun _ response kept => (true, response.setBody (bytes (toString kept)), kept + 1)

theorem nil_fits (env : Env) : ([] : Str).length ≤ env.maxSize := Nat.zero_le _

/-- `GET / HTTP/1.1`, of a client that keeps the connection. -/
def aliveMessage : RequestMessage linux where
  header := bytes "GET / HTTP/1.1\r\nConnection: keep-alive\r\n\r\n"
  body := []
  parser := ((requestMachine linux.uriRelaxed linux.maxSize).headerOf .create
    (bytes "GET / HTTP/1.1\r\nConnection: keep-alive\r\n\r\n")).get (by decide +kernel)
  parses := (Option.some_get _).symm
  counts := by decide +kernel
  room := nil_fits linux

def countServer : HttpServer Nat := ⟨true, bytes "sylar", .create countServlet⟩

set_option maxRecDepth 4000 in
/-- Two requests that come in a read each. -/
theorem handleClient_pipelined_two : ∃ served,
    countServer.handleClient (fun _ _ => false) linux 64 85 0 [aliveMessage.header, aliveMessage.header] = some served ∧
    served.responses.map HttpResponse.body = [bytes "0", bytes "1"] ∧ served.ending = .closed ∧ served.kept = 2 := by
  have fed : Fed 64 [aliveMessage.header, aliveMessage.header] := by decide +kernel
  have served := handleClient_pipelined (fun _ _ => false) countServer 0 [aliveMessage, aliveMessage] fed
    (by decide +kernel) (by decide +kernel) ⟨fun _ mem => ?_, fun _ => ?_, fun _ mem => ?_, fun more => ?_, trivial⟩
  · exact ⟨_, served, by decide +kernel, by decide +kernel, by decide +kernel⟩
  · cases mem
  · exact ⟨42, by decide +kernel, by decide +kernel, by decide +kernel⟩
  · cases mem
  · exact absurd rfl more

end HttpServer

end Sylar.Http
