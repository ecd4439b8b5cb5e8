import Sylar.Http.Parser
import Sylar.Stream.Basic

/-!
# Receiving messages

The model of `HttpSession::recv_request` and `HttpConnection::recv_response`. Both read into a local
buffer of `buff_size` bytes and execute their parser on it until the parser is finished; what the
parser has left is the start of the body. The rest of the body is then read: as many bytes as the
content length says, or, for a chunked response, by `read_chunked_body`.

The loop over the reads takes fuel. Every turn reads a byte, so the bytes that can still come are
enough.

The parsers assert that `body_start` is in the buffer of each call of `execute`. It is an offset in the
buffer of the call that has set it, so it may be behind the end of a later one. The other assertions of
the parsers hold of any buffer that is not empty.
-/

namespace Sylar.Http

open SocketStream

/-- What a call of `recv_request` or `recv_response` ends with. -/
inductive Received (M : Type) where
  | message (m : M) (reads : Reads)
  /-- `nullptr` -/
  | null
  /-- An exception that the call does not catch. -/
  | escaped
  /-- An assertion that fails, which ends the process. -/
  | aborted
  deriving DecidableEq, Repr

/-- What the code is compiled and linked with. -/
structure Env where
  /-- The length of the longest string there is room for. -/
  maxSize : Nat
  /-- `boost::lexical_cast<uint64_t>`; `none` where it throws. -/
  lexicalCast : Str → Option UInt64
  /-- The value in `uri_relaxed`, which is not initialised. -/
  uriRelaxed : Bool

/-! ## The header -/

/-- What the loop over the reads ends with. -/
inductive Header (A Obj : Type) where
  /-- A parser that is finished, with the bytes it has left and the reads still to come. -/
  | found (parser : Parser A Obj) (unparsed : Str) (reads : Reads)
  /-- `nullptr` -/
  | null
  /-- `assert(parser->body_start <= len)` fails. -/
  | aborted

namespace Machine

variable {A Obj : Type} (machine : Machine A Obj)

/-- The parser as constructed. -/
def parser (obj : Obj) : Parser A Obj := ⟨some machine.start, .init, obj⟩

/-- The loop over the reads. `bodyStart` is `body_start` after the calls of `execute` so far. -/
def recv (buffSize : Nat) : Nat → Nat → Parser A Obj → Str → Reads → Option (Header A Obj)
  | 0, _, _, _, _ => none
  | fuel + 1, bodyStart, parser, unparsed, reads =>
    match read (buffSize - unparsed.length) reads with
    | none => some .null
    | some (got, reads) =>
      let data := unparsed ++ got
      match machine.execute parser data with
      | none => some .null
      | some (parser', parsed) =>
        let bodyStart := machine.bodyStart parser data bodyStart
        if data.length < bodyStart then some .aborted
        else
          let unparsed := data.drop parsed
          if machine.hasError parser' || decide (buffSize ≤ unparsed.length) then some .null
          else if machine.isFinished parser' then some (.found parser' unparsed reads)
          else recv buffSize fuel bodyStart parser' unparsed reads

/-- The loop without the assertion, with `none` inside for `nullptr`. -/
def recvHeader (buffSize : Nat) : Nat → Parser A Obj → Str → Reads → Option (Option (Parser A Obj × Str × Reads))
  | 0, _, _, _ => none
  | fuel + 1, parser, unparsed, reads =>
    match read (buffSize - unparsed.length) reads with
    | none => some none
    | some (got, reads) =>
      match machine.execute parser (unparsed ++ got) with
      | none => some none
      | some (parser, parsed) =>
        let unparsed := (unparsed ++ got).drop parsed
        if machine.hasError parser || decide (buffSize ≤ unparsed.length) then some none
        else if machine.isFinished parser then some (some (parser, unparsed, reads))
        else recvHeader buffSize fuel parser unparsed reads

end Machine

/-! ## The body -/

/-- A body of a known length: what is left of the buffer, and the rest from the connection. -/
def recvBody (length : Nat) (unparsed : Str) (reads : Reads) : Option (Str × Reads) :=
  if length ≤ unparsed.length then some (unparsed.take length, reads)
  else (readFixLength (length - unparsed.length) reads).map fun (rest, reads) => (unparsed ++ rest, reads)

/-- `get_content_length`, from the parser's number and the headers. -/
def getContentLength (lexicalCast : Str → Option UInt64) (contentLen : Int) (headers : HttpHeaders) : Nat :=
  if contentLen > 0 then contentLen.toNat
  else
    match headers.find (bytes "content-length") with
    | none => 0
    | some value => ((lexicalCast value).getD 0).toNat

/-- The request that is returned with a body. -/
def HttpRequestParser.withBody (parser : HttpRequestParser) (body : Str) : HttpRequest :=
  if body = [] then parser.getRequest else (parser.getRequest.setBody body).initHeaders

/-- The end of `recv_request`, behind the loop. -/
def HttpRequestParser.finish (env : Env) (parser : HttpRequestParser) (unparsed : Str) (reads : Reads) :
    Received HttpRequest :=
  let length := getContentLength env.lexicalCast parser.contentLen parser.request.headers
  if length = 0 then .message parser.getRequest reads
  else if env.maxSize < length then .escaped
  else
    match recvBody length unparsed reads with
    | none => .null
    | some (body, reads) => .message (parser.getRequest.setBody body).initHeaders reads

/-- `recv_request()`. -/
def recvRequest (env : Env) (buffSize : Nat) (reads : Reads) : Option (Received HttpRequest) :=
  let machine := requestMachine env.uriRelaxed env.maxSize
  (machine.recv buffSize (reads.flatten.length + 1) 0 (machine.parser .create) [] reads).map fun
    | .null => .null
    | .aborted => .aborted
    | .found parser unparsed reads => parser.obj.finish env unparsed reads

def HttpResponseParser.isChunkedResponse (parser : HttpResponseParser) : Bool :=
  parser.isChunked || parser.chunked

/-- The body is set if there is one. -/
def HttpResponse.withBody (response : HttpResponse) (body : Str) : HttpResponse :=
  if body.isEmpty then response else response.setBody body

/-- The end of `recv_response`, behind the loop. What `read_chunked_body` returns is not looked at. -/
def HttpResponseParser.finish (env : Env) (buffSize : Nat) (parser : HttpResponseParser) (unparsed : Str)
    (reads : Reads) : Option (Received HttpResponse) :=
  if parser.isChunkedResponse then
    (readChunkedBody buffSize [] unparsed reads).map fun chunked =>
      .message (parser.response.withBody chunked.body) chunked.reads
  else
    let length := getContentLength env.lexicalCast parser.contentLen parser.response.headers
    if length = 0 then some (.message parser.response reads)
    else if env.maxSize < length then some .escaped
    else
      match recvBody length unparsed reads with
      | none => some .null
      | some (body, reads) => some (.message (parser.response.withBody body) reads)

/-- `recv_response()`. -/
def recvResponse (env : Env) (buffSize : Nat) (reads : Reads) : Option (Received HttpResponse) :=
  let machine := responseMachine env.maxSize
  (machine.recv buffSize (reads.flatten.length + 1) 0 (machine.parser .create) [] reads).bind fun
    | .null => some .null
    | .aborted => some .aborted
    | .found parser unparsed reads => parser.obj.finish env buffSize unparsed reads

end Sylar.Http
