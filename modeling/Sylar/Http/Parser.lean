import Sylar.Http.RequestGrammar
import Sylar.Http.ResponseGrammar
import Sylar.Http.Message
import Sylar.Lib.Scan
import Sylar.ByteArray.Basic

/-!
# The parsers

The model of `http_parser_execute` and `httpclient_parser_execute` with the actions of the two
machines, and of `HttpRequestParser` and `HttpResponseParser`, whose callbacks the actions call.

An action sees the buffer of the current call, the position of the current byte in it (`fpc`), and the
offsets that earlier actions have left in `mark`, `field_start`, `field_len` and `query_start`. Each
call of `execute` starts with the first three at zero; the state of the machine is kept.

The callbacks that are `nop_callback` do nothing here. The `status`, `chunks_done` and `close` of the C
parsers are written and never read by the calls modelled. `nread` is the number of bytes parsed, and
`body_start` is read by an assertion alone, at the end of both `execute`s (`Machine.bodyStart`).
-/

namespace Sylar.Http

open Lib

/-! ## The C library -/

def isspace (c : UInt8) : Bool := c == 0x20 || (decide (0x09 ≤ c) && decide (c ≤ 0x0D))

/-- The value of a digit, in any base up to 36. -/
def digitValue (c : UInt8) : Option Nat :=
  if 0x30 ≤ c ∧ c ≤ 0x39 then some (c.toNat - 0x30)
  else if 0x41 ≤ c ∧ c ≤ 0x5A then some (c.toNat - 0x41 + 10)
  else if 0x61 ≤ c ∧ c ≤ 0x7A then some (c.toNat - 0x61 + 10)
  else none

/-- A byte that `strtol` may take for a part of a number. -/
def inNumber (c : UInt8) : Bool := (digitValue c).isSome || c == 0x2B || c == 0x2D

/-- What `strtol` looks at: behind the white space, up to a byte that is no part of a number. -/
def subject (text : Str) : Str := (text.dropWhile isspace).takeWhile inNumber

/-- The digits at the front. -/
def numeral (base : Nat) (s : Str) : Nat :=
  (s.map digitValue).takeWhile (fun d => d.any (· < base)) |>.foldl (fun n d => n * base + d.getD 0) 0

/-- `strtol(text, NULL, base)`; a `long` has 64 bits. -/
def strtol (base : Nat) (text : Str) : Int :=
  let unsigned (s : Str) : Int :=
    match base, s with
    | 16, 0x30 :: x :: s => if x = 0x78 ∨ x = 0x58 then numeral 16 s else numeral 16 (0x30 :: x :: s)
    | _, _ => numeral base s
  match subject text with
  | 0x2D :: s => max (-(2 ^ 63)) (-(unsigned s))
  | 0x2B :: s => min (2 ^ 63 - 1) (unsigned s)
  | s => min (2 ^ 63 - 1) (unsigned s)

/-- The conversion of an integer to `int`. -/
def toInt (n : Int) : Int := n.bmod (2 ^ 32)

def atoi (s : Str) : Int := toInt (strtol 10 (cStr s))

/-- `strncmp(a, b, n) == 0`, for a literal `b`. -/
def sameFirst (a b : Str) (n : Nat) : Bool := cStr (a.take n) == b.take n

/-! ## Actions -/

/-- The offsets that `MARK` sets. -/
inductive Register where
  | mark
  | fieldStart
  | queryStart
  deriving DecidableEq, Repr

/-- The offsets and the length that a parser keeps between actions. -/
structure Registers where
  mark : Nat
  fieldStart : Nat
  fieldLen : Nat
  queryStart : Nat
  deriving DecidableEq, Repr

namespace Registers

def get (regs : Registers) : Register → Nat
  | .mark => regs.mark
  | .fieldStart => regs.fieldStart
  | .queryStart => regs.queryStart

def set (regs : Registers) (value : Nat) : Register → Registers
  | .mark => { regs with mark := value }
  | .fieldStart => { regs with fieldStart := value }
  | .queryStart => { regs with queryStart := value }

/-- After `http_parser_init`. `query_start` is not initialised, and always set before it is used. -/
def init : Registers := ⟨0, 0, 0, 0⟩

/-- At the start of `execute`: `query_start` is not reset. -/
def reset (regs : Registers) : Registers := { init with queryStart := regs.queryStart }

end Registers

/-- The body of an action, over the object that the callbacks change. A callback gets the buffer from
the offset on, as the pointer it is handed, and `LEN`. It answers `none` where it throws. -/
inductive Op (Obj : Type) where
  /-- `MARK(r, fpc)` -/
  | mark (r : Register)
  /-- `field_len = LEN(field_start, fpc)` -/
  | writeField
  /-- `http_field(data, PTR_TO(field_start), field_len, PTR_TO(mark), LEN(mark, fpc))` -/
  | httpField (callback : Obj → Str → Nat → Str → Nat → Option Obj)
  /-- `callback(data, PTR_TO(r), LEN(r, fpc))` -/
  | element (r : Register) (callback : Obj → Str → Nat → Option Obj)
  /-- An assignment of `strtol(PTR_TO(mark), NULL, base)`. -/
  | number (base : Nat) (assign : Obj → Int → Obj)
  /-- An assignment that uses no offset. -/
  | note (assign : Obj → Obj)

/-- The execution of an action on the byte at `fpc`. `LEN` is computed in `size_t`. -/
def Op.exec {Obj : Type} (buffer : Str) (fpc : Nat) (regs : Registers) (obj : Obj) :
    Op Obj → Option (Registers × Obj)
  | .mark r => some (regs.set fpc r, obj)
  | .writeField => some ({ regs with fieldLen := sizeSub fpc regs.fieldStart }, obj)
  | .httpField callback =>
    (callback obj (buffer.drop regs.fieldStart) regs.fieldLen (buffer.drop regs.mark)
      (sizeSub fpc regs.mark)).map (regs, ·)
  | .element r callback =>
    (callback obj (buffer.drop (regs.get r)) (sizeSub fpc (regs.get r))).map (regs, ·)
  | .number base assign => some (regs, assign obj (strtol base (buffer.drop regs.mark)))
  | .note assign => some (regs, assign obj)

/-- `std::string(at, length)`; `none` where no string of that length can be made. -/
def string (maxSize : Nat) (text : Str) (length : Nat) : Option Str :=
  if length ≤ maxSize then some (text.take length) else none

/-! ## The request parser -/

/-- The fields of `HttpRequestParser` that the callbacks use. -/
structure HttpRequestParser where
  contentLen : Int
  xmlSent : Bool
  jsonSent : Bool
  request : HttpRequest
  errno : Nat
  deriving DecidableEq, Repr

namespace HttpRequestParser

def create : HttpRequestParser := ⟨0, false, false, .create, 0⟩

/-- `get_request()`, which initialises the headers of the request it returns. -/
def getRequest (parser : HttpRequestParser) : HttpRequest := parser.request.initHeaders

variable (maxSize : Nat) (parser : HttpRequestParser) (text : Str) (length : Nat)

def onRequestMethod : Option HttpRequestParser :=
  (string maxSize text length).map fun s =>
    let m := stringToHttpMethod s
    { parser with
      request := { parser.getRequest with method := m }
      errno := if m = .invalidMethod then 0x1002 else parser.errno }

def onRequestFragment : Option HttpRequestParser :=
  (string maxSize text length).map fun s =>
    { parser with request := { parser.getRequest with fragment := s } }

def onRequestPath : Option HttpRequestParser :=
  (string maxSize text length).map fun s => { parser with request := { parser.getRequest with path := s } }

def onRequestQuery : Option HttpRequestParser :=
  (string maxSize text length).map fun s => { parser with request := { parser.getRequest with query := s } }

def onRequestVersion : Option HttpRequestParser :=
  if sameFirst text (bytes "HTTP/1.1") length then
    some { parser with request := { parser.getRequest with version := 0x11 } }
  else if sameFirst text (bytes "HTTP/1.0") length then
    some { parser with request := { parser.getRequest with version := 0x10 } }
  else some { parser with errno := 0x1001 }

def onRequestHttpField (field : Str) (flen : Nat) (value : Str) (vlen : Nat) : Option HttpRequestParser := do
  let f ← string maxSize field flen
  let v ← string maxSize value vlen
  some { parser with request := parser.getRequest.setHeader f v }

/-- The actions of the machine. -/
def action : Request.Action → Op HttpRequestParser
  | .mark => .mark .mark
  | .startField => .mark .fieldStart
  | .writeField => .writeField
  | .startValue => .mark .mark
  | .writeValue => .httpField (onRequestHttpField maxSize)
  | .requestMethod => .element .mark (onRequestMethod maxSize)
  | .requestUri => .note id
  | .fragment => .element .mark (onRequestFragment maxSize)
  | .startQuery => .mark .queryStart
  | .queryString => .element .queryStart (onRequestQuery maxSize)
  | .httpVersion => .element .mark onRequestVersion
  | .requestPath => .element .mark (onRequestPath maxSize)
  | .done =>
    if parser.xmlSent || parser.jsonSent then
      -- `content_len` is an `int`
      .element .mark fun parser _ length => some { parser with contentLen := toInt (length + 1) }
    else .note id
  | .xml => .note fun parser => { parser with xmlSent := true }
  | .json => .note fun parser => { parser with jsonSent := true }

end HttpRequestParser

/-! ## The response parser -/

/-- The fields of `HttpResponseParser` that the callbacks use. -/
structure HttpResponseParser where
  contentLen : Int
  chunked : Bool
  isChunked : Bool
  response : HttpResponse
  errno : Nat
  deriving DecidableEq, Repr

namespace HttpResponseParser

def create : HttpResponseParser := ⟨-1, false, false, .create, 0⟩

variable (maxSize : Nat) (parser : HttpResponseParser) (text : Str) (length : Nat)

def onResponseReason : Option HttpResponseParser :=
  (string maxSize text length).map fun s => { parser with response := { parser.response with reason := s } }

def onResponseStatus : Option HttpResponseParser :=
  (string maxSize text length).map fun s =>
    { parser with response := { parser.response with status := atoi s } }

def onResponseVersion : Option HttpResponseParser :=
  if sameFirst text (bytes "HTTP/1.1") length then
    some { parser with response := { parser.response with version := 0x11 } }
  else if sameFirst text (bytes "HTTP/1.0") length then
    some { parser with response := { parser.response with version := 0x10 } }
  else some { parser with errno := 0x1001 }

def onResponseHttpField (field : Str) (flen : Nat) (value : Str) (vlen : Nat) :
    Option HttpResponseParser := do
  let f ← string maxSize field flen
  let v ← string maxSize value vlen
  some { parser with
    response := parser.response.setHeader f v
    isChunked := parser.isChunked || (f == bytes "transfer-encoding" && v == bytes "chunked") }

/-- The actions of the machine. -/
def action : Response.Action → Op HttpResponseParser
  | .mark => .mark .mark
  | .startField => .mark .fieldStart
  | .writeField => .writeField
  | .startValue => .mark .mark
  | .writeContentLen => .number 10 fun parser n => { parser with contentLen := toInt n }
  | .writeConnectionClose => .note id
  | .writeValue => .httpField (onResponseHttpField maxSize)
  | .reasonPhrase => .element .mark (onResponseReason maxSize)
  | .statusCode => .element .mark (onResponseStatus maxSize)
  | .httpVersion => .element .mark onResponseVersion
  | .chunkSize => .number 16 fun parser n => { parser with chunked := true, contentLen := toInt n }
  | .transChunked => .note fun parser => { parser with chunked := true }
  | .done => .note id

end HttpResponseParser

/-! ## Executing -/

/-- A machine with its actions, and the questions `recv` asks about its states and the object. -/
structure Machine (A Obj : Type) where
  start : Ragel.State A
  step : Ragel.State A → UInt8 → Option (Ragel.State A × List A)
  breaks : A → Bool
  action : Obj → A → Op Obj
  /-- `is_finished()` -/
  finished : Ragel.State A → Bool
  /-- `errno_` is set. -/
  failed : Obj → Bool

/-- A parser: the state of its machine, `none` being the error state, its offsets, and its object. -/
structure Parser (A Obj : Type) where
  cs : Option (Ragel.State A)
  regs : Registers
  obj : Obj

namespace Machine

variable {A Obj : Type} (machine : Machine A Obj)

/-- The execution of a trace; `none` where a callback throws. -/
def run (buffer : Str) : List (A × Nat) → Registers → Obj → Option (Registers × Obj)
  | [], regs, obj => some (regs, obj)
  | (a, fpc) :: trace, regs, obj => do
    let (regs, obj) ← (machine.action obj a).exec buffer fpc regs obj
    run buffer trace regs obj

/-- The scan of a buffer from a state. -/
def scan (q : Ragel.State A) (p : Nat) (buffer : Str) : Scan (Ragel.State A) A :=
  Scan.scan machine.step machine.breaks q p buffer

/-- `body_start` after `execute` on a buffer: `done` sets it to the offset behind its byte, where it
breaks the scan off. -/
def bodyStart (parser : Parser A Obj) (buffer : Str) (before : Nat) : Nat :=
  match parser.cs with
  | none => before
  | some q =>
    let scan := machine.scan q 0 buffer
    if scan.broke then scan.stop else before

/-- `execute(data, len, offset)` from offset 0, up to the assertions at its end: the parser after it and
the bytes parsed, or `none` where a callback throws. -/
def execute (parser : Parser A Obj) (buffer : Str) : Option (Parser A Obj × Nat) :=
  match parser.cs with
  | none => some ({ parser with regs := parser.regs.reset }, 0)
  | some q =>
    let scan := machine.scan q 0 buffer
    (machine.run buffer scan.trace parser.regs.reset parser.obj).map fun (regs, obj) =>
      (⟨scan.state, regs, obj⟩, scan.stop)

def hasError (parser : Parser A Obj) : Bool := machine.failed parser.obj || parser.cs.isNone

def isFinished (parser : Parser A Obj) : Bool := parser.cs.any machine.finished

end Machine

/-- `http_parser` with the callbacks of `HttpRequestParser`. `uri_relaxed` is never set by the code. -/
def requestMachine (uriRelaxed : Bool) (maxSize : Nat) : Machine Request.Action HttpRequestParser where
  start := Ragel.start Request.main
  step := Ragel.step uriRelaxed
  breaks := (· == .done)
  action := HttpRequestParser.action maxSize
  finished := Ragel.final
  failed parser := parser.errno != 0

/-- `httpclient_parser` with the callbacks of `HttpResponseParser`. It is finished in the first final
state only: the one reached by a chunk header, from which the machine cannot go on. -/
def responseMachine (maxSize : Nat) : Machine Response.Action HttpResponseParser where
  start := Ragel.start Response.main
  step := Ragel.step false
  breaks := (· == .done)
  action _ := HttpResponseParser.action maxSize
  finished q := Ragel.final q && q.all fun e => e.moves.isEmpty
  failed parser := parser.errno != 0

end Sylar.Http
