import Sylar.Lib.Ragel

/-!
# The response machine

The grammar of `httpclient_parser.rl`, definition by definition. The machine also accepts the header
of a chunk on its own. A guard's first operand is the whole concatenation before it.
-/

namespace Sylar.Http.Response

open Lib Lib.Ragel

/-- The actions of the machine. -/
inductive Action where
  | mark
  | startField
  | writeField
  | startValue
  | writeContentLen
  | writeConnectionClose
  | writeValue
  | reasonPhrase
  | statusCode
  | httpVersion
  | chunkSize
  | transChunked
  | done
  deriving DecidableEq, Repr

abbrev Rule := Ragel Action

/-- `e > action`, `e % action` and `e @ action`; the order is numbered later. -/
def entering (action : Action) (e : Rule) : Rule := enter 0 action e
def leaving (action : Action) (e : Rule) : Rule := leave 0 action e
def finishing (action : Action) (e : Rule) : Rule := finish 0 action e

def crlf : Rule := alt (lit "\r\n") (lit "\n")

def ctl : ByteSet := ByteSet.cntrl.union (.single 127)
def tspecials : ByteSet := .of "()<>@,;:\\\"/[]?=\x7b\x7d \t"

def token : Rule := byte (ByteSet.ascii.diff (ctl.union tspecials))

/-! ## Status line -/

/-- One byte that contains no `crlf` is any byte but the line feed. -/
def reasonPhraseRule : Rule :=
  leaving .reasonPhrase (entering .mark (plus (byte (ByteSet.any.diff (.of "\n")))))

def statusCodeRule : Rule := leaving .statusCode (entering .mark (plus (byte .digit)))
def httpNumber : Rule := cat [plus (byte .digit), lit ".", plus (byte .digit)]
def httpVersionRule : Rule := leaving .httpVersion (entering .mark (seq (lit "HTTP/") httpNumber))

def statusLine : Rule :=
  guard 0 (cat [httpVersionRule, lit " ", statusCodeRule, lit " ", reasonPhraseRule]) crlf

/-! ## Headers -/

def fieldName : Rule := leaving .writeField (entering .startField (plus token))
def fieldValue : Rule := leaving .writeValue (entering .startValue (star (byte .any)))
def fields : Rule := guard 1 (cat [fieldName, lit ":", star (byte .space), fieldValue]) crlf

def contentLength : Rule :=
  seq
    (cat [leaving .writeField (entering .startField (litAnyCase "Content-Length")), lit ":",
      star (byte .space),
      leaving .writeValue (leaving .writeContentLen (entering .startValue (plus (byte .digit))))])
    crlf

def connClose : Rule :=
  seq (cat [litAnyCase "Connection", lit ":", star (byte .space), litAnyCase "close"])
    (leaving .writeConnectionClose crlf)

def transferEncodingChunked : Rule :=
  seq
    (cat [leaving .writeField (entering .startField (litAnyCase "Transfer-Encoding")), lit ":",
      star (byte .space), leaving .writeValue (entering .startValue (litAnyCase "chunked"))])
    (finishing .transChunked crlf)

def messageHeader : Rule := oneOf [transferEncodingChunked, connClose, contentLength, fields]

def response : Rule := cat [statusLine, star messageHeader, crlf]

/-! ## Chunk headers -/

def chunkExtVal : Rule := plus token
def chunkExtName : Rule := plus token

def chunkExtension : Rule :=
  star (cat [lit ";",
    leaving .startValue (leaving .writeField (entering .startField chunkExtName)),
    leaving .writeValue (opt (seq (lit "=") (entering .startValue chunkExtVal)))])

def chunkSizeRule : Rule := plus (byte .xdigit)

def chunkedHeader : Rule :=
  guard 2 (seq (leaving .chunkSize (entering .mark chunkSizeRule)) chunkExtension) crlf

def main : Rule := finishing .done (alt response chunkedHeader)

end Sylar.Http.Response
