import Sylar.Lib.Ragel

/-!
# The request machine

The grammar of `http11_parser.rl`, definition by definition. In the source `-` between two literals is
the difference of two machines, so `0 - 31` is the byte 0, `"1"-"9"` is `"1"`, and a number before a
group is the byte with that value.
-/

namespace Sylar.Http.Request

open Lib Lib.Ragel

/-- The actions of the machine. -/
inductive Action where
  | mark
  | startField
  | writeField
  | startValue
  | writeValue
  | requestMethod
  | requestUri
  | fragment
  | startQuery
  | queryString
  | httpVersion
  | requestPath
  | done
  | xml
  | json
  deriving DecidableEq, Repr

abbrev Rule := Ragel Action

/-- `e > action`, `e % action` and `e @ action`; the order is numbered later. -/
def entering (action : Action) (e : Rule) : Rule := enter 0 action e
def leaving (action : Action) (e : Rule) : Rule := leave 0 action e
def finishing (action : Action) (e : Rule) : Rule := finish 0 action e

def crlf : Rule := alt (lit "\r\n") (lit "\n")

/-! ## URIs -/

def moreDelims : Rule := onlyIf (byte (.of "\x7b\x7d^"))
def subDelims : Rule := alt (byte (.of "!$&'()*+,;=")) moreDelims
def unreserved : Rule := byte ((ByteSet.alpha.union .digit).union (.of "-._~"))
def pctEncoded : Rule := cat [lit "%", byte .xdigit, byte .xdigit]

/-- Bytes that are not ascii are allowed too. -/
def pchar : Rule :=
  oneOf [byte (.diff .any .ascii), unreserved, pctEncoded, subDelims, lit ":", lit "@"]

def fragmentRule : Rule :=
  leaving .fragment (entering .mark (star (oneOf [pchar, lit "/", lit "?"])))

def query : Rule := leaving .queryString (star (oneOf [pchar, lit "/", lit "?"]))

def segmentNzNc : Rule := plus (oneOf [unreserved, pctEncoded, subDelims, lit "@"])
def segmentNz : Rule := plus pchar
def segment : Rule := star pchar

def pathEmpty : Rule := times 0 pchar
def pathRootless : Rule := seq segmentNz (star (seq (lit "/") segment))
def pathNoscheme : Rule := seq segmentNzNc (star (seq (lit "/") segment))
def pathAbsolute : Rule := seq (lit "/") (opt (seq segmentNz (star (seq (lit "/") segment))))
def pathAbempty : Rule := star (seq (lit "/") segment)

def regName : Rule := star (oneOf [unreserved, pctEncoded, subDelims])

def decOctet : Rule :=
  oneOf [byte .digit, seq (lit "1") (byte .digit), seq (lit "1") (times 2 (byte .digit)),
    cat [lit "2", lit "0", byte .digit], seq (lit "25") (lit "0")]

def ipv4address : Rule := cat [decOctet, lit ".", decOctet, lit ".", decOctet, lit ".", decOctet]
def h16 : Rule := between 1 4 (byte .xdigit)
def ls32 : Rule := alt (cat [h16, lit ":", h16]) ipv4address

/-- `h16 ":"`. -/
def h16Colon : Rule := seq h16 (lit ":")

/-- `( ( h16 ":" ){n,} h16 )? "::"`. -/
def elided (n : Nat) : Rule := seq (opt (seq (atLeast n h16Colon) h16)) (lit "::")

def ipv6address : Rule :=
  oneOf [cat [char 6, h16Colon, ls32], cat [lit "::", char 5, h16Colon, ls32],
    cat [opt h16, lit "::", char 4, h16Colon, ls32], cat [elided 1, char 3, h16Colon, ls32],
    cat [elided 2, char 2, h16Colon, ls32], cat [elided 3, h16Colon, ls32], seq (elided 4) ls32,
    seq (elided 5) h16, elided 6]

def ipvFuture : Rule :=
  cat [lit "v", plus (byte .xdigit), lit ".", plus (oneOf [unreserved, subDelims, lit ":"])]

def ipLiteral : Rule := cat [lit "[", alt ipv6address ipvFuture, lit "]"]

def port : Rule := star (byte .digit)
def host : Rule := oneOf [ipLiteral, ipv4address, regName]
def userinfo : Rule := star (oneOf [unreserved, pctEncoded, subDelims, lit ":"])
def authority : Rule := cat [opt (seq userinfo (lit "@")), host, opt (seq (lit ":") port)]

def scheme : Rule := seq (byte .alpha) (star (byte ((ByteSet.alpha.union .digit).union (.of "+-."))))

def relativePart : Rule :=
  oneOf [cat [lit "//", authority, pathAbempty], pathAbsolute, pathNoscheme, pathEmpty]

def hierPart : Rule :=
  oneOf [cat [lit "//", authority, pathAbempty], pathAbsolute, pathRootless, pathEmpty]

/-- `(part %request_path ( "?" %start_query query )?) >mark %request_uri ( "#" fragment )?`. -/
def pathQueryFragment (part : Rule) : Rule :=
  seq (leaving .requestUri (entering .mark
      (seq (leaving .requestPath part) (opt (seq (leaving .startQuery (lit "?")) query)))))
    (opt (seq (lit "#") fragmentRule))

def relativeRef : Rule := pathQueryFragment relativePart
def uri : Rule := cat [scheme, lit ":", pathQueryFragment hierPart]
def uriReference : Rule := alt uri relativeRef

/-! ## Request line and headers -/

def method : Rule :=
  leaving .requestMethod (entering .mark (between 1 20 (byte (ByteSet.upper.union .digit))))

def httpNumber : Rule := seq (lit "1.") (alt (lit "0") (lit "1"))
def httpVersionRule : Rule := leaving .httpVersion (entering .mark (seq (lit "HTTP/") httpNumber))
def requestLine : Rule := cat [method, lit " ", uriReference, lit " ", httpVersionRule, crlf]

def httpCtl : ByteSet := ((ByteSet.single 0).diff (.single 31)).union (.single 127)
def httpSeparator : ByteSet := .of "()<>@,;:\\\"/[]?=\x7b\x7d \t"

def lws : Rule := seq (opt crlf) (plus (byte (.of " \t")))
def token : Rule := byte (ByteSet.ascii.diff (httpCtl.union httpSeparator))
def content : Rule := alt (byte (ByteSet.any.diff httpCtl)) lws

def fieldName : Rule := leaving .writeField (entering .startField (plus token))
def fieldValue : Rule := leaving .writeValue (entering .startValue (star content))

def messageHeader : Rule := guard 0 (cat [fieldName, lit ":", star lws, fieldValue]) crlf

def request : Rule := cat [requestLine, star messageHeader, crlf]

/-! ## Sockets -/

def socketJsonStart : Rule := seq (lit "@") relativePart
def socketJsonData : Rule := guardEnd 1 (cat [lit "\x7b", star (byte .any), lit "\x7d"]) (char 0)

def socketXmlData : Rule :=
  guardEnd 2
    (cat [leaving .requestPath (entering .mark
        (seq (lit "<") (plus (byte ((ByteSet.alpha.union .digit).union (.of "-.")))))),
      alt (byte (.of "/>")) (byte .space), star (byte .any), lit ">"])
    (char 0)

def socketJson : Rule :=
  cat [leaving .requestPath (entering .mark socketJsonStart), lit " ",
    finishing .json (entering .mark socketJsonData)]

def socketXml : Rule := finishing .xml socketXmlData

def socketRequest : Rule := alt socketXml socketJson

def main : Rule := finishing .done (alt request socketRequest)

end Sylar.Http.Request
