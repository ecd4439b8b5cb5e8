import Sylar.Lib.Trace
import Sylar.Http.Parser

/-!
# The URI machine

The grammar of `uri.rl`, definition by definition, its actions, and `URI::create`. In `dec_octet` the
source has the number 2 where the others have strings, so that alternative begins with the byte 2. In the
alternatives of `IPv6address` the groups before `::` are repeated a fixed number of times.

The actions share one pointer, `mark`. A string that begins at a null pointer cannot be made: the
constructor throws, and `create` does not return.
-/

namespace Sylar.UriParser

open Lib Lib.Ragel Http

/-- The actions of the machine. -/
inductive Action where
  | marku
  | markh
  | saveScheme
  | savePort
  | saveUserinfo
  | saveHost
  | savePath
  | saveQuery
  | saveFragment
  deriving DecidableEq, Repr

abbrev Rule := Ragel Action

/-- `e > action` and `e % action`; the order is numbered later. -/
def entering (action : Action) (e : Rule) : Rule := enter 0 action e
def leaving (action : Action) (e : Rule) : Rule := leave 0 action e

def subDelims : Rule := byte (.of "!$&'()*+,;=")
def unreserved : Rule := byte ((ByteSet.alpha.union .digit).union (.of "-._~"))
def pctEncoded : Rule := cat [lit "%", byte .xdigit, byte .xdigit]

def scheme : Rule :=
  leaving .saveScheme (entering .marku
    (seq (byte .alpha) (star (byte ((ByteSet.alpha.union .digit).union (.of "+-."))))))

/-! ## Authorities -/

def userinfo : Rule := star (oneOf [unreserved, pctEncoded, subDelims, lit ":"])

def decOctet : Rule :=
  oneOf [byte .digit, seq (byte (.range 0x31 0x39)) (byte .digit), seq (lit "1") (times 2 (byte .digit)),
    cat [char 2, byte (.range 0x30 0x34), byte .digit], seq (lit "25") (byte (.range 0x30 0x35))]

def ipv4address : Rule := cat [decOctet, lit ".", decOctet, lit ".", decOctet, lit ".", decOctet]
def h16 : Rule := between 1 4 (byte .xdigit)
def ls32 : Rule := alt (cat [h16, lit ":", h16]) ipv4address

/-- `h16 ":"`. -/
def h16Colon : Rule := seq h16 (lit ":")

/-- `((h16 ":"){n} h16)? "::"`. -/
def elided (n : Nat) : Rule := seq (opt (seq (times n h16Colon) h16)) (lit "::")

def ipv6address : Rule :=
  oneOf [seq (times 6 h16Colon) ls32, cat [lit "::", times 5 h16Colon, ls32],
    cat [opt h16, lit "::", times 4 h16Colon, ls32], cat [elided 1, times 3 h16Colon, ls32],
    cat [elided 2, times 2 h16Colon, ls32], cat [elided 3, times 1 h16Colon, ls32], seq (elided 4) ls32,
    seq (elided 5) h16, elided 6]

def ipvFuture : Rule :=
  cat [lit "v", plus (byte .xdigit), lit ".", plus (oneOf [unreserved, subDelims, lit ":"])]

def ipLiteral : Rule := cat [lit "[", alt ipv6address ipvFuture, lit "]"]
def regName : Rule := star (oneOf [unreserved, pctEncoded, subDelims])
def host : Rule := oneOf [ipLiteral, ipv4address, regName]
def port : Rule := star (byte .digit)

def authority : Rule :=
  entering .markh
    (cat [opt (seq (leaving .saveUserinfo userinfo) (lit "@")), leaving .saveHost (entering .markh host),
      opt (seq (lit ":") (leaving .savePort (entering .markh port)))])

/-! ## Paths -/

/-- Bytes that are not ascii are allowed too. -/
def pchar : Rule :=
  oneOf [byte (.diff .any .ascii), unreserved, pctEncoded, subDelims, lit ":", lit "@"]

def segment : Rule := star pchar
def segmentNz : Rule := plus pchar

/-- `pchar - ":"` is `pchar` without that alternative. -/
def segmentNzNc : Rule :=
  plus (oneOf [byte (.diff .any .ascii), unreserved, pctEncoded, subDelims, lit "@"])

def pathAbempty : Rule := seq (opt (seq (lit "/") segment)) (star (seq (lit "/") segment))
def pathAbsolute : Rule := seq (lit "/") (opt (seq segmentNz (star (seq (lit "/") segment))))
def pathNoscheme : Rule := seq segmentNzNc (star (seq (lit "/") segment))
def pathRootless : Rule := seq segmentNz (star (seq (lit "/") segment))
def pathEmpty : Rule := eps

/-! ## References -/

def query : Rule := leaving .saveQuery (entering .marku (star (oneOf [pchar, lit "/", lit "?"])))
def fragment : Rule := leaving .saveFragment (entering .marku (star (oneOf [pchar, lit "/", lit "?"])))

def hierPart : Rule :=
  oneOf [cat [lit "//", authority, leaving .savePath (entering .markh pathAbempty)], pathAbsolute, pathRootless,
    pathEmpty]

def relativePart : Rule := oneOf [cat [lit "//", authority, pathAbempty], pathAbsolute, pathNoscheme, pathEmpty]

/-- `( "?" query )? ( "#" fragment )?`. -/
def queryFragment : Rule := seq (opt (seq (lit "?") query)) (opt (seq (lit "#") fragment))

def relativeRef : Rule := seq relativePart queryFragment
def uri : Rule := cat [scheme, lit ":", hierPart, queryFragment]
def uriReference : Rule := alt uri relativeRef

end Sylar.UriParser

namespace Sylar

open Lib Http UriParser

/-- A `URI`. -/
structure Uri where
  port : UInt16
  scheme : Str
  user : Str
  host : Str
  path : Str
  query : Str
  fragment : Str
  deriving DecidableEq, Repr

namespace Uri

def init : Uri := ⟨0, [], [], [], [], [], []⟩

def getPath (uri : Uri) : Str := if uri.path.isEmpty then bytes "/" else uri.path

/-- The bytes of a string from one position to another. -/
def slice (s : Str) (m p : Nat) : Str := (s.drop m).take (p - m)

/-- The locals of `create`: `mark`, as a position in the string, and the `URI` that is being made. -/
structure Builder where
  mark : Option Nat
  uri : Uri
  deriving DecidableEq, Repr

namespace Builder

/-- An action at a position; `none` where it makes a string or a number of a null pointer. -/
def exec (s : Str) (fpc : Nat) (b : Builder) : Action → Option Builder
  | .marku | .markh => some { b with mark := some fpc }
  | .saveScheme => b.mark.map fun m => ⟨none, { b.uri with scheme := slice s m fpc }⟩
  | .savePort =>
    if b.mark = some fpc then some { b with mark := none }
    else b.mark.map fun m =>
      ⟨none, { b.uri with port := UInt16.ofNat ((atoi (s.drop m)).emod (2 ^ 16)).toNat }⟩
  | .saveUserinfo =>
    match b.mark with
    | some m => some ⟨none, { b.uri with user := slice s m fpc }⟩
    | none => some b
  | .saveHost =>
    match b.mark with
    | some m => some { b with uri := { b.uri with host := slice s m fpc } }
    | none => some b
  | .savePath => b.mark.map fun m => ⟨none, { b.uri with path := slice s m fpc }⟩
  | .saveQuery => b.mark.map fun m => ⟨none, { b.uri with query := slice s m fpc }⟩
  | .saveFragment => b.mark.map fun m => ⟨none, { b.uri with fragment := slice s m fpc }⟩

/-- A trace of actions. -/
def run (s : Str) : List (Action × Nat) → Builder → Option Builder
  | [], b => some b
  | (x, p) :: rest, b => (b.exec s p x).bind (run s rest)

end Builder

/-- `URI::create`. `none` where it throws, `some none` for a null pointer. At the end of the string the
machine is left where it is final. -/
def create (s : Str) : Option (Option Uri) :=
  let scan := Scan.scan (Ragel.step false) (fun _ => false) (Ragel.start uriReference) 0 s
  match scan.state with
  | none => (Builder.run s scan.trace ⟨none, init⟩).map fun _ => none
  | some st =>
    (Builder.run s (scan.trace ++ (Ragel.leftActions st).map (·, s.length)) ⟨none, init⟩).map fun b =>
      if Ragel.final st then some b.uri else none

end Uri

end Sylar
