import Sylar.Uri.Grammar

/-!
# RFC 3986

What `URI::create` is for: the grammar of RFC 3986, rule by rule, and the components of a reference. The
one change is the one that `uri.rl` announces: a `pchar` can be any byte that is not ascii.

The rules for addresses are over any rule for their octets, and those for references over any rule for hosts,
since `uri.rl` only differs there. The components are those of the expression that the RFC gives for taking a reference apart, and `of_text`
says that on what the grammar derives they are the parts it was derived from.
-/

namespace Sylar.Rfc3986

open Lib Lib.Ragel Http
open UriParser (Rule)

/-! ## The grammar -/

def subDelims : Rule := byte (.of "!$&'()*+,;=")
def unreserved : Rule := byte ((ByteSet.alpha.union .digit).union (.of "-._~"))
def pctEncoded : Rule := cat [lit "%", byte .xdigit, byte .xdigit]

def scheme : Rule := seq (byte .alpha) (star (byte ((ByteSet.alpha.union .digit).union (.of "+-."))))

def userinfo : Rule := star (oneOf [unreserved, pctEncoded, subDelims, lit ":"])

def decOctet : Rule :=
  oneOf [byte .digit, seq (byte (.range 0x31 0x39)) (byte .digit), seq (lit "1") (times 2 (byte .digit)),
    cat [lit "2", byte (.range 0x30 0x34), byte .digit], seq (lit "25") (byte (.range 0x30 0x35))]

def ipv4address (octet : Rule) : Rule := cat [octet, lit ".", octet, lit ".", octet, lit ".", octet]
def h16 : Rule := between 1 4 (byte .xdigit)
def ls32 (octet : Rule) : Rule := alt (cat [h16, lit ":", h16]) (ipv4address octet)
def h16Colon : Rule := seq h16 (lit ":")

/-- `[ *n( h16 ":" ) h16 ] "::"`. -/
def elided (n : Nat) : Rule := seq (opt (seq (atMost n h16Colon) h16)) (lit "::")

def ipv6address (octet : Rule) : Rule :=
  oneOf [seq (times 6 h16Colon) (ls32 octet), cat [lit "::", times 5 h16Colon, ls32 octet],
    cat [opt h16, lit "::", times 4 h16Colon, ls32 octet], cat [elided 1, times 3 h16Colon, ls32 octet],
    cat [elided 2, times 2 h16Colon, ls32 octet], cat [elided 3, times 1 h16Colon, ls32 octet],
    seq (elided 4) (ls32 octet), seq (elided 5) h16, elided 6]

/-- Strings of the RFC match in any case. -/
def ipvFuture : Rule :=
  cat [litAnyCase "v", plus (byte .xdigit), lit ".", plus (oneOf [unreserved, subDelims, lit ":"])]

def ipLiteral (octet : Rule) : Rule := cat [lit "[", alt (ipv6address octet) ipvFuture, lit "]"]
def regName : Rule := star (oneOf [unreserved, pctEncoded, subDelims])
def hostOf (octet : Rule) : Rule := oneOf [ipLiteral octet, ipv4address octet, regName]
def host : Rule := hostOf decOctet
def port : Rule := star (byte .digit)

def authority (host : Rule) : Rule :=
  cat [opt (seq userinfo (lit "@")), host, opt (seq (lit ":") port)]

def pchar : Rule := oneOf [byte (.diff .any .ascii), unreserved, pctEncoded, subDelims, lit ":", lit "@"]
def segment : Rule := star pchar
def segmentNz : Rule := plus pchar
def segmentNzNc : Rule :=
  plus (oneOf [byte (.diff .any .ascii), unreserved, pctEncoded, subDelims, lit "@"])

def pathAbempty : Rule := star (seq (lit "/") segment)
def pathAbsolute : Rule := seq (lit "/") (opt (seq segmentNz (star (seq (lit "/") segment))))
def pathNoscheme : Rule := seq segmentNzNc (star (seq (lit "/") segment))
def pathRootless : Rule := seq segmentNz (star (seq (lit "/") segment))
def pathEmpty : Rule := eps

def query : Rule := star (oneOf [pchar, lit "/", lit "?"])
def fragment : Rule := star (oneOf [pchar, lit "/", lit "?"])
def queryFragment : Rule := seq (opt (seq (lit "?") query)) (opt (seq (lit "#") fragment))

def hierPart (host : Rule) : Rule :=
  oneOf [cat [lit "//", authority host, pathAbempty], pathAbsolute, pathRootless, pathEmpty]

def relativePart (host : Rule) : Rule :=
  oneOf [cat [lit "//", authority host, pathAbempty], pathAbsolute, pathNoscheme, pathEmpty]

def uri (host : Rule) : Rule := cat [scheme, lit ":", hierPart host, queryFragment]
def relativeRef (host : Rule) : Rule := seq (relativePart host) queryFragment

/-- `URI-reference`. -/
def reference (host : Rule) : Rule := alt (uri host) (relativeRef host)

/-! ## Components -/

/-- An authority. -/
structure Authority where
  userinfo : Option Str
  host : Str
  port : Option Str
  deriving DecidableEq, Repr

/-- The components of a reference. -/
structure Parts where
  scheme : Option Str
  authority : Option Authority
  path : Str
  query : Option Str
  fragment : Option Str
  deriving DecidableEq, Repr

def colon : UInt8 := 0x3A
def slash : UInt8 := 0x2F
def question : UInt8 := 0x3F
def hash : UInt8 := 0x23
def commat : UInt8 := 0x40
def opening : UInt8 := 0x5B
def closing : UInt8 := 0x5D

/-- A component before its delimiter, and one behind it. -/
def before (c : UInt8) : Option Str → Str
  | none => []
  | some u => u ++ [c]

def behind (c : UInt8) : Option Str → Str
  | none => []
  | some u => c :: u

def Authority.text (a : Authority) : Str := before commat a.userinfo ++ (a.host ++ behind colon a.port)

/-- `"//" authority`. -/
def authorityText : Option Authority → Str
  | none => []
  | some a => slash :: slash :: a.text

def Parts.hier (p : Parts) : Str := authorityText p.authority ++ p.path

def Parts.text (p : Parts) : Str :=
  before colon p.scheme ++ (p.hier ++ (behind question p.query ++ behind hash p.fragment))

/-- What is before the first of a byte, and what is behind it. -/
def splitAt (c : UInt8) (s : Str) : Str × Option Str :=
  (s.takeWhile (· != c), (s.dropWhile (· != c)).tail?)

/-- An optional component that ends at the first of a byte, and the rest. -/
def splitOff (c : UInt8) (s : Str) : Option Str × Str :=
  match splitAt c s with
  | (u, some rest) => (some u, rest)
  | (_, none) => (none, s)

/-- The host and the port. A host that begins with a bracket goes on to the closing one. -/
def splitHost (s : Str) : Str × Option Str :=
  if s.head? = some opening then
    (s.takeWhile (· != closing) ++ [closing], (splitAt colon (s.dropWhile (· != closing))).2)
  else splitAt colon s

def Authority.of (s : Str) : Authority :=
  let (userinfo, rest) := splitOff commat s
  let (host, port) := splitHost rest
  ⟨userinfo, host, port⟩

def inScheme (c : UInt8) : Bool := c != colon && c != slash

/-- The scheme ends at the first colon, where no slash is before it. -/
def splitScheme (s : Str) : Option Str × Str :=
  match s.takeWhile inScheme, s.dropWhile inScheme with
  | name, c :: rest => if c = colon ∧ name ≠ [] then (some name, rest) else (none, s)
  | _, [] => (none, s)

def splitAuthority : Str → Option Authority × Str
  | a :: b :: s =>
    if a = slash ∧ b = slash then
      (some (.of (s.takeWhile (· != slash))), s.dropWhile (· != slash))
    else (none, a :: b :: s)
  | s => (none, s)

/-- The components of a string. -/
def Parts.of (s : Str) : Parts :=
  let (main, fragment) := splitAt hash s
  let (main, query) := splitAt question main
  let (scheme, hier) := splitScheme main
  let (authority, path) := splitAuthority hier
  ⟨scheme, authority, path, query, fragment⟩

/-! ## What the grammar derives -/

structure Authority.Valid (host : Rule) (a : Authority) : Prop where
  userinfo : ∀ u ∈ a.userinfo, u ∈ lang false Rfc3986.userinfo
  host : a.host ∈ lang false host
  port : ∀ p ∈ a.port, p ∈ lang false Rfc3986.port

/-- The rule for the path, which depends on what is before it. -/
def pathRule : Option Authority → Option Str → Rule
  | some _, _ => pathAbempty
  | none, some _ => oneOf [pathAbsolute, pathRootless, pathEmpty]
  | none, none => oneOf [pathAbsolute, pathNoscheme, pathEmpty]

structure Parts.Valid (host : Rule) (p : Parts) : Prop where
  scheme : ∀ s ∈ p.scheme, s ∈ lang false Rfc3986.scheme
  authority : ∀ a ∈ p.authority, a.Valid host
  path : p.path ∈ lang false (pathRule p.authority p.scheme)
  query : ∀ q ∈ p.query, q ∈ lang false Rfc3986.query
  fragment : ∀ f ∈ p.fragment, f ∈ lang false Rfc3986.fragment

section Words

variable {host r : Rule} {w : Str} {c : UInt8}

theorem mem_lang_behind {A : Type} {ok : Bool} {r : Ragel A} (delimiter : Ragel A)
    (one : ∀ w, w ∈ lang ok delimiter ↔ w = [c]) :
    w ∈ lang ok (opt (seq delimiter r)) ↔ ∃ o : Option Str, (∀ u ∈ o, u ∈ lang ok r) ∧ w = behind c o := by
  rw [mem_lang_opt, mem_lang_seq]
  constructor
  · rintro (rfl | ⟨d, inD, u, inR, rfl⟩)
    · exact ⟨none, by simp, rfl⟩
    · obtain rfl := (one d).mp inD
      exact ⟨some u, fun v mem => Option.some.inj mem ▸ inR, rfl⟩
  · rintro ⟨o, inside, rfl⟩
    cases o with
    | none => exact .inl rfl
    | some u => exact .inr ⟨[c], (one _).mpr rfl, u, inside u rfl, rfl⟩

theorem mem_lang_before (delimiter : Rule) (one : ∀ w, w ∈ lang false delimiter ↔ w = [c]) :
    w ∈ lang false (opt (seq r delimiter)) ↔ ∃ o : Option Str, (∀ u ∈ o, u ∈ lang false r) ∧ w = before c o := by
  rw [mem_lang_opt, mem_lang_seq]
  constructor
  · rintro (rfl | ⟨u, inR, d, inD, rfl⟩)
    · exact ⟨none, by simp, rfl⟩
    · obtain rfl := (one d).mp inD
      exact ⟨some u, fun v mem => Option.some.inj mem ▸ inR, rfl⟩
  · rintro ⟨o, inside, rfl⟩
    cases o with
    | none => exact .inl rfl
    | some u => exact .inr ⟨u, inside u rfl, [c], (one _).mpr rfl, rfl⟩

theorem mem_lang_authority : w ∈ lang false (authority host) ↔ ∃ a : Authority, a.Valid host ∧ w = a.text := by
  rw [authority, cat, cat, cat, mem_lang_seq]
  simp only [mem_lang_seq, mem_lang_before (lit "@") fun _ => mem_lang_lit "@",
    mem_lang_behind (lit ":") fun _ => mem_lang_lit ":"]
  constructor
  · rintro ⟨_, ⟨userinfo, inU, rfl⟩, _, ⟨h, inH, _, ⟨port, inP, rfl⟩, rfl⟩, rfl⟩
    exact ⟨⟨userinfo, h, port⟩, ⟨inU, inH, inP⟩, rfl⟩
  · rintro ⟨a, valid, rfl⟩
    exact ⟨_, ⟨a.userinfo, valid.userinfo, rfl⟩, _, ⟨a.host, valid.host, _, ⟨a.port, valid.port, rfl⟩, rfl⟩, rfl⟩

theorem mem_lang_queryFragment : w ∈ lang false queryFragment ↔ ∃ q f : Option Str,
    (∀ u ∈ q, u ∈ lang false query) ∧ (∀ u ∈ f, u ∈ lang false fragment) ∧
      w = behind question q ++ behind hash f := by
  rw [queryFragment, mem_lang_seq]
  simp only [mem_lang_behind (lit "?") fun _ => mem_lang_lit "?", mem_lang_behind (lit "#") fun _ => mem_lang_lit "#"]
  constructor
  · rintro ⟨_, ⟨q, inQ, rfl⟩, _, ⟨f, inF, rfl⟩, rfl⟩
    exact ⟨q, f, inQ, inF, rfl⟩
  · rintro ⟨q, f, inQ, inF, rfl⟩
    exact ⟨_, ⟨q, inQ, rfl⟩, _, ⟨f, inF, rfl⟩, rfl⟩

/-- `"//" authority path-abempty`, or a path that stands alone. -/
theorem mem_lang_hier : w ∈ lang false (alt (cat [lit "//", authority host, pathAbempty]) r) ↔
    (∃ a : Authority, a.Valid host ∧ ∃ path ∈ lang false pathAbempty, w = authorityText (some a) ++ path) ∨
      w ∈ lang false r := by
  rw [mem_lang_alt, cat, cat, cat, mem_lang_seq]
  simp only [mem_lang_seq, mem_lang_lit, mem_lang_authority, exists_eq_left]
  refine or_congr ?_ Iff.rfl
  constructor
  · rintro ⟨_, ⟨_, ⟨a, valid, rfl⟩, path, inP, rfl⟩, rfl⟩
    exact ⟨a, valid, path, inP, rfl⟩
  · rintro ⟨a, valid, path, inP, rfl⟩
    exact ⟨_, ⟨_, ⟨a, valid, rfl⟩, path, inP, rfl⟩, rfl⟩

/-- The grammar derives the texts of valid components. -/
theorem mem_lang_reference (host : Rule) (s : Str) :
    s ∈ lang false (reference host) ↔ ∃ p : Parts, p.Valid host ∧ p.text = s := by
  rw [reference, mem_lang_alt, uri, relativeRef, cat, cat, cat, cat]
  simp only [mem_lang_seq, mem_lang_lit, mem_lang_queryFragment]
  constructor
  · rintro (⟨name, inS, _, ⟨_, rfl, _, ⟨h, inH, _, ⟨q, f, inQ, inF, rfl⟩, rfl⟩, rfl⟩, rfl⟩ |
      ⟨h, inH, _, ⟨q, f, inQ, inF, rfl⟩, rfl⟩)
    · have isScheme : ∀ s ∈ some name, s ∈ lang false scheme := fun s mem => Option.some.inj mem ▸ inS
      rcases mem_lang_hier.mp inH with ⟨a, valid, path, inP, rfl⟩ | inP
      · refine ⟨⟨some name, some a, path, q, f⟩, ⟨isScheme, fun b mem => Option.some.inj mem ▸ valid, inP, inQ, inF⟩, ?_⟩
        simp [Parts.text, Parts.hier, before, colon]
      · refine ⟨⟨some name, none, h, q, f⟩, ⟨isScheme, by simp, inP, inQ, inF⟩, ?_⟩
        simp [Parts.text, Parts.hier, before, colon, authorityText]
    · have noScheme : ∀ s ∈ (none : Option Str), s ∈ lang false scheme := by simp
      rcases mem_lang_hier.mp inH with ⟨a, valid, path, inP, rfl⟩ | inP
      · exact ⟨⟨none, some a, path, q, f⟩, ⟨noScheme, fun b mem => Option.some.inj mem ▸ valid, inP, inQ, inF⟩, rfl⟩
      · exact ⟨⟨none, none, h, q, f⟩, ⟨noScheme, by simp, inP, inQ, inF⟩, rfl⟩
  · rintro ⟨⟨name, a, path, q, f⟩, valid, rfl⟩
    have tail : ∃ q' f' : Option Str, (∀ u ∈ q', u ∈ lang false query) ∧ (∀ u ∈ f', u ∈ lang false fragment) ∧
        behind question q ++ behind hash f = behind question q' ++ behind hash f' :=
      ⟨q, f, valid.query, valid.fragment, rfl⟩
    have inPath := valid.path
    cases name with
    | none =>
      refine .inr ⟨_, mem_lang_hier.mpr ?_, _, tail, rfl⟩
      cases a with
      | none => exact .inr inPath
      | some a => exact .inl ⟨a, valid.authority a rfl, path, inPath, rfl⟩
    | some name =>
      refine .inl ⟨name, valid.scheme name rfl, _, ⟨_, rfl, _, ⟨authorityText a ++ path, mem_lang_hier.mpr ?_, _, tail,
        rfl⟩, rfl⟩, ?_⟩
      · cases a with
        | none => exact .inr inPath
        | some a => exact .inl ⟨a, valid.authority a rfl, path, inPath, rfl⟩
      · simp [Parts.text, Parts.hier, before, colon]

end Words

/-! ## Taking a reference apart -/

/-- No byte of the word is in the set. -/
def Free (set : ByteSet) (w : Str) : Prop := ∀ c ∈ w, set.mem c = false

namespace Free

variable {set : ByteSet} {w u v : Str} {c : UInt8} {r : Rule}

theorem of_mem_lang (isPlain : r.plain = true) (apart : r.uses.disjoint set = true) (inside : w ∈ lang false r) :
    Free set w :=
  fun c mem => ByteSet.not_mem_of_disjoint apart (mem_uses_of_mem_lang isPlain inside c mem)

theorem not_mem (free : Free set w) (here : set.mem c = true) : c ∉ w := by
  intro mem
  rw [free c mem] at here
  cases here

theorem mono {set' : ByteSet} (free : Free set w) (le : set'.subset set = true) : Free set' w := by
  intro c mem
  cases here : set'.mem c with
  | false => rfl
  | true =>
    have fails := free c mem
    rw [ByteSet.mem_of_subset le here] at fails
    cases fails

theorem nil : Free set [] := by
  intro c mem
  cases mem

theorem cons (not : set.mem c = false) (free : Free set w) : Free set (c :: w) := by
  intro d mem
  rcases List.mem_cons.mp mem with rfl | mem
  · exact not
  · exact free d mem

theorem append (first : Free set u) (second : Free set v) : Free set (u ++ v) := by
  intro c mem
  rcases List.mem_append.mp mem with mem | mem
  · exact first c mem
  · exact second c mem

theorem before {o : Option Str} (not : set.mem c = false) (free : ∀ u ∈ o, Free set u) : Free set (before c o) := by
  cases o with
  | none => exact nil
  | some u => exact (free u rfl).append (nil.cons not)

theorem behind {o : Option Str} (not : set.mem c = false) (free : ∀ u ∈ o, Free set u) : Free set (behind c o) := by
  cases o with
  | none => exact nil
  | some u => exact (free u rfl).cons not

end Free

/-- A host as the delimiters see it: without any of them, or in brackets. -/
def HostLike (h : Str) : Prop :=
  Free (.of ":/?#@[]") h ∨ ∃ b, h = opening :: (b ++ [closing]) ∧ Free (.of "/?#@[]") b

theorem HostLike.free {h : Str} (like : HostLike h) : Free (.of "/?#@") h := by
  rcases like with free | ⟨b, rfl, free⟩
  · exact free.mono (by decide)
  · exact Free.cons (by decide) ((free.mono (by decide)).append (Free.nil.cons (by decide)))

/-- A rule for hosts that are in brackets or have no delimiters. -/
theorem hostLike_of_mem_lang (literal name : Rule) {h : Str} (plainL : literal.plain = true)
    (plainN : name.plain = true) (apartL : literal.uses.disjoint (.of "/?#@[]") = true)
    (apartN : name.uses.disjoint (.of ":/?#@[]") = true)
    (inside : h ∈ lang false (alt (cat [lit "[", literal, lit "]"]) name)) : HostLike h := by
  rcases mem_lang_alt.mp inside with inside | inside
  · rw [cat, cat, cat, mem_lang_seq] at inside
    obtain ⟨_, first, _, rest, rfl⟩ := inside
    obtain ⟨b, inB, _, last, rfl⟩ := mem_lang_seq.mp rest
    obtain rfl := (mem_lang_lit "[").mp first
    obtain rfl := (mem_lang_lit "]").mp last
    exact .inr ⟨b, rfl, .of_mem_lang plainL apartL inB⟩
  · exact .inl (.of_mem_lang plainN apartN inside)

section Split

variable {c : UInt8} {u w rest : Str}

theorem splitAt_behind (not : c ∉ u) (o : Option Str) : splitAt c (u ++ behind c o) = (u, o) := by
  have all : ∀ d ∈ u, (d != c) = true := fun d mem => bne_iff_ne.mpr fun eq => not (eq ▸ mem)
  have stop : ∀ d z, behind c o = d :: z → (d != c) = false := by
    intro d z eq
    cases o with
    | none => cases eq
    | some v =>
      obtain ⟨rfl, -⟩ := List.cons.inj eq
      exact bne_self_eq_false c
  obtain ⟨first, second⟩ := takeWhile_dropWhile_append all stop
  rw [splitAt, first, second]
  cases o with
  | none => rfl
  | some v => rfl

theorem exists_splitAt (c : UInt8) (s : Str) : ∃ u o, c ∉ u ∧ s = u ++ behind c o := by
  induction s with
  | nil => exact ⟨[], none, List.not_mem_nil, rfl⟩
  | cons d s ih =>
    by_cases here : d = c
    · exact ⟨[], some s, List.not_mem_nil, congrArg (· :: s) here⟩
    · obtain ⟨u, o, not, rfl⟩ := ih
      refine ⟨d :: u, o, fun mem => ?_, rfl⟩
      rcases List.mem_cons.mp mem with eq | mem
      · exact here eq.symm
      · exact not mem

theorem splitOff_before {o : Option Str} (not : ∀ u ∈ o, c ∉ u) (notRest : c ∉ w) :
    splitOff c (before c o ++ w) = (o, w) := by
  cases o with
  | none =>
    have split := splitAt_behind notRest none
    rw [behind, List.append_nil] at split
    rw [before, List.nil_append, splitOff, split]
  | some u =>
    have split := splitAt_behind (not u rfl) (some w)
    rw [before, splitOff, List.append_assoc]
    rw [behind] at split
    rw [List.singleton_append, split]

theorem splitHost_behind {h : Str} (like : HostLike h) (port : Option Str) :
    splitHost (h ++ behind colon port) = (h, port) := by
  rcases like with free | ⟨b, rfl, free⟩
  · have head : (h ++ behind colon port).head? ≠ some opening := by
      cases h with
      | nil => cases port <;> simp [behind, colon, opening]
      | cons d h =>
        intro eq
        obtain rfl := Option.some.inj eq
        exact absurd (free opening List.mem_cons_self) (by decide)
    rw [splitHost, if_neg head]
    exact splitAt_behind (free.not_mem (by decide)) port
  · have all : ∀ d ∈ opening :: b, (d != closing) = true := by
      intro d mem
      rcases List.mem_cons.mp mem with rfl | mem
      · decide
      · refine bne_iff_ne.mpr fun eq => ?_
        exact free.not_mem (c := closing) (by decide) (eq ▸ mem)
    have stop : ∀ d z, closing :: behind colon port = d :: z → (d != closing) = false := by
      intro d z eq
      obtain ⟨rfl, -⟩ := List.cons.inj eq
      rfl
    obtain ⟨first, second⟩ := takeWhile_dropWhile_append all stop
    have shape : opening :: (b ++ [closing]) ++ behind colon port =
        (opening :: b) ++ closing :: behind colon port := by simp
    have split := splitAt_behind (c := colon) (u := [closing]) (by decide) port
    have head : ((opening :: b) ++ closing :: behind colon port).head? = some opening := rfl
    rw [splitHost, shape, if_pos head, first, second]
    rw [List.singleton_append] at split
    rw [split, List.cons_append]

theorem splitScheme_some (some : u ≠ []) (all : ∀ c ∈ u, inScheme c = true) (rest : Str) :
    splitScheme (u ++ colon :: rest) = (Option.some u, rest) := by
  have stop : ∀ d z, colon :: rest = d :: z → inScheme d = false := by
    intro d z eq
    obtain ⟨rfl, -⟩ := List.cons.inj eq
    rfl
  obtain ⟨first, second⟩ := takeWhile_dropWhile_append all stop
  rw [splitScheme, first, second]
  exact if_pos ⟨rfl, some⟩

theorem splitScheme_none (all : ∀ c ∈ u, inScheme c = true) (stop : ∀ d z, rest = d :: z → d = slash) :
    splitScheme (u ++ rest) = (none, u ++ rest) := by
  obtain ⟨first, second⟩ := takeWhile_dropWhile_append all fun d z eq => by
    rw [stop d z eq]
    rfl
  rw [splitScheme, first, second]
  cases rest with
  | nil => rfl
  | cons d z =>
    refine if_neg fun both => ?_
    rw [stop d z rfl] at both
    exact absurd both.1 (by decide)

theorem splitAuthority_some (all : slash ∉ u) (stop : ∀ d z, rest = d :: z → d = slash) :
    splitAuthority (slash :: slash :: (u ++ rest)) = (some (.of u), rest) := by
  have inside : ∀ d ∈ u, (d != slash) = true := fun d mem => bne_iff_ne.mpr fun eq => all (eq ▸ mem)
  have outside : ∀ d z, rest = d :: z → (d != slash) = false := by
    intro d z eq
    rw [stop d z eq]
    rfl
  obtain ⟨first, second⟩ := takeWhile_dropWhile_append inside outside
  rw [splitAuthority, if_pos ⟨rfl, rfl⟩, first, second]

theorem splitAuthority_none (alone : ∀ z, w ≠ slash :: slash :: z) : splitAuthority w = (none, w) := by
  cases w with
  | nil => rfl
  | cons a w =>
    cases w with
    | nil => rfl
    | cons b w =>
      refine if_neg fun both => ?_
      obtain ⟨rfl, rfl⟩ := both
      exact alone w rfl

end Split

section Valid

variable {host : Rule} {s path : Str}

theorem Authority.Valid.free {a : Authority} (valid : a.Valid host) (like : HostLike a.host) :
    Free (.of "/?#") a.text := by
  refine .append (.before (by decide) fun u mem => ?_) (.append ?_ (.behind (by decide) fun p mem => ?_))
  · exact .of_mem_lang (by decide) (by decide) (valid.userinfo u mem)
  · exact like.free.mono (by decide)
  · exact .of_mem_lang (by decide) (by decide) (valid.port p mem)

theorem Authority.of_text {a : Authority} (valid : a.Valid host) (like : HostLike a.host) :
    Authority.of a.text = a := by
  have noUser : ∀ u ∈ a.userinfo, commat ∉ u := fun u mem =>
    not_mem_of_mem_lang (by decide) (by decide) (valid.userinfo u mem)
  have noRest : commat ∉ a.host ++ behind colon a.port := by
    have free : Free (.of "@") (a.host ++ behind colon a.port) :=
      (like.free.mono (by decide)).append (.behind (by decide) fun p mem =>
        .of_mem_lang (by decide) (by decide) (valid.port p mem))
    exact free.not_mem (by decide)
  rw [Authority.of, Authority.text, splitOff_before noUser noRest]
  dsimp only
  rw [splitHost_behind like]

/-- What follows an authority is empty or begins with a slash. -/
theorem head_pathAbempty (inside : path ∈ lang false pathAbempty) : ∀ c z, path = c :: z → c = slash := by
  rintro c z rfl
  have start := mem_startSet_of_mem_lang (by decide) inside
  exact (ByteSet.mem_single slash c).mp start

/-- A path without an authority does not begin with two slashes. -/
theorem path_alone {r : Rule} (isPlain : r.plain = true) (start : r.startSet.mem slash = false)
    (inside : path ∈ lang false (oneOf [pathAbsolute, r, pathEmpty])) : ∀ z, path ≠ slash :: slash :: z := by
  rintro z rfl
  rw [oneOf, oneOf, oneOf, mem_lang_alt, mem_lang_alt] at inside
  rcases inside with inside | inside | inside
  · rw [pathAbsolute, mem_lang_seq] at inside
    obtain ⟨_, first, rest, inRest, eq⟩ := inside
    obtain rfl := (mem_lang_lit "/").mp first
    obtain rfl : slash :: z = rest := (List.cons.inj eq).2
    rcases mem_lang_opt.mp inRest with none | inRest
    · cases none
    · exact absurd (mem_startSet_of_mem_lang (by decide) inRest) (by decide)
  · rw [mem_startSet_of_mem_lang isPlain inside] at start
    cases start
  · rw [pathEmpty, lang_eps, Language.mem_one] at inside
    cases inside

/-- A path without a scheme and an authority is a segment without a colon, and what follows its slash. -/
theorem path_segment (inside : path ∈ lang false (oneOf [pathAbsolute, pathNoscheme, pathEmpty])) :
    ∃ u rest : Str, path = u ++ rest ∧ (∀ c ∈ u, inScheme c = true) ∧ ∀ c z, rest = c :: z → c = slash := by
  rw [oneOf, oneOf, oneOf, mem_lang_alt, mem_lang_alt] at inside
  rcases inside with inside | inside | inside
  · rw [pathAbsolute, mem_lang_seq] at inside
    obtain ⟨_, first, rest, -, rfl⟩ := inside
    obtain rfl := (mem_lang_lit "/").mp first
    refine ⟨[], _, rfl, by simp, fun c z eq => ?_⟩
    exact (List.cons.inj eq).1.symm
  · rw [pathNoscheme, mem_lang_seq] at inside
    obtain ⟨u, inU, rest, inRest, rfl⟩ := inside
    refine ⟨u, rest, rfl, fun c mem => ?_, head_pathAbempty inRest⟩
    have free : Free (.of ":/") u := .of_mem_lang (by decide) (by decide) inU
    have notColon : c ≠ colon := fun eq => free.not_mem (by decide) (eq ▸ mem)
    have notSlash : c ≠ slash := fun eq => free.not_mem (by decide) (eq ▸ mem)
    simp [inScheme, notColon, notSlash]
  · rw [pathEmpty, lang_eps, Language.mem_one] at inside
    exact ⟨[], [], inside, by simp, by simp⟩

variable {p : Parts}

theorem Parts.Valid.free_path (valid : p.Valid host) : Free (.of "?#") p.path := by
  have inside := valid.path
  revert inside
  cases p.authority with
  | some a => exact .of_mem_lang (r := pathAbempty) (by decide) (by decide)
  | none =>
    cases p.scheme with
    | some s => exact .of_mem_lang (r := oneOf [pathAbsolute, pathRootless, pathEmpty]) (by decide) (by decide)
    | none => exact .of_mem_lang (by decide) (by decide)

theorem Parts.Valid.free_hier (valid : p.Valid host) (like : ∀ a ∈ p.authority, HostLike a.host) :
    Free (.of "?#") p.hier := by
  refine .append ?_ valid.free_path
  cases eq : p.authority with
  | none => exact .nil
  | some a =>
    exact .cons (by decide) (.cons (by decide) (((valid.authority a eq).free (like a eq)).mono (by decide)))

theorem inScheme_of_mem_lang (inside : s ∈ lang false scheme) : s ≠ [] ∧ ∀ c ∈ s, inScheme c = true := by
  constructor
  · rintro rfl
    exact absurd (nil_mem_lang.mp inside) (by decide)
  · intro c mem
    have free : Free (.of ":/") s := .of_mem_lang (by decide) (by decide) inside
    have notColon : c ≠ colon := fun eq => free.not_mem (by decide) (eq ▸ mem)
    have notSlash : c ≠ slash := fun eq => free.not_mem (by decide) (eq ▸ mem)
    simp [inScheme, notColon, notSlash]

theorem Parts.Valid.splitScheme (valid : p.Valid host) :
    splitScheme (before colon p.scheme ++ p.hier) = (p.scheme, p.hier) := by
  have inside := valid.path
  have isScheme := valid.scheme
  revert inside isScheme
  rw [Parts.hier]
  cases p.scheme with
  | some s =>
    intro _ isScheme
    obtain ⟨some, all⟩ := inScheme_of_mem_lang (isScheme s rfl)
    rw [before, List.append_assoc]
    exact splitScheme_some some all _
  | none =>
    intro inside _
    rw [before, List.nil_append]
    cases eq : p.authority with
    | some a => exact splitScheme_none (u := []) (by simp) fun c z eq => (List.cons.inj eq).1.symm
    | none =>
      rw [eq] at inside
      obtain ⟨u, rest, split, all, stop⟩ := path_segment inside
      rw [split, authorityText, List.nil_append]
      exact splitScheme_none all stop

theorem Parts.Valid.splitAuthority (valid : p.Valid host) (like : ∀ a ∈ p.authority, HostLike a.host) :
    splitAuthority p.hier = (p.authority, p.path) := by
  have inside := valid.path
  revert inside
  rw [Parts.hier]
  cases eq : p.authority with
  | some a =>
    intro inside
    have isValid := valid.authority a eq
    have free := isValid.free (like a eq)
    rw [authorityText, List.cons_append, List.cons_append, splitAuthority_some (free.not_mem (by decide))
      (head_pathAbempty inside), Authority.of_text isValid (like a eq)]
  | none =>
    rw [authorityText, List.nil_append]
    cases p.scheme with
    | some s => exact fun inside => splitAuthority_none (path_alone (by decide) (by decide) inside)
    | none => exact fun inside => splitAuthority_none (path_alone (by decide) (by decide) inside)

/-- The components of a text that the grammar derives are the parts it was derived from. -/
theorem Parts.of_text (valid : p.Valid host) (like : ∀ a ∈ p.authority, HostLike a.host) :
    Parts.of p.text = p := by
  have main : Free (.of "?#") (before colon p.scheme ++ p.hier) :=
    .append (.before (by decide) fun s mem => .of_mem_lang (by decide) (by decide) (valid.scheme s mem))
      (valid.free_hier like)
  have upTo : Free (.of "#") ((before colon p.scheme ++ p.hier) ++ behind question p.query) :=
    (main.mono (by decide)).append (.behind (by decide) fun q mem =>
      .of_mem_lang (by decide) (by decide) (valid.query q mem))
  have shape : p.text = ((before colon p.scheme ++ p.hier) ++ behind question p.query) ++ behind hash p.fragment := by
    simp [Parts.text]
  rw [Parts.of, shape, splitAt_behind (upTo.not_mem (by decide))]
  dsimp only
  rw [splitAt_behind (main.not_mem (by decide))]
  dsimp only
  rw [valid.splitScheme]
  dsimp only
  rw [valid.splitAuthority like]

end Valid

end Sylar.Rfc3986
