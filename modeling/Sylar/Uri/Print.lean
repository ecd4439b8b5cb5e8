import Sylar.Uri.Create
import Sylar.Http.Decimal

/-!
# Printing a `URI` and reading it again

`to_string` prints a normal form: a port that is zero or the default of the scheme is left out, an empty path
is printed as `/`, and an empty query or fragment is dropped with its delimiter. `printed` is that form as the
components of a reference. It is a reference of the grammar wherever the `URI` came from one that has a scheme
and an authority without a userinfo, and `create` makes of it a `URI` with the same getters, which prints the
same (`print_stable`).
-/

namespace Sylar.Uri

open Lib Lib.Ragel Http UriParser
open Rfc3986 (Authority Parts behind before colon slash question hash)

/-! ## The printer -/

def isDefaultPort (uri : Uri) : Bool :=
  if uri.port = 0 then true
  else if uri.scheme = bytes "http" ∨ uri.scheme = bytes "ws" then uri.port == 80
  else if uri.scheme = bytes "https" ∨ uri.scheme = bytes "wss" then uri.port == 443
  else false

def getPort (uri : Uri) : UInt16 :=
  if uri.port ≠ 0 then uri.port
  else if uri.scheme = bytes "http" ∨ uri.scheme = bytes "ws" then 80
  else if uri.scheme = bytes "https" ∨ uri.scheme = bytes "wss" then 443
  else uri.port

/-- `to_string`, which is `operator<<`. -/
def toString (uri : Uri) : Str :=
  uri.scheme ++ (bytes "://" ++ (uri.user ++ ((if uri.user.isEmpty then [] else bytes "@") ++ (uri.host ++
    ((if uri.isDefaultPort then [] else bytes ":" ++ bytes (ToString.toString uri.port.toNat)) ++ (uri.getPath ++
      ((if uri.query.isEmpty then [] else bytes "?") ++ (uri.query ++
        ((if uri.fragment.isEmpty then [] else bytes "#") ++ uri.fragment)))))))))

/-- A component that is left out where it is empty. -/
def unlessEmpty (s : Str) : Option Str := if s.isEmpty then none else some s

/-- A port in decimal. -/
def portText (port : UInt16) : Str := bytes (ToString.toString port.toNat)

/-- The port that is printed. -/
def printedPort (uri : Uri) : Option UInt16 := if uri.isDefaultPort then none else some uri.port

/-- The components that are printed of a `URI` without a user. -/
def printed (uri : Uri) : Parts where
  scheme := some uri.scheme
  authority := some ⟨none, uri.host, uri.printedPort.map portText⟩
  path := uri.getPath
  query := unlessEmpty uri.query
  fragment := unlessEmpty uri.fragment

theorem behind_unlessEmpty (c : UInt8) (s : Str) :
    behind c (unlessEmpty s) = (if s.isEmpty then [] else [c]) ++ s := by
  unfold unlessEmpty
  cases s with
  | nil => rfl
  | cons b s => rfl

theorem toString_eq {uri : Uri} (anonymous : uri.user = []) : uri.toString = uri.printed.text := by
  have port : behind colon (uri.printedPort.map portText) =
      if uri.isDefaultPort then [] else bytes ":" ++ bytes (ToString.toString uri.port.toNat) := by
    unfold printedPort
    split
    · rfl
    · rfl
  unfold toString
  rw [anonymous, Parts.text, printed, Parts.hier, Rfc3986.authorityText, Authority.text, behind_unlessEmpty,
    behind_unlessEmpty, port]
  simp only [before, List.append_assoc, List.nil_append, List.cons_append, List.isEmpty_nil, if_true]
  rfl

/-! ## Reading the printed form -/

theorem readPort_portText (port : UInt16) (z : Str) : readPort (portText port ++ slash :: z) = port := by
  have small := port.toNat_lt
  have stop : ∀ c w, slash :: z = c :: w → inNumber c = false := by
    intro c w eq
    rw [← (List.cons.inj eq).1]
    decide
  have value : atoi (portText port ++ slash :: z) = port.toNat := atoi_toString (by omega) stop
  rw [readPort, value]
  have same : ((port.toNat : Int).emod (2 ^ 16)).toNat = port.toNat := by
    show ((port.toNat : Int) % 2 ^ 16).toNat = port.toNat
    omega
  rw [same]
  exact UInt16.ofNat_toNat

section Exact

variable {n m : Nat} {h z : Str}

theorem exact_portPath (port : UInt16) :
    Exact (optionEvents n .markh .savePort (some (portText port)) ++ (pathEvents m (slash :: z)).map
      (Event.shift (behind colon (some (portText port))).length)) (behind colon (some (portText port)) ++ slash :: z)
      fun uri => { uri with port := port, path := slash :: z } := by
  refine ⟨within_append (effect_port _).within (within_path _), fun pre rest b => ⟨none, ?_⟩⟩
  have some : portText port ≠ [] := bytes_toString_ne_nil port.toNat
  rw [run_portPath some, List.cons_append, readPort_portText]

theorem exact_hier (port : Option UInt16) :
    Exact (hostEvents n h (port.map portText) ++ (pathEvents m (slash :: z)).map
      (Event.shift (h ++ behind colon (port.map portText)).length)) ((h ++ behind colon (port.map portText)) ++ slash :: z)
      fun uri => { uri with host := h, path := slash :: z, port := port.getD uri.port } := by
  cases port with
  | none =>
    have exact := exact_hostPath (n := n) (m := m) h (slash :: z)
    rw [hostEvents_append, Option.map_none, behind, List.append_nil]
    simp only [optionEvents, List.length_nil, List.nil_append, map_shift_shift, Nat.add_zero]
    exact exact
  | some port =>
    rw [hostEvents_append, List.append_assoc]
    exact (exact_hostOnly h).append (exact_portPath port) (apart_of_pos (effect_hostOnly h).within pos_portPath)

/-- What is made of a reference with a scheme, a host, a port and a path, the port included. -/
theorem exact_named (name : Str) (port : Option UInt16) (q f : Option Str) :
    Exact (referenceEvents ⟨some name, some ⟨none, h, port.map portText⟩, slash :: z, q, f⟩)
      (Parts.text ⟨some name, some ⟨none, h, port.map portText⟩, slash :: z, q, f⟩) fun uri =>
        saveRest q f { uri with scheme := name, host := h, path := slash :: z, port := port.getD uri.port } := by
  have authority : Exact (authorityEvents 2 ⟨none, h, port.map portText⟩ ++
      (pathEvents 8 (slash :: z)).map (Event.shift (Authority.text ⟨none, h, port.map portText⟩).length))
      (Authority.text ⟨none, h, port.map portText⟩ ++ slash :: z)
      fun uri => { uri with host := h, path := slash :: z, port := port.getD uri.port } := by
    rw [authorityEvents_append]
    exact (exact_hier port).twice
  have hier := authority.after [slash, slash]
  have rest := exact_queryFragment (n := 10) q f
  have tail := hier.append rest (apart_of_pos hier.within (pos_queryFragment q f))
  have whole := (exact_scheme name).append (tail.after [colon]) (apart_of_pos (effect_scheme name).within pos_after)
  rw [text_named rfl]
  exact whole

end Exact

/-! ## Stability -/

section Stable

variable {uri : Uri}

theorem getPath_cons {path : Str} (inside : path ∈ lang false Rfc3986.pathAbempty) (eq : uri.path = path) :
    ∃ z, uri.getPath = slash :: z := by
  unfold getPath
  rw [eq]
  cases path with
  | nil => exact ⟨[], rfl⟩
  | cons c z =>
    rw [Rfc3986.head_pathAbempty inside c z rfl]
    exact ⟨z, rfl⟩

theorem slash_mem : bytes "/" ∈ lang false Rfc3986.pathAbempty := by
  have segment : ([] : Str) ∈ lang false Rfc3986.segment := by
    rw [Rfc3986.segment, lang_star]
    exact Language.nil_mem_kstar _
  apply mem_lang_star_of_bytes
  intro c mem
  rw [List.mem_singleton.mp mem]
  exact mem_lang_seq.mpr ⟨_, (mem_lang_lit "/").mpr rfl, [], segment, rfl⟩

theorem unlessEmpty_getD {o : Option Str} {s : Str} (eq : unlessEmpty (o.getD []) = some s) : o = some s := by
  unfold unlessEmpty at eq
  cases o with
  | none => cases eq
  | some t =>
    rw [Option.getD_some] at eq
    split at eq
    · cases eq
    · exact eq

/-- The printed form of what was made of a reference is a reference. -/
theorem printed_valid {p : Parts} {name : Str} {a : Authority} {n : UInt16} (valid : p.Valid UriParser.host)
    (named : p.scheme = some name) (here : p.authority = some a) :
    (printed { built p with port := n }).Valid UriParser.host := by
  have path : p.path ∈ lang false Rfc3986.pathAbempty := by
    have inside := valid.path
    rw [here] at inside
    exact inside
  constructor
  case scheme =>
    intro s eq
    cases eq
    rw [built, named]
    exact valid.scheme name named
  case authority =>
    intro b eq
    cases eq
    constructor
    case userinfo =>
      intro u none
      cases none
    case host =>
      rw [built, here]
      exact (valid.authority a here).host
    case port =>
      intro t eq
      obtain ⟨port, -, rfl⟩ := Option.map_eq_some_iff.mp eq
      apply mem_lang_star_of_bytes
      intro c mem
      obtain ⟨d, small, rfl⟩ := isDigits_toString port.toNat c mem
      exact mem_lang_byte.mpr ⟨_, rfl, (digit_facts d small).2.2.2.1⟩
  case path =>
    show getPath _ ∈ lang false Rfc3986.pathAbempty
    rw [getPath, built, named, here]
    simp only [Option.isSome_some, Bool.and_self, if_true]
    split
    · exact slash_mem
    · exact path
  case query =>
    intro q eq
    have some : p.query = some q := unlessEmpty_getD eq
    exact valid.query q some
  case fragment =>
    intro f eq
    exact valid.fragment f (unlessEmpty_getD eq)

/-- What is made of a printed `URI`. -/
def normal (uri : Uri) : Uri := { uri with port := uri.printedPort.getD 0, path := uri.getPath }

theorem getD_unlessEmpty (s : Str) : (unlessEmpty s).getD [] = s := by
  unfold unlessEmpty
  cases s with
  | nil => rfl
  | cons c s => rfl

theorem create_printed (valid : uri.printed.Valid UriParser.host) (anonymous : uri.user = []) {z : Str}
    (path : uri.getPath = slash :: z) : create uri.toString = some (some uri.normal) := by
  rw [toString_eq anonymous, create_eq valid, printed, path]
  obtain ⟨mark, run⟩ := (exact_named (h := uri.host) (z := z) uri.scheme uri.printedPort (unlessEmpty uri.query)
    (unlessEmpty uri.fragment)).runs [] [] ⟨none, init⟩
  rw [List.append_nil, List.nil_append, List.length_nil, map_shift_zero] at run
  rw [run, normal, path]
  simp only [Option.map_some, saveRest, init, getD_unlessEmpty, anonymous]

theorem getPath_ne_nil : uri.getPath ≠ [] := by
  unfold getPath
  split
  · decide
  · rename_i some
    exact fun none => some (List.isEmpty_iff.mpr none)

theorem normal_getPath : uri.normal.getPath = uri.getPath := by
  have some : ¬ uri.getPath.isEmpty = true := fun none => getPath_ne_nil (List.isEmpty_iff.mp none)
  rw [getPath, normal, if_neg some]

/-- A default port is printed as none, and none is a default port. -/
theorem normal_isDefaultPort : uri.normal.isDefaultPort = uri.isDefaultPort := by
  cases default : uri.isDefaultPort with
  | true => rw [isDefaultPort, normal, printedPort, default]; rfl
  | false =>
    have same : uri.normal.port = uri.port := by rw [normal, printedPort, default]; rfl
    rw [← default, isDefaultPort, isDefaultPort, same]
    rfl

theorem normal_getPort : uri.normal.getPort = uri.getPort := by
  cases default : uri.isDefaultPort with
  | false =>
    have same : uri.normal.port = uri.port := by rw [normal, printedPort, default]; rfl
    rw [getPort, getPort, same]
    rfl
  | true =>
    have none : uri.normal.port = 0 := by rw [normal, printedPort, default]; rfl
    have scheme : uri.normal.scheme = uri.scheme := rfl
    rw [getPort, getPort, none, scheme]
    unfold isDefaultPort at default
    by_cases zero : uri.port = 0
    · rw [zero]
    · rw [if_neg zero] at default
      rw [if_neg (by decide), if_pos zero]
      split at default
      · rename_i http
        rw [if_pos http]
        exact (beq_iff_eq.mp default).symm
      · rename_i other
        rw [if_neg other]
        split at default
        · rename_i https
          rw [if_pos https]
          exact (beq_iff_eq.mp default).symm
        · cases default

theorem normal_toString : uri.normal.toString = uri.toString := by
  have port : (if uri.normal.isDefaultPort then [] else
      bytes ":" ++ bytes (ToString.toString uri.normal.port.toNat)) =
      if uri.isDefaultPort then [] else bytes ":" ++ bytes (ToString.toString uri.port.toNat) := by
    rw [normal_isDefaultPort]
    split
    · rfl
    · rename_i other
      rw [normal, printedPort, if_neg other]
      rfl
  unfold toString
  rw [port, normal_getPath]
  rfl

/-- The getters return the same. -/
structure SameGetters (uri again : Uri) : Prop where
  scheme : again.scheme = uri.scheme
  user : again.user = uri.user
  host : again.host = uri.host
  port : again.getPort = uri.getPort
  path : again.getPath = uri.getPath
  query : again.query = uri.query
  fragment : again.fragment = uri.fragment

/-- For every string that `create` accepts, with a scheme and an authority without a userinfo: the printed `URI`
is accepted again, the getters return the same, and it prints the same. -/
theorem print_stable {s : Str} (accepted : create s = some (some uri)) {name : Str} {a : Authority}
    (named : (Parts.of s).scheme = some name) (here : (Parts.of s).authority = some a)
    (anonymous : a.userinfo = none) :
    ∃ again, create uri.toString = some (some again) ∧ SameGetters uri again ∧ again.toString = uri.toString := by
  have inside := mem_lang_of_create accepted
  rw [lang_uriReference, Rfc3986.mem_lang_reference] at inside
  obtain ⟨p, valid, rfl⟩ := inside
  rw [Parts.of_text valid fun a mem => hostLike (valid.authority a mem).host] at named here
  cases empty : emptyPort p with
  | true =>
    rw [create_throws valid empty] at accepted
    cases accepted
  | false =>
    obtain ⟨n, made⟩ := create_text valid empty
    rw [made] at accepted
    obtain rfl := Option.some.inj (Option.some.inj accepted)
    have path : p.path ∈ lang false Rfc3986.pathAbempty := by
      have inside := valid.path
      rw [here] at inside
      exact inside
    have user : ({ built p with port := n } : Uri).user = [] := by
      rw [built, here, Option.bind_some, anonymous]
      rfl
    have own : ({ built p with port := n } : Uri).path = p.path := by
      rw [built, named, here]
      rfl
    obtain ⟨z, starts⟩ := getPath_cons path own
    refine ⟨_, create_printed (printed_valid valid named here) user starts, ?_, normal_toString⟩
    exact ⟨rfl, rfl, rfl, normal_getPort, normal_getPath, rfl, rfl⟩

/-- A default port and an empty query are left out, and the path is filled in. -/
theorem print_stable_default : create (bytes "http://h:80?") = some (some ⟨80, bytes "http", [], bytes "h", [], [], []⟩) ∧
    ∃ again, create (bytes "http://h/") = some (some again) ∧
      SameGetters ⟨80, bytes "http", [], bytes "h", [], [], []⟩ again ∧ again.toString = bytes "http://h/" := by
  have accepted : create (bytes "http://h:80?") = some (some ⟨80, bytes "http", [], bytes "h", [], [], []⟩) := by
    decide +kernel
  have named : (Parts.of (bytes "http://h:80?")).scheme = some (bytes "http") := by decide
  have here : (Parts.of (bytes "http://h:80?")).authority = some ⟨none, bytes "h", some (bytes "80")⟩ := by decide
  have stable := print_stable accepted named here rfl
  have text : toString ⟨80, bytes "http", [], bytes "h", [], [], []⟩ = bytes "http://h/" := by decide
  rw [text] at stable
  exact ⟨accepted, stable⟩

end Stable

end Sylar.Uri
