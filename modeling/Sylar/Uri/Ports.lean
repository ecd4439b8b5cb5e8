import Sylar.Uri.Print
import Sylar.Address.Basic

/-!
# Ports

The port that `create` leaves is the one that was read last: whatever the events of the userinfo did to
it, the events of the port come behind them, and nothing behind those reads a port again. `atoi` stops at
the delimiter that follows the digits, so `create_port` gives the port as a number: the digits, cut to
what a `long` holds, and then to 16 bits. `portExact_iff` says when that is the number that was written.
-/

namespace Sylar.Uri

open Lib Lib.Ragel Http UriParser
open Rfc3986 (Authority Parts behind before colon slash question hash commat)

/-! ## `get_address` -/

/-- `get_address`, where `lookup` is `IPAddress::lookup_ip_address`. -/
def getAddress (host : Host) (lookup : Str → Option IPAddress) (uri : Uri) : Option IPAddress :=
  (lookup uri.host).map fun addr => addr.setPort host uri.getPort.toBitVec

/-! ## The port that was read last -/

/-- Wherever the text stands, the events on it leave the port that is read from what follows it. -/
def PortOf (l : List (Event Action)) (t : Str) (port : Str → UInt16) : Prop :=
  ∀ pre rest b b', Builder.run (pre ++ (t ++ rest)) (executed (l.map (Event.shift pre.length))) b = some b' →
    b'.uri.port = port rest

section PortOf

variable {l l' : List (Event Action)} {t t' : Str} {port : Str → UInt16}

/-- What happens before does not matter. -/
theorem PortOf.before (t : Str) (reads : PortOf l' t' port)
    (apart : ∀ e ∈ l, ∀ e' ∈ l', e.pos < t.length + e'.pos) :
    PortOf (l ++ l'.map (Event.shift t.length)) (t ++ t') port := by
  intro pre rest b b' run
  rw [executed_shift_append apart, Builder.run_append] at run
  obtain ⟨b₁, -, run⟩ := Option.bind_eq_some_iff.mp run
  apply reads (pre ++ t) rest b₁ b'
  rw [← run]
  simp only [List.append_assoc]

theorem PortOf.after (delimiter : Str) (reads : PortOf l t port) :
    PortOf (l.map (Event.shift delimiter.length)) (delimiter ++ t) port :=
  PortOf.before (l := []) delimiter reads (by simp)

/-- What happens behind it leaves the port alone. -/
theorem PortOf.append {f : Uri → Uri} (reads : PortOf l t port) (second : Exact l' t' f)
    (keeps : ∀ uri, (f uri).port = uri.port) (apart : ∀ e ∈ l, ∀ e' ∈ l', e.pos < t.length + e'.pos) :
    PortOf (l ++ l'.map (Event.shift t.length)) (t ++ t') fun rest => port (t' ++ rest) := by
  intro pre rest b b' run
  rw [executed_shift_append apart, Builder.run_append, List.append_assoc] at run
  obtain ⟨b₁, first, run⟩ := Option.bind_eq_some_iff.mp run
  obtain ⟨mark, exact⟩ := second.runs (pre ++ t) rest b₁
  rw [List.append_assoc, run] at exact
  rw [Option.some.inj exact, keeps]
  exact reads pre (t' ++ rest) b b₁ first

theorem PortOf.twice {n m : Nat} {x : Action} (once : PortOf (⟨0, m, x⟩ :: l) t port) :
    PortOf (⟨0, n, x⟩ :: ⟨0, m, x⟩ :: l) t port := by
  intro pre rest b b' run
  apply once pre rest b b'
  rw [List.map_cons, List.map_cons, Event.shift, Event.shift, executed_twice] at run
  rw [List.map_cons, Event.shift]
  exact run

end PortOf

section References

variable {n m : Nat} {h path u : Str} {p : Parts} {a : Authority}

theorem portOf_portPath (some : u ≠ []) (path : Str) :
    PortOf (optionEvents n .markh .savePort (.some u) ++ (pathEvents m path).map
      (Event.shift (behind colon (.some u)).length)) (behind colon (.some u) ++ path)
      fun rest => readPort (u ++ (path ++ rest)) := by
  intro pre rest b b' run
  rw [run_portPath some] at run
  rw [← Option.some.inj run]

/-- Where no path is saved, the port is the last thing that is. -/
theorem portOf_port (some : u ≠ []) :
    PortOf (optionEvents n .markh .savePort (.some u)) (behind colon (.some u)) fun rest => readPort (u ++ rest) := by
  intro pre rest b b' run
  have apart : pre.length + 1 ≠ pre.length + (1 + u.length) := by
    have pos := List.length_pos_of_ne_nil some
    omega
  have behindColon : (pre ++ (behind colon (.some u) ++ rest)).drop (pre.length + 1) = u ++ rest := by
    rw [List.drop_append, List.drop_eq_nil_of_le (by omega), Nat.add_sub_cancel_left, behind]
    simp
  simp only [optionEvents, List.map_cons, List.map_nil, Event.shift] at run
  rw [executed_pair (by decide)] at run
  simp only [Builder.run, Builder.exec_markh, Option.bind_some, Builder.exec_savePort _ _ apart, behindColon] at run
  rw [← Option.some.inj run]

theorem portOf_hier (some : u ≠ []) (h path : Str) :
    PortOf (hostEvents n h (.some u) ++ (pathEvents m path).map (Event.shift (h ++ behind colon (.some u)).length))
      ((h ++ behind colon (.some u)) ++ path) fun rest => readPort (u ++ (path ++ rest)) := by
  rw [hostEvents_append, List.append_assoc]
  exact (portOf_portPath some path).before h (apart_of_pos (effect_hostOnly h).within pos_portPath)

theorem portOf_host (some : u ≠ []) (h : Str) :
    PortOf (hostEvents n h (.some u)) (h ++ behind colon (.some u)) fun rest => readPort (u ++ rest) :=
  (portOf_port some).before h (apart_of_pos (effect_hostOnly h).within (pos_option (.some u)))

/-- The events of a userinfo come before those of the port. -/
theorem portOf_authority (extra : List (Event Action)) {port : Str → UInt16}
    (tail : PortOf (hostEvents (n + 2) a.host a.port ++ extra.map (Event.shift (a.host ++ behind colon a.port).length))
      ((a.host ++ behind colon a.port) ++ path) port) :
    PortOf (authorityEvents n a ++ extra.map (Event.shift a.text.length)) (a.text ++ path) port := by
  rw [authorityEvents_append, Authority.text]
  cases a.userinfo with
  | none => exact tail.twice
  | some u =>
    have whole := (tail.after [commat]).before (l := ⟨0, n, .markh⟩ :: (strayEvents (n + 2) u ++
      [⟨u.length, n + 1, .saveUserinfo⟩])) u (apart_of_pos (effect_user u).within pos_after)
    have text : u ++ ([commat] ++ ((a.host ++ behind colon a.port) ++ path)) =
        (before commat (some u) ++ (a.host ++ behind colon a.port)) ++ path := by
      simp [before]
    rw [text] at whole
    exact whole

theorem saveRest_port (q f : Option Str) (uri : Uri) : (saveRest q f uri).port = uri.port := rfl

/-- The port of a reference is read from its digits on. -/
theorem portOf_reference (here : p.authority = .some a) (written : a.port = .some u) (some : u ≠ []) :
    PortOf (referenceEvents p) p.text fun rest =>
      readPort (u ++ (p.path ++ ((behind question p.query ++ behind hash p.fragment) ++ rest))) := by
  have rest := fun n => exact_queryFragment (n := n) p.query p.fragment
  have later := fun n => pos_queryFragment (n := n) p.query p.fragment
  have hierText : p.hier = [slash, slash] ++ (a.text ++ p.path) := by
    rw [Parts.hier, here]
    rfl
  cases named : p.scheme with
  | some name =>
    have authority : PortOf (authorityEvents 2 a ++ (pathEvents 8 p.path).map (Event.shift a.text.length))
        (a.text ++ p.path) fun rest => readPort (u ++ (p.path ++ rest)) := by
      apply portOf_authority
      rw [written]
      exact portOf_hier some a.host p.path
    have within : ∀ e ∈ hierEvents 2 p.path (.some a), e.pos ≤ p.hier.length := by
      have ports : ∀ b ∈ Option.some a, b.port ≠ .some [] := by
        rintro b ⟨⟩ empty
        exact some (Option.some.inj (written.symm.trans empty))
      have inside := (effect_hierPart (n := 2) p.path (.some a) ports).within
      rwa [← here] at inside ⊢
    have hier := authority.after [slash, slash]
    rw [← hierText] at hier
    have tail := hier.append (rest 10) (saveRest_port p.query p.fragment) (apart_of_pos within (later 10))
    rw [text_named named, referenceEvents, named, here]
    exact (tail.after [colon]).before name (apart_of_pos (effect_scheme name).within pos_after)
  | none =>
    have authority : PortOf (authorityEvents 14 a) (a.text ++ p.path)
        fun rest => readPort (u ++ (p.path ++ rest)) := by
      have host : PortOf (hostEvents 16 a.host a.port) ((a.host ++ behind colon a.port) ++ p.path)
          fun rest => readPort (u ++ (p.path ++ rest)) := by
        rw [written]
        have whole := (portOf_host (n := 16) some a.host).append (.silent p.path) (fun _ => rfl) (by simp)
        rwa [List.map_nil, List.append_nil] at whole
      have whole := portOf_authority (n := 14) [] (by simpa using host)
      rwa [List.map_nil, List.append_nil] at whole
    have within : ∀ e ∈ relativeEvents 14 (.some a), e.pos ≤ p.hier.length := by
      have inside := (effect_relativePart (n := 14) p.path (.some a)).within
      rwa [← here] at inside ⊢
    have hier := authority.after [slash, slash]
    rw [← hierText] at hier
    have tail := hier.append (rest 20) (saveRest_port p.query p.fragment) (apart_of_pos within (later 20))
    have apart := pos_relative p p.hier.length
    rw [here] at apart
    have whole := tail.before [] (apart_of_pos (effect_letter (letterFirst p.text)).within apart)
    rw [List.length_nil, map_shift_zero, List.nil_append, ← text_unnamed named] at whole
    rw [referenceEvents, named, here]
    exact whole

end References

/-! ## The port as a number -/

/-- The digits of a port. -/
theorem isDigits_of_port {d : Str} (inside : d ∈ lang false Rfc3986.port) : IsDigits d := by
  intro c mem
  have digit : ByteSet.digit.mem c = true := mem_uses_of_mem_lang (e := Rfc3986.port) (by decide) inside c mem
  have all : ∀ c : UInt8, ByteSet.digit.mem c = true → 48 ≤ c.toNat ∧ c.toNat < 58 := by decide +kernel
  obtain ⟨low, high⟩ := all c digit
  refine ⟨c.toNat - 48, by omega, ?_⟩
  rw [Nat.add_sub_cancel' low, UInt8.ofNat_toNat]

/-- What is read: a `long` is cut to an `int`, and that to the port. -/
theorem toNat_readPort {d rest : Str} (digits : IsDigits d) (some : d ≠ [])
    (stop : ∀ c z, rest = c :: z → inNumber c = false) :
    (readPort (d ++ rest)).toNat = min (2 ^ 63 - 1) (numeral 10 d) % 2 ^ 16 := by
  have value : ((min (2 ^ 63 - 1) (numeral 10 d : Int)).bmod (2 ^ 32)).emod (2 ^ 16) =
      ((min (2 ^ 63 - 1) (numeral 10 d) % 2 ^ 16 : Nat) : Int) := by
    show (Int.bmod _ (2 ^ 32)) % 2 ^ 16 = _
    have cut : (min (2 ^ 63 - 1) (numeral 10 d : Int)).bmod (2 ^ 32) % 2 ^ 16 =
        min (2 ^ 63 - 1) (numeral 10 d : Int) % 2 ^ 16 := by
      rw [Int.bmod_def]
      split <;> omega
    rw [cut]
    omega
  have small : min (2 ^ 63 - 1) (numeral 10 d) % 2 ^ 16 < 2 ^ 16 := Nat.mod_lt _ (by decide)
  rw [readPort, atoi_digits digits some stop, Http.toInt, value, Int.toNat_natCast, UInt16.toNat_ofNat']
  exact Nat.mod_eq_of_lt small

/-- What follows a port is a path, a query, a fragment, or nothing. -/
theorem inNumber_behind {p : Parts} {a : Authority} (valid : p.Valid UriParser.host) (here : p.authority = some a) :
    ∀ c z, p.path ++ ((behind question p.query ++ behind hash p.fragment) ++ []) = c :: z → inNumber c = false := by
  have inside := valid.path
  rw [here] at inside
  intro c z eq
  cases path : p.path with
  | cons b rest =>
    rw [path, List.cons_append] at eq
    obtain rfl := (List.cons.inj eq).1
    rw [Rfc3986.head_pathAbempty inside b rest path]
    decide
  | nil =>
    rw [path, List.nil_append, List.append_nil] at eq
    cases query : p.query with
    | some q =>
      rw [query, behind, List.cons_append] at eq
      rw [← (List.cons.inj eq).1]
      decide
    | none =>
      cases fragment : p.fragment with
      | some f =>
        rw [query, fragment, behind, List.nil_append, behind] at eq
        rw [← (List.cons.inj eq).1]
        decide
      | none =>
        rw [query, fragment] at eq
        cases eq

/-- The port of an accepted reference that writes one. -/
theorem create_port {s : Str} {uri : Uri} {a : Authority} {d : Str} (accepted : create s = some (some uri))
    (here : (Parts.of s).authority = some a) (written : a.port = some d) (some : d ≠ []) :
    uri.port.toNat = min (2 ^ 63 - 1) (numeral 10 d) % 2 ^ 16 := by
  have inside := mem_lang_of_create accepted
  rw [lang_uriReference, Rfc3986.mem_lang_reference] at inside
  obtain ⟨p, valid, rfl⟩ := inside
  rw [Parts.of_text valid fun a mem => hostLike (valid.authority a mem).host] at here
  have digits := isDigits_of_port ((valid.authority a here).port d written)
  rw [create_eq valid] at accepted
  obtain ⟨b, run, made⟩ := Option.map_eq_some_iff.mp accepted
  cases made
  have read := portOf_reference here written some [] [] ⟨none, init⟩ b
  rw [List.append_nil, List.nil_append, List.length_nil, map_shift_zero] at read
  rw [read run]
  exact toNat_readPort digits some (inNumber_behind valid here)

/-! ## Exact ports -/

/-- The port that a scheme stands for; 0 where it stands for none. -/
def schemePort (scheme : Str) : Nat :=
  if scheme = bytes "http" ∨ scheme = bytes "ws" then 80
  else if scheme = bytes "https" ∨ scheme = bytes "wss" then 443
  else 0

/-- A port that is written counts, unless it is 0, and `get_address` uses it. -/
structure PortExact (host : Host) (lookup : Str → Option IPAddress) (uri : Uri) (n : Nat) : Prop where
  getPort : uri.getPort.toNat = if n = 0 then schemePort uri.scheme else n
  address : ∀ addr, uri.getAddress host lookup = some addr →
    (addr.getPort host).toNat = if n = 0 then schemePort uri.scheme else n

theorem getPort_eq (uri : Uri) :
    uri.getPort.toNat = if uri.port.toNat = 0 then schemePort uri.scheme else uri.port.toNat := by
  have zero : uri.port = 0 ↔ uri.port.toNat = 0 := UInt16.toNat_inj.symm
  rw [getPort, schemePort]
  by_cases none : uri.port = 0
  · rw [if_neg (not_not.mpr none), if_pos (zero.mp none)]
    split
    · rfl
    · split
      · rfl
      · rw [none]
        rfl
  · rw [if_pos none, if_neg fun eq => none (zero.mpr eq)]

theorem getAddress_port (host : Host) (lookup : Str → Option IPAddress) (uri : Uri) {addr : IPAddress}
    (found : uri.getAddress host lookup = some addr) : (addr.getPort host).toNat = uri.getPort.toNat := by
  obtain ⟨resolved, -, rfl⟩ := Option.map_eq_some_iff.mp found
  rw [IPAddress.getPort_setPort]
  rfl

/-- The port of an accepted string is the number that is written there exactly when this fits 16 bits. -/
theorem portExact_iff (host : Host) (lookup : Str → Option IPAddress) {s : Str} {uri : Uri} {a : Authority}
    {d : Str} (accepted : create s = some (some uri)) (here : (Parts.of s).authority = some a)
    (written : a.port = some d) (some : d ≠ []) :
    uri.PortExact host lookup (numeral 10 d) ↔ numeral 10 d ≤ 65535 := by
  have port := create_port accepted here written some
  constructor
  · intro exact
    have bound := uri.getPort.toNat_lt
    have value := exact.getPort
    split at value <;> omega
  · intro fits
    have same : uri.port.toNat = numeral 10 d := by
      rw [port]
      omega
    have value := getPort_eq uri
    rw [same] at value
    exact ⟨value, fun addr found => (getAddress_port host lookup uri found).trans value⟩

/-- A port of the tests' shape, and one that is 80 beyond 2^16. -/
theorem portExact_iff_8080 :
    create (bytes "http://h:8080/") = some (some ⟨8080, bytes "http", [], bytes "h", bytes "/", [], []⟩) ∧
    (Uri.PortExact .little (fun _ => some (.v4 .empty)) ⟨8080, bytes "http", [], bytes "h", bytes "/", [], []⟩
      (numeral 10 (bytes "8080")) ↔ numeral 10 (bytes "8080") ≤ 65535) := by
  have accepted : create (bytes "http://h:8080/") =
      some (some ⟨8080, bytes "http", [], bytes "h", bytes "/", [], []⟩) := by decide +kernel
  have parts : (Parts.of (bytes "http://h:8080/")).authority = some ⟨none, bytes "h", some (bytes "8080")⟩ := by
    decide +kernel
  exact ⟨accepted, portExact_iff .little _ accepted parts rfl (by decide)⟩

theorem not_portExact_65616 :
    create (bytes "http://h:65616/") = some (some ⟨80, bytes "http", [], bytes "h", bytes "/", [], []⟩) ∧
    (Parts.of (bytes "http://h:65616/")).authority = some ⟨none, bytes "h", some (bytes "65616")⟩ ∧
    ¬ Uri.PortExact .little (fun _ => some (.v4 .empty)) ⟨80, bytes "http", [], bytes "h", bytes "/", [], []⟩
      (numeral 10 (bytes "65616")) := by
  refine ⟨by decide +kernel, by decide +kernel, fun exact => ?_⟩
  have value := exact.getPort
  revert value
  decide +kernel

end Sylar.Uri
