import Sylar.Uri.Rfc3986

/-!
# What the URI machine executes

The language of `uri.rl` is the grammar of the RFC over its own rule for hosts. On a reference that it
matches, the trace of the machine is put together from the traces of the rules. Two places are not
concatenations of what their parts do. While the machine reads a userinfo it cannot know that an `@` will
come, so a host and a port are read from the same bytes, and their actions are executed. And while it reads a
relative reference that begins with a letter it reads a scheme too, and executes `marku`.
-/

namespace Sylar.UriParser

open Lib Lib.Ragel Http
open Rfc3986 (Authority Parts Free HostLike behind before colon slash question hash commat)

/-! ## The language -/

theorem lang_scheme : lang false scheme = lang false Rfc3986.scheme :=
  (lang_leave ..).trans (lang_enter ..)

theorem lang_query : lang false query = lang false Rfc3986.query :=
  (lang_leave ..).trans (lang_enter ..)

theorem lang_fragment : lang false fragment = lang false Rfc3986.fragment :=
  (lang_leave ..).trans (lang_enter ..)

theorem lang_queryFragment : lang false queryFragment = lang false Rfc3986.queryFragment := by
  simp only [queryFragment, Rfc3986.queryFragment, opt, lang_seq, lang_alt, lang_query, lang_fragment]

theorem lang_authority : lang false authority = lang false (Rfc3986.authority host) := by
  simp only [authority, Rfc3986.authority, entering, leaving, cat, opt, lang_seq, lang_alt, lang_enter, lang_leave]
  rfl

theorem lang_pathAbempty : lang false pathAbempty = lang false Rfc3986.pathAbempty := by
  have more : ∀ l : Language UInt8, (l + 1) * KStar.kstar l = KStar.kstar l := by
    intro l
    rw [add_mul, one_mul, add_eq_right_iff_le]
    exact mul_kstar_le_kstar
  rw [pathAbempty, Rfc3986.pathAbempty, opt, lang_seq, lang_alt, lang_star, lang_eps, lang_star]
  exact more _

theorem lang_uriReference : lang false uriReference = lang false (Rfc3986.reference host) := by
  simp only [uriReference, Rfc3986.reference, uri, Rfc3986.uri, relativeRef, Rfc3986.relativeRef, hierPart,
    Rfc3986.hierPart, relativePart, Rfc3986.relativePart, cat, oneOf, entering, leaving, lang_seq, lang_alt, lang_enter,
    lang_leave, lang_scheme, lang_queryFragment, lang_authority, lang_pathAbempty]
  rfl

theorem hostLike {h : Str} (inside : h ∈ lang false host) : HostLike h :=
  Rfc3986.hostLike_of_mem_lang (alt ipv6address ipvFuture) (alt ipv4address regName) (by decide)
    (by decide) (by decide) (by decide) inside

/-! ## Marked components -/

section Marked

variable {n : Nat} {save : Action} {mark : Action} {r : Rule} {w : Str}

/-- `r > mark % save`, where nothing is embedded inside. -/
theorem trace_marked (isPlain : r.plain = true) (quiet : r.size = 0) (inside : w ∈ lang false r) :
    Trace false n (leaving save (entering mark r)) w [⟨0, n, mark⟩, ⟨w.length, n + 1, save⟩] :=
  Trace.marked isPlain quiet inside

/-- `( c r > mark % save )?`. -/
def optionEvents (n : Nat) (mark save : Action) : Option Str → List (Event Action)
  | none => []
  | some u => [⟨1, n, mark⟩, ⟨1 + u.length, n + 1, save⟩]

theorem trace_option {c : UInt8} {delimiter : Rule} (plainD : delimiter.plain = true) (quietD : delimiter.size = 0)
    (one : ∀ w, w ∈ lang false delimiter ↔ w = [c]) (isPlain : r.plain = true) (quiet : r.size = 0) {o : Option Str}
    (inside : ∀ u ∈ o, u ∈ lang false r) :
    Trace false n (opt (seq delimiter (leaving save (entering mark r)))) (behind c o) (optionEvents n mark save o) := by
  have noRest : Trace false (n + (seq delimiter (leaving save (entering mark r))).size) (eps : Rule) (behind c o) [] :=
    Trace.quiet rfl rfl
  rw [← List.append_nil (optionEvents ..), opt]
  refine Trace.alt ?_ noRest (by simp)
  cases o with
  | none =>
    refine Trace.empty ?_ ?_
    · simp [plain, plainD, leaving, entering, isPlain]
    · intro none
      obtain ⟨u, inU, v, -, eq⟩ := mem_lang_seq.mp none
      obtain rfl := (one u).mp inU
      cases eq
  | some u =>
    have fixed : ∀ u' ∈ lang false delimiter, u'.length = [c].length := fun u' inU => by rw [(one u').mp inU]
    exact Trace.seq_fixed plainD quietD ((one [c]).mpr rfl) fixed (trace_marked isPlain quiet (inside u rfl))

end Marked

/-! ## Hosts and ports -/

/-- `host >markh %save_host ( ":" port >markh %save_port )?`. -/
def hostPort : Rule :=
  seq (leaving .saveHost (entering .markh host)) (opt (seq (lit ":") (leaving .savePort (entering .markh port))))

theorem numbered_hostPort (n : Nat) : hostPort.numbered n =
    seq (leave (n + 1) .saveHost (enter n .markh host))
      (opt (seq (lit ":") (leave (n + 3) .savePort (enter (n + 2) .markh port)))) := by
  have quietHost : host.size = 0 := by decide
  have quietPort : port.size = 0 := by decide
  have quietColon : (lit ":" : Rule).size = 0 := by decide
  have sameHost := numbered_of_quiet quietHost
  have samePort := numbered_of_quiet quietPort
  have sameColon := numbered_of_quiet quietColon
  simp only [hostPort, leaving, entering, opt, numbered, size, sameHost, samePort, sameColon, quietHost, quietPort,
    quietColon, Nat.add_zero, Nat.zero_add]

def hostEvents (n : Nat) (h : Str) (port : Option Str) : List (Event Action) :=
  [⟨0, n, .markh⟩, ⟨h.length, n + 1, .saveHost⟩] ++ (optionEvents (n + 2) .markh .savePort port).map (.shift h.length)

section Host

variable {n : Nat} {h u v w : Str} {c : UInt8} {x : Nat × Action} {port : Option Str}

theorem colon_not_starts_host : ¬ Starts false host colon := by
  intro starts
  exact absurd (mem_startSet_of_starts (by decide) starts) (by decide)

theorem starts_portPart {n m : Nat} :
    Starts false (opt (seq (lit ":") (leave n .savePort (enter m .markh UriParser.port)))) c ↔ c = colon := by
  constructor
  · intro starts
    have start := mem_startSet_of_starts rfl starts
    have set : startSet (opt (seq (lit ":") UriParser.port)) = .single colon := by decide
    change (startSet (opt (seq (lit ":") UriParser.port))).mem c = true at start
    rw [set] at start
    exact (ByteSet.mem_single colon c).mp start
  · rintro rfl
    have inside : [colon] ∈ lang false (opt (seq (lit ":") (leave n .savePort (enter m .markh UriParser.port)))) := by
      refine mem_lang_opt.mpr (.inr (mem_lang_seq.mpr ⟨[colon], (mem_lang_lit ":").mpr rfl, [], ?_, rfl⟩))
      rw [nil_mem_lang]
      rfl
    exact starts_of_mem_lang inside

/-- A host ends where the delimiters say. -/
theorem cut_host {o o' : Option Str} (like : HostLike h) (like' : HostLike u)
    (eq : h ++ behind colon o = u ++ behind colon o') : h = u := by
  have first := Rfc3986.splitHost_behind like o
  rw [eq, Rfc3986.splitHost_behind like' o'] at first
  exact (Prod.mk.inj first).1.symm

theorem trace_hostPort (inH : h ∈ lang false host) (inP : ∀ p ∈ port, p ∈ lang false UriParser.port) :
    Trace false n hostPort (h ++ behind colon port) (hostEvents n h port) := by
  have plainH : (leaving .saveHost (entering .markh host)).plain = true := by decide
  have plainP : (opt (seq (lit ":") (leaving .savePort (entering .markh UriParser.port)))).plain = true := by decide
  have language : lang false (leaving .saveHost (entering .markh host)) = lang false host :=
    (lang_leave ..).trans (lang_enter ..)
  have inPart : behind colon port ∈
      lang false (opt (seq (lit ":") (leaving .savePort (entering .markh UriParser.port)))) := by
    refine (Rfc3986.mem_lang_behind (lit ":") fun _ => mem_lang_lit ":").mpr ⟨port, ?_, rfl⟩
    rw [leaving, entering, lang_leave, lang_enter]
    exact inP
  have size : (leaving .saveHost (entering .markh host)).size = 2 := by decide
  refine Trace.seq_of_cut plainH plainP (by rw [language]; exact inH) inPart ?_ ?_
    (trace_marked (by decide) (by decide) inH) (trace_option (by decide) (by decide) (fun _ => mem_lang_lit ":")
      (by decide) (by decide) inP)
  · -- only the mark at the start is executed inside
    intro w c z x fires eq
    have marked : w = [] ∧ Starts false host c := by
      have quiet : host.size = 0 := by decide
      rw [leaving, entering, numbered, numbered, numbered_of_quiet quiet, fires_leave, fires_enter] at fires
      rcases fires with fires | ⟨none, -, starts⟩
      · exact absurd fires (not_fires_of_quiet (by decide) quiet)
      · exact ⟨none, starts⟩
    obtain ⟨rfl, starts⟩ := marked
    cases h with
    | nil =>
      cases port with
      | none => cases eq
      | some p =>
        obtain ⟨rfl, -⟩ := List.cons.inj eq
        exact absurd starts colon_not_starts_host
    | cons d h =>
      obtain ⟨rfl, -⟩ := List.cons.inj eq
      exact ⟨h, rfl⟩
  · intro u' v' inU follows eq
    rw [language] at inU
    have delimited : ∃ o', v' = behind colon o' := by
      rcases follows with rfl | ⟨c, z, rfl, starts⟩
      · exact ⟨none, rfl⟩
      · have start := mem_startSet_of_starts ((plain_numbered _ _).trans plainP) starts
        rw [startSet_numbered] at start
        exact ⟨some z, congrArg (· :: z) ((ByteSet.mem_single colon c).mp start)⟩
    obtain ⟨o', rfl⟩ := delimited
    exact cut_host (hostLike inH) (hostLike inU) eq

/-! ## Userinfos -/

theorem starts_port : Starts false UriParser.port c ↔ ByteSet.digit.mem c = true := by
  constructor
  · intro starts
    have start := mem_startSet_of_starts (by decide) starts
    have set : startSet UriParser.port = .digit := by decide
    rw [set] at start
    exact start
  · intro digit
    exact ⟨_, List.mem_cons_self, digit, fun conditional => by cases conditional⟩

theorem fires_portPart {n m : Nat} :
    Fires false (opt (seq (lit ":") (leave n .savePort (enter m .markh UriParser.port)))) v c x ↔
      v = [colon] ∧ ByteSet.digit.mem c = true ∧ x = (m, .markh) := by
  have quietPort : ∀ {v : Str}, ¬ Fires false UriParser.port v c x := not_fires_of_quiet (by decide) (by decide)
  have quietColon : ∀ {v : Str}, ¬ Fires false (lit ":" : Rule) v c x := not_fires_of_quiet (by decide) (by decide)
  have noExit : ∀ {v : Str}, ¬ Exits false (lit ":" : Rule) v x := not_exits_of_quiet (by decide) (by decide)
  rw [opt, fires_alt, fires_seq]
  constructor
  · rintro ((first | ⟨_, _, rfl, inside, second | ⟨-, left, -⟩⟩) | last)
    · exact absurd first quietColon
    · obtain rfl := (mem_lang_lit ":").mp inside
      rcases fires_enter.mp (fires_leave.mp second) with fires | ⟨rfl, eq, starts⟩
      · exact absurd fires quietPort
      · exact ⟨rfl, starts_port.mp starts, eq⟩
    · exact absurd left noExit
    · exact absurd last (not_fires_of_quiet rfl rfl)
  · rintro ⟨rfl, digit, rfl⟩
    refine .inl (.inr ⟨[colon], [], rfl, (mem_lang_lit ":").mpr rfl, .inl ?_⟩)
    exact fires_leave.mpr (fires_enter.mpr (.inr ⟨rfl, rfl, starts_port.mpr digit⟩))

/-- What a host and a port execute while they are read. -/
theorem fires_hostPort : Fires false (hostPort.numbered n) v c x ↔
    (v = [] ∧ x = (n, .markh) ∧ (Starts false host c ∨ c = colon)) ∨
      (c = colon ∧ v ∈ lang false host ∧ x = (n + 1, .saveHost)) ∨
        ∃ u ∈ lang false host, v = u ++ [colon] ∧ ByteSet.digit.mem c = true ∧ x = (n + 2, .markh) := by
  have quiet : ∀ {v : Str}, ¬ Fires false host v c x := not_fires_of_quiet (by decide) (by decide)
  have noExit : ∀ {v : Str}, ¬ Exits false host v x := not_exits_of_quiet (by decide) (by decide)
  have nullable : [] ∈ lang false host := nil_mem_lang.mpr (by decide)
  rw [numbered_hostPort, fires_seq, fires_leave, fires_enter, lang_leave, lang_enter]
  simp only [fires_portPart, starts_portPart, exits_leave, exits_enter, lang_enter]
  constructor
  · rintro ((first | ⟨rfl, rfl, starts⟩) | ⟨u, _, rfl, inside, ⟨rfl, digit, rfl⟩ |
      ⟨rfl, (left | ⟨rfl, rfl, -⟩) | ⟨rfl, -⟩, rfl⟩⟩)
    · exact absurd first quiet
    · exact .inl ⟨rfl, rfl, .inl starts⟩
    · exact .inr (.inr ⟨u, inside, rfl, digit, rfl⟩)
    · exact absurd left noExit
    · exact .inl ⟨rfl, rfl, .inr rfl⟩
    · rw [List.append_nil]
      exact .inr (.inl ⟨rfl, inside, rfl⟩)
  · rintro (⟨rfl, rfl, starts | rfl⟩ | ⟨rfl, inside, rfl⟩ | ⟨u, inside, rfl, digit, rfl⟩)
    · exact .inl (.inr ⟨rfl, rfl, starts⟩)
    · exact .inr ⟨[], [], rfl, nullable, .inr ⟨rfl, .inl (.inr ⟨rfl, rfl, nullable⟩), rfl⟩⟩
    · exact .inr ⟨v, [], (List.append_nil v).symm, inside, .inr ⟨rfl, .inr ⟨rfl, inside⟩, rfl⟩⟩
    · exact .inr ⟨u, [colon], rfl, inside, .inl ⟨rfl, digit, rfl⟩⟩

/-- Up to its first colon, a userinfo is a name. -/
theorem name_of_userinfo {o : Option Str} (inside : u ++ behind colon o ∈ lang false userinfo) (not : colon ∉ u) :
    u ∈ lang false regName := by
  rw [userinfo, lang_star] at inside
  obtain ⟨words, eq, all⟩ := Language.mem_kstar.mp inside
  rw [regName, lang_star]
  clear inside
  induction words generalizing u with
  | nil =>
    obtain ⟨rfl, -⟩ := List.append_eq_nil_iff.mp eq
    exact Language.nil_mem_kstar _
  | cons y words ih =>
    have piece := all y List.mem_cons_self
    simp only [oneOf, mem_lang_alt, mem_lang_lit] at piece
    by_cases isColon : y = [colon]
    · cases u with
      | nil => exact Language.nil_mem_kstar _
      | cons d u =>
        rw [isColon] at eq
        obtain rfl := (List.cons.inj eq).1
        exact absurd List.mem_cons_self not
    · have inName : y ∈ lang false (oneOf [unreserved, pctEncoded, subDelims]) := by
        simp only [oneOf, mem_lang_alt]
        rcases piece with piece | piece | piece | piece
        · exact .inl piece
        · exact .inr (.inl piece)
        · exact .inr (.inr piece)
        · exact absurd piece isColon
      have noColon : colon ∉ y := not_mem_of_mem_lang (by decide) (by decide) inName
      obtain ⟨rest, rfl⟩ : ∃ rest, u = y ++ rest := by
        rw [List.flatten_cons] at eq
        rcases List.append_eq_append_iff.mp eq with ⟨rest, rfl, eq'⟩ | ⟨rest, rfl, -⟩
        · cases rest with
          | nil => exact ⟨[], by simp⟩
          | cons d rest =>
            cases o with
            | none => cases eq'
            | some z =>
              obtain rfl := (List.cons.inj eq').1
              exact absurd (by simp) noColon
        · exact ⟨rest, rfl⟩
      rw [List.flatten_cons, List.append_assoc] at eq
      have later := ih (fun mem => not (List.mem_append_right y mem)) (List.append_cancel_left eq)
        fun z mem => all z (List.mem_cons_of_mem y mem)
      rw [← Language.one_add_self_mul_kstar_eq_kstar]
      exact Or.inr (Language.append_mem_mul inName later)

/-- The first byte is a digit. -/
def digitFirst (s : Str) : Bool := s.head?.any ByteSet.digit.mem

/-- What the host and the port execute on a userinfo. -/
def strayEvents (n : Nat) (userinfo : Str) : List (Event Action) :=
  match Rfc3986.splitAt colon userinfo with
  | (name, none) => if name = [] then [] else [⟨0, n, .markh⟩]
  | (name, some rest) =>
    ⟨0, n, .markh⟩ :: ⟨name.length, n + 1, .saveHost⟩ ::
      if digitFirst rest then [⟨name.length + 1, n + 2, .markh⟩] else []

theorem host_of_userinfo {o : Option Str} (inside : u ++ behind colon o ∈ lang false userinfo) (not : colon ∉ u) :
    u ∈ lang false host :=
  mem_lang_alt.mpr (.inr (mem_lang_alt.mpr (.inr (name_of_userinfo inside not))))

/-- A host at the start of a userinfo has no colon. -/
theorem colon_not_mem_host (inside : u ++ v ∈ lang false userinfo) (inH : u ∈ lang false host) : colon ∉ u := by
  rcases hostLike inH with free | ⟨b, rfl, -⟩
  · exact free.not_mem (by decide)
  · exact absurd List.mem_cons_self (not_mem_of_mem_lang (c := Rfc3986.opening) (by decide) (by decide) inside)

theorem starts_of_userinfo {o : Option Str} {d : UInt8} {z : Str} (inName : u ∈ lang false host)
    (eq : u ++ behind colon o = d :: z) : Starts false host d ∨ d = colon := by
  cases u with
  | nil =>
    cases o with
    | none => cases eq
    | some rest => exact .inr (List.cons.inj eq).1.symm
  | cons d' u =>
    obtain ⟨rfl, -⟩ := List.cons.inj eq
    exact .inl (starts_of_mem_lang inName)

theorem fired_name (inName : u ∈ lang false host) (not : colon ∉ u) :
    Fired false (hostPort.numbered n) [] u (if u = [] then [] else [⟨0, n, .markh⟩]) := by
  refine ⟨by split <;> simp, fun t => ⟨fun mem => ?_, ?_⟩⟩
  · split at mem
    · cases mem
    · rename_i some
      obtain rfl := List.mem_singleton.mp mem
      obtain ⟨d, z, rfl⟩ := List.exists_cons_of_ne_nil some
      exact ⟨[], d, z, rfl, rfl, fires_hostPort.mpr (.inl ⟨rfl, rfl, .inl (starts_of_mem_lang inName)⟩)⟩
  · rintro ⟨v₁, c, v₂, rfl, pos, fires⟩
    rcases fires_hostPort.mp fires with ⟨rfl, same, -⟩ | ⟨rfl, -⟩ | ⟨w, -, rfl, -⟩
    · obtain ⟨order, action⟩ := Prod.mk.inj same
      rw [if_neg (by simp), List.mem_singleton]
      exact Event.ext (by simpa using pos) order action
    · exact absurd (by simp) not
    · exact absurd (by simp) not

theorem fired_colon {rest : Str} (inside : u ++ colon :: rest ∈ lang false userinfo) (inName : u ∈ lang false host)
    (not : colon ∉ u) :
    Fired false (hostPort.numbered n) [] (u ++ colon :: rest)
      (⟨0, n, .markh⟩ :: ⟨u.length, n + 1, .saveHost⟩ ::
        if digitFirst rest then [⟨u.length + 1, n + 2, .markh⟩] else []) := by
  -- a colon behind a host is the first one
  have first : ∀ {v z : Str}, v ∈ lang false host → u ++ colon :: rest = v ++ colon :: z → u = v ∧ rest = z :=
    fun inV eq => cut_at not (colon_not_mem_host (eq ▸ inside) inV) eq
  refine ⟨?_, fun t => ⟨fun mem => ?_, ?_⟩⟩
  · have marked : Event.Before ⟨0, n, Action.markh⟩ ⟨u.length, n + 1, .saveHost⟩ := by
      rcases Nat.eq_zero_or_pos u.length with none | some
      · exact .inr ⟨none.symm, Nat.lt_succ_self n⟩
      · exact .inl some
    split
    · have last : Event.Before ⟨0, n, Action.markh⟩ ⟨u.length + 1, n + 2, .markh⟩ := .inl (Nat.succ_pos _)
      have last' : Event.Before ⟨u.length, n + 1, Action.saveHost⟩ ⟨u.length + 1, n + 2, .markh⟩ :=
        .inl (Nat.lt_succ_self _)
      simp [marked, last, last']
    · simp [marked]
  · rcases List.mem_cons.mp mem with rfl | mem
    · obtain ⟨d, z, eq⟩ := List.exists_cons_of_ne_nil (List.append_ne_nil_of_right_ne_nil u (List.cons_ne_nil colon rest))
      exact ⟨[], d, z, eq, rfl, fires_hostPort.mpr (.inl ⟨rfl, rfl, starts_of_userinfo (o := some rest) inName eq⟩)⟩
    · rcases List.mem_cons.mp mem with rfl | mem
      · exact ⟨u, colon, rest, rfl, by simp, fires_hostPort.mpr (.inr (.inl ⟨rfl, inName, rfl⟩))⟩
      · split at mem
        · rename_i digit
          obtain rfl := List.mem_singleton.mp mem
          cases rest with
          | nil => cases digit
          | cons d rest =>
            refine ⟨u ++ [colon], d, rest, by simp, by simp, ?_⟩
            exact fires_hostPort.mpr (.inr (.inr ⟨u, inName, rfl, digit, rfl⟩))
        · cases mem
  · rintro ⟨v₁, c, v₂, eq, pos, fires⟩
    rcases fires_hostPort.mp fires with ⟨rfl, same, -⟩ | ⟨rfl, inV, same⟩ | ⟨w, inW, rfl, digit, same⟩
    · obtain ⟨order, action⟩ := Prod.mk.inj same
      exact List.mem_cons.mpr (.inl (Event.ext (by simpa using pos) order action))
    · obtain ⟨order, action⟩ := Prod.mk.inj same
      obtain ⟨rfl, -⟩ := first inV eq
      exact List.mem_cons.mpr (.inr (List.mem_cons.mpr (.inl (Event.ext (by simpa using pos) order action))))
    · obtain ⟨order, action⟩ := Prod.mk.inj same
      rw [List.append_assoc, List.singleton_append] at eq
      obtain ⟨rfl, rfl⟩ := first inW eq
      have isDigit : digitFirst (c :: v₂) = true := digit
      rw [if_pos isDigit]
      refine List.mem_cons.mpr (.inr (List.mem_cons.mpr (.inr (List.mem_singleton.mpr ?_))))
      exact Event.ext (by simpa using pos) order action

theorem fired_stray (inside : u ∈ lang false userinfo) :
    Fired false (hostPort.numbered n) [] u (strayEvents n u) := by
  obtain ⟨name, o, not, rfl⟩ := Rfc3986.exists_splitAt colon u
  have inName := host_of_userinfo inside not
  rw [strayEvents, Rfc3986.splitAt_behind not]
  cases o with
  | none =>
    rw [behind, List.append_nil]
    exact fired_name inName not
  | some rest => exact fired_colon inside inName not

/-! ## Authorities -/

def authorityEvents (n : Nat) (a : Authority) : List (Event Action) :=
  ⟨0, n, .markh⟩ ::
    match a.userinfo with
    | none => hostEvents (n + 2) a.host a.port
    | some u =>
      strayEvents (n + 2) u ++ ⟨u.length, n + 1, .saveUserinfo⟩ ::
        (hostEvents (n + 2) a.host a.port).map (.shift (u.length + 1))

theorem trace_authority {a : Authority} (valid : a.Valid host) :
    Trace false n authority a.text (authorityEvents n a) := by
  have inside : a.text ∈ lang false
      (seq (opt (seq (leave 0 .saveUserinfo userinfo) (char commat))) hostPort) := by
    have text : a.text ∈ lang false (Rfc3986.authority host) := Rfc3986.mem_lang_authority.mpr ⟨a, valid, rfl⟩
    rw [← lang_authority, authority, entering, lang_enter] at text
    exact text
  refine Trace.enter (by decide) inside ?_
  have parts := trace_hostPort (n := n + 2) valid.host valid.port
  have unread : ∀ {u : Str}, u ∈ lang false userinfo → commat ∉ u := not_mem_of_mem_lang (by decide) (by decide)
  rw [Authority.text]
  cases user : a.userinfo with
  | none =>
    have absent : commat ∉ a.host ++ behind colon a.port := by
      have free : Free (.of "@") (a.host ++ behind colon a.port) :=
        ((hostLike valid.host).free.mono (by decide)).append (.behind (by decide) fun p mem =>
          .of_mem_lang (by decide) (by decide) (valid.port p mem))
      exact free.not_mem (by decide)
    exact Trace.optional_absent (by decide) (by decide) absent parts
  | some u =>
    have inU : u ∈ lang false userinfo := valid.userinfo u user
    rw [before, List.append_assoc, List.singleton_append]
    exact Trace.optional_present (by decide) (by decide) (by decide) (by decide) (by decide) inU (fired_stray inU) parts

end Host

/-! ## References -/

section References

variable {n : Nat} {q f : Option Str} {a : Authority} {path : Str} {pathPart others : Rule} {l : List (Event Action)}

def queryFragmentEvents (n : Nat) (q f : Option Str) : List (Event Action) :=
  optionEvents n .marku .saveQuery q ++
    (optionEvents (n + 2) .marku .saveFragment f).map (.shift (behind question q).length)

theorem trace_queryFragment (inQ : ∀ u ∈ q, u ∈ lang false Rfc3986.query)
    (inF : ∀ u ∈ f, u ∈ lang false Rfc3986.fragment) :
    Trace false n queryFragment (behind question q ++ behind hash f) (queryFragmentEvents n q f) := by
  refine Trace.seq (by decide) (by decide) (by decide) ?_ ?_
    (trace_option (by decide) (by decide) (fun _ => mem_lang_lit "?") (by decide) (by decide) inQ)
    (trace_option (by decide) (by decide) (fun _ => mem_lang_lit "#") (by decide) (by decide) inF)
  · refine (Rfc3986.mem_lang_behind (lit "?") fun _ => mem_lang_lit "?").mpr ⟨q, ?_, rfl⟩
    rw [lang_query]
    exact inQ
  · refine (Rfc3986.mem_lang_behind (lit "#") fun _ => mem_lang_lit "#").mpr ⟨f, ?_, rfl⟩
    rw [lang_fragment]
    exact inF

/-- `"//" authority` and what follows, where the other alternatives execute nothing. -/
theorem trace_hier (plainP : pathPart.plain = true) (apart : authority.uses.disjoint pathPart.startSet = true)
    (plainO : others.plain = true) (quietO : others.size = 0) (valid : a.Valid host) (inPath : path ∈ lang false pathPart)
    (tp : Trace false (n + 6) pathPart path l) :
    Trace false n (alt (cat [lit "//", authority, pathPart]) others) (Rfc3986.authorityText (some a) ++ path)
      ((authorityEvents n a ++ l.map (Event.shift a.text.length)).map (Event.shift 2)) := by
  have inside : a.text ∈ lang false authority := by
    rw [lang_authority]
    exact Rfc3986.mem_lang_authority.mpr ⟨a, valid, rfl⟩
  have inner : Trace false n (seq authority pathPart) (a.text ++ path)
      (authorityEvents n a ++ l.map (Event.shift a.text.length)) :=
    Trace.seq (by decide) plainP apart inside inPath (trace_authority valid) tp
  have slashes : [slash, slash] ∈ lang false (lit "//" : Rule) := (mem_lang_lit "//").mpr rfl
  have fixed : ∀ u ∈ lang false (lit "//" : Rule), u.length = [slash, slash].length := fun u inU => by
    rw [(mem_lang_lit "//").mp inU]
    rfl
  rw [← List.append_nil (List.map ..)]
  exact Trace.alt (Trace.seq_fixed (by decide) (by decide) slashes fixed inner) (Trace.quiet plainO quietO) (by simp)

/-- Without two slashes, nothing is executed. -/
theorem trace_alone (plainO : others.plain = true) (quietO : others.size = 0) {s : Str}
    (alone : ∀ z, s ≠ slash :: slash :: z) : Trace false n (alt (cat [lit "//", authority, pathPart]) others) s [] := by
  have none : Trace false n (cat [lit "//", authority, pathPart]) s [] :=
    Trace.seq_none (by decide) (by decide) fun u v eq inU => by
      rw [(mem_lang_lit "//").mp inU] at eq
      exact alone v eq
  exact Trace.alt none (Trace.quiet plainO quietO) (by simp)

/-- `path_abempty > markh %save_path`. -/
def pathEvents (n : Nat) (path : Str) : List (Event Action) := [⟨0, n, .markh⟩, ⟨path.length, n + 1, .savePath⟩]

def hierEvents (n : Nat) (path : Str) : Option Authority → List (Event Action)
  | none => []
  | some a => (authorityEvents n a ++ (pathEvents (n + 6) path).map (Event.shift a.text.length)).map (Event.shift 2)

def relativeEvents (n : Nat) : Option Authority → List (Event Action)
  | none => []
  | some a => (authorityEvents n a).map (Event.shift 2)

/-- Where a scheme could begin. -/
def letterFirst (s : Str) : Bool := s.head?.any ByteSet.alpha.mem

/-- What is executed on a reference. -/
def referenceEvents (p : Parts) : List (Event Action) :=
  match p.scheme with
  | some name =>
    [⟨0, 0, .marku⟩, ⟨name.length, 1, .saveScheme⟩] ++
      ((hierEvents 2 p.path p.authority ++ (queryFragmentEvents 10 p.query p.fragment).map
        (Event.shift p.hier.length)).map (Event.shift 1)).map (Event.shift name.length)
  | none =>
    (if letterFirst p.text then [⟨0, 0, .marku⟩] else []) ++
      (relativeEvents 14 p.authority ++ (queryFragmentEvents 20 p.query p.fragment).map (Event.shift p.hier.length))

variable {p : Parts}

theorem trace_hierPart {name : Str} (valid : p.Valid host) (named : p.scheme = some name) :
    Trace false n hierPart p.hier (hierEvents n p.path p.authority) := by
  have inPath := valid.path
  rw [Parts.hier]
  cases eq : p.authority with
  | none =>
    rw [eq, named] at inPath
    exact trace_alone (by decide) (by decide) (Rfc3986.path_alone (by decide) (by decide) inPath)
  | some a =>
    rw [eq] at inPath
    have inside : p.path ∈ lang false pathAbempty := by
      rw [lang_pathAbempty]
      exact inPath
    refine trace_hier (by decide) (by decide) (by decide) (by decide) (valid.authority a eq) ?_
      (trace_marked (by decide) (by decide) inside)
    rw [leaving, entering, lang_leave, lang_enter]
    exact inside

theorem trace_relativePart (valid : p.Valid host) (unnamed : p.scheme = none) :
    Trace false n relativePart p.hier (relativeEvents n p.authority) := by
  have inPath := valid.path
  rw [Parts.hier]
  cases eq : p.authority with
  | none =>
    rw [eq, unnamed] at inPath
    exact trace_alone (by decide) (by decide) (Rfc3986.path_alone (by decide) (by decide) inPath)
  | some a =>
    rw [eq] at inPath
    have inside : p.path ∈ lang false pathAbempty := by
      rw [lang_pathAbempty]
      exact inPath
    have silent : Trace false (n + 6) pathAbempty p.path [] := Trace.quiet (by decide) (by decide)
    have hier : Trace false n relativePart (Rfc3986.authorityText (some a) ++ p.path) _ :=
      trace_hier (by decide) (by decide) (by decide) (by decide) (valid.authority a eq) inside silent
    rw [List.map_nil, List.append_nil] at hier
    exact hier

theorem mem_lang_hierPart {name : Str} (valid : p.Valid host) (named : p.scheme = some name) :
    p.hier ∈ lang false hierPart := by
  have inPath := valid.path
  have language : lang false hierPart = lang false (Rfc3986.hierPart host) := by
    simp only [hierPart, Rfc3986.hierPart, cat, oneOf, entering, leaving, lang_seq, lang_alt, lang_enter, lang_leave,
      lang_authority, lang_pathAbempty]
    rfl
  rw [language, Rfc3986.hierPart, oneOf, Rfc3986.mem_lang_hier, Parts.hier]
  cases eq : p.authority with
  | none =>
    rw [eq, named] at inPath
    exact .inr inPath
  | some a =>
    rw [eq] at inPath
    exact .inl ⟨a, valid.authority a eq, p.path, inPath, rfl⟩

theorem lang_relativePart : lang false relativePart = lang false (Rfc3986.relativePart host) := by
  simp only [relativePart, Rfc3986.relativePart, cat, oneOf, lang_seq, lang_alt, lang_authority, lang_pathAbempty]
  rfl

theorem mem_lang_relativePart (valid : p.Valid host) (unnamed : p.scheme = none) :
    p.hier ∈ lang false relativePart := by
  have inPath := valid.path
  rw [lang_relativePart, Rfc3986.relativePart, oneOf, Rfc3986.mem_lang_hier, Parts.hier]
  cases eq : p.authority with
  | none =>
    rw [eq, unnamed] at inPath
    exact .inr inPath
  | some a =>
    rw [eq] at inPath
    exact .inl ⟨a, valid.authority a eq, p.path, inPath, rfl⟩

/-- The start of a relative reference has no scheme. -/
theorem splitScheme_relativePart {u : Str} (inside : u ∈ lang false relativePart) :
    Rfc3986.splitScheme u = (none, u) := by
  rw [lang_relativePart, Rfc3986.relativePart, oneOf, Rfc3986.mem_lang_hier] at inside
  rcases inside with ⟨a, -, path, -, rfl⟩ | inside
  · exact Rfc3986.splitScheme_none (u := []) (by simp) fun c z eq => (List.cons.inj eq).1.symm
  · obtain ⟨v, rest, rfl, all, stop⟩ := Rfc3986.path_segment inside
    exact Rfc3986.splitScheme_none all stop

theorem mem_lang_queryFragment (valid : p.Valid host) :
    behind question p.query ++ behind hash p.fragment ∈ lang false queryFragment := by
  rw [lang_queryFragment, Rfc3986.mem_lang_queryFragment]
  exact ⟨p.query, p.fragment, valid.query, valid.fragment, rfl⟩

/-- A scheme and a colon do not begin a relative part. -/
theorem not_relativePart {name rest : Str} (inName : name ∈ lang false Rfc3986.scheme) :
    name ++ colon :: rest ∉ lang false relativePart := by
  intro inside
  obtain ⟨some, all⟩ := Rfc3986.inScheme_of_mem_lang inName
  have split := splitScheme_relativePart inside
  rw [Rfc3986.splitScheme_some some all rest] at split
  cases (Prod.mk.inj split).1

theorem text_named {name : Str} (named : p.scheme = some name) :
    p.text = name ++ ([colon] ++ (p.hier ++ (behind question p.query ++ behind hash p.fragment))) := by
  rw [Parts.text, named, before, List.append_assoc]

theorem text_unnamed (unnamed : p.scheme = none) :
    p.text = p.hier ++ (behind question p.query ++ behind hash p.fragment) := by
  rw [Parts.text, unnamed]
  rfl

/-- A reference with a scheme, as it is read by the rule for URIs. -/
theorem trace_uri {name : Str} (valid : p.Valid host) (named : p.scheme = some name) :
    Trace false 0 uri p.text (referenceEvents p) := by
  have inName : name ∈ lang false Rfc3986.scheme := valid.scheme name named
  have inHier := mem_lang_hierPart valid named
  have inRest := mem_lang_queryFragment valid
  have inTail : p.hier ++ (behind question p.query ++ behind hash p.fragment) ∈
      lang false (seq hierPart queryFragment) := mem_lang_seq.mpr ⟨_, inHier, _, inRest, rfl⟩
  have isColon : [colon] ∈ lang false (lit ":" : Rule) := (mem_lang_lit ":").mpr rfl
  have fixed : ∀ u ∈ lang false (lit ":" : Rule), u.length = [colon].length := fun u inU => by
    rw [(mem_lang_lit ":").mp inU]
    rfl
  have tail : Trace false 2 (seq hierPart queryFragment)
      (p.hier ++ (behind question p.query ++ behind hash p.fragment))
      (hierEvents 2 p.path p.authority ++ (queryFragmentEvents 10 p.query p.fragment).map
        (Event.shift p.hier.length)) :=
    Trace.seq (by decide) (by decide) (by decide) inHier inRest (trace_hierPart valid named)
      (trace_queryFragment valid.query valid.fragment)
  rw [text_named named, referenceEvents, named]
  refine Trace.seq (by decide) (by decide) (by decide) (by rw [lang_scheme]; exact inName)
    (mem_lang_seq.mpr ⟨_, isColon, _, inTail, rfl⟩) (trace_marked (by decide) (by decide) inName) ?_
  exact Trace.seq_fixed (by decide) (by decide) isColon fixed tail

/-- The rule for relative references executes nothing on it. -/
theorem trace_relativeRef_named {name : Str} (valid : p.Valid host) (named : p.scheme = some name) :
    Trace false 14 relativeRef p.text [] := by
  have inName : name ∈ lang false Rfc3986.scheme := valid.scheme name named
  obtain ⟨some, -⟩ := Rfc3986.inScheme_of_mem_lang inName
  have noSlash : slash ∉ name := not_mem_of_mem_lang (by decide) (by decide) inName
  rw [text_named named]
  have alone : ∀ z, name ++ ([colon] ++ (p.hier ++ (behind question p.query ++ behind hash p.fragment))) ≠
      slash :: slash :: z := by
    intro z eq
    obtain ⟨d, name', rfl⟩ := List.exists_cons_of_ne_nil some
    obtain rfl := (List.cons.inj eq).1
    exact noSlash List.mem_cons_self
  have silent : Trace false 14 relativePart _ [] := trace_alone (by decide) (by decide) alone
  refine Trace.seq_away (by decide) (by decide) silent.fired_nil fun u v eq inU => ?_
  rcases List.append_eq_append_iff.mp eq with ⟨u', rfl, eq'⟩ | ⟨u', rfl, rfl⟩
  · -- the relative part would go on behind the colon
    cases u' with
    | nil =>
      rw [List.nil_append] at eq'
      refine ⟨fun none => (by rw [none] at eq'; cases eq'), fun c z eq'' => ?_⟩
      rw [eq''] at eq'
      obtain rfl := (List.cons.inj eq').1
      decide
    | cons d u' =>
      obtain rfl := (List.cons.inj eq').1
      exact absurd inU (not_relativePart inName)
  · -- what follows it is still of the scheme
    refine ⟨fun none => by simp at none, fun c z eq'' => ?_⟩
    cases u' with
    | nil =>
      obtain rfl := (List.cons.inj eq'').1
      decide
    | cons d u' =>
      obtain rfl := (List.cons.inj eq'').1
      have read := mem_uses_of_mem_lang (by decide) inName d (by simp)
      exact ByteSet.not_mem_of_disjoint (by decide) read

theorem starts_scheme {c : UInt8} : Starts false Rfc3986.scheme c ↔ ByteSet.alpha.mem c = true := by
  constructor
  · intro starts
    have start := mem_startSet_of_starts (by decide) starts
    have set : startSet Rfc3986.scheme = .alpha := by decide
    rw [set] at start
    exact start
  · intro letter
    exact ⟨_, List.mem_cons_self, letter, fun conditional => by cases conditional⟩

theorem fired_scheme (s : Str) :
    Fired false (scheme.numbered 0) [] s (if letterFirst s then [⟨0, 0, .marku⟩] else []) := by
  have fires : ∀ {v : Str} {c : UInt8} {x : Nat × Action}, Fires false (scheme.numbered 0) v c x ↔
      v = [] ∧ x = (0, .marku) ∧ ByteSet.alpha.mem c = true := by
    intro v c x
    have number : scheme.numbered 0 = leave 1 .saveScheme (enter 0 .marku Rfc3986.scheme) := by decide
    rw [number, fires_leave, fires_enter, starts_scheme]
    exact or_iff_right (not_fires_of_quiet (by decide) (by decide))
  refine ⟨by split <;> simp, fun t => ⟨fun mem => ?_, ?_⟩⟩
  · split at mem
    · rename_i letter
      obtain rfl := List.mem_singleton.mp mem
      cases s with
      | nil => cases letter
      | cons d s => exact ⟨[], d, s, rfl, rfl, fires.mpr ⟨rfl, rfl, letter⟩⟩
    · cases mem
  · rintro ⟨v₁, c, v₂, rfl, pos, fires'⟩
    obtain ⟨rfl, same, letter⟩ := fires.mp fires'
    obtain ⟨order, action⟩ := Prod.mk.inj same
    have isLetter : letterFirst (c :: v₂) = true := letter
    rw [List.nil_append, if_pos isLetter, List.mem_singleton]
    exact Event.ext (by simpa using pos) order action

/-- On a relative reference, the rule for URIs only begins a scheme. -/
theorem trace_uri_unnamed (valid : p.Valid host) (unnamed : p.scheme = none) :
    Trace false 0 uri p.text (if letterFirst p.text then [⟨0, 0, .marku⟩] else []) := by
  have inHier := mem_lang_relativePart valid unnamed
  have inRest := mem_lang_queryFragment valid
  have head : ∀ {c : UInt8} {z : Str}, behind question p.query ++ behind hash p.fragment = c :: z →
      queryFragment.startSet.mem c = true := by
    intro c z eq
    rw [eq] at inRest
    exact mem_startSet_of_mem_lang (by decide) inRest
  refine Trace.seq_away (by decide) (by decide) (fired_scheme _) fun u v eq inU => ⟨fun _ => ?_, fun c z eq' => ?_⟩
  · rw [nil_mem_lang]
    decide
  · rw [lang_scheme] at inU
    have set : startSet (cat [lit ":", hierPart, queryFragment]) = .single colon := by decide
    change (startSet (cat [lit ":", hierPart, queryFragment])).mem c = false
    rw [set, Bool.eq_false_iff]
    intro isColon
    obtain rfl := (ByteSet.mem_single colon c).mp isColon
    rw [text_unnamed unnamed, eq'] at eq
    rcases List.append_eq_append_iff.mp eq with ⟨u', rfl, eq''⟩ | ⟨u', split, eq''⟩
    · cases u' with
      | nil => exact absurd (head eq'') (by decide)
      | cons d u' =>
        have read := mem_uses_of_mem_lang (by decide) inU d (by simp)
        have not : queryFragment.startSet.mem d = false := ByteSet.not_mem_of_disjoint (by decide) read
        rw [head eq''] at not
        cases not
    · cases u' with
      | nil => exact absurd (head eq''.symm) (by decide)
      | cons d u' =>
        obtain rfl := (List.cons.inj eq'').1
        rw [split] at inHier
        exact not_relativePart inU inHier

/-- The trace of a reference. -/
theorem trace_reference (valid : p.Valid host) : Trace false 0 uriReference p.text (referenceEvents p) := by
  cases named : p.scheme with
  | some name =>
    rw [← List.append_nil (referenceEvents p)]
    exact Trace.alt (trace_uri valid named) (trace_relativeRef_named valid named) (by simp)
  | none =>
    have relative : Trace false 14 relativeRef p.text
        (relativeEvents 14 p.authority ++ (queryFragmentEvents 20 p.query p.fragment).map
          (Event.shift p.hier.length)) := by
      rw [text_unnamed named]
      exact Trace.seq (by decide) (by decide) (by decide) (mem_lang_relativePart valid named)
        (mem_lang_queryFragment valid) (trace_relativePart valid named) (trace_queryFragment valid.query valid.fragment)
    have before : ∀ t ∈ (if letterFirst p.text then [⟨0, 0, .marku⟩] else [] : List (Event Action)),
        ∀ t' ∈ relativeEvents 14 p.authority ++ (queryFragmentEvents 20 p.query p.fragment).map
          (Event.shift p.hier.length), t.Before t' := by
      intro t mem t' mem'
      have later := ((relative.mem t').mp mem').order.1
      split at mem
      · obtain rfl := List.mem_singleton.mp mem
        by_cases zero : t'.pos = 0
        · exact .inr ⟨zero.symm, Nat.lt_of_lt_of_le (by decide) later⟩
        · exact .inl (Nat.pos_of_ne_zero zero)
      · cases mem
    rw [referenceEvents, named]
    exact Trace.alt (trace_uri_unnamed valid named) relative before

end References

end Sylar.UriParser
