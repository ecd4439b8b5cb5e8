import Sylar.Http.RequestLine
import Sylar.Uri.Rfc3986

/-!
# Request targets

What the request machine executes on a target. A target is a path with a query and a fragment behind it, and may
have a scheme before it. The machine reads a target without a scheme and one with a scheme side by side, until it
finds a colon or something that no scheme has in it; up to there it has set `mark` only, so that the callbacks are
those of the path, the query and the fragment (`trace_reference`).
-/

namespace Sylar.Http.Request

open Lib Lib.Ragel
open Rfc3986 (behind before question hash slash mem_lang_behind)

variable {ok : Bool} {part : Rule} {n : Nat} {w : Str}

/-! ## Words -/

/-- What a query and a fragment are made of. -/
def queryText : Rule := star (oneOf [pchar, lit "/", lit "?"])

theorem lang_query (ok : Bool) : lang ok query = lang ok queryText := lang_leave ..

theorem lang_fragmentRule (ok : Bool) : lang ok fragmentRule = lang ok queryText :=
  (lang_leave ..).trans (lang_enter ..)

/-- What follows the scheme of a target. -/
structure Target (ok : Bool) where
  path : Str
  query : Option Str
  fragment : Option Str
  inQuery : ∀ q ∈ query, q ∈ lang ok queryText
  inFragment : ∀ f ∈ fragment, f ∈ lang ok queryText

namespace Target

variable (t : Target ok)

/-- The path with the query behind it. -/
def pathQuery : Str := t.path ++ behind question t.query

def text : Str := t.pathQuery ++ behind hash t.fragment

end Target

/-- `( "?" %start_query query )?` and `( "#" fragment )?`. -/
def queryPart : Rule := opt (seq (leaving .startQuery (lit "?")) query)
def fragmentPart : Rule := opt (seq (lit "#") fragmentRule)

/-- `part %request_path ( "?" %start_query query )?`. -/
def pathQuery (part : Rule) : Rule := seq (leaving .requestPath part) queryPart

theorem mem_lang_question : w ∈ lang ok (leaving .startQuery (lit "?")) ↔ w = [question] := by
  rw [leaving, lang_leave]
  exact mem_lang_lit "?"

theorem mem_lang_pathQuery : w ∈ lang ok (pathQuery part) ↔
    ∃ p ∈ lang ok part, ∃ q : Option Str, (∀ u ∈ q, u ∈ lang ok queryText) ∧ w = p ++ behind question q := by
  rw [pathQuery, mem_lang_seq, leaving, lang_leave, queryPart]
  simp only [mem_lang_behind (leaving .startQuery (lit "?")) fun _ => mem_lang_question, lang_query]
  constructor
  · rintro ⟨p, inPart, _, ⟨q, inQuery, rfl⟩, rfl⟩
    exact ⟨p, inPart, q, inQuery, rfl⟩
  · rintro ⟨p, inPart, q, inQuery, rfl⟩
    exact ⟨p, inPart, _, ⟨q, inQuery, rfl⟩, rfl⟩

theorem mem_lang_pathQueryFragment : w ∈ lang ok (pathQueryFragment part) ↔
    ∃ t : Target ok, t.path ∈ lang ok part ∧ w = t.text := by
  change w ∈ lang ok (seq (leaving .requestUri (entering .mark (pathQuery part))) fragmentPart) ↔ _
  rw [mem_lang_seq, leaving, lang_leave, entering, lang_enter, fragmentPart]
  simp only [mem_lang_behind (lit "#") fun _ => mem_lang_lit "#", mem_lang_pathQuery, lang_fragmentRule]
  constructor
  · rintro ⟨_, ⟨p, inPart, q, inQuery, rfl⟩, _, ⟨f, inFragment, rfl⟩, rfl⟩
    exact ⟨⟨p, q, f, inQuery, inFragment⟩, inPart, rfl⟩
  · rintro ⟨t, inPart, rfl⟩
    exact ⟨_, ⟨t.path, inPart, t.query, t.inQuery, rfl⟩, _, ⟨t.fragment, t.inFragment, rfl⟩, rfl⟩

/-! ## Events -/

def queryEvents (n : Nat) : Option Str → List (Event Action)
  | none => []
  | some u => [⟨1, n, .startQuery⟩, ⟨1 + u.length, n + 1, .queryString⟩]

def fragmentEvents (n : Nat) : Option Str → List (Event Action)
  | none => []
  | some u => [⟨1, n, .mark⟩, ⟨1 + u.length, n + 1, .fragment⟩]

namespace Target

variable (t : Target ok)

/-- What is executed on the path and the query. -/
def uriEvents (n : Nat) : List (Event Action) :=
  [⟨0, n, .mark⟩, ⟨t.path.length, n + 1, .requestPath⟩] ++ (queryEvents (n + 2) t.query).map (.shift t.path.length) ++
    [⟨t.pathQuery.length, n + 4, .requestUri⟩]

/-- What is executed behind the scheme. -/
def events (n : Nat) : List (Event Action) :=
  t.uriEvents n ++ (fragmentEvents (n + 5) t.fragment).map (.shift t.pathQuery.length)

end Target

theorem trace_absent {a : Rule} (isPlain : a.plain = true) (some : a.nullable = none) : Trace ok n (opt a) [] [] := by
  refine Trace.optional (Trace.empty isPlain fun inside => ?_)
  rw [nil_mem_lang, some] at inside
  cases inside

theorem trace_query {q : Option Str} (inQuery : ∀ u ∈ q, u ∈ lang ok queryText) :
    Trace ok n queryPart (behind question q) (queryEvents n q) := by
  cases q with
  | none => exact trace_absent (by decide) (by decide)
  | some u =>
    have first : Trace ok n (leaving .startQuery (lit "?")) [question] [⟨1, n, .startQuery⟩] :=
      Trace.leave (by decide) ((mem_lang_lit "?").mpr rfl) (Trace.quiet (by decide) (by decide))
    have second : Trace ok (n + 1) query u [⟨u.length, n + 1, .queryString⟩] :=
      Trace.leave (by decide) (inQuery u rfl) (Trace.quiet (by decide) (by decide))
    have inside : u ∈ lang ok query := by
      rw [lang_query]
      exact inQuery u rfl
    -- the delimiter is one byte, so that it is known where it ends
    refine Trace.optional (Trace.seq_of_cut (by decide) (by decide) (mem_lang_question.mpr rfl) inside
      (fun w d z x fires => ?_) (fun u' v' inDelimiter _ _ => (mem_lang_question.mp inDelimiter).symm) first second)
    exact absurd (fires_leave.mp fires)
      (not_fires_of_quiet ((plain_numbered _ n).trans (by decide)) ((size_numbered _ n).trans (by decide)))

theorem trace_fragment {f : Option Str} (inFragment : ∀ u ∈ f, u ∈ lang ok queryText) :
    Trace ok n fragmentPart (behind hash f) (fragmentEvents n f) := by
  cases f with
  | none => exact trace_absent (by decide) (by decide)
  | some u =>
    have marked : Trace ok n fragmentRule u [⟨0, n, .mark⟩, ⟨u.length, n + 1, .fragment⟩] :=
      Trace.marked (by decide) (by decide) (inFragment u rfl)
    have fixed : ∀ u' ∈ lang ok (lit "#" : Rule), u'.length = [hash].length := fun u' inside => by
      rw [(mem_lang_lit "#").mp inside]
      rfl
    exact Trace.optional (Trace.seq_fixed (by decide) (by decide) ((mem_lang_lit "#").mpr rfl) fixed marked)

/-- The bytes that end a path. -/
def pathEnds : ByteSet := .of "?#"

/-- What a path is matched with: an expression that reads no delimiter and executes nothing. -/
structure IsPart (part : Rule) : Prop where
  plain : part.plain = true
  quiet : part.size = 0
  free : part.uses.disjoint pathEnds = true
  query : part.uses.disjoint queryPart.startSet = true
  fragment : (pathQuery part).uses.disjoint fragmentPart.startSet = true

theorem IsPart.plain_pathQuery (isPart : IsPart part) : (pathQuery part).plain = true := by
  have plainQuery : queryPart.plain = true := by decide
  rw [pathQuery, Ragel.plain, plainQuery, Bool.and_true]
  exact isPart.plain

theorem IsPart.size_path (isPart : IsPart part) : (leaving .requestPath part).size = 1 :=
  congrArg (· + 1) isPart.quiet

theorem IsPart.size_marked (isPart : IsPart part) : (entering .mark (pathQuery part)).size = 4 := by
  have querySize : queryPart.size = 2 := by decide
  rw [entering, Ragel.size, pathQuery, Ragel.size, isPart.size_path, querySize]

theorem isPart_relativePart : IsPart relativePart := ⟨by decide, by decide, by decide, by decide, by decide⟩

theorem isPart_hierPart : IsPart hierPart := ⟨by decide, by decide, by decide, by decide, by decide⟩

theorem trace_uri (isPart : IsPart part) (t : Target ok) (inPart : t.path ∈ lang ok part)
    (inBoth : t.pathQuery ∈ lang ok (pathQuery part)) :
    Trace ok n (leaving .requestUri (entering .mark (pathQuery part))) t.pathQuery (t.uriEvents n) := by
  have inPath : t.path ∈ lang ok (leaving .requestPath part) := by
    rw [leaving, lang_leave]
    exact inPart
  have inQuery : behind question t.query ∈ lang ok queryPart := by
    refine (mem_lang_behind _ fun _ => mem_lang_question).mpr ⟨t.query, ?_, rfl⟩
    rw [lang_query]
    exact t.inQuery
  have path : Trace ok (n + 1) (leaving .requestPath part) t.path [⟨t.path.length, n + 1, .requestPath⟩] := by
    have left := Trace.leave (k := 0) (y := Action.requestPath) isPart.plain inPart
      (Trace.quiet (n := n + 1) isPart.plain isPart.quiet)
    rw [isPart.quiet] at left
    exact left
  have plain := isPart.plain_pathQuery
  have both : Trace ok (n + 1) (pathQuery part) t.pathQuery
      ([⟨t.path.length, n + 1, .requestPath⟩] ++ (queryEvents (n + 2) t.query).map (.shift t.path.length)) := by
    have plainPath : (leaving .requestPath part).plain = true := isPart.plain
    refine Trace.seq plainPath (by decide) isPart.query inPath inQuery path ?_
    rw [isPart.size_path]
    exact trace_query t.inQuery
  have marked := Trace.enter (k := 0) (y := Action.mark) plain inBoth both
  have inMarked : t.pathQuery ∈ lang ok (entering .mark (pathQuery part)) := by
    rw [entering, lang_enter]
    exact inBoth
  have plainMarked : (entering .mark (pathQuery part)).plain = true := plain
  have left := Trace.leave (k := 0) (y := Action.requestUri) plainMarked inMarked marked
  rw [isPart.size_marked] at left
  exact left

theorem trace_pathQueryFragment (isPart : IsPart part) (t : Target ok) (inPart : t.path ∈ lang ok part) :
    Trace ok n (pathQueryFragment part) t.text (t.events n) := by
  have inBoth : t.pathQuery ∈ lang ok (pathQuery part) := mem_lang_pathQuery.mpr ⟨_, inPart, _, t.inQuery, rfl⟩
  have inUri : t.pathQuery ∈ lang ok (leaving .requestUri (entering .mark (pathQuery part))) := by
    rw [leaving, lang_leave, entering, lang_enter]
    exact inBoth
  have inFragment : behind hash t.fragment ∈ lang ok fragmentPart := by
    refine (mem_lang_behind _ fun _ => mem_lang_lit "#").mpr ⟨t.fragment, ?_, rfl⟩
    rw [lang_fragmentRule]
    exact t.inFragment
  have plainUri : (leaving .requestUri (entering .mark (pathQuery part))).plain = true := isPart.plain_pathQuery
  have fragment : Trace ok (n + (leaving .requestUri (entering .mark (pathQuery part))).size) fragmentPart
      (behind hash t.fragment) (fragmentEvents (n + 5) t.fragment) := by
    rw [leaving, Ragel.size, isPart.size_marked]
    exact trace_fragment t.inFragment
  exact Trace.seq plainUri (by decide) isPart.fragment inUri inFragment (trace_uri isPart t inPart inBoth) fragment

/-! ## Schemes -/

/-- No byte of a path without a scheme is a colon before its first slash. -/
theorem relativePart_split {p : Str} (inside : p ∈ lang ok relativePart) :
    ∃ x rest, p = x ++ rest ∧ Rfc3986.colon ∉ x ∧ ∀ c z, rest = c :: z → c = slash := by
  have absolute : ∀ {e : Rule}, e.plain = true → e.startSet = .single slash → p ∈ lang ok e →
      ∃ x rest, p = x ++ rest ∧ Rfc3986.colon ∉ x ∧ ∀ c z, rest = c :: z → c = slash := by
    intro e isPlain only inside
    refine ⟨[], p, rfl, List.not_mem_nil, fun c z eq => ?_⟩
    rw [eq] at inside
    have start := mem_startSet_of_mem_lang isPlain inside
    rw [only] at start
    exact (ByteSet.mem_single ..).mp start
  rcases mem_lang_alt.mp inside with inside | inside
  · exact absolute (by decide) (by decide) inside
  · rcases mem_lang_alt.mp inside with inside | inside
    · exact absolute (by decide) (by decide) inside
    · rcases mem_lang_alt.mp inside with inside | inside
      · obtain ⟨x, inX, rest, inRest, rfl⟩ := mem_lang_seq.mp inside
        refine ⟨x, rest, rfl, not_mem_of_mem_lang (by decide) (by decide) inX, fun c z eq => ?_⟩
        rw [eq] at inRest
        have only : (star (seq (lit "/") segment)).startSet = .single slash := by decide
        have start := mem_startSet_of_mem_lang (by decide) inRest
        rw [only] at start
        exact (ByteSet.mem_single ..).mp start
      · change p ∈ lang ok (eps : Rule) at inside
        rw [lang_eps] at inside
        exact ⟨[], [], (Language.mem_one p).mp inside, List.not_mem_nil, fun c z eq => by cases eq⟩

/-- The bytes of a scheme and the colon behind it. -/
def schemeByte : ByteSet := (ByteSet.alpha.union .digit).union (.of "+-.:")

theorem mem_schemeByte {s : Str} (isScheme : s ∈ lang ok scheme) : ∀ c ∈ s, schemeByte.mem c = true := by
  have sub : scheme.uses.subset schemeByte = true := by decide
  exact fun c mem => ByteSet.mem_of_subset sub (mem_uses_of_mem_lang (by decide) isScheme c mem)

/-- A path without a scheme, up to its end, does not begin with a scheme. -/
theorem no_scheme {p rest s z : Str} (inside : p ∈ lang ok relativePart)
    (ends : ∀ c y, rest = c :: y → pathEnds.mem c = true) (isScheme : s ∈ lang ok scheme) :
    p ++ rest ≠ s ++ Rfc3986.colon :: z := by
  obtain ⟨x, r, rfl, noColon, slashes⟩ := relativePart_split inside
  have head : ∀ c y, r ++ rest = c :: y → schemeByte.mem c = false := by
    intro c y eq
    cases r with
    | nil =>
      have apart : pathEnds.disjoint schemeByte = true := by decide
      exact ByteSet.not_mem_of_disjoint apart (ends c y eq)
    | cons d r =>
      obtain ⟨rfl, -⟩ := List.cons.inj eq
      rw [slashes d r rfl]
      decide
  have colonByte : schemeByte.mem Rfc3986.colon = true := by decide
  intro eq
  rw [List.append_assoc] at eq
  rcases List.append_eq_append_iff.mp eq with ⟨u, rfl, tail⟩ | ⟨u, rfl, tail⟩
  · cases u with
    | nil => exact absurd (head _ _ tail) (by rw [colonByte]; decide)
    | cons d u =>
      have inScheme := mem_schemeByte isScheme d (List.mem_append_right x List.mem_cons_self)
      rw [head _ _ tail] at inScheme
      cases inScheme
  · cases u with
    | nil => exact absurd (head _ _ tail.symm) (by rw [colonByte]; decide)
    | cons d u =>
      obtain ⟨rfl, -⟩ := List.cons.inj tail
      exact noColon (List.mem_append_right s List.mem_cons_self)

/-! ## The whole target -/

/-- A target that the grammar takes apart in one way. -/
structure Reference (ok : Bool) extends Target ok where
  scheme : Option Str
  isScheme : ∀ s ∈ scheme, s ∈ lang ok Request.scheme
  inPart : path ∈ lang ok (if scheme.isSome then hierPart else relativePart)

/-- A query in front of what ends a path ends the path too. -/
theorem ends_behind {q : Option Str} {v : Str} (ends : ∀ c y, v = c :: y → pathEnds.mem c = true) :
    ∀ c y, behind question q ++ v = c :: y → pathEnds.mem c = true := by
  intro c y eq
  cases q with
  | none => exact ends c y eq
  | some q =>
    obtain ⟨rfl, -⟩ := List.cons.inj eq
    decide

theorem Target.ends (t : Target ok) : ∀ c y, behind question t.query ++ behind hash t.fragment = c :: y →
    pathEnds.mem c = true := by
  refine ends_behind fun c y eq => ?_
  cases fragment : t.fragment with
  | none =>
    rw [fragment] at eq
    cases eq
  | some f =>
    rw [fragment] at eq
    obtain ⟨rfl, -⟩ := List.cons.inj eq
    decide

/-- Without a scheme, nothing is executed for one. -/
theorem trace_uri_none (t : Target ok) (inPart : t.path ∈ lang ok relativePart) : Trace ok n uri t.text [] := by
  refine Trace.seq_away (by decide) (by decide) (Trace.fired_nil (Trace.quiet (by decide) (by decide))) ?_
  intro s v eq isScheme
  refine ⟨fun _ inside => ?_, fun c z rest => ?_⟩
  · rw [nil_mem_lang] at inside
    cases inside
  · have only : (seq (lit ":") (pathQueryFragment hierPart)).startSet = .single Rfc3986.colon := by decide
    change (seq (lit ":") (pathQueryFragment hierPart)).startSet.mem c = false
    rw [only, ← Bool.not_eq_true, ByteSet.mem_single]
    rintro rfl
    rw [rest, Target.text, Target.pathQuery, List.append_assoc] at eq
    exact no_scheme inPart t.ends isScheme eq

theorem trace_uri_some {s : Str} (isScheme : s ∈ lang ok scheme) (t : Target ok) (inPart : t.path ∈ lang ok hierPart) :
    Trace ok n uri (s ++ Rfc3986.colon :: t.text) ((t.events n).map (.shift (s.length + 1))) := by
  have colonFixed : ∀ u ∈ lang ok (lit ":" : Rule), u.length = [Rfc3986.colon].length := fun u inside => by
    rw [(mem_lang_lit ":").mp inside]
    rfl
  have inColon : [Rfc3986.colon] ∈ lang ok (lit ":" : Rule) := (mem_lang_lit ":").mpr rfl
  have inText : t.text ∈ lang ok (pathQueryFragment hierPart) := mem_lang_pathQueryFragment.mpr ⟨t, inPart, rfl⟩
  have behindColon : Trace ok n (seq (lit ":") (pathQueryFragment hierPart)) (Rfc3986.colon :: t.text)
      ((t.events n).map (.shift 1)) :=
    Trace.seq_fixed (by decide) (by decide) inColon colonFixed (trace_pathQueryFragment isPart_hierPart t inPart)
  have whole := Trace.seq (by decide) (by decide) (by decide) isScheme
    (mem_lang_seq.mpr ⟨_, inColon, _, inText, rfl⟩) (Trace.quiet (n := n) (by decide) (by decide)) behindColon
  rw [List.nil_append, map_shift_shift] at whole
  exact whole

/-- A path can begin with a letter. -/
theorem letter_mem_relativePart {c : UInt8} (letter : ByteSet.alpha.mem c = true) : [c] ∈ lang ok relativePart := by
  have unreservedByte : ((ByteSet.alpha.union .digit).union (.of "-._~")).mem c = true := by
    rw [ByteSet.mem_union, ByteSet.mem_union, letter]
    rfl
  have inside : [c] ∈ lang ok pathNoscheme := by
    refine mem_lang_seq.mpr ⟨[c], mem_lang_seq.mpr ⟨[c], ?_, [], nil_mem_lang.mpr rfl, rfl⟩, [], nil_mem_lang.mpr rfl, rfl⟩
    exact mem_lang_alt.mpr (.inl (mem_lang_byte.mpr ⟨c, rfl, unreservedByte⟩))
  exact mem_lang_alt.mpr (.inr (mem_lang_alt.mpr (.inr (mem_lang_alt.mpr (.inl inside)))))

/-- A text with a scheme could have been a path, until its colon. -/
theorem trace_relativeRef_some {s z : Str} (isScheme : s ∈ lang ok scheme) :
    Trace ok n relativeRef (s ++ Rfc3986.colon :: z) [⟨0, n, .mark⟩] := by
  have noPath : ∀ p rest, s ++ Rfc3986.colon :: z = p ++ rest → p ∈ lang ok relativePart →
      ¬ ∀ c y, rest = c :: y → pathEnds.mem c = true :=
    fun p rest eq inside ends => no_scheme inside ends isScheme eq.symm
  have letter : ∃ c s', s = c :: s' ∧ ByteSet.alpha.mem c = true := by
    obtain ⟨u, inLetter, s', -, rfl⟩ := mem_lang_seq.mp isScheme
    obtain ⟨c, rfl, letter⟩ := mem_lang_byte.mp inLetter
    exact ⟨c, s', rfl, letter⟩
  have noFires : ∀ v₁ c v₂ x, s ++ Rfc3986.colon :: z = v₁ ++ c :: v₂ →
      ¬ Fires ok ((pathQuery relativePart).numbered (n + 1)) v₁ c x := by
    intro v₁ c v₂ x eq fires
    rcases fires_seq.mp fires with first | ⟨p, v, rfl, inside, second⟩
    · exact not_fires_of_quiet ((plain_numbered _ _).trans (by decide)) ((size_numbered _ _).trans (by decide))
        (fires_leave.mp first)
    · have plainPath : (leaving .requestPath relativePart).plain = true := isPart_relativePart.plain
      rw [lang_numbered plainPath, leaving, lang_leave] at inside
      rw [List.append_assoc] at eq
      refine noPath p _ eq inside fun d y eq' => ?_
      have starts : Starts ok (queryPart.numbered (n + 1 + (leaving .requestPath relativePart).size)) d := by
        rcases second with fires | ⟨rfl, -, starts⟩
        · exact fires.starts eq'
        · obtain ⟨rfl, -⟩ := List.cons.inj eq'
          exact starts
      have start := mem_startSet_of_starts ((plain_numbered _ _).trans (by decide)) starts
      have sub : queryPart.startSet.subset pathEnds = true := by decide
      rw [startSet_numbered] at start
      exact ByteSet.mem_of_subset sub start
  refine Trace.seq_away isPart_relativePart.plain_pathQuery (by decide) ⟨List.pairwise_singleton .., fun t => ?_⟩ ?_
  · rw [List.mem_singleton]
    constructor
    · rintro rfl
      obtain ⟨c, s', rfl, letter⟩ := letter
      refine ⟨[], c, s' ++ Rfc3986.colon :: z, rfl, rfl, fires_leave.mpr (fires_enter.mpr (.inr ⟨rfl, rfl, ?_⟩))⟩
      have inside : [c] ∈ lang ok (pathQuery relativePart) :=
        mem_lang_pathQuery.mpr ⟨[c], letter_mem_relativePart letter, none, by simp, rfl⟩
      rw [← lang_numbered isPart_relativePart.plain_pathQuery (n + 1)] at inside
      exact starts_of_mem_lang inside
    · rintro ⟨v₁, c, v₂, eq, pos, fires⟩
      rcases fires_enter.mp (fires_leave.mp fires) with fires | ⟨rfl, same, -⟩
      · exact absurd fires (noFires v₁ c v₂ _ eq)
      · obtain ⟨order, action⟩ := Prod.mk.inj same
        cases t
        simp_all
  · intro u v eq inside
    rw [leaving, lang_leave, entering, lang_enter] at inside
    obtain ⟨p, inPart, q, -, rfl⟩ := mem_lang_pathQuery.mp inside
    rw [List.append_assoc] at eq
    refine ⟨fun none => ?_, fun c y rest => ?_⟩
    · exact absurd (ends_behind fun d y rest => by rw [none] at rest; cases rest) (noPath p _ eq inPart)
    · by_contra starts
      have sub : fragmentPart.startSet.subset pathEnds = true := by decide
      refine noPath p _ eq inPart (ends_behind fun d y' rest' => ?_)
      rw [rest] at rest'
      obtain ⟨rfl, -⟩ := List.cons.inj rest'
      exact ByteSet.mem_of_subset sub (Bool.eq_true_of_not_eq_false starts)

namespace Reference

variable (r : Reference ok)

def text : Str := before Rfc3986.colon r.scheme ++ r.toTarget.text

/-- What is executed on a target. -/
def events (n : Nat) : List (Event Action) :=
  match r.scheme with
  | none => r.toTarget.events (n + 7)
  | some s => ⟨0, n + 7, .mark⟩ :: (r.toTarget.events n).map (.shift (s.length + 1))

theorem trace : Trace ok n uriReference r.text (r.events n) := by
  have size : uri.size = 7 := by decide
  have inPart := r.inPart
  rw [text, events]
  cases named : r.scheme with
  | none =>
    rw [named] at inPart
    have relative : Trace ok (n + uri.size) relativeRef r.toTarget.text (r.toTarget.events (n + 7)) := by
      rw [size]
      exact trace_pathQueryFragment isPart_relativePart r.toTarget inPart
    have whole := Trace.alt (trace_uri_none (n := n) r.toTarget inPart) relative (by simp)
    exact whole
  | some s =>
    rw [named] at inPart
    have isScheme := r.isScheme s named
    have first := trace_uri_some (n := n) isScheme r.toTarget inPart
    have second : Trace ok (n + uri.size) relativeRef (s ++ Rfc3986.colon :: r.toTarget.text) [⟨0, n + 7, .mark⟩] := by
      rw [size]
      exact trace_relativeRef_some isScheme
    have shape : before Rfc3986.colon (some s) ++ r.toTarget.text = s ++ Rfc3986.colon :: r.toTarget.text := by simp [before]
    rw [shape]
    refine Trace.alt_of first second (List.pairwise_cons.mpr ⟨fun t mem => ?_, first.sorted⟩) fun t => ?_
    · obtain ⟨t, -, rfl⟩ := List.mem_map.mp mem
      refine .inl ?_
      change 0 < s.length + 1 + t.pos
      omega
    · rw [List.mem_cons, List.mem_singleton, or_comm]

end Reference

theorem mem_lang_uriReference : w ∈ lang ok uriReference ↔ ∃ r : Reference ok, w = r.text := by
  rw [uriReference, mem_lang_alt, uri, relativeRef, cat, cat, cat, mem_lang_seq]
  simp only [mem_lang_seq, mem_lang_lit, mem_lang_pathQueryFragment]
  constructor
  · rintro (⟨s, isScheme, _, ⟨_, rfl, _, ⟨t, inPart, rfl⟩, rfl⟩, rfl⟩ | ⟨t, inPart, rfl⟩)
    · refine ⟨⟨t, some s, fun u mem => Option.some.inj mem ▸ isScheme, inPart⟩, ?_⟩
      simp [Reference.text, before]
      rfl
    · exact ⟨⟨t, none, by simp, inPart⟩, rfl⟩
  · rintro ⟨r, rfl⟩
    have inPart := r.inPart
    rw [Reference.text]
    cases named : r.scheme with
    | none =>
      rw [named] at inPart
      exact .inr ⟨r.toTarget, inPart, rfl⟩
    | some s =>
      rw [named] at inPart
      refine .inl ⟨s, r.isScheme s named, _, ⟨_, rfl, _, ⟨r.toTarget, inPart, rfl⟩, rfl⟩, ?_⟩
      simp [before]
      rfl

end Sylar.Http.Request
