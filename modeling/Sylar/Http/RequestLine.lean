import Sylar.Http.Lines
import Sylar.Http.Requests

/-!
# Request lines

What the request machine does with a request line. The line is matched by a machine without guards, so that
the events on it are those of its parts (`trace`); that machine ends with the line feed, and what follows it
stays around it while it is read (`reads`).
-/

namespace Sylar.Http

open Lib Lib.Ragel

/-- A request line of the grammar, with a method that the parser knows. (`M-SEARCH` is a method of the table, but
the grammar has no hyphen in a method.) -/
structure RequestLine (ok : Bool) where
  method : Str
  target : Str
  version : Str
  eol : Str
  known : stringToHttpMethod method ≠ .invalidMethod
  letters : ∀ c ∈ method, (ByteSet.upper.union .digit).mem c = true
  isTarget : target ∈ Ragel.lang ok Request.uriReference
  isVersion : version = bytes "HTTP/1.1" ∨ version = bytes "HTTP/1.0"
  isEol : IsEol eol

namespace RequestLine

variable {ok : Bool} (line : RequestLine ok)

def text : Str :=
  line.method ++ (bytes " " ++ (line.target ++ (bytes " " ++ (line.version ++ line.eol))))

/-! ## The line as a word -/

theorem method_length : 1 ≤ line.method.length ∧ line.method.length ≤ 20 := by
  have all : ∀ entry ∈ httpMethodMap, 1 ≤ (bytes entry.1).length ∧ (bytes entry.1).length ≤ 20 := by decide
  have known := line.known
  unfold stringToHttpMethod at known
  split at known
  · rename_i entry found
    have same := List.find?_some found
    rw [beq_iff_eq] at same
    rw [← same]
    exact all entry (List.mem_of_find?_eq_some found)
  · exact absurd rfl known

theorem method_mem : line.method ∈ lang ok Request.method := by
  rw [Request.method, Request.leaving, Request.entering, lang_leave, lang_enter]
  exact mem_lang_between line.letters line.method_length.1 line.method_length.2

theorem space_mem : bytes " " ∈ lang ok (lit " " : Request.Rule) := (mem_lang_lit " ").mpr rfl

theorem number_mem : line.version ∈ lang ok (seq (lit "HTTP/") Request.httpNumber) := by
  rcases line.isVersion with same | same
  · rw [same]
    exact mem_lang_seq.mpr ⟨bytes "HTTP/", (mem_lang_lit _).mpr rfl, bytes "1.1", mem_lang_seq.mpr
      ⟨bytes "1.", (mem_lang_lit _).mpr rfl, bytes "1", mem_lang_alt.mpr (.inr ((mem_lang_lit _).mpr rfl)), rfl⟩, rfl⟩
  · rw [same]
    exact mem_lang_seq.mpr ⟨bytes "HTTP/", (mem_lang_lit _).mpr rfl, bytes "1.0", mem_lang_seq.mpr
      ⟨bytes "1.", (mem_lang_lit _).mpr rfl, bytes "0", mem_lang_alt.mpr (.inl ((mem_lang_lit _).mpr rfl)), rfl⟩, rfl⟩

theorem version_mem : line.version ∈ lang ok Request.httpVersionRule := by
  rw [Request.httpVersionRule, Request.leaving, Request.entering, lang_leave, lang_enter]
  exact line.number_mem

theorem eol_mem : line.eol ∈ lang ok Request.crlf := by
  rcases line.isEol with same | same
  · exact mem_lang_alt.mpr (.inl ((mem_lang_lit _).mpr same))
  · exact mem_lang_alt.mpr (.inr ((mem_lang_lit _).mpr same))

/-- The version with the end of the line. -/
theorem end_mem : line.version ++ line.eol ∈ lang ok (seq Request.httpVersionRule Request.crlf) :=
  mem_lang_seq.mpr ⟨_, line.version_mem, _, line.eol_mem, rfl⟩

theorem second_mem : bytes " " ++ (line.version ++ line.eol) ∈
    lang ok (seq (lit " ") (seq Request.httpVersionRule Request.crlf)) :=
  mem_lang_seq.mpr ⟨_, space_mem, _, line.end_mem, rfl⟩

theorem target_mem : line.target ++ (bytes " " ++ (line.version ++ line.eol)) ∈
    lang ok (seq Request.uriReference (seq (lit " ") (seq Request.httpVersionRule Request.crlf))) :=
  mem_lang_seq.mpr ⟨_, line.isTarget, _, line.second_mem, rfl⟩

theorem first_mem : bytes " " ++ (line.target ++ (bytes " " ++ (line.version ++ line.eol))) ∈
    lang ok (seq (lit " ") (seq Request.uriReference
      (seq (lit " ") (seq Request.httpVersionRule Request.crlf)))) :=
  mem_lang_seq.mpr ⟨_, space_mem, _, line.target_mem, rfl⟩

theorem text_mem : line.text ∈ lang ok Request.requestLine :=
  mem_lang_seq.mpr ⟨_, line.method_mem, _, line.first_mem, rfl⟩

/-! ## Its events -/

theorem space_fixed : ∀ u ∈ lang ok (lit " " : Request.Rule), u.length = (bytes " ").length := by
  intro u inside
  rw [(mem_lang_lit " ").mp inside]
  rfl

/-- The events on a request line, given those on the target. -/
def events (lu : List (Event Request.Action)) : List (Event Request.Action) :=
  [⟨0, 0, .mark⟩, ⟨line.method.length, 1, .requestMethod⟩] ++
    (lu.map (Event.shift (line.method.length + 1)) ++
      [⟨line.method.length + line.target.length + 2, 16, .mark⟩,
        ⟨line.method.length + line.target.length + line.version.length + 2, 17, .httpVersion⟩])

theorem trace {lu : List (Event Request.Action)} (tu : Trace ok 2 Request.uriReference line.target lu) :
    Trace ok 0 Request.requestLine line.text (line.events lu) := by
  have version : Trace ok 16 Request.httpVersionRule line.version
      [⟨0, 16, .mark⟩, ⟨line.version.length, 17, .httpVersion⟩] := Trace.marked (by decide) (by decide) line.number_mem
  have ending := version.seq (by decide) (by decide) (by decide) line.version_mem line.eol_mem
    (Trace.quiet (by decide) (by decide))
  have second := Trace.seq_fixed (by decide) (by decide) space_mem space_fixed ending
  have target := tu.seq (by decide) (by decide) (by decide) line.isTarget line.second_mem second
  have first := Trace.seq_fixed (by decide) (by decide) space_mem space_fixed target
  have method : Trace ok 0 Request.method line.method
      [⟨0, 0, .mark⟩, ⟨line.method.length, 1, .requestMethod⟩] :=
    Trace.marked (by decide) (by decide)
      (mem_lang_between line.letters line.method_length.1 line.method_length.2)
  have whole := method.seq (by decide) (by decide) (by decide) line.method_mem line.first_mem first
  have behind : line.method.length + (bytes " ").length = line.method.length + 1 := rfl
  have start : line.method.length + ((bytes " ").length + (line.target.length + ((bytes " ").length + 0))) =
      line.method.length + line.target.length + 2 := by
    change _ + (1 + (_ + 1)) = _
    omega
  have stop : line.method.length + ((bytes " ").length + (line.target.length + ((bytes " ").length +
      line.version.length))) = line.method.length + line.target.length + line.version.length + 2 := by
    change _ + (1 + (_ + (1 + _))) = _
    omega
  simp only [List.map_append, map_shift_shift, behind, List.map_nil, List.append_nil, List.map_cons, Event.shift,
    start, stop] at whole
  exact whole

/-! ## Reading it -/

/-- What follows the request line. -/
def afterLine : Request.Rule := (seq (star Request.messageHeader) Request.crlf).numbered Request.requestLine.size

/-- Around the request line. -/
def around (e : Request.Rule) : Request.Rule := finish 29 .done (seq e afterLine)

theorem isContext_around : IsContext around :=
  isContext_finish 29 Request.Action.done (by decide : afterLine.nullable = none)

theorem endsWith_crlf : EndsWith ok 0x0A Request.crlf :=
  .alt (.seq (by decide) (by decide) (.char ok 0x0A)) (.char ok 0x0A)

theorem endsWith_requestLine : EndsWith ok 0x0A (Request.requestLine.numbered 0) :=
  .seq (by decide) (by decide) (.seq (by decide) (by decide) (.seq (by decide) (by decide)
    (.seq (by decide) (by decide) (.seq (by decide) (by decide) endsWith_crlf))))

theorem events_before {lu : List (Event Request.Action)} (tu : Trace ok 2 Request.uriReference line.target lu) :
    ∀ t ∈ line.events lu, t.pos < line.text.length := by
  have length : line.text.length = line.method.length + line.target.length + line.version.length + line.eol.length + 2 := by
    simp only [text, List.length_append]
    change _ + (1 + (_ + (1 + _))) = _
    omega
  have some := line.isEol.pos
  intro t mem
  rw [length]
  simp only [events, List.mem_append, List.mem_cons, List.not_mem_nil, or_false, List.mem_map] at mem
  rcases mem with (rfl | rfl) | ⟨t, mem, rfl⟩ | rfl | rfl
  · exact Nat.succ_pos _
  · dsimp only
    omega
  · have le := ((tu.mem t).mp mem).pos_le
    dsimp only [Event.shift]
    omega
  · dsimp only
    omega
  · dsimp only
    omega

theorem reads {lu : List (Event Request.Action)} (tu : Trace ok 2 Request.uriReference line.target lu) :
    Ragel.Reads ok [around (Request.requestLine.numbered 0)] 0 line.text [around eps] (executed (line.events lu)) :=
  (endsWith_requestLine.reads (by decide) line.text_mem (line.trace tu) (line.events_before tu)).context
    isContext_around

/-- No letter begins a request for a socket. -/
theorem step_start {c : UInt8} (letter : (ByteSet.upper.union .digit).mem c = true) :
    step ok (start Request.main) c = step ok [around (Request.requestLine.numbered 0)] c := by
  let socket := (finish 29 .done (Request.socketRequest.numbered Request.request.size)).moves
  refine step_of_moves (l := socket) ?_ fun m mem => ?_
  · change ([finish 29 .done (alt (seq (Request.requestLine.numbered 0) afterLine)
      (Request.socketRequest.numbered Request.request.size))] : State Request.Action).flatMap moves = _
    rw [List.flatMap_singleton, List.flatMap_singleton, moves, moves, List.map_append]
    rfl
  · have apart : ∀ m ∈ socket, (ByteSet.upper.union .digit).disjoint m.on = true := by decide
    exact ByteSet.not_mem_of_disjoint (apart m mem) letter

/-- What the machine reads to its end begins with a request line, if it begins with a letter. -/
theorem of_main {c : UInt8} {w : Str} (letter : (ByteSet.upper.union .digit).mem c = true)
    (inside : c :: w ∈ lang ok (Request.main.numbered 0)) :
    ∃ u v, c :: w = u ++ v ∧ u ∈ lang ok Request.requestLine := by
  let socket := Request.socketRequest.numbered Request.request.size
  change c :: w ∈ lang ok (finish 29 .done (alt (seq (Request.requestLine.numbered 0) afterLine) socket)) at inside
  rw [lang_finish, mem_lang_alt] at inside
  rcases inside with inside | inside
  · obtain ⟨u, isLine, v, -, eq⟩ := mem_lang_seq.mp inside
    rw [lang_numbered (by decide)] at isLine
    exact ⟨u, v, eq, isLine⟩
  · obtain ⟨m, mem, takes⟩ := starts_of_mem_lang inside
    have apart : ∀ m ∈ socket.moves, (ByteSet.upper.union .digit).disjoint m.on = true := by decide
    have here := ByteSet.not_mem_of_disjoint (apart m mem) letter
    rw [takes.1] at here
    cases here

/-- A method and a target up to their spaces, in what the machine reads to its end, are those of the grammar. -/
theorem parts_of_main {method target z u v : Str} {c : UInt8} {y : Str} (begins : method = c :: y)
    (letter : (ByteSet.upper.union .digit).mem c = true) (spaceless : (0x20 : UInt8) ∉ method)
    (spaceless' : (0x20 : UInt8) ∉ target) (eq : method ++ 0x20 :: (target ++ 0x20 :: z) = u ++ v)
    (inside : u ∈ lang ok (Request.main.numbered 0)) :
    (∀ c ∈ method, (ByteSet.upper.union .digit).mem c = true) ∧ target ∈ lang ok Request.uriReference := by
  have first : ∃ w, u = c :: w := by
    cases u with
    | nil =>
      have some : (Request.main.numbered 0).nullable = none := by decide
      rw [nil_mem_lang, some] at inside
      cases inside
    | cons d w =>
      rw [begins, List.cons_append] at eq
      exact ⟨w, by rw [(List.cons.inj eq).1]⟩
  obtain ⟨w, rfl⟩ := first
  obtain ⟨line, rest, isLine, inLine⟩ := of_main letter inside
  obtain ⟨method', isMethod, _, first, rfl⟩ := mem_lang_seq.mp inLine
  obtain ⟨_, isSpace, _, second, rfl⟩ := mem_lang_seq.mp first
  obtain ⟨target', isTarget, _, third, rfl⟩ := mem_lang_seq.mp second
  obtain ⟨_, isSpace', version, -, rfl⟩ := mem_lang_seq.mp third
  obtain rfl := (mem_lang_lit " ").mp isSpace
  obtain rfl := (mem_lang_lit " ").mp isSpace'
  have same : method ++ 0x20 :: (target ++ 0x20 :: z) =
      method' ++ 0x20 :: (target' ++ 0x20 :: (version ++ (rest ++ v))) := by
    rw [eq, isLine]
    simp only [List.append_assoc]
    rfl
  have sub : Request.method.uses.subset (ByteSet.upper.union .digit) = true := by decide
  have letters : ∀ c ∈ method', (ByteSet.upper.union .digit).mem c = true := fun c mem =>
    ByteSet.mem_of_subset sub (mem_uses_of_mem_lang (by decide) isMethod c mem)
  obtain ⟨rfl, behind⟩ := cut_at spaceless (not_mem_of_mem_lang (by decide) (by decide) isMethod) same
  obtain ⟨rfl, -⟩ := cut_at spaceless' (not_mem_of_mem_lang (by decide) (by decide) isTarget) behind
  exact ⟨letters, isTarget⟩

/-- The actions of a target. -/
def targetActions : List Request.Action := [.mark, .requestPath, .requestUri, .startQuery, .queryString, .fragment]

theorem target_actions {lu : List (Event Request.Action)} (tu : Trace ok 2 Request.uriReference line.target lu) :
    ∀ t ∈ lu, t.action ∈ targetActions := by
  have all : ∀ x ∈ (Request.uriReference.numbered 2).embedded, x.2 ∈ targetActions := by decide
  intro t mem
  exact all _ ((tu.mem t).mp mem).embedded

theorem not_done {lu : List (Event Request.Action)} (tu : Trace ok 2 Request.uriReference line.target lu) :
    ∀ t ∈ line.events lu, t.action ≠ .done := by
  intro t mem
  simp only [events, List.mem_append, List.mem_cons, List.not_mem_nil, or_false, List.mem_map] at mem
  rcases mem with (rfl | rfl) | ⟨t, mem, rfl⟩ | rfl | rfl
  · exact Request.Action.noConfusion
  · exact Request.Action.noConfusion
  · intro done
    have inside := line.target_actions tu t mem
    rw [show t.action = .done from done] at inside
    revert inside
    decide
  · exact Request.Action.noConfusion
  · exact Request.Action.noConfusion

/-- The whole line, as the machine of the parser scans it. -/
theorem scan (maxSize : Nat) {lu : List (Event Request.Action)}
    (tu : Trace ok 2 Request.uriReference line.target lu) :
    (requestMachine ok maxSize).scan (start Request.main) 0 line.text =
      ⟨some [around eps], line.text.length, false, executed (line.events lu)⟩ := by
  have quiet : ∀ x ∈ executed (line.events lu), (requestMachine ok maxSize).breaks x.1 = false := by
    intro x mem
    rw [executed, List.mem_eraseDups] at mem
    obtain ⟨t, inEvents, rfl⟩ := List.mem_map.mp mem
    exact beq_eq_false_iff_ne.mpr (line.not_done tu t inEvents)
  have scanned := (line.reads tu).scan quiet
  obtain ⟨c, z, eq⟩ := List.exists_cons_of_length_pos line.method_length.1
  have letter := line.letters c (by rw [eq]; exact List.mem_cons_self)
  have text : line.text = c :: (z ++ (bytes " " ++ (line.target ++ (bytes " " ++ (line.version ++ line.eol))))) := by
    rw [RequestLine.text, eq, List.cons_append]
  rw [Nat.zero_add] at scanned
  rw [← scanned, text]
  exact Scan.scan_cons_congr (step_start letter)

/-- What is executed on the line: first for the method, then for the target, then for the version. -/
theorem executed_events {lu : List (Event Request.Action)} (tu : Trace ok 2 Request.uriReference line.target lu) :
    executed (line.events lu) = [(.mark, 0), (.requestMethod, line.method.length)] ++
      (executed (lu.map (Event.shift (line.method.length + 1))) ++
        [(.mark, line.method.length + line.target.length + 2),
          (.httpVersion, line.method.length + line.target.length + line.version.length + 2)]) := by
  rw [events, executed_append, executed_append]
  · rfl
  · intro t mem t' mem'
    obtain ⟨t, inside, rfl⟩ := List.mem_map.mp mem
    have le := ((tu.mem t).mp inside).pos_le
    rcases List.mem_cons.mp mem' with rfl | mem'
    · dsimp only [Event.shift]
      omega
    · obtain rfl := List.mem_singleton.mp mem'
      dsimp only [Event.shift]
      omega
  · have first : ∀ t ∈ ([⟨0, 0, .mark⟩, ⟨line.method.length, 1, .requestMethod⟩] : List (Event Request.Action)),
        t.pos ≤ line.method.length := by
      intro t mem
      rcases List.mem_cons.mp mem with rfl | mem
      · exact Nat.zero_le _
      · obtain rfl := List.mem_singleton.mp mem
        exact Nat.le_refl _
    have second : ∀ t ∈ lu.map (Event.shift (line.method.length + 1)) ++
        [⟨line.method.length + line.target.length + 2, 16, .mark⟩,
          ⟨line.method.length + line.target.length + line.version.length + 2, 17, .httpVersion⟩],
        line.method.length < t.pos := by
      intro t mem
      simp only [List.mem_append, List.mem_map, List.mem_cons, List.not_mem_nil, or_false] at mem
      rcases mem with ⟨t, -, rfl⟩ | rfl | rfl
      · dsimp only [Event.shift]
        omega
      · dsimp only
        omega
      · dsimp only
        omega
    exact fun t mem t' mem' => Nat.lt_of_le_of_lt (first t mem) (second t' mem')

end RequestLine

end Sylar.Http
