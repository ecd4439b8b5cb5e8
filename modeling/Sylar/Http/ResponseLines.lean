import Sylar.Http.Lines
import Sylar.Http.Decimal

/-!
# Responses line by line

What the response machine does with a status line and with header lines. Each of its states is the one behind a
sample of the text, and a set of bytes that no move tells apart takes it from one to the next. Only while it reads
the name of a header does the state depend on the bytes: the names that have rules of their own are read along with
the others for as long as they agree (`InName`).
-/

namespace Sylar.Http.Response

open Lib Lib.Ragel

/-- The state behind a sample. -/
def past (q : State Action) (w : Str) : State Action :=
  (Scan.scan (step false) (fun _ => false) q 0 w).state.getD []

/-! ## Where lines begin -/

/-- Behind the status line. -/
def firstLine : State Action :=
  [finish 28 .done (seq eps ((seq (star messageHeader) crlf).numbered statusLine.size))]

/-- Behind a header. -/
def nextLine : State Action := past firstLine (bytes "x: y\r\n")

/-- Behind `connection: close`, whose rule is left with the next byte. -/
def closeLine : State Action := past firstLine (bytes "connection: close\r\n")

/-- Behind `transfer-encoding: chunked`, which two rules have read. -/
def chunkedLine : State Action := past firstLine (bytes "transfer-encoding: chunked\r\n")

def lineStarts : List (State Action) := [firstLine, nextLine, closeLine, chunkedLine]

/-! ## Names -/

/-- A header line, in the response. -/
def inLine (e : Rule) : Rule := finish 28 .done (seq (seq e (star (messageHeader.numbered statusLine.size))) crlf)

/-- The names with rules of their own. -/
def special : List (Str × Rule) :=
  [(bytes "transfer-encoding", transferEncodingChunked.numbered 6), (connection, connClose.numbered 11),
    (Http.contentLength, contentLength.numbered 12)]

/-- What is left of the rule of a name behind some of its bytes. -/
def left (x : Str × Rule) (n : Nat) : State Action := past [inLine x.2] (x.1.take n)

/-- What is left of the rule for all other names. -/
def nameRule : Rule := (past firstLine (bytes "x")).headD eps

/-- The state behind some bytes of a name: the rule for all names, and the rules of the names that begin so. -/
structure InName (u : Str) (q : State Action) : Prop where
  nodup : q.Nodup
  field : nameRule ∈ q
  entries : ∀ e ∈ q, e = nameRule ∨ ∃ x ∈ special, u.map tolower = x.1.take u.length ∧ e ∈ left x u.length

instance (u : Str) (q : State Action) : Decidable (InName u q) :=
  decidable_of_iff (q.Nodup ∧ nameRule ∈ q ∧
      ∀ e ∈ q, e = nameRule ∨ ∃ x ∈ special, u.map tolower = x.1.take u.length ∧ e ∈ left x u.length)
    ⟨fun ⟨nodup, field, entries⟩ => ⟨nodup, field, entries⟩, fun h => ⟨h.nodup, h.field, h.entries⟩⟩

/-- The actions on the first byte of a name. -/
def startActions : List (List Action) :=
  [[.startField], [.startField, .writeConnectionClose], [.writeConnectionClose, .startField]]

theorem startsField (maxSize : Nat) {as : List Action} (mem : as ∈ startActions) :
    (responseMachine maxSize).StartsField as := by
  simp only [startActions, List.mem_cons, List.not_mem_nil, or_false] at mem
  rcases mem with rfl | rfl | rfl
  · exact ⟨rfl, fun _ _ _ _ => rfl⟩
  · exact ⟨rfl, fun _ _ _ _ => rfl⟩
  · exact ⟨rfl, fun _ _ _ _ => rfl⟩

/-- A byte begins a name. -/
def begins (q : State Action) (c : UInt8) : Bool :=
  (step false q c).any fun x => decide (InName [c] x.1) && decide (x.2 ∈ startActions)

/-- The bytes of a set are all the same letter. -/
def letter (set : ByteSet) (d : UInt8) : Bool :=
  (List.range 256).all fun n => !set.mem (UInt8.ofNat n) || tolower (UInt8.ofNat n) == d

theorem tolower_of_letter {set : ByteSet} {c d : UInt8} (same : letter set d = true) (mem : set.mem c = true) :
    tolower c = d := by
  have here := List.all_eq_true.mp same c.toNat (List.mem_range.mpr (UInt8.toNat_lt c))
  rw [UInt8.ofNat_toNat, mem, Bool.not_true, Bool.false_or] at here
  exact beq_iff_eq.mp here

/-- A move that executes nothing and does not depend on other moves. -/
def quiet (m : Move Action) : Bool := !m.conditional && m.actions.isEmpty && m.priorities.all fun x => x.2 == 0

/-- The byte that a move of the rule of a name takes, if it is one of a token, is the next one of the name, and the
colon comes behind the whole name only. -/
def follows (x : Str × Rule) (n : Nat) (m : Move Action) : Bool :=
  (!m.on.mem 0x3A || n == x.1.length) &&
    (tokenByte.disjoint m.on ||
      (x.1[n]?.any (letter m.on)) && quiet m && decide (m.rest ∈ left x (n + 1)))

/-- What the machine does on the bytes of a token: any of them begins a name, the rule for all names stays as it is, and
the other rules are followed as far as they agree. -/
structure NameMoves : Prop where
  begin : ∀ q ∈ lineStarts, ∀ n < 256, tokenByte.mem (UInt8.ofNat n) = true → begins q (UInt8.ofNat n) = true
  some : ∃ m ∈ nameRule.moves, tokenByte.subset m.on = true
  loop : ∀ m ∈ nameRule.moves, tokenByte.disjoint m.on = true ∨ (quiet m = true ∧ m.rest = nameRule)
  follow : (special.all fun x => (List.range x.1.length).all fun n =>
    (left x (n + 1)).all fun e => e.moves.all (follows x (n + 1))) = true

theorem nameMoves : NameMoves where
  begin := by decide +kernel
  some := by decide +kernel
  loop := by decide +kernel
  follow := by decide +kernel

theorem starts_name {q : State Action} (start : q ∈ lineStarts) {c : UInt8} (token : tokenByte.mem c = true) :
    ∃ q' as, InName [c] q' ∧ step false q c = some (q', as) ∧ as ∈ startActions := by
  have all := nameMoves.begin q start c.toNat (UInt8.toNat_lt c)
  rw [UInt8.ofNat_toNat] at all
  obtain ⟨x, next, both⟩ := (Option.any_eq_true ..).mp (all token)
  obtain ⟨inName, acts⟩ := Bool.and_eq_true_iff.mp both
  exact ⟨x.1, x.2, of_decide_eq_true inName, next, of_decide_eq_true acts⟩

theorem follows_of_left {x : Str × Rule} (isSpecial : x ∈ special) {n : Nat} (pos : 1 ≤ n) (le : n ≤ x.1.length)
    {e : Rule} (inLeft : e ∈ left x n) {m : Move Action} (moved : m ∈ e.moves) : follows x n m = true := by
  obtain ⟨n, rfl⟩ := Nat.exists_eq_add_of_le' pos
  have all := List.all_eq_true.mp (List.all_eq_true.mp nameMoves.follow x isSpecial) n (List.mem_range.mpr le)
  exact List.all_eq_true.mp (List.all_eq_true.mp all e inLeft) m moved

theorem special_lower : ∀ x ∈ special, cStr x.1 = x.1 ∧ x.1.map tolower = x.1 := by decide

theorem quiet_spec {m : Move Action} (isQuiet : quiet m = true) :
    m.conditional = false ∧ m.actions = [] ∧ ∀ x ∈ m.priorities, x.2 = 0 := by
  obtain ⟨both, low⟩ := Bool.and_eq_true_iff.mp isQuiet
  obtain ⟨free, empty⟩ := Bool.and_eq_true_iff.mp both
  rw [Bool.not_eq_true'] at free
  exact ⟨free, List.isEmpty_iff.mp empty, fun x mem => beq_iff_eq.mp (List.all_eq_true.mp low x mem)⟩

namespace InName

variable {u : Str} {q : State Action} {c : UInt8} {e : Rule} {m : Move Action}

/-- How many bytes of a name with its own rule have been read. -/
theorem length_le {x : Str × Rule} (same : u.map tolower = x.1.take u.length) : u.length ≤ x.1.length := by
  have length := congrArg List.length same
  rw [List.length_map, List.length_take] at length
  omega

/-- What a byte of a token leaves of the ways of reading a name. -/
theorem move (inName : InName u q) (some : 1 ≤ u.length) (token : tokenByte.mem c = true) (mem : e ∈ q)
    (moved : m ∈ e.moves) (on : m.on.mem c = true) :
    quiet m = true ∧ (m.rest = nameRule ∨
      ∃ x ∈ special, (u ++ [c]).map tolower = x.1.take (u ++ [c]).length ∧ m.rest ∈ left x (u ++ [c]).length) := by
  have apart : ¬ tokenByte.disjoint m.on = true := fun apart => by
    rw [ByteSet.not_mem_of_disjoint apart token] at on
    cases on
  rcases inName.entries e mem with rfl | ⟨x, isSpecial, same, inLeft⟩
  · obtain ⟨isQuiet, rest⟩ := (nameMoves.loop m moved).resolve_left apart
    exact ⟨isQuiet, .inl rest⟩
  · obtain ⟨-, follow⟩ := Bool.and_eq_true_iff.mp (follows_of_left isSpecial some (length_le same) inLeft moved)
    obtain ⟨both, rest⟩ := Bool.and_eq_true_iff.mp ((Bool.or_eq_true_iff.mp follow).resolve_left apart)
    obtain ⟨next, isQuiet⟩ := Bool.and_eq_true_iff.mp both
    obtain ⟨d, here, isLetter⟩ := (Option.any_eq_true ..).mp next
    obtain ⟨lt, rfl⟩ := List.getElem?_eq_some_iff.mp here
    have last := tolower_of_letter isLetter on
    refine ⟨isQuiet, .inr ⟨x, isSpecial, ?_, ?_⟩⟩
    · rw [List.map_append, same, List.map_singleton, last, List.length_append, List.length_singleton,
        ← List.take_succ_eq_append_getElem lt]
    · rw [List.length_append]
      exact of_decide_eq_true rest

/-- The next byte of a name. -/
theorem next (inName : InName u q) (some : 1 ≤ u.length) (token : tokenByte.mem c = true) :
    ∃ q', InName (u ++ [c]) q' ∧ step false q c = .some (q', []) := by
  obtain ⟨m₀, moved₀, sub⟩ := nameMoves.some
  have on₀ := ByteSet.mem_of_subset sub token
  have inMoves : m₀ ∈ q.flatMap moves := List.mem_flatMap.mpr ⟨nameRule, inName.field, moved₀⟩
  obtain ⟨q', stepped, nodup, members⟩ : ∃ q', step false q c = .some (q', []) ∧ q'.Nodup ∧
      ∀ r, r ∈ q' ↔ ∃ m ∈ q.flatMap moves, m.on.mem c = true ∧ m.rest = r := by
    refine step_of_quiet inMoves on₀ fun m mem on => ?_
    obtain ⟨e, inQ, moved⟩ := List.mem_flatMap.mp mem
    exact quiet_spec (inName.move some token inQ moved on).1
  have apart : ¬ tokenByte.disjoint m₀.on = true := fun apart => by
    rw [ByteSet.not_mem_of_disjoint apart token] at on₀
    cases on₀
  obtain ⟨-, loop⟩ := (nameMoves.loop m₀ moved₀).resolve_left apart
  refine ⟨q', ⟨nodup, ?_, fun r mem => ?_⟩, stepped⟩
  · exact (members nameRule).mpr ⟨m₀, inMoves, on₀, loop⟩
  · obtain ⟨m, mem', on, rfl⟩ := (members r).mp mem
    obtain ⟨e, inQ, moved⟩ := List.mem_flatMap.mp mem'
    exact (inName.move some token inQ moved on).2

end InName

/-! ## Stages -/

/-- Behind a name that has no rule of its own. -/
def colon : State Action := past firstLine (bytes "x:")
def inBlank : State Action := past firstLine (bytes "x: ")
def inValue : State Action := past firstLine (bytes "x:y")
def valueCr : State Action := past firstLine (bytes "x:y\r")

/-- Behind a name that has one. -/
def named (name : Str) : State Action := past firstLine name
def colonOf (name : Str) : State Action := past firstLine (name ++ bytes ":")
def blankOf (name : Str) : State Action := past firstLine (name ++ bytes ": ")

/-- Before its value. -/
def leadsOf (name : Str) : List (State Action) := [colonOf name, blankOf name]

def inLength : State Action := past firstLine (bytes "content-length: 1")
def lengthCr : State Action := past firstLine (bytes "content-length: 1\r")
def chunkedEnd : State Action := past firstLine (bytes "transfer-encoding: chunked")
def chunkedCr : State Action := past firstLine (bytes "transfer-encoding: chunked\r")

/-- In the value of `connection`, which is read along with `close` as far as it agrees. -/
def flagValues : List (State Action) :=
  inValue :: (List.range 5).map fun n => past firstLine (bytes "connection:" ++ (bytes "close").take (n + 1))

def begin : State Action := start main
def beforeStatus : State Action := past begin (bytes "HTTP/1.1 ")
def inStatus : State Action := past begin (bytes "HTTP/1.1 2")
def beforeReason : State Action := past begin (bytes "HTTP/1.1 2 ")
def inReason : State Action := past begin (bytes "HTTP/1.1 2 y")
def reasonCr : State Action := past begin (bytes "HTTP/1.1 2 y\r")

def lastCr : State Action := past firstLine (bytes "\r")
def endState : State Action := past firstLine (bytes "\r\n")

/-- The blanks before a value, as many as there are. -/
def blank : ByteSet := ByteSet.space.diff (.of "\r\n")

/-- The bytes of a line. -/
def inner : ByteSet := ByteSet.any.diff (.of "\r\n")

/-- Those that a value can begin with. -/
def outer : ByteSet := inner.diff blank

/-- A move of the machine between two stages, on any byte of a set, of which one is tried. -/
structure Passage where
  here : State Action
  on : ByteSet
  sample : UInt8
  there : State Action
  actions : List Action

def passages : List Passage :=
  [⟨[nameRule], .single 0x3A, 0x3A, colon, [.writeField]⟩,
    ⟨colon, blank, 0x20, inBlank, [.startValue]⟩, ⟨inBlank, blank, 0x20, inBlank, [.startValue]⟩,
    ⟨colon, outer, 0x79, inValue, [.startValue]⟩, ⟨inBlank, outer, 0x79, inValue, [.startValue]⟩,
    ⟨colon, .single 0x0D, 0x0D, valueCr, [.startValue, .writeValue]⟩,
    ⟨inBlank, .single 0x0D, 0x0D, valueCr, [.startValue, .writeValue]⟩,
    ⟨colon, .single 0x0A, 0x0A, nextLine, [.startValue, .writeValue]⟩,
    ⟨inBlank, .single 0x0A, 0x0A, nextLine, [.startValue, .writeValue]⟩,
    ⟨inValue, inner, 0x79, inValue, []⟩, ⟨inValue, .single 0x0D, 0x0D, valueCr, [.writeValue]⟩,
    ⟨inValue, .single 0x0A, 0x0A, nextLine, [.writeValue]⟩, ⟨valueCr, .single 0x0A, 0x0A, nextLine, []⟩,
    ⟨colonOf Http.contentLength, .digit, 0x31, inLength, [.startValue]⟩,
    ⟨blankOf Http.contentLength, .digit, 0x31, inLength, [.startValue]⟩, ⟨inLength, .digit, 0x31, inLength, []⟩,
    ⟨inLength, .single 0x0D, 0x0D, lengthCr, [.writeContentLen, .writeValue]⟩,
    ⟨inLength, .single 0x0A, 0x0A, nextLine, [.writeContentLen, .writeValue]⟩,
    ⟨lengthCr, .single 0x0A, 0x0A, nextLine, []⟩,
    ⟨chunkedEnd, .single 0x0D, 0x0D, chunkedCr, [.writeValue]⟩,
    ⟨chunkedEnd, .single 0x0A, 0x0A, chunkedLine, [.writeValue, .transChunked]⟩,
    ⟨chunkedCr, .single 0x0A, 0x0A, chunkedLine, [.transChunked]⟩,
    ⟨beforeStatus, .digit, 0x31, inStatus, [.mark]⟩, ⟨inStatus, .digit, 0x31, inStatus, []⟩,
    ⟨inStatus, .single 0x20, 0x20, beforeReason, [.statusCode]⟩,
    ⟨beforeReason, inner, 0x79, inReason, [.mark]⟩, ⟨inReason, inner, 0x79, inReason, []⟩,
    ⟨inReason, .single 0x0D, 0x0D, reasonCr, [.reasonPhrase]⟩, ⟨reasonCr, .single 0x0A, 0x0A, firstLine, []⟩,
    ⟨lastCr, .single 0x0A, 0x0A, endState, [.done]⟩]

theorem passages_hold : (passages.all fun x => decide (tries false x.here x.on x.sample = some (x.there, x.actions))) = true := by
  decide +kernel

theorem goes_of_passage {q q' : State Action} {s : ByteSet} {as : List Action} (sample : UInt8)
    (mem : ⟨q, s, sample, q', as⟩ ∈ passages) : Goes false q s q' as :=
  goes_of_tries sample (of_decide_eq_true (List.all_eq_true.mp passages_hold _ mem))

theorem step_of_passage {maxSize : Nat} {q q' : State Action} {c : UInt8} {as : List Action}
    (mem : ⟨q, .single c, c, q', as⟩ ∈ passages) : (responseMachine maxSize).step q c = some (q', as) :=
  goes_of_passage c mem c ((ByteSet.mem_single c c).mpr rfl)

/-! ## Words in any case -/

/-- A letter of either case. -/
def eitherCase (c : UInt8) : ByteSet :=
  if 0x61 ≤ c ∧ c ≤ 0x7A then (ByteSet.single c).union (.single (c - 0x20)) else .single c

theorem mem_eitherCase (c : UInt8) : (eitherCase (tolower c)).mem c = true := by
  have all : ∀ n < 256, (eitherCase (tolower (UInt8.ofNat n))).mem (UInt8.ofNat n) = true := by decide +kernel
  have here := all c.toNat (UInt8.toNat_lt c)
  rwa [UInt8.ofNat_toNat] at here

/-- The state behind a word of which nothing is executed. -/
def follow : State Action → Str → Option (State Action)
  | q, [] => some q
  | q, c :: w => (tries false q (eitherCase c) c).bind fun x => if x.2 = [] then follow x.1 w else none

/-- The state behind a word of which only the first byte executes something, one of the lists of actions. -/
def behindWord (firsts : List (List Action)) (q : State Action) : Str → Option (State Action)
  | [] => none
  | c :: w => (tries false q (eitherCase c) c).bind fun x => if x.2 ∈ firsts then follow x.1 w else none

/-! ## Lines with rules of their own -/

/-- Between some states on any byte of a set, with these actions. -/
def stays (here : List (State Action)) (set : ByteSet) (there : List (State Action)) (as : List Action) : Bool :=
  here.all fun q => (List.range 256).all fun n => !set.mem (UInt8.ofNat n) ||
    (step false q (UInt8.ofNat n)).any fun x => decide (x.1 ∈ there ∧ x.2 = as)

theorem stays_spec {here there : List (State Action)} {set : ByteSet} {as : List Action}
    (all : stays here set there as = true) {q : State Action} (mem : q ∈ here) {c : UInt8} (inside : set.mem c = true) :
    ∃ q' ∈ there, step false q c = some (q', as) := by
  have onByte := List.all_eq_true.mp (List.all_eq_true.mp all q mem) c.toNat (List.mem_range.mpr (UInt8.toNat_lt c))
  rw [UInt8.ofNat_toNat, inside, Bool.not_true, Bool.false_or] at onByte
  obtain ⟨⟨q', as'⟩, next, both⟩ := (Option.any_eq_true ..).mp onByte
  obtain ⟨isThere, rfl⟩ := of_decide_eq_true both
  exact ⟨q', isThere, next⟩

/-- Both ends of a line lead to the start of the next one, with the value in hand. -/
def endsLine (q : State Action) : Bool :=
  (step false q 0x0D).any fun x => x.2 = [.writeValue] && lineStarts.any fun next =>
    step false q 0x0A = some (next, [.writeValue]) && step false x.1 0x0A = some (next, [])

/-- What the machine does with the version, with the names that have rules of their own, and with the empty line. -/
structure FixedMoves : Prop where
  version : ∀ s ∈ ["HTTP/1.1 ", "HTTP/1.0 "], Scan.scan (step false) (· == Action.done) begin 0 (bytes s) =
    ⟨some beforeStatus, 9, false, [(.mark, 0), (.httpVersion, 8)]⟩
  name : ∀ x ∈ special, ∀ q ∈ lineStarts, behindWord startActions q x.1 = some (named x.1)
  colon : ∀ x ∈ special, step false (named x.1) 0x3A = some (colonOf x.1, [.writeField])
  lead : ∀ x ∈ special, ∀ q ∈ leadsOf x.1, tries false q blank 0x20 = some (blankOf x.1, [.startValue])
  encoding : ∀ q ∈ leadsOf (bytes "transfer-encoding"), behindWord [[.startValue]] q (bytes "chunked") = some chunkedEnd
  flagFirst : stays (leadsOf Http.connection) outer flagValues [.startValue] = true
  flagRest : stays flagValues inner flagValues [] = true
  flagEnd : flagValues.all endsLine = true
  last : ∀ q ∈ lineStarts, (step false q 0x0D).any (fun x => x.1 = lastCr ∧
    x.2 ∈ ([[], [.writeConnectionClose]] : List (List Action))) = true
  finished : (final endState && endState.all fun e => e.moves.isEmpty) = true

theorem fixedMoves : FixedMoves where
  version := by decide +kernel
  name := by decide +kernel
  colon := by decide +kernel
  lead := by decide +kernel
  encoding := by decide +kernel
  flagFirst := by decide +kernel
  flagRest := by decide +kernel
  flagEnd := by decide +kernel
  last := by decide +kernel
  finished := by decide +kernel

end Sylar.Http.Response
