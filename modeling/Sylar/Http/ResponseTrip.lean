import Sylar.Http.ResponseHeaders
import Sylar.Http.Robust

/-!
# The round trip of a response

A response that a caller has made is printed by `operator<<` and read back by `recv_response` in one read. The text of
the status is printed for the reason, so a reason of the caller's own is lost. White space before a value is skipped
whatever it is, and not only the blanks that are printed. The parser's response has a `connection` of its own, which
stays if none is printed. And the length of the body is noted as an `int`, which is believed if it is positive.
Everything else comes back (`isReturned_iff`).
-/

namespace Sylar.Http

open Lib Lib.Ragel

namespace Response

variable {maxSize : Nat} {text post reason : Str} {version : UInt8} {status : Nat}

/-! ## Status lines -/

def statusText (version : UInt8) (status : Nat) (reason : Str) : Str :=
  (bytes "HTTP/" ++ versionText version ++ bytes " ") ++
    (bytes (toString status) ++ (bytes " " ++ (reason ++ bytes "\r\n")))

/-- What the parser has behind a status line. -/
def started (version : UInt8) (status : Nat) (reason : Str) : HttpResponseParser :=
  { HttpResponseParser.create with
    response := { HttpResponse.create with version := version, status := status, reason := reason } }

/-- The version is read with the blank behind it. -/
theorem passes_version (isVersion : version = 0x11 ∨ version = 0x10)
    (shape : text = (bytes "HTTP/" ++ versionText version ++ bytes " ") ++ post) :
    (responseMachine maxSize).Passes text 0 (bytes "HTTP/" ++ versionText version ++ bytes " ")
      ⟨(responseMachine maxSize).start, .init, .create⟩
      ⟨beforeStatus, .init, { HttpResponseParser.create with
        response := { HttpResponse.create with version := version } }⟩ := by
  subst shape
  rcases isVersion with rfl | rfl
  · exact Machine.Passes.of_scan (fixedMoves.version "HTTP/1.1 " (by decide)) rfl
  · exact Machine.Passes.of_scan (fixedMoves.version "HTTP/1.0 " (by decide)) rfl

theorem mem_inner {c : UInt8} : inner.mem c = true ↔ c ≠ 0x0D ∧ c ≠ 0x0A := by
  have parts : ByteSet.of "\r\n" = ((⟨0⟩ : ByteSet).union (.single 0x0D)).union (.single 0x0A) := by decide
  rw [inner, parts, ByteSet.mem_diff, ByteSet.mem_any, Bool.true_and, Bool.not_eq_true', ByteSet.mem_union,
    ByteSet.mem_union, ByteSet.not_mem_empty, Bool.false_or, Bool.or_eq_false_iff, ← Bool.not_eq_true,
    ← Bool.not_eq_true, ByteSet.mem_single, ByteSet.mem_single]

theorem run_mark (text : Str) (p : Nat) (regs : Registers) (obj : HttpResponseParser) :
    (responseMachine maxSize).run text [(.mark, p)] regs obj = some ({ regs with mark := p }, obj) := rfl

/-- A callback with the piece of the text that is marked. -/
theorem run_element {pre piece : Str} (a : Action) {callback : HttpResponseParser → Str → Nat → Option HttpResponseParser}
    {f : Str → HttpResponseParser} (obj : HttpResponseParser) (regs : Registers)
    (acts : HttpResponseParser.action maxSize a = .element .mark callback)
    (takes : ∀ s length, callback obj s length = (string maxSize s length).map f)
    (shape : text = pre ++ (piece ++ post)) (room : text.length ≤ maxSize) (marked : regs.mark = pre.length) :
    (responseMachine maxSize).run text [(a, pre.length + piece.length)] regs obj = some (regs, f piece) := by
  rw [Machine.run]
  change ((HttpResponseParser.action maxSize a).exec text (pre.length + piece.length) regs obj).bind _ = _
  rw [acts, Op.exec, Registers.get, marked, sizeSub_of_le (Nat.le_add_right ..), Nat.add_sub_cancel_left, takes,
    string_piece shape room]
  rfl

theorem passes_status (isVersion : version = 0x11 ∨ version = 0x10) (small : status < 2 ^ 31) (nonempty : reason ≠ [])
    (isInner : ∀ c ∈ reason, inner.mem c = true) (shape : text = statusText version status reason ++ post)
    (room : text.length ≤ maxSize) : ∃ regs,
      (responseMachine maxSize).Passes text 0 (statusText version status reason)
        ⟨(responseMachine maxSize).start, .init, .create⟩ ⟨firstLine, regs, started version status reason⟩ := by
  obtain ⟨head, isHead⟩ : ∃ head, bytes "HTTP/" ++ versionText version ++ bytes " " = head := ⟨_, rfl⟩
  obtain ⟨digits, isNumber⟩ : ∃ digits, bytes (toString status) = digits := ⟨_, rfl⟩
  have all : ∀ c ∈ digits, ByteSet.digit.mem c = true := isNumber ▸ digit_of_mem_toString status
  have read : atoi digits = status := by
    have alone : atoi (bytes (toString status) ++ []) = status := atoi_toString small fun c z eq => nomatch eq
    rwa [List.append_nil, isNumber] at alone
  have numbered : text = head ++ (digits ++ (bytes " " ++ (reason ++ (bytes "\r\n" ++ post)))) := by
    rw [shape, statusText, isHead, isNumber]
    simp only [List.append_assoc]
  have phrased : text = (head ++ (digits ++ bytes " ")) ++ (reason ++ (bytes "\r\n" ++ post)) := by
    rw [numbered]
    simp only [List.append_assoc]
  have before : head.length + digits.length + 1 = (head ++ (digits ++ bytes " ")).length := by
    rw [List.length_append, List.length_append, Nat.add_assoc]
    rfl
  -- the version, the status and the reason, each behind its mark
  let obj₁ : HttpResponseParser := { HttpResponseParser.create with response := { HttpResponse.create with version := version } }
  let obj₂ : HttpResponseParser := { obj₁ with response := { obj₁.response with status := atoi digits } }
  have first : (responseMachine maxSize).Passes text 0 head ⟨(responseMachine maxSize).start, .init, .create⟩
      ⟨beforeStatus, .init, obj₁⟩ := isHead ▸ passes_version isVersion (isHead ▸ numbered)
  have number : (responseMachine maxSize).Passes text (0 + head.length) digits ⟨beforeStatus, .init, obj₁⟩
      ⟨inStatus, { Registers.init with mark := head.length }, obj₁⟩ := by
    rw [Nat.zero_add]
    have first : Goes false beforeStatus .digit inStatus [.mark] := goes_of_passage 0x31 (by simp [passages])
    have further : Goes false inStatus .digit inStatus [] := goes_of_passage 0x31 (by simp [passages])
    exact Machine.Passes.piece first further rfl (run_mark ..) (isNumber ▸ bytes_toString_ne_nil status) all
  have between : (responseMachine maxSize).Passes text (0 + head.length + digits.length) (bytes " ")
      ⟨inStatus, { Registers.init with mark := head.length }, obj₁⟩
      ⟨beforeReason, { Registers.init with mark := head.length }, obj₂⟩ := by
    rw [Nat.zero_add]
    have space : (responseMachine maxSize).step inStatus 0x20 = some (beforeReason, [.statusCode]) :=
      step_of_passage (by simp [passages])
    refine Machine.Passes.byte space rfl ?_
    exact run_element .statusCode obj₁ { Registers.init with mark := head.length } rfl (fun _ _ => rfl) numbered room rfl
  have phrase : (responseMachine maxSize).Passes text (0 + head.length + digits.length + 1) reason
      ⟨beforeReason, { Registers.init with mark := head.length }, obj₂⟩
      ⟨inReason, { Registers.init with mark := head.length + digits.length + 1 }, obj₂⟩ := by
    rw [Nat.zero_add]
    have first : Goes false beforeReason inner inReason [.mark] := goes_of_passage 0x79 (by simp [passages])
    have further : Goes false inReason inner inReason [] := goes_of_passage 0x79 (by simp [passages])
    exact Machine.Passes.piece first further rfl (run_mark ..) nonempty isInner
  have ended : (responseMachine maxSize).Passes text (0 + head.length + digits.length + 1 + reason.length) [0x0D, 0x0A]
      ⟨inReason, { Registers.init with mark := head.length + digits.length + 1 }, obj₂⟩
      ⟨firstLine, { Registers.init with mark := head.length + digits.length + 1 },
        { obj₂ with response := { obj₂.response with reason := reason } }⟩ := by
    rw [Nat.zero_add, before]
    have cr : (responseMachine maxSize).step inReason 0x0D = some (reasonCr, [.reasonPhrase]) :=
      step_of_passage (by simp [passages])
    have lf : (responseMachine maxSize).step reasonCr 0x0A = some (firstLine, []) := step_of_passage (by simp [passages])
    refine Machine.Passes.cons cr rfl ?_ (Machine.Passes.byte lf rfl rfl)
    exact run_element .reasonPhrase obj₂ { Registers.init with mark := (head ++ (digits ++ bytes " ")).length } rfl
      (fun _ _ => rfl) phrased room rfl
  have whole := first.append (number.append (between.append (phrase.append ended)))
  rw [statusText, isHead, isNumber, started, ← read]
  exact ⟨_, whole⟩

/-- The empty line: the parser is finished behind it. -/
theorem execute_end {head tail : Str} {s : Place Action HttpResponseParser} (start : s.q ∈ lineStarts)
    {obj : HttpResponseParser} (passes : (responseMachine maxSize).Passes (head ++ (bytes "\r\n" ++ tail)) 0 head
      ⟨(responseMachine maxSize).start, .init, obj⟩ s) :
    (responseMachine maxSize).execute ((responseMachine maxSize).parser obj) (head ++ (bytes "\r\n" ++ tail)) =
      some (⟨some endState, s.regs, s.obj⟩, head.length + 1 + 1) := by
  obtain ⟨⟨q, as⟩, next, both⟩ := (Option.any_eq_true ..).mp (fixedMoves.last s.q start)
  obtain ⟨rfl, acts⟩ := of_decide_eq_true both
  have cr : (responseMachine maxSize).Passes (head ++ (bytes "\r\n" ++ tail)) (0 + head.length) [0x0D] s
      ⟨lastCr, s.regs, s.obj⟩ := by
    simp only [List.mem_cons, List.not_mem_nil, or_false] at acts
    rcases acts with rfl | rfl
    · exact Machine.Passes.byte next rfl rfl
    · exact Machine.Passes.byte next rfl rfl
  have upTo := passes.append cr
  have shape : head ++ (bytes "\r\n" ++ tail) = (head ++ [0x0D]) ++ 0x0A :: tail := by
    rw [List.append_assoc]
    rfl
  have length : head.length + 1 = (head ++ [0x0D]).length := by
    rw [List.length_append]
    rfl
  have lf : (responseMachine maxSize).step lastCr 0x0A = some (endState, [.done]) := step_of_passage (by simp [passages])
  rw [shape] at upTo ⊢
  rw [length]
  exact upTo.execute lf rfl rfl

/-- A header section at the front of the first read is found, with what is behind it left. -/
theorem recvHeader_lines {α : Type} {line : α → Str} (header : α → Str × Str) {xs : List α} {tail : Str}
    {env : Env} {buffSize : Nat} (isVersion : version = 0x11 ∨ version = 0x10) (small : status < 2 ^ 31)
    (nonempty : reason ≠ []) (isInner : ∀ c ∈ reason, inner.mem c = true)
    (isLine : ∀ x ∈ xs, IsLine env.maxSize (line x) (header x).1 (header x).2)
    (shape : text = statusText version status reason ++ (xs.flatMap line ++ (bytes "\r\n" ++ tail)))
    (fits : text.length ≤ buffSize) (room : text.length ≤ env.maxSize) (reads : Reads) (fuel : Nat) :
    (responseMachine env.maxSize).Finishes text ∧ ∃ last regs,
      (responseMachine env.maxSize).recvHeader buffSize (fuel + 1) ((responseMachine env.maxSize).parser .create) []
          (text :: reads) =
        some (some (⟨some last, regs, storeAll (xs.map header) (started version status reason)⟩, tail, reads)) := by
  have whole : text = (statusText version status reason ++ xs.flatMap line) ++ (bytes "\r\n" ++ tail) := by
    rw [shape, List.append_assoc]
  have two : bytes "\r\n" = [0x0D, 0x0A] := rfl
  have some : text ≠ [] := by
    rw [whole, two]
    exact List.append_ne_nil_of_right_ne_nil _ (List.cons_ne_nil _ _)
  obtain ⟨regs, first⟩ := passes_status isVersion small nonempty isInner shape room
  obtain ⟨q, start, regs', fields⟩ := passes_all header room xs isLine regs _ shape List.mem_cons_self
  have head := first.append (by rw [Nat.zero_add]; exact fields)
  rw [whole] at head
  have executed := execute_end start head
  rw [← whole] at executed
  have good : (responseMachine env.maxSize).failed (storeAll (xs.map header) (started version status reason)) = false := by
    rw [storeAll_eq]
    rfl
  have found := Machine.recvHeader_of_execute fuel reads some fits executed good fixedMoves.finished
  have rest : text.drop ((statusText version status reason ++ xs.flatMap line).length + 1 + 1) = tail := by
    rw [whole, two, Nat.add_assoc, ← List.drop_drop, List.drop_left]
    rfl
  rw [rest] at found
  exact ⟨Machine.finishes_of_execute executed fixedMoves.finished, _, _, found⟩

/-! ## What is noted -/

/-- Headers with these assigned to them. -/
def assignAll (headers init : HttpHeaders) : HttpHeaders :=
  (strippedAll headers).foldl (fun m z => OrderedMap.assign nameKey z.1 z.2 m) init

/-- The content length as the parser has it. -/
def noted (n : Nat) : Int := toInt (min (2 ^ 63 - 1) (n : Int))

theorem strtol_toString (n : Nat) : strtol 10 (bytes (toString n)) = min (2 ^ 63 - 1) (n : Int) := by
  have alone : strtol 10 (bytes (toString n) ++ []) = _ :=
    strtol_digits (isDigits_toString n) (bytes_toString_ne_nil n) fun c z eq => nomatch eq
  rwa [List.append_nil, numeral_toString] at alone

theorem noted_le {n : Nat} (pos : 0 < noted n) : (noted n).toNat ≤ n := by
  rw [noted, toInt] at pos ⊢
  obtain ⟨v, eq⟩ : ∃ v : Int, min (2 ^ 63 - 1) (n : Int) = v := ⟨_, rfl⟩
  have bounds : 0 ≤ v ∧ v ≤ n := by omega
  rw [eq, Int.bmod_def] at pos ⊢
  split at pos
  · rename_i small
    rw [if_pos small]
    omega
  · omega

end Response

/-! ## Responses that a caller makes -/

/-- A name that a caller sets by `set_header`, of a body that is not chunked. -/
structure ResponseName (name : Str) : Prop where
  own : OwnName name
  encoding : nameKey name ≠ nameKey (bytes "transfer-encoding")

/-- A value in one line that does not begin with a blank. -/
structure IsLineValue (value : Str) : Prop where
  flush : Flush value
  oneLine : ∀ c ∈ value, c ≠ 0x0D ∧ c ≠ 0x0A

namespace HttpResponse

/-- The headers are such as a caller makes, with the flag that is set; an upgrade has no `connection`. -/
structure IsMade (r : HttpResponse) : Prop where
  made : Made ResponseName IsLineValue r.close r.body r.headers
  upgraded : r.isWebsocket = true → r.headers.Named fun name => nameKey name ≠ nameKey connection

theorem IsMade.initHeaders {r : HttpResponse} (isMade : r.IsMade) : r.initHeaders.IsMade := by
  rw [HttpResponse.initHeaders]
  split
  · exact isMade
  · rename_i http
    exact ⟨isMade.made.setClose (fun _ isName => isName.own) r.close, fun upgraded => absurd upgraded http⟩

/-- No call of a caller takes this away. -/
theorem IsMade.mutate {r : HttpResponse} (isMade : r.IsMade) {c : Mutator} (proper : Proper ResponseName IsLineValue c) :
    (r.mutate c).IsMade := by
  have own : ∀ name, ResponseName name → OwnName name := fun _ isName => isName.own
  cases c with
  | setHeader name value =>
    obtain ⟨isName, isValue⟩ := proper
    refine ⟨isMade.made.setHeader own isName isValue, fun upgraded => ?_⟩
    exact (isMade.upgraded upgraded).assign isName.own.connection
  | delHeader name =>
    exact ⟨isMade.made.erase proper, fun upgraded x mem =>
      isMade.upgraded upgraded x (isMade.made.sorted.mem_erase.mp mem).1⟩
  | setHeaders v => exact absurd proper id
  | setClose v =>
    change (r.setClose v).IsMade
    rw [setClose]
    split
    · exact isMade
    · dsimp only
      split
      · rename_i upgraded
        exact ⟨isMade.made.unconnected (isMade.upgraded upgraded) v, isMade.upgraded⟩
      · rename_i http
        exact ⟨isMade.made.setClose own v, fun upgraded => absurd upgraded http⟩
  | setWebsocket v =>
    change (r.setWebsocket v).IsMade
    rw [setWebsocket]
    split
    · exact isMade
    · dsimp only
      split
      · refine ⟨isMade.made.erase Made.connection_ne_length, fun _ x mem => ?_⟩
        exact (isMade.made.sorted.mem_erase.mp mem).2
      · rename_i http
        exact ⟨isMade.made.setClose own r.close, fun upgraded => absurd upgraded http⟩
  | initHeaders => exact isMade.initHeaders
  | setBody v =>
    refine ⟨isMade.made.setBody own v, fun upgraded => ?_⟩
    exact (isMade.upgraded upgraded).assign HttpRequest.nameKey_contentLength

/-- The headers of a response that is made by proper calls. -/
theorem isMade_of_run {r : HttpResponse} {version : UInt8} {close : Bool} {calls : List Mutator}
    (run : Run (Guarded Step fun _ c => Proper ResponseName IsLineValue c) (construct version close) calls r) :
    r.IsMade := by
  have start : (construct version close).IsMade :=
    IsMade.initHeaders ⟨.nil close, fun upgraded => nomatch upgraded⟩
  refine run.invariant (I := IsMade) (fun s c t isMade step => ?_) start
  rw [← step.1]
  exact isMade.mutate step.2

/-- A response with a status of the table, and with headers that the setters have made. -/
structure Sendable (r : HttpResponse) : Prop where
  status : ∃ text, (r.status, text) ∈ httpStatusMap
  version : r.version = 0x11 ∨ r.version = 0x10
  headers : ∃ close, Made ResponseName IsLineValue close r.body r.headers

/-- What is printed is received. -/
def ComesBack (env : Env) (buffSize : Nat) (r : HttpResponse) : Prop :=
  ∃ m rest, recvResponse env buffSize [r.print] = some (.message m rest) ∧ m.status = r.status ∧ m.reason = r.reason ∧
    m.version = r.version ∧ m.headers = r.headers ∧ m.body = r.body

/-- The length of the body, as an `int`, is its length, or is not positive. -/
def Counted (r : HttpResponse) : Prop := 0 < Response.noted r.body.length → Response.noted r.body.length = r.body.length

/-- What the printed text does not lose. -/
structure Readable (r : HttpResponse) : Prop where
  reason : r.reason = bytes (httpStatusToString r.status)
  connected : (r.headers.find connection).isSome = true
  values : ∀ x ∈ r.headers, ∀ c z, x.2 = c :: z → c ≠ 0x0B ∧ c ≠ 0x0C
  counted : r.Counted

end HttpResponse

namespace Response

variable {r : HttpResponse} {close : Bool} {body : Str} {h : HttpHeaders}

theorem own_of_response (name : Str) (isName : ResponseName name) : OwnName name := isName.own

/-- Every header that is made is read as it is printed. -/
theorem isHeader_of_made (made : Made ResponseName IsLineValue close body h) : ∀ x ∈ h, IsHeader x := by
  intro x mem
  rcases made.entries x mem with rfl | rfl | ⟨name, value⟩
  · exact .connection close
  · exact .length body.length
  · refine .ordinary name.own.token (fun y isSpecial => ?_) fun c inValue => mem_inner.mpr (value.oneLine c inValue)
    simp only [special, List.mem_cons, List.not_mem_nil, or_false] at isSpecial
    rcases isSpecial with rfl | rfl | rfl
    · exact name.encoding
    · exact name.own.connection
    · exact name.own.length

theorem mem_strippedAll {x : Str × Str} : x ∈ strippedAll h ↔ ∃ y ∈ h, (y.1, stripped y.2) = x := List.mem_map

theorem sorted_strippedAll (sorted : h.Sorted) : (strippedAll h).Sorted := List.pairwise_map.mpr sorted

/-- The headers of the parser's response: those that are printed, and its own `connection` if that is not. -/
theorem mem_assignAll (made : Made ResponseName IsLineValue close body h) :
    (assignAll h HttpResponse.create.headers).Sorted ∧ ∀ x, x ∈ assignAll h HttpResponse.create.headers ↔
      x ∈ strippedAll h ∨
        x = (Http.connection, connectionValue false) ∧ ∀ y ∈ h, nameKey Http.connection ≠ nameKey y.1 := by
  have initial : HttpResponse.create.headers = [(Http.connection, connectionValue false)] := rfl
  have sorted : OrderedMap.Sorted nameKey HttpResponse.create.headers := by
    rw [initial]
    exact List.pairwise_singleton ..
  obtain ⟨sorted', all⟩ := OrderedMap.mem_foldl_assign (sorted_strippedAll made.sorted) sorted (by
    intro y mem z mem' same
    rw [initial] at mem
    obtain rfl := List.mem_singleton.mp mem
    obtain ⟨x, inH, rfl⟩ := mem_strippedAll.mp mem'
    have spelled := made.connection_spelled own_of_response inH same.symm
    rw [spelled])
  refine ⟨sorted', fun x => (all x).trans (or_congr_right ?_)⟩
  rw [initial, List.mem_singleton]
  constructor
  · rintro ⟨rfl, apart⟩
    exact ⟨rfl, fun y mem => apart (y.1, stripped y.2) (mem_strippedAll.mpr ⟨y, mem, rfl⟩)⟩
  · rintro ⟨rfl, apart⟩
    refine ⟨rfl, fun z mem => ?_⟩
    obtain ⟨y, inH, rfl⟩ := mem_strippedAll.mp mem
    exact apart y inH

/-- The length that the parser announces. -/
theorem announced_eq {env : Env} (casts : CastsDecimals env) (made : Made ResponseName IsLineValue close body h)
    (small : body.length < 2 ^ 64) {obj : HttpResponseParser} (fresh : obj.contentLen = -1) :
    getContentLength env.lexicalCast (storeAll (strippedAll h) obj).contentLen (assignAll h HttpResponse.create.headers) =
      if 0 < noted body.length then (noted body.length).toNat else body.length := by
  obtain ⟨sorted, all⟩ := mem_assignAll made
  have spelled : ∀ x ∈ h, nameKey x.1 = nameKey Http.contentLength →
      x = (Http.contentLength, bytes (toString body.length)) := fun x mem same =>
    made.length_spelled own_of_response mem same
  by_cases there : (Http.contentLength, bytes (toString body.length)) ∈ h
  · have contentLen : (storeAll (strippedAll h) obj).contentLen = noted body.length := by
      refine contentLen_storeAll _ obj (fun x mem same => ?_) (.inr ⟨_, mem_strippedAll.mpr ⟨_, there, rfl⟩, rfl⟩)
      obtain ⟨y, inH, rfl⟩ := mem_strippedAll.mp mem
      rw [spelled y inH same, stripped_toString, strtol_toString]
      rfl
    have found : (assignAll h HttpResponse.create.headers).find (bytes "content-length") =
        some (bytes (toString body.length)) := by
      refine HttpHeaders.Sorted.find_of_mem sorted ((all _).mpr (.inl (mem_strippedAll.mpr ⟨_, there, ?_⟩))) rfl
      exact Prod.ext rfl (stripped_toString _)
    rw [getContentLength, contentLen, found]
    dsimp only
    rw [casts _ small]
    exact if_congr Iff.rfl rfl (UInt64.toNat_ofNat_of_lt small)
  · have empty : body = [] := by
      by_contra some
      exact there (made.counted some)
    have absent : ∀ x ∈ h, nameKey x.1 ≠ nameKey Http.contentLength := fun x mem same => there (spelled x mem same ▸ mem)
    have contentLen : (storeAll (strippedAll h) obj).contentLen = -1 := by
      refine contentLen_storeAll _ obj (fun x mem same => ?_) (.inl fresh)
      obtain ⟨y, inH, rfl⟩ := mem_strippedAll.mp mem
      exact absurd same (absent y inH)
    have notFound : (assignAll h HttpResponse.create.headers).find (bytes "content-length") = none := by
      refine Option.eq_none_iff_forall_ne_some.mpr fun value found => ?_
      obtain ⟨name, mem, same⟩ := HttpHeaders.Sorted.mem_of_find sorted found
      rcases (all _).mp mem with listed | ⟨eq, -⟩
      · obtain ⟨x, inH, eq⟩ := mem_strippedAll.mp listed
        obtain ⟨rfl, -⟩ := Prod.mk.inj eq
        exact absent x inH same
      · obtain ⟨rfl, -⟩ := Prod.mk.inj eq
        exact absurd same Made.connection_ne_length
    rw [getContentLength, contentLen, notFound, empty]
    rfl

/-- A body that is not chunked, and is in the buffer. -/
theorem finish_plain {env : Env} {buffSize n : Nat} {obj : HttpResponseParser} {unparsed : Str} {reads : Reads}
    (plain : obj.isChunkedResponse = false)
    (length : getContentLength env.lexicalCast obj.contentLen obj.response.headers = n) (enough : n ≤ unparsed.length)
    (room : unparsed.length ≤ env.maxSize) :
    obj.finish env buffSize unparsed reads = some (.message (obj.response.withBody (unparsed.take n)) reads) :=
  HttpResponseParser.finish_of_recvBody plain length (enough.trans room) (if_pos enough)

/-- The status of the table, with its text. -/
theorem status_entry (known : ∃ text, (r.status, text) ∈ httpStatusMap) : (0 ≤ r.status ∧ r.status < 2 ^ 31) ∧
    bytes (httpStatusToString r.status) ≠ [] ∧ ∀ c ∈ bytes (httpStatusToString r.status), inner.mem c = true := by
  have all : ∀ entry ∈ httpStatusMap, (0 ≤ entry.1 ∧ entry.1 < 2 ^ 31) ∧ bytes entry.2 ≠ [] ∧
      (bytes entry.2).all inner.mem = true := by
    decide +kernel
  obtain ⟨text, mem⟩ := known
  have named : (r.status, httpStatusToString r.status) ∈ httpStatusMap := by
    unfold httpStatusToString
    split
    · rename_i entry found
      have same := List.find?_some found
      rw [beq_iff_eq] at same
      exact same ▸ List.mem_of_find?_eq_some found
    · rename_i none
      exact absurd (beq_self_eq_true _) (List.find?_eq_none.mp none _ mem)
  obtain ⟨bounds, some, inside⟩ := all _ named
  exact ⟨bounds, some, List.all_eq_true.mp inside⟩

theorem print_eq {n : Nat} (status : r.status = n) (small : n < 2 ^ 31) :
    r.print = (statusText r.version n (bytes (httpStatusToString r.status)) ++ r.headers.print) ++
      (bytes "\r\n" ++ r.body) := by
  have number : (r.status.emod (2 ^ 32)).toNat = n := by
    rw [status]
    change ((n : Int) % 2 ^ 32).toNat = n
    omega
  rw [HttpResponse.print, number, bodyText_eq, statusText]
  simp only [List.append_assoc]

variable {env : Env} {buffSize : Nat}

/-- No header that is made announces chunks. -/
theorem plain_of_made (made : Made ResponseName IsLineValue close body h) (obj : HttpResponseParser) :
    (storeAll (strippedAll h) obj).isChunkedResponse = obj.isChunkedResponse := by
  have none : (strippedAll h).any (fun x => decide (nameKey x.1 = nameKey encodingName)) = false := by
    rw [List.any_eq_false]
    intro x mem announces
    obtain ⟨y, inH, rfl⟩ := mem_strippedAll.mp mem
    have own : nameKey Http.connection ≠ nameKey encodingName ∧ nameKey Http.contentLength ≠ nameKey encodingName := by
      decide
    rcases made.entries y inH with rfl | rfl | ⟨name, -⟩
    · exact own.1 (of_decide_eq_true announces)
    · exact own.2 (of_decide_eq_true announces)
    · exact name.encoding (of_decide_eq_true announces)
  rw [isChunkedResponse_storeAll, none, Bool.or_false]

/-- What `recv_response` returns for a printed response, whatever comes behind it. -/
theorem received_cons (casts : CastsDecimals env) (made : Made ResponseName IsLineValue close r.body r.headers)
    (status : ∃ text, (r.status, text) ∈ httpStatusMap) (version : r.version = 0x11 ∨ r.version = 0x10)
    (read : OneRead env buffSize r.print) (reads : Reads) : ∃ n,
    n = (if 0 < noted r.body.length then (noted r.body.length).toNat else r.body.length) ∧
    recvResponse env buffSize (r.print :: reads) = some (.message (({ HttpResponse.create with
      version := r.version
      status := r.status
      reason := bytes (httpStatusToString r.status)
      headers := assignAll r.headers HttpResponse.create.headers } : HttpResponse).withBody (r.body.take n)) reads) := by
  obtain ⟨⟨low, high⟩, nonempty, isInner⟩ := status_entry status
  obtain ⟨n, isStatus⟩ : ∃ n : Nat, r.status = n := ⟨r.status.toNat, (Int.toNat_of_nonneg low).symm⟩
  have small : n < 2 ^ 31 := by omega
  have shape := print_eq isStatus small
  have room := read.room
  have fits := read.fits
  have counted := read.counted
  generalize r.print = text at shape room fits counted ⊢
  have lines : text = statusText r.version n (bytes (httpStatusToString r.status)) ++
      (r.headers.print ++ (bytes "\r\n" ++ r.body)) := by
    rw [shape, List.append_assoc]
  have length := congrArg List.length shape
  simp only [List.length_append] at length
  obtain ⟨finishes, last, regs, header⟩ := recvHeader_lines (fun x => (x.1, stripped x.2)) version small nonempty isInner
    (fun x mem => (isHeader_of_made made x mem).isLine) lines fits room reads (text :: reads).flatten.length
  have announced := announced_eq casts made (by omega)
    (rfl : (started r.version n (bytes (httpStatusToString r.status))).contentLen = -1)
  have response : (storeAll (strippedAll r.headers)
      (started r.version n (bytes (httpStatusToString r.status)))).response =
      { HttpResponse.create with
        version := r.version
        status := r.status
        reason := bytes (httpStatusToString r.status)
        headers := assignAll r.headers HttpResponse.create.headers } := by
    rw [storeAll_eq, isStatus]
    rfl
  have enough : (if 0 < noted r.body.length then (noted r.body.length).toNat else r.body.length) ≤ r.body.length := by
    split
    · rename_i pos
      exact noted_le pos
    · exact Nat.le_refl _
  refine ⟨_, rfl, ?_⟩
  have once := Machine.endsOnce_of_finishes (responseMachine_lawful env.maxSize) finishes reads.flatten
  rw [recvResponse_eq buffSize once, header, ← response]
  refine finish_plain (plain_of_made made _) ?_ enough (by omega)
  change getContentLength env.lexicalCast _ (storeAll (strippedAll r.headers) _).response.headers = _
  rw [response]
  exact announced

theorem received (casts : CastsDecimals env) (made : Made ResponseName IsLineValue close r.body r.headers)
    (status : ∃ text, (r.status, text) ∈ httpStatusMap) (version : r.version = 0x11 ∨ r.version = 0x10)
    (read : OneRead env buffSize r.print) : ∃ n,
    n = (if 0 < noted r.body.length then (noted r.body.length).toNat else r.body.length) ∧
    recvResponse env buffSize [r.print] = some (.message (({ HttpResponse.create with
      version := r.version
      status := r.status
      reason := bytes (httpStatusToString r.status)
      headers := assignAll r.headers HttpResponse.create.headers } : HttpResponse).withBody (r.body.take n)) []) :=
  received_cons casts made status version read []

/-! ## What comes back -/

theorem mem_blank {c : UInt8} : blank.mem c = true ↔ c = 0x09 ∨ c = 0x0B ∨ c = 0x0C ∨ c = 0x20 := by
  have parts : blank = (ByteSet.single 0x09).union ((ByteSet.single 0x0B).union
      ((ByteSet.single 0x0C).union (.single 0x20))) := by
    decide
  simp only [parts, ByteSet.mem_union, Bool.or_eq_true_iff, ByteSet.mem_single]

theorem stripped_eq_iff {value : Str} : stripped value = value ↔ ∀ c z, value = c :: z → blank.mem c = false := by
  cases value with
  | nil => exact iff_of_true rfl fun c z eq => nomatch eq
  | cons c z =>
    rw [stripped, List.dropWhile_eq_self_iff]
    constructor
    · intro first c' z' eq
      obtain ⟨rfl, -⟩ := List.cons.inj eq
      exact Bool.eq_false_iff.mpr (first (Nat.succ_pos _))
    · intro all _
      rw [List.getElem_cons_zero, all c z rfl]
      exact Bool.false_ne_true

/-- The values lose nothing if and only if none begins with white space that is no blank. -/
theorem stripped_values (made : Made ResponseName IsLineValue close body h) :
    (∀ x ∈ h, stripped x.2 = x.2) ↔ ∀ x ∈ h, ∀ c z, x.2 = c :: z → c ≠ 0x0B ∧ c ≠ 0x0C := by
  constructor
  · intro same x mem c z eq
    have notBlank := stripped_eq_iff.mp (same x mem) c z eq
    refine ⟨fun tab => ?_, fun feed => ?_⟩
    · rw [mem_blank.mpr (.inr (.inl tab))] at notBlank
      cases notBlank
    · rw [mem_blank.mpr (.inr (.inr (.inl feed)))] at notBlank
      cases notBlank
  · intro first x mem
    rcases made.entries x mem with rfl | rfl | ⟨-, value⟩
    · exact stripped_connectionValue close
    · exact stripped_toString body.length
    · refine stripped_eq_iff.mpr fun c z eq => Bool.eq_false_iff.mpr fun isBlank => ?_
      obtain ⟨notTab, notFeed⟩ := first x mem c z eq
      obtain ⟨notSpace, notHt⟩ := value.flush c z eq
      rcases mem_blank.mp isBlank with same | same | same | same
      · exact notHt same
      · exact notTab same
      · exact notFeed same
      · exact notSpace same

/-- The headers are those that were printed if and only if `connection` is one of them and the values lose nothing. -/
theorem assignAll_eq_iff (made : Made ResponseName IsLineValue close body h) :
    assignAll h HttpResponse.create.headers = h ↔
      (h.find Http.connection).isSome = true ∧ ∀ x ∈ h, stripped x.2 = x.2 := by
  obtain ⟨sorted, all⟩ := mem_assignAll made
  constructor
  · intro same
    rw [same] at all
    constructor
    · by_contra lost
      have absent : ∀ y ∈ h, nameKey Http.connection ≠ nameKey y.1 := fun y mem key =>
        lost (by rw [made.sorted.find_of_mem mem key.symm]; rfl)
      exact absent _ ((all _).mpr (.inr ⟨rfl, absent⟩)) rfl
    · intro x mem
      have inH := (all _).mpr (.inl (mem_strippedAll.mpr ⟨x, mem, rfl⟩))
      exact congrArg Prod.snd (made.sorted.eq_of_nameKey inH mem rfl)
  · rintro ⟨connected, same⟩
    have unchanged : strippedAll h = h := by
      refine (List.map_congr_left fun x mem => ?_).trans (List.map_id h)
      exact Prod.ext rfl (same x mem)
    obtain ⟨value, found⟩ := Option.isSome_iff_exists.mp connected
    obtain ⟨name, mem, key⟩ := made.sorted.mem_of_find found
    have spelled := made.connection_spelled own_of_response mem key
    rw [assignAll, unchanged]
    have initial : OrderedMap.Sorted nameKey HttpResponse.create.headers := List.pairwise_singleton ..
    refine OrderedMap.foldl_assign_eq initial made.sorted fun y inY => ⟨_, mem, ?_⟩
    obtain rfl := List.mem_singleton.mp inY
    exact (congrArg Prod.fst spelled).symm

section Body

variable {m : HttpResponse}

theorem body_withBody (bodyless : m.body = []) : (m.withBody body).body = body := by
  rw [HttpResponse.withBody]
  split
  · rename_i empty
    rw [bodyless, List.isEmpty_iff.mp empty]
  · rfl

theorem withBody_eq (m : HttpResponse) (body : Str) : (m.withBody body).status = m.status ∧
    (m.withBody body).reason = m.reason ∧ (m.withBody body).version = m.version := by
  rw [HttpResponse.withBody]
  split
  · exact ⟨rfl, rfl, rfl⟩
  · exact ⟨rfl, rfl, rfl⟩

/-- The length of the body is in the headers. -/
theorem headers_withBody (made : Made ResponseName IsLineValue close body h)
    (headers : m.headers = assignAll h HttpResponse.create.headers) : (m.withBody body).headers = m.headers := by
  obtain ⟨sorted, all⟩ := mem_assignAll made
  rw [HttpResponse.withBody]
  split
  · rfl
  · rename_i some
    have counted := made.counted fun empty => some (List.isEmpty_iff.mpr empty)
    have mem := (all _).mpr (.inl (mem_strippedAll.mpr ⟨_, counted, rfl⟩))
    dsimp only at mem
    rw [stripped_toString, ← headers] at mem
    rw [← headers] at sorted
    exact HttpHeaders.Sorted.assign_of_mem sorted mem

end Body

end Response

open Response in
/-- A response that a caller makes comes back if and only if the printed text loses nothing of it. -/
theorem HttpResponse.isReturned_iff {env : Env} {buffSize : Nat} {r : HttpResponse} (casts : CastsDecimals env)
    (sendable : r.Sendable) (read : OneRead env buffSize r.print) : ComesBack env buffSize r ↔ r.Readable := by
  obtain ⟨close, made⟩ := sendable.headers
  obtain ⟨n, length, answer⟩ := received casts made sendable.status sendable.version read
  let m : HttpResponse := { HttpResponse.create with
    version := r.version
    status := r.status
    reason := bytes (httpStatusToString r.status)
    headers := assignAll r.headers HttpResponse.create.headers }
  have body : (m.withBody (r.body.take n)).body = r.body.take n := body_withBody rfl
  obtain ⟨status, reason, version⟩ := withBody_eq m (r.body.take n)
  have counted : r.body.take n = r.body ↔ r.Counted := by
    rw [List.take_eq_self_iff, HttpResponse.Counted, length]
    split
    · rename_i pos
      have le := noted_le pos
      constructor
      · exact fun enough _ => by omega
      · exact fun same => by have := same pos; omega
    · rename_i none
      exact iff_of_true (Nat.le_refl _) fun pos => absurd pos none
  have headers : r.Counted → (m.withBody (r.body.take n)).headers = assignAll r.headers HttpResponse.create.headers := by
    intro isCounted
    rw [counted.mpr isCounted]
    exact headers_withBody made rfl
  constructor
  · rintro ⟨m', rest, answer', -, reason', -, headers', body'⟩
    obtain ⟨rfl, -⟩ := Received.message.inj (Option.some.inj (answer.symm.trans answer'))
    have isCounted := counted.mp (body.symm.trans body')
    obtain ⟨connected, values⟩ := (assignAll_eq_iff made).mp ((headers isCounted).symm.trans headers')
    exact ⟨reason'.symm.trans reason, connected, (stripped_values made).mp values, isCounted⟩
  · rintro ⟨reason', connected, values, isCounted⟩
    refine ⟨_, [], answer, status, reason.trans reason'.symm, version, (headers isCounted).trans ?_,
      body.trans (counted.mpr isCounted)⟩
    exact (assignAll_eq_iff made).mpr ⟨connected, (stripped_values made).mpr values⟩

/-! ## Responses with a body and with a reason -/

namespace HttpResponse

/-- `404 Not Found`, with a header, and a body of two bytes. -/
def missingResponse : HttpResponse :=
  { ((construct 0x11 true).setHeader (bytes "server") (bytes "sylar")).setBody (bytes "no") with
    status := 404
    reason := bytes "Not Found" }

theorem server_response : ResponseName (bytes "server") where
  own := ⟨⟨by decide, by decide +kernel⟩, by decide, by decide⟩
  encoding := by decide

theorem sendable_missingResponse : missingResponse.Sendable where
  status := ⟨"Not Found", by decide +kernel⟩
  version := .inl rfl
  headers := by
    have isValue : IsLineValue (bytes "sylar") := by
      refine ⟨fun c z eq => ?_, by decide +kernel⟩
      obtain ⟨rfl, -⟩ := List.cons.inj eq
      decide
    have start : (construct 0x11 true).IsMade := isMade_of_run (.nil _)
    have header := start.mutate (c := .setHeader (bytes "server") (bytes "sylar")) ⟨server_response, isValue⟩
    exact ⟨_, (header.mutate (c := .setBody (bytes "no")) trivial).made⟩

theorem isReturned_iff_missing : ComesBack linuxSigned 128 missingResponse := by
  refine (isReturned_iff castsDecimals_linuxSigned sendable_missingResponse ⟨by decide, by decide, by decide⟩).mpr
    ⟨by decide, by decide, ?_, fun _ => by decide⟩
  have all : ∀ x ∈ missingResponse.headers, x.2.head? ≠ some 0x0B ∧ x.2.head? ≠ some 0x0C := by decide
  intro x mem c z eq
  have first := all x mem
  rw [eq] at first
  exact ⟨fun tab => first.1 (congrArg some tab), fun feed => first.2 (congrArg some feed)⟩

/-- `200`, with a reason of the caller's own. -/
def fineResponse : HttpResponse := { construct 0x11 true with reason := bytes "Fine" }

theorem not_isReturned_fine : (fineResponse.Sendable ∧ fineResponse.reason ≠ [] ∧
    (∀ c ∈ fineResponse.reason, c ≠ 0x0D ∧ c ≠ 0x0A) ∧ OneRead linuxSigned 128 fineResponse.print) ∧
    ¬ ComesBack linuxSigned 128 fineResponse := by
  refine ⟨⟨⟨⟨"OK", by decide +kernel⟩, .inl rfl, ?_⟩, by decide, by decide +kernel,
    ⟨by decide, by decide, by decide⟩⟩, ?_⟩
  · exact ⟨_, (isMade_of_run (.nil _)).made⟩
  · rintro ⟨m, rest, answer, -, reason, -⟩
    have returned : recvResponse linuxSigned 128 [fineResponse.print] =
        some (.message { construct 0x11 true with close := false, reason := bytes "OK" } []) := by decide +kernel
    rw [returned] at answer
    obtain ⟨rfl, -⟩ := Received.message.inj (Option.some.inj answer)
    have other : bytes "OK" ≠ bytes "Fine" := by decide
    exact other reason

end HttpResponse

end Sylar.Http
