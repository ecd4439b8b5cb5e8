import Sylar.Http.Asserts
import Sylar.Stream.Bodies

/-!
# Messages, whatever the reads

A message does not depend on how its bytes are cut into reads, as long as no read ends inside a token of
the header, or, in a chunked body, between the carriage return and the line feed of a size line
(`recv_split`). Where a read does end inside a token, the part of the token that came first is lost: the
parser has forgotten where the token starts.
-/

namespace Sylar.Http

open Lib SocketStream ChunkedReader

variable {A Obj : Type}

theorem length_le_flatten {buffSize : Nat} (reads : Reads) (fed : Fed buffSize reads) :
    reads.length ≤ reads.flatten.length := by
  induction reads with
  | nil => exact Nat.le_refl 0
  | cons segment reads ih =>
    have pos := List.length_pos_iff.mpr (fed segment List.mem_cons_self).1
    have rest := ih (Fed.tail fed)
    rw [List.length_cons, List.flatten_cons, List.length_append]
    omega

namespace Machine

/-- The tokens of the header at the front of the input, as the places between which no read may end. -/
def tokens (machine : Machine A Obj) (obj : Obj) (stream : Str) : List Use :=
  machine.uses stream (machine.scan machine.start 0 stream).trace .init 0 obj

/-- No read ends inside a token. The end of the input divides nothing. -/
def TokensWhole (machine : Machine A Obj) (obj : Obj) (reads : Reads) : Prop :=
  ∀ u ∈ machine.tokens obj reads.flatten, ∀ k, cutAt reads k = true → k < reads.flatten.length → u.Uncut k

theorem tokensWhole_iff {machine : Machine A Obj} {obj : Obj} {reads : Reads} :
    machine.TokensWhole obj reads ↔ ∀ u ∈ machine.tokens obj reads.flatten, ∀ k < reads.flatten.length,
      cutAt reads k = true → ¬ (u.since < k ∧ k ≤ u.last) :=
  ⟨fun whole u mem k lt cut => whole u mem k cut lt, fun whole u mem k cut lt => whole u mem k lt cut⟩

instance (machine : Machine A Obj) (obj : Obj) (reads : Reads) : Decidable (machine.TokensWhole obj reads) :=
  decidable_of_iff _ tokensWhole_iff.symm

/-- The header section is in this read: the parser is finished by it. -/
def Finishes (machine : Machine A Obj) (read : Str) : Prop :=
  (machine.scan machine.start 0 read).state.any machine.finished = true

instance (machine : Machine A Obj) (read : Str) : Decidable (machine.Finishes read) :=
  inferInstanceAs (Decidable (_ = true))

/-- What the parser makes of the header at the front of the input, executed on all of it. -/
structure Parses (machine : Machine A Obj) (obj : Obj) (stream : Str) (last : Ragel.State A) (obj' : Obj) :
    Prop where
  state : (machine.scan machine.start 0 stream).state = some last
  broke : (machine.scan machine.start 0 stream).broke = true
  finished : machine.finished last = true
  run : ∃ regs, machine.run stream (machine.scan machine.start 0 stream).trace .init obj = some (regs, obj')
  good : machine.failed obj' = false

variable {machine : Machine A Obj} {buffSize fuel : Nat} {obj : Obj}

/-- A read that finishes the parser breaks it off. -/
theorem broke_of_finishes (lawful : machine.Lawful) {read : Str} (finishes : machine.Finishes read) :
    ∃ last, (machine.scan machine.start 0 read).state = some last ∧ machine.finished last = true ∧
      (machine.scan machine.start 0 read).broke = true := by
  rw [Finishes] at finishes
  cases state : (machine.scan machine.start 0 read).state with
  | none =>
    rw [state] at finishes
    cases finishes
  | some last =>
    rw [state] at finishes
    refine ⟨last, rfl, finishes, ?_⟩
    cases broke : (machine.scan machine.start 0 read).broke with
    | true => rfl
    | false =>
      have unfinished := lawful.live read last state broke
      rw [show machine.finished last = true from finishes] at unfinished
      cases unfinished

/-- A header section in the first read is the first that ends in the stream. -/
theorem endsOnce_of_finishes (lawful : machine.Lawful) {header : Str} (finishes : machine.Finishes header)
    (more : Str) : machine.EndsOnce (some machine.start) (header ++ more) := by
  obtain ⟨last, state, finished, broke⟩ := broke_of_finishes lawful finishes
  rintro _ ⟨rfl⟩ -
  have whole : machine.scan machine.start 0 (header ++ more) = machine.scan machine.start 0 header :=
    Scan.scan_append_of_stopped header more (.inr broke)
  rw [whole, state]
  exact finished

/-- A header that was received in one read is parsed in the same way on all of the input. -/
theorem parses_of_recvHeader (lawful : machine.Lawful) {first : Str} {rest : Reads}
    {x : Parser A Obj × Str × Reads} (fed : Fed buffSize (first :: rest))
    (finishes : machine.Finishes first) (whole : machine.TokensWhole obj (first :: rest))
    (got : machine.recvHeader buffSize (fuel + 1) (machine.parser obj) [] (first :: rest) = some (some x)) :
    ∃ last obj', machine.Parses obj (first :: rest).flatten last obj' := by
  obtain ⟨last, state, finished, broke⟩ := broke_of_finishes lawful finishes
  obtain ⟨nonempty, fits⟩ := fed first List.mem_cons_self
  have pos := List.length_pos_iff.mpr nonempty
  have same : machine.scan machine.start 0 (first :: rest).flatten = machine.scan machine.start 0 first :=
    Scan.scan_append_of_stopped first rest.flatten (.inr broke)
  have cut : cutAt (first :: rest) first.length = true := by
    rw [cutAt, beq_self_eq_true, Bool.true_or]
  have uncut : ∀ u ∈ machine.uses (first :: rest).flatten (machine.scan machine.start 0 first).trace .init 0
      obj, u.Uncut 0 ∧ ((first :: rest).flatten.length ≤ 0 + first.length ∨ u.Uncut (0 + first.length)) := by
    intro u mem
    rw [← same] at mem
    refine ⟨fun divided => Nat.not_lt_zero _ divided.1, ?_⟩
    rw [Nat.zero_add]
    exact (Nat.lt_or_ge first.length (first :: rest).flatten.length).symm.imp id (whole u mem _ cut)
  have agree := agree_segment lawful .init (List.drop_zero ..) nonempty (Nat.le_refl 0)
    (fun r => by cases r <;> decide) (fun _ => ⟨rfl, rfl⟩) uncut
  rw [recvHeader, List.length_nil, Nat.sub_zero, read_of_fed nonempty fits] at got
  dsimp only at got
  rw [List.nil_append, execute, Machine.parser] at got
  dsimp only at got
  obtain ⟨-, none⟩ | ⟨regs, pregs, obj', ran, ran', -⟩ := agree
  · rw [none] at got
    cases got
  · rw [ran'] at got
    have good : machine.failed obj' = false := by
      cases bad : machine.failed obj' with
      | false => rfl
      | true =>
        simp [hasError, bad] at got
    refine ⟨last, obj', by rw [same]; exact state, by rw [same]; exact broke, finished, ⟨regs, ?_⟩, good⟩
    rw [same]
    exact ran

/-- A header that is parsed on all of the input is received from any reads of which none ends inside a
token, and leaves what is behind it. -/
theorem recvHeader_of_parses (lawful : machine.Lawful) {reads : Reads} {last : Ragel.State A} {obj' : Obj}
    (parses : machine.Parses obj reads.flatten last obj') (fed : Fed buffSize reads)
    (whole : machine.TokensWhole obj reads) (enough : reads.length ≤ fuel) :
    ∃ pregs left reads', machine.recvHeader buffSize fuel (machine.parser obj) [] reads =
        some (some (⟨some last, pregs, obj'⟩, left, reads')) ∧
      left ++ reads'.flatten = reads.flatten.drop (machine.scan machine.start 0 reads.flatten).stop ∧
      Fed buffSize reads' ∧
      ∀ k, cutAt (left :: reads') k =
        cutAt reads ((machine.scan machine.start 0 reads.flatten).stop + k) := by
  obtain ⟨regs, run⟩ := parses.run
  have scan : machine.scan machine.start 0 reads.flatten =
      ⟨some last, (machine.scan machine.start 0 reads.flatten).stop, true,
        (machine.scan machine.start 0 reads.flatten).trace⟩ := by
    rw [← parses.state, ← parses.broke]
  have uncut : ∀ u ∈ machine.uses reads.flatten (machine.scan machine.start 0 reads.flatten).trace .init 0 obj,
      ∀ k, k = 0 ∨ cutAt reads k = true → 0 + k < reads.flatten.length → u.Uncut (0 + k) := by
    intro u mem k cut inside
    rw [Nat.zero_add] at inside ⊢
    rcases cut with rfl | cut
    · exact fun divided => Nat.not_lt_zero _ divided.1
    · exact whole u mem k cut inside
  obtain ⟨pregs, left, reads', loop, behind, fed', n, stop, cuts⟩ :=
    recvHeader_of_scan lawful parses.finished parses.good reads fed (List.drop_zero ..) lawful.live scan run
      (Nat.le_refl 0) (fun r => by cases r <;> decide) (fun _ => ⟨rfl, rfl⟩) uncut enough
  rw [Nat.zero_add] at stop
  refine ⟨pregs, left, reads', loop, behind, fed', ?_⟩
  rw [stop]
  exact cuts

/-- The two calls of `recvHeader` on two cuttings of the same bytes: the same object, and the same bytes
behind the header, with the cuts that are there. -/
theorem recvHeader_congr (lawful : machine.Lawful) {first : Str} {rest reads : Reads}
    {x : Parser A Obj × Str × Reads} (fed : Fed buffSize (first :: rest)) (fed' : Fed buffSize reads)
    (same : reads.flatten = (first :: rest).flatten) (finishes : machine.Finishes first)
    (whole : machine.TokensWhole obj (first :: rest)) (whole' : machine.TokensWhole obj reads)
    (got : machine.recvHeader buffSize ((first :: rest).flatten.length + 1) (machine.parser obj) []
      (first :: rest) = some (some x)) :
    ∃ last pregs obj' left left' rest' reads', x.1.obj = obj' ∧ x.2.1 = left ∧ x.2.2 = rest' ∧
      machine.recvHeader buffSize (reads.flatten.length + 1) (machine.parser obj) [] reads =
        some (some (⟨some last, pregs, obj'⟩, left', reads')) ∧
      Fed buffSize rest' ∧ Fed buffSize reads' ∧
      machine.Parses obj (first :: rest).flatten last obj' ∧
      left ++ rest'.flatten =
        (first :: rest).flatten.drop (machine.scan machine.start 0 (first :: rest).flatten).stop ∧
      left' ++ reads'.flatten =
        (first :: rest).flatten.drop (machine.scan machine.start 0 (first :: rest).flatten).stop ∧
      (∀ k, cutAt (left :: rest') k =
        cutAt (first :: rest) ((machine.scan machine.start 0 (first :: rest).flatten).stop + k)) ∧
      ∀ k, cutAt (left' :: reads') k =
        cutAt reads ((machine.scan machine.start 0 (first :: rest).flatten).stop + k) := by
  obtain ⟨last, obj', parses⟩ := parses_of_recvHeader lawful fed finishes whole got
  obtain ⟨pregs, left, rest', loop, behind, fedRest, cuts⟩ := recvHeader_of_parses lawful parses fed whole
    (Nat.le_succ_of_le (length_le_flatten _ fed))
  have parses' := parses
  rw [← same] at parses'
  obtain ⟨pregs', left', reads', loop', behind', fedReads, cuts'⟩ := recvHeader_of_parses lawful parses' fed'
    whole' (Nat.le_succ_of_le (length_le_flatten _ fed'))
  rw [loop] at got
  obtain rfl := Option.some.inj (Option.some.inj got)
  rw [same] at behind' cuts'
  exact ⟨last, pregs', obj', left, left', rest', reads', rfl, rfl, rfl, loop', fedRest, fedReads, parses,
    behind, behind', cuts, cuts'⟩

end Machine

/-! ## Bodies -/

/-- A body of a known length is the first bytes behind the header. -/
theorem recvBody_eq {buffSize length : Nat} {left : Str} {reads : Reads} (fed : Fed buffSize reads) :
    (recvBody length left reads).map Prod.fst =
      if length ≤ (left ++ reads.flatten).length then some ((left ++ reads.flatten).take length)
      else none := by
  rw [recvBody]
  by_cases atHand : length ≤ left.length
  · rw [if_pos atHand, if_pos (by rw [List.length_append]; omega), List.take_append_of_le_length atHand]
    rfl
  · rw [if_neg atHand, List.length_append]
    by_cases enough : length ≤ left.length + reads.flatten.length
    · obtain ⟨reads', got, -⟩ := readFixLength_spec (n := length - left.length) (by omega) fed
      rw [if_pos enough, got, List.take_append, List.take_of_length_le (show left.length ≤ length by omega)]
      rfl
    · rw [if_neg enough, readFixLength, readFixLengthLoop_short _ (by omega)]
      rfl

/-- So two cuttings of the same bytes have the same body, or none. -/
theorem recvBody_congr {buffSize : Nat} {left left' : Str} {reads reads' : Reads} (fed : Fed buffSize reads)
    (fed' : Fed buffSize reads') (same : left ++ reads.flatten = left' ++ reads'.flatten) (length : Nat) :
    (recvBody length left reads = none ∧ recvBody length left' reads' = none) ∨
      ∃ body rest rest', recvBody length left reads = some (body, rest) ∧
        recvBody length left' reads' = some (body, rest') := by
  have first : (recvBody length left reads).map Prod.fst = _ := recvBody_eq fed
  have second : (recvBody length left' reads').map Prod.fst = _ := recvBody_eq fed'
  rw [same, ← second] at first
  cases got : recvBody length left reads with
  | none =>
    rw [got] at first
    exact .inl ⟨rfl, Option.map_eq_none_iff.mp first.symm⟩
  | some x =>
    rw [got] at first
    obtain ⟨y, got', eq⟩ := Option.map_eq_some_iff.mp first.symm
    exact .inr ⟨x.1, x.2, y.2, rfl, by rw [got', ← eq]⟩

/-- The message a call returns, without the reads it leaves. -/
def Received.message? {M : Type} : Received M → Option M
  | .message m _ => some m
  | _ => none

theorem message?_eq_some {M : Type} {answer : Received M} {m : M} (eq : answer.message? = some m) :
    ∃ left, answer = .message m left := by
  cases answer with
  | message m' left => exact ⟨left, by rw [Option.some.inj eq]⟩
  | null => cases eq
  | escaped => cases eq
  | aborted => cases eq

theorem finish_request_congr (env : Env) (parser : HttpRequestParser) {buffSize : Nat} {left left' : Str}
    {reads reads' : Reads} (fed : Fed buffSize reads) (fed' : Fed buffSize reads')
    (same : left ++ reads.flatten = left' ++ reads'.flatten) :
    (parser.finish env left reads).message? = (parser.finish env left' reads').message? := by
  rw [HttpRequestParser.finish, HttpRequestParser.finish]
  split
  · rfl
  · split
    · rfl
    · obtain ⟨none, none'⟩ | ⟨body, rest, rest', some, some'⟩ := recvBody_congr fed fed' same
        (getContentLength env.lexicalCast parser.contentLen parser.request.headers)
      · rw [none, none']
      · rw [some, some']
        rfl

/-- In a chunked body, no read ends behind the carriage return of a size line. `stop` is where the header
ends. -/
def BodyLinesWhole (stop : Nat) (reads : Reads) : Prop :=
  ∀ k ∈ Decoder.start.lineEnds 0 (reads.flatten.drop stop), stop + k < reads.flatten.length →
    cutAt reads (stop + k) = false

instance (stop : Nat) (reads : Reads) : Decidable (BodyLinesWhole stop reads) :=
  inferInstanceAs (Decidable (∀ k ∈ Decoder.start.lineEnds 0 (reads.flatten.drop stop), _))

theorem finish_response_congr (env : Env) (parser : HttpResponseParser) {buffSize : Nat}
    {left left' : Str} {reads reads' : Reads} (fed : Fed buffSize reads) (fed' : Fed buffSize reads')
    (same : left ++ reads.flatten = left' ++ reads'.flatten)
    (lines : parser.isChunkedResponse = true → ∀ k ∈ Decoder.start.lineEnds 0 (left ++ reads.flatten),
      k < (left ++ reads.flatten).length → cutAt (left :: reads) k = false)
    (lines' : parser.isChunkedResponse = true → ∀ k ∈ Decoder.start.lineEnds 0 (left' ++ reads'.flatten),
      k < (left' ++ reads'.flatten).length → cutAt (left' :: reads') k = false) :
    (parser.finish env buffSize left reads).map Received.message? =
      (parser.finish env buffSize left' reads').map Received.message? := by
  rw [HttpResponseParser.finish, HttpResponseParser.finish]
  dsimp only
  split
  · rename_i chunked
    obtain ⟨x, got, body⟩ := readChunkedBody_decode fed (lines chunked)
    obtain ⟨x', got', body'⟩ := readChunkedBody_decode fed' (lines' chunked)
    simp only [got, got', Option.map_some, body, body', same, Received.message?]
  · split
    · rfl
    · split
      · rfl
      · obtain ⟨none, none'⟩ | ⟨body, rest, rest', some, some'⟩ := recvBody_congr fed fed' same
          (getContentLength env.lexicalCast parser.contentLen parser.response.headers)
        · rw [none, none']
        · rw [some, some']
          rfl

/-- In the body of a chunked response, no read ends between the carriage return and the line feed of a
size line. -/
def ChunkLinesWhole (env : Env) (reads : Reads) : Prop :=
  let machine := responseMachine env.maxSize
  let scan := machine.scan machine.start 0 reads.flatten
  ∀ regs parser, machine.run reads.flatten scan.trace .init .create = some (regs, parser) →
    parser.isChunkedResponse = true → BodyLinesWhole scan.stop reads

/-! ## Messages -/

/-- Two cuttings of the same bytes, of which the first has the header in its first read. Where no read of
them ends inside a token, or between the two bytes that end a size line, the calls return the same
message. -/
theorem recv_split (env : Env) (buffSize : Nat) :
    (∀ (first : Str) (rest reads : Reads) (m : HttpRequest) (left : Reads),
      Fed buffSize (first :: rest) → Fed buffSize reads → reads.flatten = (first :: rest).flatten →
      (requestMachine env.uriRelaxed env.maxSize).Finishes first →
      (requestMachine env.uriRelaxed env.maxSize).TokensWhole .create (first :: rest) →
      (requestMachine env.uriRelaxed env.maxSize).TokensWhole .create reads →
      recvRequest env buffSize (first :: rest) = some (.message m left) →
      ∃ left', recvRequest env buffSize reads = some (.message m left')) ∧
    (∀ (first : Str) (rest reads : Reads) (m : HttpResponse) (left : Reads),
      Fed buffSize (first :: rest) → Fed buffSize reads → reads.flatten = (first :: rest).flatten →
      (responseMachine env.maxSize).Finishes first →
      (responseMachine env.maxSize).TokensWhole .create (first :: rest) →
      (responseMachine env.maxSize).TokensWhole .create reads →
      ChunkLinesWhole env (first :: rest) → ChunkLinesWhole env reads →
      recvResponse env buffSize (first :: rest) = some (.message m left) →
      ∃ left', recvResponse env buffSize reads = some (.message m left')) := by
  refine ⟨fun first rest reads m left fed fed' same finishes whole whole' got => ?_,
    fun first rest reads m left fed fed' same finishes whole whole' lines lines' got => ?_⟩
  · rw [recvRequest_eq] at got ⊢
    obtain ⟨header, gotHeader, result⟩ := Option.map_eq_some_iff.mp got
    cases header with
    | none => cases result
    | some x =>
      obtain ⟨last, pregs, obj, lead, lead', rest', reads', rfl, rfl, rfl, loop, fedRest, fedReads, -, behind,
        behind', -⟩ := Machine.recvHeader_congr (requestMachine_lawful env.uriRelaxed env.maxSize) fed fed' same
          finishes whole whole' gotHeader
      have alike := finish_request_congr env x.1.obj fedRest fedReads (behind.trans behind'.symm)
      rw [show x.1.obj.finish env x.2.1 x.2.2 = .message m left from result] at alike
      obtain ⟨left', eq⟩ := message?_eq_some alike.symm
      refine ⟨left', ?_⟩
      rw [loop, Option.map_some]
      exact congrArg some eq
  · have once := Machine.endsOnce_of_finishes (responseMachine_lawful env.maxSize) finishes rest.flatten
    rw [recvResponse_eq buffSize once] at got
    rw [recvResponse_eq buffSize (same.symm ▸ once)]
    obtain ⟨header, gotHeader, result⟩ := Option.bind_eq_some_iff.mp got
    cases header with
    | none => cases result
    | some x =>
      obtain ⟨last, pregs, obj, lead, lead', rest', reads', rfl, rfl, rfl, loop, fedRest, fedReads, parses,
        behind, behind', cuts, cuts'⟩ := Machine.recvHeader_congr (responseMachine_lawful env.maxSize) fed fed'
          same finishes whole whole' gotHeader
      obtain ⟨regs, run⟩ := parses.run
      have alike := finish_response_congr env x.1.obj fedRest fedReads (behind.trans behind'.symm)
        (fun chunked k mem lt => ?_) (fun chunked k mem lt => ?_)
      · rw [show x.1.obj.finish env buffSize x.2.1 x.2.2 = some (.message m left) from result] at alike
        obtain ⟨answer, finished, eq⟩ := Option.map_eq_some_iff.mp alike.symm
        obtain ⟨left', rfl⟩ := message?_eq_some eq
        refine ⟨left', ?_⟩
        rw [loop, Option.bind_some]
        exact finished
      · rw [cuts]
        rw [behind] at mem lt
        refine lines regs x.1.obj run chunked k mem ?_
        rw [List.length_drop] at lt
        omega
      · rw [cuts']
        rw [behind'] at mem lt
        rw [← same] at run mem lt ⊢
        refine lines' regs x.1.obj run chunked k mem ?_
        rw [List.length_drop] at lt
        omega

/-- `lexical_cast` on unsigned decimal numbers that fit. -/
def decimalCast (s : Str) : Option UInt64 :=
  if s.isEmpty || s.any fun c => c < 0x30 || 0x39 < c then none else some (UInt64.ofNat (numeral 10 s))

/-- A 64-bit system. -/
def linux : Env := ⟨2 ^ 63 - 1, decimalCast, false⟩

/-- The request of `GET / HTTP/1.1`. -/
def rootRequest : HttpRequest where
  autoClose := true
  isWebsocket := false
  method := .get
  version := 0x11
  path := bytes "/"
  query := []
  fragment := []
  body := []
  headers := [(bytes "connection", bytes "close")]

/-- A response in two chunks. -/
def helloResponse : HttpResponse where
  close := false
  isWebsocket := false
  version := 0x11
  status := 200
  reason := bytes "OK"
  body := bytes "hello"
  headers := [(bytes "connection", bytes "keep-alive"), (bytes "content-length", bytes "5"),
    (bytes "Transfer-Encoding", bytes "chunked")]

set_option maxRecDepth 4000 in
/-- Reads that end between the tokens. -/
theorem recv_split_between :
    (∃ left, recvRequest linux 64 [bytes "GET ", bytes "/ ", bytes "HTTP/1.1\r\n\r\n"] =
      some (.message rootRequest left)) ∧
    ∃ left, recvResponse linux 96 [bytes "HTTP/1.1 ", bytes "200 OK\r\n",
        bytes "Transfer-Encoding: chunked\r\n\r\n3\r\nhe", bytes "l\r\n2\r\nlo\r\n0\r\n\r\n"] =
      some (.message helloResponse left) := by
  refine ⟨(recv_split linux 64).1 (bytes "GET / HTTP/1.1\r\n\r\n") [] _ rootRequest []
    (by decide +kernel) (by decide +kernel) (by decide +kernel) (by decide +kernel) (by decide +kernel)
    (by decide +kernel) (by decide +kernel), ?_⟩
  refine (recv_split linux 96).2
    (bytes "HTTP/1.1 200 OK\r\nTransfer-Encoding: chunked\r\n\r\n3\r\nhel\r\n2\r\nlo\r\n0\r\n\r\n") [] _
    helloResponse [] (by decide +kernel) (by decide +kernel) (by decide +kernel) (by decide +kernel)
    (by decide +kernel) (by decide +kernel) (fun regs parser _ _ => ?_) (fun regs parser _ _ => ?_)
    (by decide +kernel)
  · exact of_decide_eq_true (by decide +kernel)
  · exact of_decide_eq_true (by decide +kernel)

set_option maxRecDepth 4000 in
/-- A read that ends inside the method, and one inside the status code: no request, and the status 0. -/
theorem not_recv_split :
    (¬ ∀ (env : Env) (buffSize : Nat) (first : Str) (rest reads : Reads) (m : HttpRequest) (left : Reads),
      Fed buffSize (first :: rest) → Fed buffSize reads → reads.flatten = (first :: rest).flatten →
      (requestMachine env.uriRelaxed env.maxSize).Finishes first →
      recvRequest env buffSize (first :: rest) = some (.message m left) →
      ∃ left', recvRequest env buffSize reads = some (.message m left')) ∧
    ¬ ∀ (env : Env) (buffSize : Nat) (first : Str) (rest reads : Reads) (m : HttpResponse) (left : Reads),
      Fed buffSize (first :: rest) → Fed buffSize reads → reads.flatten = (first :: rest).flatten →
      (responseMachine env.maxSize).Finishes first →
      recvResponse env buffSize (first :: rest) = some (.message m left) →
      ∃ left', recvResponse env buffSize reads = some (.message m left') := by
  refine ⟨fun all => ?_, fun all => ?_⟩
  · obtain ⟨left, got⟩ := all linux 64 (bytes "GET / HTTP/1.1\r\n\r\n") []
      [bytes "G", bytes "ET / HTTP/1.1\r\n\r\n"] rootRequest [] (by decide +kernel) (by decide +kernel)
      (by decide +kernel) (by decide +kernel) (by decide +kernel)
    have null : recvRequest linux 64 [bytes "G", bytes "ET / HTTP/1.1\r\n\r\n"] = some .null := by
      decide +kernel
    rw [null] at got
    cases got
  · have whole : recvResponse linux 64 [bytes "HTTP/1.1 200 OK\r\n\r\n"] =
        some (.message { HttpResponse.create with reason := bytes "OK" } []) := by decide +kernel
    obtain ⟨left, got⟩ := all linux 64 (bytes "HTTP/1.1 200 OK\r\n\r\n") []
      [bytes "HTTP/1.1 20", bytes "0 OK\r\n\r\n"] _ [] (by decide +kernel) (by decide +kernel)
      (by decide +kernel) (by decide +kernel) whole
    have other : recvResponse linux 64 [bytes "HTTP/1.1 20", bytes "0 OK\r\n\r\n"] =
        some (.message { HttpResponse.create with status := 0, reason := bytes "OK" } []) := by
      decide +kernel
    rw [other] at got
    obtain ⟨eq, -⟩ := Received.message.inj (Option.some.inj got)
    exact absurd (congrArg HttpResponse.status eq) (by decide)

end Sylar.Http
