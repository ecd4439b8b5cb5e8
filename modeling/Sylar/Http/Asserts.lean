import Sylar.Http.Header
import Sylar.Lib.Precedes

/-!
# The assertion of the loop

`body_start` is an offset in the buffer of the call of `execute` that has set it. The assertion compares
it with the buffers of later calls too, but there are none if the end of a header section finishes the
parser: then the loop is the one without the assertion (`recv_eq_recvHeader`). For requests it always
does (`recvRequest_eq`). The parser of responses may go on behind the end of a header section, as behind
an empty `Connection` header; then it fails exactly if a later buffer is too short
(`recv_eq_aborted_iff`).
-/

namespace Sylar.Http

open Lib SocketStream

variable {A Obj : Type}

/-- What the loop without the assertion ends with. -/
def Header.ofOption : Option (Parser A Obj × Str × Reads) → Header A Obj
  | none => .null
  | some (parser, unparsed, reads) => .found parser unparsed reads

theorem read_flatten {n : Nat} {got : Str} {reads reads' : Reads} (taken : read n reads = some (got, reads')) :
    got ++ reads'.flatten = reads.flatten := by
  cases reads with
  | nil => cases taken
  | cons segment reads =>
    rw [SocketStream.read] at taken
    split at taken
    · cases taken
    · split at taken
      · rename_i all
        obtain ⟨rfl, rfl⟩ := Prod.mk.inj (Option.some.inj taken)
        rw [List.take_of_length_le all, List.flatten_cons]
      · obtain ⟨rfl, rfl⟩ := Prod.mk.inj (Option.some.inj taken)
        rw [List.flatten_cons, List.flatten_cons, ← List.append_assoc, List.take_append_drop]

namespace Machine

variable {machine : Machine A Obj} {buffSize : Nat}

/-- In this state, the first end of a header section in the stream finishes the parser. -/
def EndsOnce (machine : Machine A Obj) (cs : Option (Ragel.State A)) (stream : Str) : Prop :=
  ∀ q, cs = some q → (machine.scan q 0 stream).broke = true →
    (machine.scan q 0 stream).state.any machine.finished = true

/-- What a call of `execute` sets `body_start` to is in its buffer. -/
theorem bodyStart_le (parser : Parser A Obj) (buffer : Str) : machine.bodyStart parser buffer 0 ≤ buffer.length := by
  rw [bodyStart]
  split
  · exact Nat.zero_le _
  · rename_i q _
    dsimp only
    split
    · have bound : (machine.scan q 0 buffer).stop ≤ 0 + buffer.length := (Scan.le_stop buffer q 0).2
      omega
    · exact Nat.zero_le _

/-- A call of `execute` that does not finish the parser takes all of the buffer, and leaves `body_start` alone. -/
theorem EndsOnce.next {parser parser' : Parser A Obj} {buffer more : Str} {parsed : Nat}
    (once : machine.EndsOnce parser.cs (buffer ++ more)) (executed : machine.execute parser buffer = some (parser', parsed))
    (noError : machine.hasError parser' = false) (unfinished : machine.isFinished parser' = false) :
    machine.bodyStart parser buffer 0 = 0 ∧ machine.EndsOnce parser'.cs (buffer.drop parsed ++ more) := by
  rw [hasError, Bool.or_eq_false_iff] at noError
  rw [execute] at executed
  rw [bodyStart]
  cases cs : parser.cs with
  | none =>
    rw [cs] at executed
    obtain ⟨rfl, -⟩ := Prod.mk.inj (Option.some.inj executed)
    exact absurd noError.2 Bool.noConfusion
  | some q =>
    rw [cs] at executed
    obtain ⟨⟨regs, obj⟩, -, same⟩ := Option.map_eq_some_iff.mp executed
    obtain ⟨rfl, rfl⟩ := Prod.mk.inj same
    dsimp only
    cases broke : (machine.scan q 0 buffer).broke with
    | true =>
      -- then the end of a header section is in this buffer
      have whole : machine.scan q 0 (buffer ++ more) = machine.scan q 0 buffer :=
        Scan.scan_append_of_stopped buffer more (.inr broke)
      have ends := once q cs (by rw [whole]; exact broke)
      rw [whole] at ends
      exact absurd (ends.symm.trans unfinished) Bool.noConfusion
    | false =>
      cases state : (machine.scan q 0 buffer).state with
      | none =>
        rw [state] at noError
        exact absurd noError.2 Bool.noConfusion
      | some q' =>
        refine ⟨rfl, ?_⟩
        rintro _ ⟨rfl⟩ broke'
        have all : (machine.scan q 0 buffer).stop = 0 + buffer.length := Scan.stop_of_running buffer state broke
        rw [all, Nat.zero_add, List.drop_length, List.nil_append] at broke' ⊢
        have whole := Scan.scan_append_of_running buffer more state broke
        rw [← Machine.scan, ← Machine.scan, scan_at machine q'] at whole
        have ends := once q cs (by rw [whole]; exact broke')
        rw [whole] at ends
        exact ends

/-- If the first end of a header section finishes the parser, the assertion holds in every call. -/
theorem recv_eq_recvHeader (fuel : Nat) : ∀ {parser : Parser A Obj} {unparsed : Str} {reads : Reads},
    machine.EndsOnce parser.cs (unparsed ++ reads.flatten) →
    machine.recv buffSize fuel 0 parser unparsed reads =
      (machine.recvHeader buffSize fuel parser unparsed reads).map Header.ofOption := by
  induction fuel with
  | zero => exact fun _ => rfl
  | succ fuel ih =>
    intro parser unparsed reads once
    rw [recv, recvHeader]
    cases taken : read (buffSize - unparsed.length) reads with
    | none => rfl
    | some x =>
      obtain ⟨got, reads'⟩ := x
      rw [← read_flatten taken, ← List.append_assoc] at once
      dsimp only
      cases executed : machine.execute parser (unparsed ++ got) with
      | none => rfl
      | some y =>
        obtain ⟨parser', parsed⟩ := y
        dsimp only
        rw [if_neg (Nat.not_lt.mpr (bodyStart_le parser _))]
        split
        · rfl
        · rename_i good
          rw [Bool.or_eq_true, not_or, Bool.not_eq_true] at good
          split
          · rfl
          · rename_i unfinished
            obtain ⟨start, once'⟩ := once.next executed good.1 (Bool.eq_false_iff.mpr unfinished)
            rw [start]
            exact ih once'

theorem parser_recv {reads : Reads} {obj : Obj} {fuel : Nat}
    (once : machine.EndsOnce (some machine.start) reads.flatten) :
    machine.recv buffSize fuel 0 (machine.parser obj) [] reads =
      (machine.recvHeader buffSize fuel (machine.parser obj) [] reads).map Header.ofOption :=
  recv_eq_recvHeader fuel once

/-- What the loop finds is found without the assertion. -/
theorem recvHeader_of_recv (fuel : Nat) : ∀ {bodyStart : Nat} {parser parser' : Parser A Obj} {unparsed left : Str}
    {reads rest : Reads},
    machine.recv buffSize fuel bodyStart parser unparsed reads = some (.found parser' left rest) →
    machine.recvHeader buffSize fuel parser unparsed reads = some (some (parser', left, rest)) := by
  induction fuel with
  | zero => exact fun got => nomatch got
  | succ fuel ih =>
    intro bodyStart parser parser' unparsed left reads rest got
    rw [recv] at got
    rw [recvHeader]
    split at got
    · cases got
    · dsimp only at got
      split at got
      · cases got
      · dsimp only
        split at got
        · cases got
        · split at got
          · cases got
          · rename_i good
            rw [if_neg good]
            split at got
            · rename_i finished
              rw [if_pos finished]
              obtain ⟨rfl, rfl, rfl⟩ := Header.found.inj (Option.some.inj got)
              rfl
            · rename_i unfinished
              rw [if_neg unfinished]
              exact ih got

/-- The calls of `execute` on a header section: their buffers, each with `body_start` behind the call. -/
def calls (machine : Machine A Obj) (buffSize : Nat) : Nat → Nat → Parser A Obj → Str → Reads → List (Str × Nat)
  | 0, _, _, _, _ => []
  | fuel + 1, bodyStart, parser, unparsed, reads =>
    match read (buffSize - unparsed.length) reads with
    | none => []
    | some (got, reads) =>
      let data := unparsed ++ got
      match machine.execute parser data with
      | none => []
      | some (parser', parsed) =>
        let bodyStart := machine.bodyStart parser data bodyStart
        let unparsed := data.drop parsed
        (data, bodyStart) ::
          if machine.hasError parser' || decide (buffSize ≤ unparsed.length) || machine.isFinished parser' then []
          else calls machine buffSize fuel bodyStart parser' unparsed reads

end Machine

/-! ## Requests -/

theorem finishingAlone_request : ∃ n, Ragel.FinishingAlone n Request.Action.done (Ragel.start Request.main) := by
  have inside : ∀ x ∈ ((Ragel.alt Request.request Request.socketRequest).numbered 0).embedded, x.2 ≠ .done := by decide
  refine ⟨_, fun e mem => ⟨_, List.mem_singleton.mp mem, fun k here => ?_⟩⟩
  exact inside (k, .done) here rfl

/-- `done` is executed only where the parser is finished. -/
theorem requestMachine_endsOnce (uriRelaxed : Bool) (maxSize : Nat) (stream : Str) :
    (requestMachine uriRelaxed maxSize).EndsOnce (some (requestMachine uriRelaxed maxSize).start) stream := by
  rintro _ ⟨rfl⟩ broke
  obtain ⟨n, alone⟩ := finishingAlone_request
  have keep : ∀ q c q' as, Ragel.FinishingAlone n Request.Action.done q →
      (requestMachine uriRelaxed maxSize).step q c = some (q', as) → Ragel.FinishingAlone n Request.Action.done q' ∧
      (as.any (requestMachine uriRelaxed maxSize).breaks = true → Ragel.final q' = true) := by
    intro q c q' as alone next
    obtain ⟨kept, ends⟩ := alone.step next
    refine ⟨kept, fun breaking => ends ?_⟩
    obtain ⟨a, mem, isDone⟩ := List.any_eq_true.mp breaking
    exact eq_of_beq isDone ▸ mem
  obtain ⟨q, state, ends⟩ := Scan.state_of_broke keep stream alone broke
  exact (congrArg _ state).trans ends

/-- The end of `recv_request` behind the loop without the assertion. -/
def requestAnswer (env : Env) : Option (Parser Request.Action HttpRequestParser × Str × Reads) → Received HttpRequest
  | none => .null
  | some (parser, unparsed, reads) => parser.obj.finish env unparsed reads

/-- In `recv_request` the assertion does not fail. -/
theorem recvRequest_eq (env : Env) (buffSize : Nat) (reads : Reads) : recvRequest env buffSize reads =
    ((requestMachine env.uriRelaxed env.maxSize).recvHeader buffSize (reads.flatten.length + 1)
      ((requestMachine env.uriRelaxed env.maxSize).parser .create) [] reads).map (requestAnswer env) := by
  rw [recvRequest, Machine.parser_recv (requestMachine_endsOnce _ _ _), Option.map_map]
  congr 1
  funext found
  cases found with
  | none => rfl
  | some x => rfl

/-- The request is returned with its body once that has been read. -/
theorem HttpRequestParser.finish_of_recvBody {env : Env} {parser : HttpRequestParser} {unparsed body : Str}
    {reads reads' : Reads} {n : Nat}
    (length : getContentLength env.lexicalCast parser.contentLen parser.request.headers = n) (room : n ≤ env.maxSize)
    (got : recvBody n unparsed reads = some (body, reads')) (whole : body.length = n) :
    parser.finish env unparsed reads = .message (parser.withBody body) reads' := by
  rw [finish, length, withBody]
  by_cases empty : n = 0
  · subst empty
    obtain rfl := List.length_eq_zero_iff.mp whole
    obtain rfl : reads = reads' := (Prod.mk.inj (Option.some.inj got)).2
    rfl
  · rw [if_neg empty, if_neg (Nat.not_lt.mpr room), got, if_neg (mt List.length_eq_zero_iff.mpr (whole ▸ empty))]

/-! ## Responses -/

/-- The end of `recv_response` behind the loop without the assertion. -/
def responseAnswer (env : Env) (buffSize : Nat) :
    Option (Parser Response.Action HttpResponseParser × Str × Reads) → Option (Received HttpResponse)
  | none => some .null
  | some (parser, unparsed, reads) => parser.obj.finish env buffSize unparsed reads

/-- Nor does it in `recv_response`, if the first end of a header section finishes the parser. -/
theorem recvResponse_eq {env : Env} {reads : Reads} (buffSize : Nat)
    (once : (responseMachine env.maxSize).EndsOnce (some (responseMachine env.maxSize).start) reads.flatten) :
    recvResponse env buffSize reads = ((responseMachine env.maxSize).recvHeader buffSize (reads.flatten.length + 1)
      ((responseMachine env.maxSize).parser .create) [] reads).bind (responseAnswer env buffSize) := by
  rw [recvResponse, Machine.parser_recv once, Option.bind_map]
  congr 1
  funext found
  cases found with
  | none => rfl
  | some x => rfl

/-- The response is returned with its body once that has been read, if it has a length. -/
theorem HttpResponseParser.finish_of_recvBody {env : Env} {buffSize n : Nat} {parser : HttpResponseParser}
    {unparsed body : Str} {reads reads' : Reads} (plain : parser.isChunkedResponse = false)
    (length : getContentLength env.lexicalCast parser.contentLen parser.response.headers = n) (room : n ≤ env.maxSize)
    (got : recvBody n unparsed reads = some (body, reads')) :
    parser.finish env buffSize unparsed reads = some (.message (parser.response.withBody body) reads') := by
  rw [finish, plain, if_neg Bool.false_ne_true, length]
  dsimp only
  by_cases empty : n = 0
  · subst empty
    obtain ⟨rfl, rfl⟩ := Prod.mk.inj (Option.some.inj got)
    rfl
  · rw [if_neg empty, if_neg (Nat.not_lt.mpr room), got]

end Sylar.Http
