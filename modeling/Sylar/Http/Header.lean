import Sylar.Http.Tokens
import Sylar.Http.Session
import Sylar.Stream.Chunked

/-!
# Headers, whatever the reads

The loop of `recv_request` and `recv_response` executes the parser on one read after the other. Where no
read ends inside a token, it ends as if the parser were executed on all bytes at once
(`recvHeader_of_scan`): with the same object, and with the bytes behind the header left.
-/

namespace Sylar.Http

open Lib SocketStream ChunkedReader

variable {A Obj : Type}

/-- From this state on, the machine breaks before it is finished. -/
def Machine.Live (machine : Machine A Obj) (q : Ragel.State A) : Prop :=
  ∀ (cs : Str) (q' : Ragel.State A), (machine.scan q 0 cs).state = some q' →
    (machine.scan q 0 cs).broke = false → machine.finished q' = false

/-- A callback or assignment does not take an error back. -/
def Op.Keeps (failed : Obj → Bool) : Op Obj → Prop
  | .httpField callback => ∀ (obj obj' : Obj) (field : Str) (flen : Nat) (value : Str) (vlen : Nat),
    callback obj field flen value vlen = some obj' → failed obj = true → failed obj' = true
  | .element _ callback => ∀ (obj obj' : Obj) (text : Str) (length : Nat),
    callback obj text length = some obj' → failed obj = true → failed obj' = true
  | .number _ assign => ∀ (obj : Obj) (n : Int), failed obj = true → failed (assign obj n) = true
  | .note assign => ∀ obj : Obj, failed obj = true → failed (assign obj) = true
  | _ => True

theorem Op.Keeps.exec {failed : Obj → Bool} {op : Op Obj} (keeps : op.Keeps failed) {buffer : Str} {fpc : Nat}
    {regs regs' : Registers} {obj obj' : Obj} (ran : op.exec buffer fpc regs obj = some (regs', obj'))
    (bad : failed obj = true) : failed obj' = true := by
  cases op with
  | mark r =>
    obtain ⟨-, rfl⟩ := Prod.mk.inj (Option.some.inj ran)
    exact bad
  | writeField =>
    obtain ⟨-, rfl⟩ := Prod.mk.inj (Option.some.inj ran)
    exact bad
  | httpField callback =>
    obtain ⟨answer, called, eq⟩ := Option.map_eq_some_iff.mp ran
    obtain ⟨-, rfl⟩ := Prod.mk.inj eq
    exact keeps _ _ _ _ _ _ called bad
  | element r callback =>
    obtain ⟨answer, called, eq⟩ := Option.map_eq_some_iff.mp ran
    obtain ⟨-, rfl⟩ := Prod.mk.inj eq
    exact keeps _ _ _ _ called bad
  | number base assign =>
    obtain ⟨-, rfl⟩ := Prod.mk.inj (Option.some.inj ran)
    exact keeps _ _ bad
  | note assign =>
    obtain ⟨-, rfl⟩ := Prod.mk.inj (Option.some.inj ran)
    exact keeps _ bad

/-- What the loop relies on. -/
structure Machine.Lawful (machine : Machine A Obj) : Prop where
  closed : ∀ obj a, (machine.action obj a).Local
  keeps : ∀ obj a, (machine.action obj a).Keeps machine.failed
  live : machine.Live machine.start

namespace Machine

variable {machine : Machine A Obj}

/-! ## Runs -/

/-- A scan from position `b` on. -/
theorem scan_at (machine : Machine A Obj) (q : Ragel.State A) (b : Nat) (cs : Str) :
    machine.scan q b cs =
      ⟨(machine.scan q 0 cs).state, (machine.scan q 0 cs).stop + b, (machine.scan q 0 cs).broke,
        Scan.shifted b (machine.scan q 0 cs).trace⟩ := by
  have shift : Scan.scan machine.step machine.breaks q (0 + b) cs = _ := Scan.scan_shift b cs q 0
  rwa [Nat.zero_add] at shift

theorem Live.next {q q' : Ragel.State A} {cs : Str} (live : machine.Live q)
    (state : (machine.scan q 0 cs).state = some q') (noBreak : (machine.scan q 0 cs).broke = false) :
    machine.Live q' := by
  intro ds q'' state' noBreak'
  have both := Scan.scan_append_of_running cs ds state noBreak
  have rest := machine.scan_at q' (0 + cs.length) ds
  rw [scan] at rest
  rw [rest] at both
  refine live (cs ++ ds) q'' ?_ ?_
  · rw [scan, both]
    exact state'
  · rw [scan, both]
    exact noBreak'

/-- An invariant of the states says that a machine is live. -/
theorem live_of_invariant {I : Ragel.State A → Prop}
    (keep : ∀ q c q' as, I q → machine.step q c = some (q', as) →
      I q' ∧ (machine.finished q' = true → as.any machine.breaks = true)) (cs : Str) :
    ∀ {q q' : Ragel.State A} {p : Nat}, I q → machine.finished q = false →
    (machine.scan q p cs).state = some q' → (machine.scan q p cs).broke = false →
    machine.finished q' = false := by
  induction cs with
  | nil =>
    intro q q' p _ unfinished state _
    obtain rfl := Option.some.inj state
    exact unfinished
  | cons c cs ih =>
    intro q q' p start unfinished state noBreak
    rw [scan] at state noBreak
    cases next : machine.step q c with
    | none =>
      rw [Scan.scan_cons_none next] at state
      cases state
    | some target =>
      obtain ⟨q₁, as⟩ := target
      obtain ⟨kept, breaking⟩ := keep q c q₁ as start next
      cases breaks : as.any machine.breaks with
      | true =>
        rw [Scan.scan_cons_break next breaks] at noBreak
        cases noBreak
      | false =>
        rw [Scan.scan_cons_next next breaks] at state noBreak
        rw [breaks] at breaking
        exact ih kept (Bool.eq_false_iff.mpr fun ends => Bool.noConfusion (breaking ends)) state noBreak

theorem run_keeps {I : Obj → Bool} (keeps : ∀ obj a, (machine.action obj a).Keeps I) {buffer : Str}
    (trace : List (A × Nat)) : ∀ {regs regs' : Registers} {obj obj' : Obj},
    machine.run buffer trace regs obj = some (regs', obj') → I obj = true → I obj' = true := by
  induction trace with
  | nil =>
    intro regs regs' obj obj' run holds
    obtain ⟨-, rfl⟩ := Prod.mk.inj (Option.some.inj run)
    exact holds
  | cons x trace ih =>
    obtain ⟨a, fpc⟩ := x
    intro regs regs' obj obj' run holds
    rw [Machine.run] at run
    obtain ⟨⟨regs₁, obj₁⟩, first, rest⟩ := Option.bind_eq_some_iff.mp run
    exact ih rest ((keeps obj a).exec first holds)

theorem Lawful.keeps_run (lawful : machine.Lawful) {buffer : Str} (trace : List (A × Nat)) {regs regs' : Registers}
    {obj obj' : Obj} (run : machine.run buffer trace regs obj = some (regs', obj'))
    (good : machine.failed obj' = false) : machine.failed obj = false := by
  refine Bool.eq_false_iff.mpr fun bad => ?_
  rw [run_keeps lawful.keeps trace run bad] at good
  cases good

/-! ## One read -/

/-- The registers of a call that starts where no register points yet. -/
theorem follows_reset {b lenAt : Nat} {regs pregs : Registers} (len : lenAt ≤ b - 1)
    (small : ∀ r, regs.get r ≤ b - 1) (first : b = 0 → regs = .init ∧ pregs = .init) :
    Follows b lenAt regs pregs.reset := by
  refine ⟨fun r le => ?_, fun le => ?_⟩
  · obtain rfl : b = 0 := by
      have := small r
      omega
    obtain ⟨rfl, rfl⟩ := first rfl
    cases r <;> rfl
  · obtain ⟨rfl, rfl⟩ := first (by omega)
    rfl

/-- The trace of a read that starts at position `b`, executed on the whole input and on the read, if
neither end of the read divides a token. -/
theorem agree_segment (lawful : machine.Lawful) (pregs : Registers) {stream segment rest : Str}
    {b lenAt : Nat} {q : Ragel.State A} {regs : Registers} {obj : Obj}
    (here : stream.drop b = segment ++ rest) (nonempty : segment ≠ [])
    (len : lenAt ≤ b - 1) (small : ∀ r, regs.get r ≤ b - 1)
    (first : b = 0 → regs = .init ∧ pregs = .init)
    (uncut : ∀ u ∈ machine.uses stream (machine.scan q b segment).trace regs lenAt obj,
      u.Uncut b ∧ (stream.length ≤ b + segment.length ∨ u.Uncut (b + segment.length))) :
    Agree b segment.length (machine.lenAt stream (machine.scan q b segment).trace regs lenAt obj)
      (machine.run stream (machine.scan q b segment).trace regs obj)
      (machine.run segment (machine.scan q 0 segment).trace pregs.reset obj) := by
  have pos := List.length_pos_iff.mpr nonempty
  have piece : window stream b segment.length = segment := by
    rw [window, here, List.take_left]
  rw [machine.scan_at q b segment] at uncut ⊢
  dsimp only at uncut ⊢
  have inside : ∀ x ∈ (machine.scan q 0 segment).trace, x.2 < segment.length := by
    intro x mem
    have lt := (Scan.mem_trace segment mem).2
    have le : (Scan.scan machine.step machine.breaks q 0 segment).stop ≤ _ := (Scan.le_stop segment q 0).2
    omega
  have small' : ∀ r, regs.get r < b + segment.length := fun r => by
    have := small r
    omega
  have agree := run_window lawful.closed _ inside (follows_reset len small first) (by omega) small' uncut
  rwa [piece] at agree

/-- A parser executed on a read that starts at position `b` does what it would do on the whole input,
if neither end of the read divides a token. -/
theorem execute_segment (lawful : machine.Lawful) (pregs : Registers) {stream segment rest : Str}
    {b lenAt : Nat} {q q' : Ragel.State A} {regs regs' : Registers} {obj obj' : Obj}
    (here : stream.drop b = segment ++ rest) (nonempty : segment ≠ [])
    (state : (machine.scan q b segment).state = some q')
    (run : machine.run stream (machine.scan q b segment).trace regs obj = some (regs', obj'))
    (len : lenAt ≤ b - 1) (small : ∀ r, regs.get r ≤ b - 1)
    (first : b = 0 → regs = .init ∧ pregs = .init)
    (uncut : ∀ u ∈ machine.uses stream (machine.scan q b segment).trace regs lenAt obj,
      u.Uncut b ∧ (stream.length ≤ b + segment.length ∨ u.Uncut (b + segment.length))) :
    ∃ pregs', machine.execute ⟨some q, pregs, obj⟩ segment =
        some (⟨some q', pregs', obj'⟩, (machine.scan q 0 segment).stop) ∧
      machine.lenAt stream (machine.scan q b segment).trace regs lenAt obj < b + segment.length ∧
      ∀ r, regs'.get r < b + segment.length := by
  have agree := agree_segment lawful pregs here nonempty len small first uncut
  rw [run] at agree
  obtain ⟨none, -⟩ | ⟨regs₁, pregs', obj₁, whole, ran, -, lenAt', bound⟩ := agree
  · cases none
  · obtain ⟨rfl, rfl⟩ := Prod.mk.inj (Option.some.inj whole)
    refine ⟨pregs', ?_, lenAt', bound⟩
    rw [scan_at] at state
    rw [execute]
    dsimp only
    rw [ran, state]
    rfl

/-! ## All reads -/

theorem read_of_fed {buffSize : Nat} {segment : Str} {reads : Reads} (nonempty : segment ≠ [])
    (fits : segment.length ≤ buffSize) : read buffSize (segment :: reads) = some (segment, reads) := by
  have pos := List.length_pos_iff.mpr nonempty
  rw [SocketStream.read, if_neg (not_or.mpr ⟨by omega, nonempty⟩), if_pos fits, List.take_of_length_le fits]

theorem isFinished_some (q : Ragel.State A) (regs : Registers) (obj : Obj) :
    machine.isFinished ⟨some q, regs, obj⟩ = machine.finished q := rfl

/-- A turn of the loop, on a read that fits the buffer. -/
theorem recvHeader_turn {buffSize fuel parsed : Nat} {segment : Str} {reads : Reads}
    {parser parser' : Parser A Obj} (nonempty : segment ≠ []) (fits : segment.length ≤ buffSize)
    (executed : machine.execute parser segment = some (parser', parsed)) (taken : 0 < parsed)
    (good : machine.hasError parser' = false) :
    machine.recvHeader buffSize (fuel + 1) parser [] (segment :: reads) =
      if machine.isFinished parser' then some (some (parser', segment.drop parsed, reads))
      else machine.recvHeader buffSize fuel parser' (segment.drop parsed) reads := by
  have pos := List.length_pos_iff.mpr nonempty
  have room : decide (buffSize ≤ (segment.drop parsed).length) = false := by
    rw [List.length_drop]
    exact decide_eq_false (by omega)
  rw [recvHeader, List.length_nil, Nat.sub_zero, read_of_fed nonempty fits]
  dsimp only
  rw [List.nil_append, executed]
  dsimp only
  rw [good, room, Bool.or_false, if_neg Bool.false_ne_true]

/-- The cuts behind a whole segment. -/
theorem cutAt_cons_add (segment : Str) (reads : Reads) {k : Nat} (pos : 0 < k) :
    cutAt (segment :: reads) (segment.length + k) = cutAt reads k := by
  rw [cutAt, Nat.add_sub_cancel_left]
  have ne : (segment.length + k == segment.length) = false := beq_false_of_ne (by omega)
  have lt : decide (segment.length < segment.length + k) = true := decide_eq_true (by omega)
  rw [ne, lt, Bool.false_or, Bool.true_and]

/-- The loop over reads of which none ends inside a token: it ends with the object that the execution on
the whole input gives, and what is behind the header is left. -/
theorem recvHeader_of_scan (lawful : machine.Lawful) {stream : Str} {buffSize stop : Nat}
    {last : Ragel.State A} {regs' : Registers} {obj' : Obj} (finished : machine.finished last = true)
    (good : machine.failed obj' = false) (reads : Reads) :
    ∀ {b lenAt fuel : Nat} {q : Ragel.State A} {regs pregs : Registers} {obj : Obj}
      {trace : List (A × Nat)},
    Fed buffSize reads → stream.drop b = reads.flatten → machine.Live q →
    machine.scan q b reads.flatten = ⟨some last, stop, true, trace⟩ →
    machine.run stream trace regs obj = some (regs', obj') →
    lenAt ≤ b - 1 → (∀ r, regs.get r ≤ b - 1) → (b = 0 → regs = .init ∧ pregs = .init) →
    (∀ u ∈ machine.uses stream trace regs lenAt obj,
      ∀ k, k = 0 ∨ cutAt reads k = true → b + k < stream.length → u.Uncut (b + k)) →
    reads.length ≤ fuel →
    ∃ pregs' left reads', machine.recvHeader buffSize fuel ⟨some q, pregs, obj⟩ [] reads =
        some (some (⟨some last, pregs', obj'⟩, left, reads')) ∧
      left ++ reads'.flatten = stream.drop stop ∧ Fed buffSize reads' ∧
      ∃ n, stop = b + n ∧ ∀ k, cutAt (left :: reads') k = cutAt reads (n + k) := by
  induction reads with
  | nil =>
    intro b lenAt fuel q regs pregs obj trace _ _ _ scan
    cases congrArg Scan.broke scan
  | cons segment reads ih =>
    intro b lenAt fuel q regs pregs obj trace fed here live scan run len small first uncut enough
    obtain ⟨nonempty, fits⟩ := fed segment List.mem_cons_self
    have pos := List.length_pos_iff.mpr nonempty
    have fed' : Fed buffSize reads := fun s mem => fed s (List.mem_cons_of_mem _ mem)
    rw [List.flatten_cons] at here scan
    have whole : stream.length - b = segment.length + reads.flatten.length := by
      rw [← List.length_drop, here, List.length_append]
    obtain ⟨fuel, rfl⟩ : ∃ f, fuel = f + 1 := ⟨fuel - 1, by rw [List.length_cons] at enough; omega⟩
    have atEnd : cutAt (segment :: reads) segment.length = true := by
      rw [cutAt, beq_self_eq_true, Bool.true_or]
    have ends : ∀ u ∈ machine.uses stream trace regs lenAt obj,
        u.Uncut b ∧ (stream.length ≤ b + segment.length ∨ u.Uncut (b + segment.length)) := by
      refine fun u mem => ⟨uncut u mem 0 (.inl rfl) (by omega), ?_⟩
      by_cases inside : b + segment.length < stream.length
      · exact .inr (uncut u mem segment.length (.inr atEnd) inside)
      · exact .inl (Nat.le_of_not_lt inside)
    cases state : (machine.scan q b segment).state with
    | none =>
      -- the machine cannot fail on a part of what it accepts
      rw [Machine.scan, Scan.scan_append_of_stopped _ _ (.inl state)] at scan
      cases state.symm.trans (congrArg Scan.state scan)
    | some q' =>
      cases broke : (machine.scan q b segment).broke with
      | true =>
        have same : machine.scan q b segment = ⟨some last, stop, true, trace⟩ :=
          (Scan.scan_append_of_stopped _ _ (.inr broke)).symm.trans scan
        obtain ⟨pregs', executed, -, -⟩ := execute_segment lawful pregs here nonempty
          (congrArg Scan.state same) (by rw [same]; exact run) len small first (by rw [same]; exact ends)
        rw [scan_at] at same
        have stops : (machine.scan q 0 segment).stop + b = stop := congrArg Scan.stop same
        have taken : 0 < (machine.scan q 0 segment).stop :=
          Scan.lt_stop_of_broke segment (congrArg Scan.broke same)
        have le : (machine.scan q 0 segment).stop ≤ segment.length := by
          have bound : (machine.scan q 0 segment).stop ≤ 0 + segment.length := (Scan.le_stop segment q 0).2
          omega
        refine ⟨pregs', segment.drop (machine.scan q 0 segment).stop, reads, ?_, ?_, fed', _,
          by rw [← stops, Nat.add_comm], fun k => (cutAt_drop le reads k).symm⟩
        · rw [recvHeader_turn nonempty fits executed taken (by rw [hasError, good]; rfl),
            isFinished_some, if_pos finished]
        · rw [← stops, Nat.add_comm, ← List.drop_drop, here, List.drop_append_of_le_length le]
      | false =>
        have both := Scan.scan_append_of_running segment reads.flatten state broke
        rw [Machine.scan, both] at scan
        obtain ⟨tailState, tailStop, tailBroke, rfl⟩ := Scan.mk.inj scan
        rw [run_append] at run
        obtain ⟨⟨regs₁, obj₁⟩, run₁, run₂⟩ := Option.bind_eq_some_iff.mp run
        rw [uses_append machine _ _ run₁] at uncut ends
        obtain ⟨pregs₁, executed, len₁, small₁⟩ := execute_segment lawful pregs here nonempty
          state run₁ len small first fun u mem => ends u (List.mem_append_left _ mem)
        have live' : machine.Live q' := by
          rw [scan_at] at state broke
          exact live.next state broke
        have all : (machine.scan q 0 segment).stop = segment.length := by
          rw [scan_at] at state broke
          have stops : (machine.scan q 0 segment).stop = 0 + segment.length :=
            Scan.stop_of_running segment state broke
          rw [stops, Nat.zero_add]
        have tail : machine.scan q' (b + segment.length) reads.flatten =
            ⟨some last, stop, true, (machine.scan q' (b + segment.length) reads.flatten).trace⟩ := by
          rw [Machine.scan, ← tailState, ← tailStop, ← tailBroke]
        have next : stream.drop (b + segment.length) = reads.flatten := by
          rw [← List.drop_drop, here, List.drop_left]
        have uncut' : ∀ u ∈ machine.uses stream (machine.scan q' (b + segment.length) reads.flatten).trace
            regs₁ (machine.lenAt stream (machine.scan q b segment).trace regs lenAt obj) obj₁,
            ∀ k, k = 0 ∨ cutAt reads k = true → b + segment.length + k < stream.length →
            u.Uncut (b + segment.length + k) := by
          intro u mem k cut inside
          rw [Nat.add_assoc] at inside ⊢
          refine uncut u (List.mem_append_right _ mem) (segment.length + k) (.inr ?_) inside
          by_cases zero : k = 0
          · rw [zero]
            exact atEnd
          · rw [cutAt_cons_add _ _ (Nat.pos_of_ne_zero zero)]
            exact cut.resolve_left zero
        have fuelLeft : reads.length ≤ fuel := Nat.le_of_succ_le_succ enough
        obtain ⟨pregs', left, reads', loop, behind, fed'', n, stops, cuts⟩ := ih fed' next live'
          tail run₂ (Nat.le_sub_one_of_lt len₁) (fun r => Nat.le_sub_one_of_lt (small₁ r))
          (fun zero => absurd zero (by omega)) uncut' fuelLeft
        refine ⟨pregs', left, reads', ?_, behind, fed'', segment.length + n, by omega, fun k => ?_⟩
        · have good₁ : machine.failed obj₁ = false := lawful.keeps_run _ run₂ good
          rw [scan_at] at state broke
          rw [recvHeader_turn nonempty fits executed (by omega) (by rw [hasError, good₁]; rfl),
            isFinished_some, if_neg (Bool.eq_false_iff.mp (live segment q' state broke)), all,
            List.drop_length, loop]
        · have more : b + segment.length < stop := by
            have lt := Scan.lt_stop_of_broke reads.flatten tailBroke
            rwa [tailStop] at lt
          rw [cuts, Nat.add_assoc, cutAt_cons_add _ _ (by omega)]

end Machine

/-! ## The two machines -/

theorem string_congr {maxSize length : Nat} {text text' : Str} (same : text.take length = text'.take length) :
    string maxSize text length = string maxSize text' length := by
  rw [string, string, same]

theorem sameFirst_congr {literal : Str} {length : Nat} {text text' : Str}
    (same : text.take length = text'.take length) :
    sameFirst text literal length = sameFirst text' literal length := by
  rw [sameFirst, sameFirst, same]

/-- A machine whose expression is `e @ done` breaks when it comes to a final state. -/
theorem live_of_finishing {A Obj : Type} [DecidableEq A] {machine : Machine A Obj} {condition : Bool}
    {n : Nat} {x : A} (start : Ragel.Finishing n x machine.start)
    (unfinished : Ragel.final machine.start = false)
    (steps : machine.step = Ragel.step condition) (breaks : machine.breaks x = true)
    (final : ∀ q, machine.finished q = true → Ragel.final q = true) : machine.Live machine.start := by
  intro cs q' state noBreak
  refine Machine.live_of_invariant (I := Ragel.Finishing n x) (fun q c q' as finishing next => ?_) cs start
    (Bool.eq_false_iff.mpr fun ends => ?_) state noBreak
  · rw [steps] at next
    obtain ⟨kept, done⟩ := finishing.step next
    exact ⟨kept, fun ends => List.any_eq_true.mpr ⟨x, done (final q' ends), breaks⟩⟩
  · rw [final _ ends] at unfinished
    cases unfinished

theorem requestMachine_lawful (uriRelaxed : Bool) (maxSize : Nat) :
    (requestMachine uriRelaxed maxSize).Lawful where
  closed parser a := by
    cases a with
    | writeValue =>
      intro parser field field' flen value value' vlen sameField sameValue
      rw [HttpRequestParser.onRequestHttpField, HttpRequestParser.onRequestHttpField,
        string_congr sameField, string_congr sameValue]
    | requestMethod =>
      intro parser text text' length same
      rw [HttpRequestParser.onRequestMethod, HttpRequestParser.onRequestMethod, string_congr same]
    | fragment =>
      intro parser text text' length same
      rw [HttpRequestParser.onRequestFragment, HttpRequestParser.onRequestFragment, string_congr same]
    | queryString =>
      intro parser text text' length same
      rw [HttpRequestParser.onRequestQuery, HttpRequestParser.onRequestQuery, string_congr same]
    | requestPath =>
      intro parser text text' length same
      rw [HttpRequestParser.onRequestPath, HttpRequestParser.onRequestPath, string_congr same]
    | httpVersion =>
      intro parser text text' length same
      rw [HttpRequestParser.onRequestVersion, HttpRequestParser.onRequestVersion, sameFirst_congr same,
        sameFirst_congr same]
    | done =>
      show Op.Local (if parser.xmlSent || parser.jsonSent then _ else _)
      split
      · exact fun _ _ _ _ _ => rfl
      · trivial
    | mark | startField | writeField | startValue | requestUri | startQuery | xml | json => trivial
  keeps parser a := by
    cases a with
    | writeValue =>
      intro parser parser' field flen value vlen called bad
      obtain ⟨f, -, rest⟩ := Option.bind_eq_some_iff.mp called
      obtain ⟨v, -, rest⟩ := Option.bind_eq_some_iff.mp rest
      obtain rfl := Option.some.inj rest
      exact bad
    | requestMethod =>
      intro parser parser' text length called bad
      obtain ⟨s, -, rfl⟩ := Option.map_eq_some_iff.mp called
      show ((if stringToHttpMethod s = .invalidMethod then 0x1002 else parser.errno) != 0) = true
      split
      · rfl
      · exact bad
    | fragment | queryString | requestPath =>
      intro parser parser' text length called bad
      obtain ⟨s, -, rfl⟩ := Option.map_eq_some_iff.mp called
      exact bad
    | httpVersion =>
      intro parser parser' text length called bad
      rw [HttpRequestParser.onRequestVersion] at called
      split at called
      · obtain rfl := Option.some.inj called
        exact bad
      · split at called
        · obtain rfl := Option.some.inj called
          exact bad
        · obtain rfl := Option.some.inj called
          rfl
    | done =>
      show Op.Keeps _ (if parser.xmlSent || parser.jsonSent then _ else _)
      split
      · intro parser parser' text length called bad
        obtain rfl := Option.some.inj called
        exact bad
      · exact fun _ bad => bad
    | requestUri | xml | json => exact fun _ bad => bad
    | mark | startField | writeField | startValue | startQuery => trivial
  live := live_of_finishing (n := _) (x := .done) (fun e mem => ⟨_, List.mem_singleton.mp mem⟩)
    (show Ragel.final (Ragel.start Request.main) = false by decide +kernel) rfl rfl fun _ ends => ends

theorem responseMachine_lawful (maxSize : Nat) : (responseMachine maxSize).Lawful where
  closed parser a := by
    cases a with
    | writeValue =>
      intro parser field field' flen value value' vlen sameField sameValue
      rw [HttpResponseParser.onResponseHttpField, HttpResponseParser.onResponseHttpField,
        string_congr sameField, string_congr sameValue]
    | reasonPhrase =>
      intro parser text text' length same
      rw [HttpResponseParser.onResponseReason, HttpResponseParser.onResponseReason, string_congr same]
    | statusCode =>
      intro parser text text' length same
      rw [HttpResponseParser.onResponseStatus, HttpResponseParser.onResponseStatus, string_congr same]
    | httpVersion =>
      intro parser text text' length same
      rw [HttpResponseParser.onResponseVersion, HttpResponseParser.onResponseVersion, sameFirst_congr same,
        sameFirst_congr same]
    | mark | startField | writeField | startValue | writeContentLen | writeConnectionClose | chunkSize
    | transChunked | done => trivial
  keeps parser a := by
    cases a with
    | writeValue =>
      intro parser parser' field flen value vlen called bad
      obtain ⟨f, -, rest⟩ := Option.bind_eq_some_iff.mp called
      obtain ⟨v, -, rest⟩ := Option.bind_eq_some_iff.mp rest
      obtain rfl := Option.some.inj rest
      exact bad
    | reasonPhrase | statusCode =>
      intro parser parser' text length called bad
      obtain ⟨s, -, rfl⟩ := Option.map_eq_some_iff.mp called
      exact bad
    | httpVersion =>
      intro parser parser' text length called bad
      rw [HttpResponseParser.onResponseVersion] at called
      split at called
      · obtain rfl := Option.some.inj called
        exact bad
      · split at called
        · obtain rfl := Option.some.inj called
          exact bad
        · obtain rfl := Option.some.inj called
          rfl
    | writeContentLen | chunkSize => exact fun _ _ bad => bad
    | writeConnectionClose | transChunked | done => exact fun _ bad => bad
    | mark | startField | writeField | startValue => trivial
  live := live_of_finishing (n := _) (x := .done) (fun e mem => ⟨_, List.mem_singleton.mp mem⟩)
    (show Ragel.final (Ragel.start Response.main) = false by decide +kernel) rfl rfl
    fun _ ends => (Bool.and_eq_true_iff.mp ends).1

end Sylar.Http
