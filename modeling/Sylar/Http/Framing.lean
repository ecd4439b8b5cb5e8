import Sylar.Http.Split
import Sylar.Stream.Rest

/-!
# Messages one after the other

A call of `recv_request` or `recv_response` reads into a buffer of its own. What the buffer holds behind
the message is dropped when the call returns, and so are the last two bytes of a chunked body. Successive
calls therefore return the messages that were sent only if no read that a call does not bound reaches
over the end of its message (`LeavesRest`): the read with the header section, and, in a chunked body, the
read with the last size line, which has to end with the message.
-/

namespace Sylar.Http

open Lib SocketStream ChunkedReader

variable {A Obj : Type}

/-! ## Headers -/

/-- A token that ends in a text is the same in a longer one. -/
theorem token_append {text : Str} {i length : Nat} (tail : Str) (inside : i + length ≤ text.length) :
    ((text ++ tail).drop i).take length = (text.drop i).take length := by
  rw [List.drop_append_of_le_length (by omega), List.take_append_of_le_length]
  rw [List.length_drop]
  omega

/-- A number that ends before the end of a text is the same in a longer one. -/
theorem subject_append {text : Str} (tail : Str) (ends : numberLength text < text.length) :
    subject (text ++ tail) = subject text := by
  have split := congrArg List.length (List.takeWhile_append_dropWhile (p := isspace) (l := text))
  rw [List.length_append] at split
  rw [numberLength, subject] at ends
  have more : (text.dropWhile isspace).isEmpty = false := by
    rw [List.isEmpty_eq_false_iff]
    intro none
    rw [none, List.length_nil] at split
    omega
  have inner : ((text.dropWhile isspace).takeWhile inNumber).length ≠ (text.dropWhile isspace).length := by
    omega
  rw [subject, subject, List.dropWhile_append, if_neg (by rw [more]; exact Bool.false_ne_true),
    List.takeWhile_append, if_neg inner]

theorem strtol_append {text : Str} {i : Nat} (base : Nat) (tail : Str)
    (ends : i + numberLength (text.drop i) < text.length) :
    strtol base ((text ++ tail).drop i) = strtol base (text.drop i) := by
  have same : subject ((text ++ tail).drop i) = subject (text.drop i) := by
    rw [List.drop_append_of_le_length (by omega)]
    refine subject_append tail ?_
    rw [List.length_drop]
    omega
  rw [strtol, strtol, same]

/-- An action that looks at nothing behind a text does the same on a longer one. -/
theorem Op.exec_append {op : Op Obj} (closed : op.Local) {text : Str} {fpc lenAt : Nat} {regs : Registers}
    {obj : Obj} (tail : Str) (inside : ∀ u ∈ op.uses text regs lenAt fpc, u.last < text.length) :
    op.exec (text ++ tail) fpc regs obj = op.exec text fpc regs obj := by
  cases op with
  | mark r | writeField | note assign => rfl
  | httpField callback =>
    simp only [Op.uses, Use.of, List.forall_mem_cons] at inside
    obtain ⟨field, -, value, -⟩ := inside
    rw [Op.exec, Op.exec, closed obj _ _ _ _ _ _ (token_append tail (by omega))
      (token_append tail (by omega))]
  | element r callback =>
    simp only [Op.uses, Use.of, List.forall_mem_cons] at inside
    obtain ⟨text, -⟩ := inside
    rw [Op.exec, Op.exec, closed obj _ _ _ (token_append tail (by omega))]
  | number base assign =>
    simp only [Op.uses, Use.of, List.forall_mem_cons] at inside
    obtain ⟨number, -⟩ := inside
    rw [Op.exec, Op.exec, strtol_append base tail (by omega)]

namespace Machine

variable {machine : Machine A Obj} {buffSize : Nat} {obj obj' : Obj}

theorem run_append_text (lawful : machine.Lawful) {text : Str} (tail : Str) (trace : List (A × Nat)) :
    ∀ {regs : Registers} {lenAt : Nat} {obj : Obj},
    (∀ u ∈ machine.uses text trace regs lenAt obj, u.last < text.length) →
    machine.run (text ++ tail) trace regs obj = machine.run text trace regs obj := by
  induction trace with
  | nil => exact fun _ => rfl
  | cons x trace ih =>
    obtain ⟨a, fpc⟩ := x
    intro regs lenAt obj inside
    rw [Machine.uses] at inside
    have same : (machine.action obj a).exec (text ++ tail) fpc regs obj =
        (machine.action obj a).exec text fpc regs obj :=
      Op.exec_append (lawful.closed obj a) tail fun u mem => inside u (List.mem_append_left _ mem)
    rw [run, run, same]
    cases ran : (machine.action obj a).exec text fpc regs obj with
    | none => rfl
    | some result =>
      rw [ran] at inside
      exact ih fun u mem => inside u (List.mem_append_right _ mem)

/-- The object that a header section makes, if the parser, executed on it alone, accepts it with its last
byte and looks at nothing behind it. -/
def headerOf (machine : Machine A Obj) (obj : Obj) (header : Str) : Option Obj :=
  let scan := machine.scan machine.start 0 header
  if scan.broke && scan.stop == header.length && scan.state.any machine.finished &&
      (machine.tokens obj header).all (fun u => decide (u.last < header.length)) then
    (machine.run header scan.trace .init obj).bind fun (_, obj') =>
      if machine.failed obj' then none else some obj'
  else none

/-- What is behind a header section does not change what the parser makes of it. -/
theorem execute_header (lawful : machine.Lawful) {header : Str}
    (parses : machine.headerOf obj header = some obj') (tail : Str) :
    0 < header.length ∧ machine.failed obj' = false ∧ ∃ last regs, machine.finished last = true ∧
      machine.execute (machine.parser obj) (header ++ tail) =
        some (⟨some last, regs, obj'⟩, header.length) := by
  rw [headerOf] at parses
  dsimp only at parses
  split at parses
  · rename_i accepted
    simp only [Bool.and_eq_true, beq_iff_eq, List.all_eq_true, decide_eq_true_eq] at accepted
    obtain ⟨⟨⟨broke, stop⟩, ends⟩, inside⟩ := accepted
    have same : machine.scan machine.start 0 (header ++ tail) = machine.scan machine.start 0 header :=
      Scan.scan_append_of_stopped header tail (.inr broke)
    have pos : 0 < (machine.scan machine.start 0 header).stop := Scan.lt_stop_of_broke header broke
    obtain ⟨⟨regs, object⟩, ran, checked⟩ := Option.bind_eq_some_iff.mp parses
    cases state : (machine.scan machine.start 0 header).state with
    | none =>
      rw [state] at ends
      cases ends
    | some last =>
      rw [state] at ends
      dsimp only at checked
      split at checked
      · cases checked
      · rename_i good
        obtain rfl := Option.some.inj checked
        refine ⟨by omega, Bool.eq_false_iff.mpr good, last, regs, ends, ?_⟩
        have run : machine.run (header ++ tail) (machine.scan machine.start 0 header).trace .init obj =
            some (regs, object) := (run_append_text lawful tail _ inside).trans ran
        rw [execute, Machine.parser]
        dsimp only
        rw [same, show Registers.init.reset = .init from rfl, run, state, stop]
        rfl
  · cases parses

/-- A header section that is received in one read, with what the read has behind it left. -/
theorem recvHeader_header (lawful : machine.Lawful) {header tail : Str}
    (parses : machine.headerOf obj header = some obj') (fits : (header ++ tail).length ≤ buffSize)
    (reads : Reads) (fuel : Nat) :
    ∃ last regs, machine.recvHeader buffSize (fuel + 1) (machine.parser obj) [] ((header ++ tail) :: reads) =
      some (some (⟨some last, regs, obj'⟩, tail, reads)) := by
  obtain ⟨pos, good, last, regs, finished, executed⟩ := execute_header lawful parses tail
  have nonempty : header ++ tail ≠ [] := by
    refine List.append_ne_nil_of_left_ne_nil ?_ tail
    exact List.length_pos_iff.mp pos
  refine ⟨last, regs, ?_⟩
  rw [recvHeader_turn nonempty fits executed pos (by rw [hasError, good]; rfl), isFinished_some,
    if_pos finished, List.drop_left]

end Machine

/-! ## Frames -/

/-- A message as it is sent: its header section, its body, and the chunks if the body is chunked. -/
structure Frame where
  header : Str
  body : Str
  chunks : Option (List Chunk)
  nonempty : header ≠ []
  encodes : ∀ cs ∈ chunks, body = encodeChunked cs

namespace Frame

def text (frame : Frame) : Str := frame.header ++ frame.body

/-- The header section of a message that starts at `s` is inside one read. -/
def HeaderWhole (reads : Reads) (s : Nat) (frame : Frame) : Prop :=
  ∀ k < s + frame.header.length, s < k → cutAt reads k = false

instance (reads : Reads) (s : Nat) (frame : Frame) : Decidable (frame.HeaderWhole reads s) :=
  inferInstanceAs (Decidable (∀ k < s + frame.header.length, s < k → cutAt reads k = false))

/-- No size line of a chunk is cut after its carriage return, unless the chunk is of line feeds. -/
def LinesWhole (reads : Reads) (s : Nat) (frame : Frame) : Prop :=
  ∀ cs ∈ frame.chunks, LinesClear reads (s + frame.header.length) cs

/-- The read with the header section does not reach over the end of the message, and the read with the
last size line of a chunked body ends there. -/
def EndsWithin (reads : Reads) (s : Nat) (frame : Frame) : Prop :=
  match frame.chunks with
  | none => ∃ k ≤ s + frame.text.length, s + frame.header.length ≤ k ∧ cutAt reads k = true
  | some _ => EndsRead reads (s + frame.text.length)

theorem length_text (frame : Frame) : frame.text.length = frame.header.length + frame.body.length :=
  List.length_append

theorem length_chunked {frame : Frame} {cs : List Chunk} (chunked : frame.chunks = some cs) :
    5 ≤ frame.body.length := by
  rw [frame.encodes cs chunked, encodeChunked, List.length_append]
  exact Nat.le_add_left ..

variable {frame : Frame} {reads reads' : Reads} {n s : Nat}
  (cuts : ∀ k, 0 < k → cutAt reads' k = cutAt reads (n + k))

include cuts

theorem HeaderWhole.shift (whole : frame.HeaderWhole reads (n + s)) : frame.HeaderWhole reads' s := by
  intro k lt more
  rw [cuts k (by omega)]
  exact whole (n + k) (by omega) (by omega)

theorem LinesWhole.shift (whole : frame.LinesWhole reads (n + s)) : frame.LinesWhole reads' s := by
  intro cs mem
  have lines := whole cs mem
  rw [Nat.add_assoc] at lines
  exact lines.shift cuts cs

theorem EndsWithin.shift (ends : frame.EndsWithin reads (n + s)) : frame.EndsWithin reads' s := by
  have pos := List.length_pos_iff.mpr frame.nonempty
  have length := frame.length_text
  rw [EndsWithin] at ends ⊢
  cases chunked : frame.chunks with
  | none =>
    rw [chunked] at ends
    obtain ⟨k, le, more, cut⟩ := ends
    refine ⟨k - n, by omega, by omega, ?_⟩
    rw [cuts (k - n) (by omega), Nat.add_sub_cancel' (by omega)]
    exact cut
  | some cs =>
    rw [chunked] at ends
    have five := length_chunked chunked
    dsimp only at ends ⊢
    rw [Nat.add_assoc] at ends
    exact ends.shift cuts (by omega)

end Frame

/-- The header section of every message is inside one read. -/
def HeadersWhole (reads : Reads) : Nat → List Frame → Prop
  | _, [] => True
  | s, frame :: frames => frame.HeaderWhole reads s ∧ HeadersWhole reads (s + frame.text.length) frames

instance (reads : Reads) : (s : Nat) → (frames : List Frame) → Decidable (HeadersWhole reads s frames)
  | _, [] => inferInstanceAs (Decidable True)
  | s, frame :: frames =>
    have := instDecidableHeadersWhole reads (s + frame.text.length) frames
    inferInstanceAs (Decidable (_ ∧ _))

/-- What is behind a message is left for the next call. -/
def LeavesRest (reads : Reads) : Nat → List Frame → Prop
  | _, [] => True
  | s, frame :: frames =>
    frame.LinesWhole reads s ∧ (frames ≠ [] → frame.EndsWithin reads s) ∧
      LeavesRest reads (s + frame.text.length) frames

theorem HeadersWhole.shift {reads reads' : Reads} {n : Nat}
    (cuts : ∀ k, 0 < k → cutAt reads' k = cutAt reads (n + k)) (frames : List Frame) :
    ∀ {s : Nat}, HeadersWhole reads (n + s) frames → HeadersWhole reads' s frames := by
  induction frames with
  | nil => exact fun _ => trivial
  | cons frame frames ih =>
    intro s whole
    rw [HeadersWhole, Nat.add_assoc] at whole
    exact ⟨whole.1.shift cuts, ih whole.2⟩

theorem LeavesRest.shift {reads reads' : Reads} {n : Nat}
    (cuts : ∀ k, 0 < k → cutAt reads' k = cutAt reads (n + k)) (frames : List Frame) :
    ∀ {s : Nat}, LeavesRest reads (n + s) frames → LeavesRest reads' s frames := by
  induction frames with
  | nil => exact fun _ => trivial
  | cons frame frames ih =>
    intro s leaves
    rw [LeavesRest, Nat.add_assoc] at leaves
    exact ⟨leaves.1.shift cuts, fun more => (leaves.2.1 more).shift cuts, ih leaves.2.2⟩

/-! ## Successive calls -/

/-- The messages that successive calls return, up to the first that returns none. -/
def successive {M : Type} (recv : Reads → Option (Received M)) : Nat → Reads → List M
  | 0, _ => []
  | n + 1, reads =>
    match recv reads with
    | some (.message m reads) => m :: successive recv n reads
    | _ => []

/-- One call returns a message such as is asked from the front of the reads, and leaves the rest if there is one. -/
def Receives {M : Type} (buffSize : Nat) (recv : Reads → Option (Received M)) (frame : Frame) (Asked : M → Prop) :
    Prop :=
  ∀ (reads : Reads) (more : Str), Fed buffSize reads → reads.flatten = frame.text ++ more →
    frame.HeaderWhole reads 0 → frame.LinesWhole reads 0 → (more ≠ [] → frame.EndsWithin reads 0) →
    ∃ m reads', Asked m ∧ recv reads = some (.message m reads') ∧
      (more ≠ [] → Behind frame.text.length reads reads' ∧ Fed buffSize reads')

theorem successive_forall₂ {M N : Type} {buffSize : Nat} {recv : Reads → Option (Received N)} {frame : M → Frame}
    {Asked : M → N → Prop} (messages : List M) :
    ∀ {reads : Reads}, (∀ m ∈ messages, Receives buffSize recv (frame m) (Asked m)) → Fed buffSize reads →
    reads.flatten = messages.flatMap (fun m => (frame m).text) → HeadersWhole reads 0 (messages.map frame) →
    LeavesRest reads 0 (messages.map frame) →
    List.Forall₂ Asked messages (successive recv messages.length reads) := by
  induction messages with
  | nil => exact fun _ _ _ _ _ => .nil
  | cons m messages ih =>
    intro reads one fed flat headers leaves
    rw [List.flatMap_cons] at flat
    rw [List.map_cons] at headers leaves
    obtain ⟨header, headers⟩ := headers
    obtain ⟨lines, ends, leaves⟩ := leaves
    have ends' : messages.flatMap (fun m => (frame m).text) ≠ [] → (frame m).EndsWithin reads 0 := by
      intro more
      refine ends fun none => more ?_
      rw [List.map_eq_nil_iff.mp none]
      rfl
    obtain ⟨answer, reads', asked, got, left⟩ := one m List.mem_cons_self reads _ fed flat header lines ends'
    rw [List.length_cons, successive, got]
    refine .cons asked ?_
    cases messages with
    | nil => exact .nil
    | cons next messages =>
      have more : (next :: messages).flatMap (fun m => (frame m).text) ≠ [] := by
        rw [List.flatMap_cons, Frame.text, List.append_assoc]
        exact List.append_ne_nil_of_left_ne_nil (frame next).nonempty _
      obtain ⟨behind, fed'⟩ := left more
      refine ih (fun m mem => one m (List.mem_cons_of_mem _ mem)) fed' ?_ (HeadersWhole.shift behind.cuts _ ?_)
        (LeavesRest.shift behind.cuts _ ?_)
      · rw [behind.flat, flat, List.drop_left]
      · rwa [Nat.zero_add] at headers
      · rwa [Nat.zero_add] at leaves

/-! ## One message -/

section OneMessage

variable {buffSize : Nat} {frame : Frame} {reads rest : Reads} {more tail : Str}

/-- The first read has the header section at its front. -/
theorem exists_first (fed : Fed buffSize reads) (flat : reads.flatten = frame.text ++ more)
    (whole : frame.HeaderWhole reads 0) :
    ∃ tail rest, reads = (frame.header ++ tail) :: rest ∧ tail ++ rest.flatten = frame.body ++ more ∧
      (frame.header ++ tail).length ≤ buffSize ∧ Fed buffSize rest := by
  have pos := List.length_pos_iff.mpr frame.nonempty
  cases reads with
  | nil =>
    have none := congrArg List.length flat
    rw [List.length_append, Frame.length_text, List.flatten_nil, List.length_nil] at none
    omega
  | cons segment rest =>
    obtain ⟨nonempty, fits⟩ := fed segment List.mem_cons_self
    have some := List.length_pos_iff.mpr nonempty
    rw [List.flatten_cons, Frame.text, List.append_assoc] at flat
    rcases List.append_eq_append_iff.mp flat with ⟨missing, eq, behind⟩ | ⟨tail, rfl, behind⟩
    · -- a read that ends inside the header section is not there, so it ends with it
      have none : missing = [] := by
        by_contra isMore
        have length := List.length_pos_iff.mpr isMore
        have uncut := whole segment.length (by rw [eq, List.length_append]; omega) some
        rw [cutAt_length] at uncut
        cases uncut
      subst none
      rw [List.append_nil] at eq
      refine ⟨[], rest, by rw [eq, List.append_nil], behind, ?_, Fed.tail fed⟩
      rw [eq, List.append_nil]
      exact fits
    · exact ⟨tail, rest, rfl, behind.symm, fits, Fed.tail fed⟩

/-- A body that is not chunked has all that the first read has behind the header section. -/
theorem tail_le (plain : frame.chunks = none) (behind : tail ++ rest.flatten = frame.body ++ more)
    (ends : more ≠ [] → frame.EndsWithin ((frame.header ++ tail) :: rest) 0) :
    tail.length ≤ frame.body.length := by
  by_cases last : more = []
  · have lengths := congrArg List.length behind
    rw [last, List.append_nil, List.length_append] at lengths
    omega
  · have within := ends last
    rw [Frame.EndsWithin, plain] at within
    obtain ⟨k, le, -, cut⟩ := within
    have reaches := length_le_of_cutAt cut
    rw [Frame.length_text] at le
    rw [List.length_append] at reaches
    omega

/-- A body of a known length, of which some is at hand. -/
theorem recvBody_behind {length : Nat} (fed : Fed buffSize rest) (le : tail.length ≤ length)
    (enough : length ≤ (tail ++ rest.flatten).length) :
    ∃ rest', recvBody length tail rest = some ((tail ++ rest.flatten).take length, rest') ∧
      Behind length (tail :: rest) rest' ∧ Fed buffSize rest' := by
  rw [List.length_append] at enough
  rw [recvBody]
  by_cases atHand : length ≤ tail.length
  · obtain rfl : length = tail.length := by omega
    refine ⟨rest, ?_, behind_segment tail rest, fed⟩
    rw [if_pos atHand, List.take_left, List.take_length]
  · obtain ⟨rest', got, flat, fed', cuts⟩ := readFixLength_spec (n := length - tail.length) (by omega) fed
    refine ⟨rest', ?_, ?_, fed'⟩
    · rw [if_neg atHand, got, List.take_append, List.take_of_length_le le]
      rfl
    · have behind := (behind_segment tail rest).trans ⟨flat, cuts⟩
      rwa [Nat.add_sub_cancel' le] at behind

/-- The body of a message, of which the first read has some. -/
theorem recvBody_frame (fed : Fed buffSize rest) (behind : tail ++ rest.flatten = frame.body ++ more)
    (le : tail.length ≤ frame.body.length) :
    ∃ rest', recvBody frame.body.length tail rest = some (frame.body, rest') ∧
      Behind frame.text.length ((frame.header ++ tail) :: rest) rest' ∧ Fed buffSize rest' := by
  have enough : frame.body.length ≤ (tail ++ rest.flatten).length := by
    rw [behind, List.length_append]
    omega
  obtain ⟨rest', got, left, fed'⟩ := recvBody_behind fed le enough
  rw [behind, List.take_left] at got
  refine ⟨rest', got, ?_, fed'⟩
  have first := behind_drop (show frame.header.length ≤ (frame.header ++ tail).length by
    rw [List.length_append]; omega) rest
  rw [List.drop_left] at first
  rw [Frame.length_text]
  exact first.trans left

/-- A request whose header section is found is received, and the reads behind it are left. -/
theorem recvRequest_behind {env : Env} {Found : HttpRequestParser → Prop} (fed : Fed buffSize reads)
    (flat : reads.flatten = frame.text ++ more) (whole : frame.HeaderWhole reads 0) (plain : frame.chunks = none)
    (ends : more ≠ [] → frame.EndsWithin reads 0)
    (found : ∀ tail rest fuel, (frame.header ++ tail).length ≤ buffSize → ∃ last regs obj, Found obj ∧
      (requestMachine env.uriRelaxed env.maxSize).recvHeader buffSize (fuel + 1)
          ((requestMachine env.uriRelaxed env.maxSize).parser .create) [] ((frame.header ++ tail) :: rest) =
        some (some (⟨last, regs, obj⟩, tail, rest)))
    (counts : ∀ obj, Found obj →
      getContentLength env.lexicalCast obj.contentLen obj.request.headers = frame.body.length)
    (room : frame.body.length ≤ env.maxSize) :
    ∃ obj reads', Found obj ∧ recvRequest env buffSize reads = some (.message (obj.withBody frame.body) reads') ∧
      Behind frame.text.length reads reads' ∧ Fed buffSize reads' := by
  obtain ⟨tail, rest, rfl, behind, fits, fedRest⟩ := exists_first fed flat whole
  obtain ⟨rest', gotBody, left, fed'⟩ := recvBody_frame fedRest behind (tail_le plain behind ends)
  obtain ⟨last, regs, obj, isFound, got⟩ := found tail rest (((frame.header ++ tail) :: rest).flatten.length) fits
  refine ⟨obj, rest', isFound, ?_, left, fed'⟩
  rw [recvRequest_eq, got, Option.map_some, requestAnswer, obj.finish_of_recvBody (counts obj isFound) room gotBody rfl]

end OneMessage

/-- A well-formed request, with the parser that its header section makes. -/
structure RequestMessage (env : Env) where
  header : Str
  body : Str
  parser : HttpRequestParser
  parses : (requestMachine env.uriRelaxed env.maxSize).headerOf .create header = some parser
  /-- The content length is the length of the body, or there is none and no body. -/
  counts : getContentLength env.lexicalCast parser.contentLen parser.request.headers = body.length
  room : body.length ≤ env.maxSize

theorem Machine.header_ne_nil {machine : Machine A Obj} {obj obj' : Obj} {header : Str}
    (lawful : machine.Lawful) (parses : machine.headerOf obj header = some obj') : header ≠ [] :=
  List.length_pos_iff.mp (machine.execute_header lawful parses []).1

namespace RequestMessage

variable {env : Env}

def frame (m : RequestMessage env) : Frame where
  header := m.header
  body := m.body
  chunks := none
  nonempty := Machine.header_ne_nil (requestMachine_lawful ..) m.parses
  encodes _ mem := nomatch mem

/-- What the parser makes of the header section, with the body: the request that is returned. -/
def request (m : RequestMessage env) : HttpRequest := m.parser.withBody m.body

/-- A request at the front of the reads is received, and the reads behind it are left. -/
theorem receives_behind (m : RequestMessage env) {buffSize : Nat} {reads : Reads} {more : Str} (fed : Fed buffSize reads)
    (flat : reads.flatten = m.frame.text ++ more) (whole : m.frame.HeaderWhole reads 0)
    (ends : more ≠ [] → m.frame.EndsWithin reads 0) :
    ∃ reads', recvRequest env buffSize reads = some (.message m.request reads') ∧
      Behind m.frame.text.length reads reads' ∧ Fed buffSize reads' := by
  obtain ⟨_, reads', rfl, received⟩ : ∃ obj reads', obj = m.parser ∧
      recvRequest env buffSize reads = some (.message (obj.withBody m.frame.body) reads') ∧
      Behind m.frame.text.length reads reads' ∧ Fed buffSize reads' := by
    refine recvRequest_behind fed flat whole rfl ends (fun tail rest fuel fits => ?_) (fun obj same => ?_) m.room
    · obtain ⟨last, regs, got⟩ := Machine.recvHeader_header (requestMachine_lawful env.uriRelaxed env.maxSize)
        m.parses fits rest fuel
      exact ⟨_, regs, m.parser, rfl, got⟩
    · rw [same]
      exact m.counts
  exact ⟨reads', received⟩

end RequestMessage

/-- The body of a response, as it is sent. -/
inductive Payload where
  | plain (body : Str)
  | chunked (chunks : List Chunk)

namespace Payload

/-- The bytes that are sent. -/
def text : Payload → Str
  | .plain body => body
  | .chunked chunks => encodeChunked chunks

/-- The bytes that are meant. -/
def data : Payload → Str
  | .plain body => body
  | .chunked chunks => chunks.flatMap Chunk.data

def chunks : Payload → Option (List Chunk)
  | .plain _ => none
  | .chunked chunks => some chunks

/-- The header section announces the body: as chunked, or by its length. -/
def Announced (env : Env) (parser : HttpResponseParser) : Payload → Prop
  | .plain body => parser.isChunkedResponse = false ∧ body.length ≤ env.maxSize ∧
    getContentLength env.lexicalCast parser.contentLen parser.response.headers = body.length
  | .chunked _ => parser.isChunkedResponse = true

end Payload

/-- A response whose header section is found is received, and the reads behind it are left. -/
theorem recvResponse_behind {env : Env} {buffSize : Nat} {frame : Frame} {payload : Payload} {obj : HttpResponseParser}
    (text : frame.body = payload.text) (chunks : frame.chunks = payload.chunks)
    (found : ∀ tail rest fuel, (frame.header ++ tail).length ≤ buffSize →
      (responseMachine env.maxSize).Finishes (frame.header ++ tail) ∧ ∃ last regs,
        (responseMachine env.maxSize).recvHeader buffSize (fuel + 1) ((responseMachine env.maxSize).parser .create) []
            ((frame.header ++ tail) :: rest) = some (some (⟨last, regs, obj⟩, tail, rest)))
    (announced : payload.Announced env obj) :
    Receives buffSize (recvResponse env buffSize) frame (· = obj.response.withBody payload.data) := by
  intro reads more fed flat whole lines ends
  obtain ⟨tail, rest, rfl, behind, fits, fedRest⟩ := exists_first fed flat whole
  obtain ⟨finishes, last, regs, got⟩ := found tail rest (((frame.header ++ tail) :: rest).flatten.length) fits
  have once : (responseMachine env.maxSize).EndsOnce (some (responseMachine env.maxSize).start)
      ((frame.header ++ tail) :: rest).flatten := by
    rw [List.flatten_cons]
    exact Machine.endsOnce_of_finishes (responseMachine_lawful env.maxSize) finishes _
  have finish : recvResponse env buffSize ((frame.header ++ tail) :: rest) = obj.finish env buffSize tail rest := by
    rw [recvResponse_eq buffSize once, got, Option.bind_some, responseAnswer]
  cases payload with
  | plain body =>
    obtain ⟨notChunked, room, counts⟩ := announced
    obtain ⟨rest', gotBody, left, fed'⟩ := recvBody_frame fedRest behind (tail_le chunks behind ends)
    rw [show frame.body = body from text] at gotBody
    exact ⟨_, rest', rfl, finish.trans (obj.finish_of_recvBody notChunked counts room gotBody), fun _ => ⟨left, fed'⟩⟩
  | chunked list =>
    have isChunked : obj.isChunkedResponse = true := announced
    have encoded : frame.body = encodeChunked list := text
    have some : frame.chunks = some list := chunks
    -- the reads seen from the end of the header section
    have header := behind_drop (show frame.header.length ≤ (frame.header ++ tail).length by
      rw [List.length_append]; omega) rest
    rw [List.drop_left] at header
    have clear : LinesClear (tail :: rest) 0 list := by
      have lines := lines list some
      rw [Nat.zero_add] at lines
      exact LinesClear.shift header.cuts list lines
    rw [encoded] at behind
    obtain ⟨chunked, got, body, left⟩ := readChunkedBody_behind behind fedRest clear
    refine ⟨_, chunked.reads, rfl, finish.trans ?_, fun isMore => ?_⟩
    · rw [HttpResponseParser.finish, if_pos isChunked, got, Option.map_some, body, Payload.data]
    · have ends := ends isMore
      rw [Frame.EndsWithin, some] at ends
      dsimp only at ends
      rw [Nat.zero_add, Frame.length_text] at ends
      have five := Frame.length_chunked some
      rw [encoded] at ends five
      obtain ⟨left, fed'⟩ := left (ends.shift header.cuts (by omega))
      refine ⟨?_, fed'⟩
      rw [Frame.length_text, encoded]
      exact header.trans left

end Sylar.Http
