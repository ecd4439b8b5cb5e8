import Sylar.Stream.Chunked

/-!
# Bodies as a function of the bytes

What `read_fix_length` and `read_chunked_body` return depends on the bytes that come, and hardly on how
they are cut into reads. `read_fix_length` takes the first bytes, however they come
(`readFixLength_spec`). `read_chunked_body` is a decoder that takes one byte after the other: `decode` is
the body it collects from a stream, and `lineEnds` are the positions behind the carriage returns of the
size lines. Where no read ends at one of them, the reader collects what the decoder does
(`readChunkedBody_decode`), for any stream, well-formed or not.
-/

namespace Sylar.SocketStream

/-! ## A fixed length -/

instance (buffSize : Nat) (reads : Reads) : Decidable (ChunkedReader.Fed buffSize reads) :=
  inferInstanceAs (Decidable (∀ segment ∈ reads, segment ≠ [] ∧ segment.length ≤ buffSize))

theorem Fed.tail {buffSize : Nat} {segment : List UInt8} {reads : Reads}
    (fed : ChunkedReader.Fed buffSize (segment :: reads)) : ChunkedReader.Fed buffSize reads :=
  fun s mem => fed s (List.mem_cons_of_mem _ mem)

/-- One read of at most `n` bytes. -/
theorem read_fed {buffSize n : Nat} {segment : List UInt8} {reads : Reads} (pos : 0 < n)
    (fed : ChunkedReader.Fed buffSize (segment :: reads)) :
    ∃ reads', read n (segment :: reads) = some (segment.take n, reads') ∧
      segment.take n ++ reads'.flatten = (segment :: reads).flatten ∧ ChunkedReader.Fed buffSize reads' ∧
      ∀ k, 0 < k → cutAt reads' k = cutAt (segment :: reads) ((segment.take n).length + k) := by
  obtain ⟨nonempty, fits⟩ := fed segment List.mem_cons_self
  rw [read, if_neg (not_or.mpr ⟨by omega, nonempty⟩)]
  by_cases whole : segment.length ≤ n
  · refine ⟨reads, by rw [if_pos whole], ?_, Fed.tail fed, fun k more => ?_⟩
    · rw [List.take_of_length_le whole]
      rfl
    · rw [List.take_of_length_le whole, cutAt_drop (Nat.le_refl _), List.drop_length]
      obtain ⟨q, rfl⟩ : ∃ q, k = q + 1 := ⟨k - 1, by omega⟩
      rw [cutAt_nil_cons]
  · have short : (segment.take n).length = n := List.length_take_of_le (by omega)
    refine ⟨segment.drop n :: reads, by rw [if_neg whole], ?_, fun s mem => ?_, fun k more => ?_⟩
    · rw [List.flatten_cons, List.flatten_cons, ← List.append_assoc, List.take_append_drop]
    · rcases List.mem_cons.mp mem with rfl | mem
      · refine ⟨fun none => whole (List.drop_eq_nil_iff.mp none), ?_⟩
        rw [List.length_drop]
        omega
      · exact Fed.tail fed s mem
    · rw [short, cutAt_drop (by omega)]

/-- `read_fix_length` takes the first bytes, and leaves the rest with its cuts. -/
theorem readFixLengthLoop_spec {buffSize : Nat} (fuel : Nat) : ∀ {n : Nat} {reads : Reads}, n ≤ fuel →
    n ≤ reads.flatten.length → ChunkedReader.Fed buffSize reads →
    ∃ reads', readFixLengthLoop fuel n reads = some (reads.flatten.take n, reads') ∧
      reads'.flatten = reads.flatten.drop n ∧ ChunkedReader.Fed buffSize reads' ∧
      ∀ k, 0 < k → cutAt reads' k = cutAt reads (n + k) := by
  induction fuel with
  | zero =>
    intro n reads le _ fed
    obtain rfl : n = 0 := by omega
    exact ⟨reads, rfl, rfl, fed, fun k _ => by rw [Nat.zero_add]⟩
  | succ fuel ih =>
    intro n reads le enough fed
    cases n with
    | zero => exact ⟨reads, rfl, rfl, fed, fun k _ => by rw [Nat.zero_add]⟩
    | succ n =>
      cases reads with
      | nil => exact absurd enough (Nat.not_succ_le_zero n)
      | cons segment reads =>
        obtain ⟨nonempty, -⟩ := fed segment List.mem_cons_self
        have pos := List.length_pos_iff.mpr nonempty
        obtain ⟨reads₁, got, flat₁, fed₁, cuts₁⟩ := read_fed (n := n + 1) (by omega) fed
        have took : 0 < (segment.take (n + 1)).length ∧ (segment.take (n + 1)).length ≤ n + 1 := by
          rw [List.length_take]
          omega
        have rest : n + 1 - (segment.take (n + 1)).length ≤ reads₁.flatten.length := by
          rw [← flat₁, List.length_append] at enough
          omega
        obtain ⟨reads₂, loop, flat₂, fed₂, cuts₂⟩ := ih (by omega) rest fed₁
        refine ⟨reads₂, ?_, ?_, fed₂, fun k more => ?_⟩
        · rw [readFixLengthLoop, got]
          simp only [Option.bind_eq_bind, Option.bind_some]
          rw [loop, Option.bind_some, ← flat₁, List.take_append, List.take_of_length_le took.2]
        · rw [flat₂, ← flat₁, List.drop_append, List.drop_eq_nil_of_le took.2, List.nil_append]
        · rw [cuts₂ k more, cuts₁ _ (by omega)]
          congr 1
          omega

theorem readFixLength_spec {buffSize n : Nat} {reads : Reads} (enough : n ≤ reads.flatten.length)
    (fed : ChunkedReader.Fed buffSize reads) :
    ∃ reads', readFixLength n reads = some (reads.flatten.take n, reads') ∧
      reads'.flatten = reads.flatten.drop n ∧ ChunkedReader.Fed buffSize reads' ∧
      ∀ k, 0 < k → cutAt reads' k = cutAt reads (n + k) :=
  readFixLengthLoop_spec n (Nat.le_refl n) enough fed

/-- Where too few bytes come, a read throws. -/
theorem readFixLengthLoop_short (fuel : Nat) : ∀ {n : Nat} {reads : Reads}, reads.flatten.length < n →
    readFixLengthLoop fuel n reads = none := by
  induction fuel with
  | zero =>
    intro n reads lt
    obtain ⟨m, rfl⟩ : ∃ m, n = m + 1 := ⟨n - 1, by omega⟩
    rfl
  | succ fuel ih =>
    intro n reads lt
    obtain ⟨m, rfl⟩ : ∃ m, n = m + 1 := ⟨n - 1, by omega⟩
    rw [readFixLengthLoop]
    cases got : read (m + 1) reads with
    | none => rfl
    | some x =>
      obtain ⟨segment, reads'⟩ := x
      obtain ⟨-, count⟩ := ChunkedReader.read_spec got
      simp only [Option.bind_eq_bind, Option.bind_some]
      rw [ih (by omega)]
      rfl

/-! ## The decoder -/

/-- The counters of `read_chunked_body`, and whether a line feed is to be skipped. -/
structure Decoder where
  chunkSize : Nat
  tmpSize : Nat
  readChunkSize : Bool
  skip : Bool
  deriving DecidableEq, Repr

namespace Decoder

def start : Decoder := ⟨0, 0, false, false⟩

/-- The decoder behind a byte, or `none` at the end of the last size line. -/
def next (d : Decoder) (b : UInt8) : Option Decoder :=
  if d.skip then some { d with skip := false }
  else if d.chunkSize = 0 then
    match hexDigit (toupper b) with
    | some digit => some ⟨0, (d.tmpSize * 16 + digit) % 2 ^ 64, true, false⟩
    | none =>
      if d.readChunkSize then
        if d.tmpSize = 0 then none else some ⟨d.tmpSize, 0, false, true⟩
      else some d
  else some { d with chunkSize := d.chunkSize - 1 }

/-- The data that a byte is. -/
def output (d : Decoder) (b : UInt8) : List UInt8 := if d.skip || d.chunkSize == 0 then [] else [b]

/-- The body collected from a stream. -/
def decode : Decoder → List UInt8 → List UInt8
  | _, [] => []
  | d, b :: s =>
    d.output b ++
      match d.next b with
      | none => []
      | some d => decode d s

/-- Where the line feeds are skipped, in a stream that starts at position `p`. -/
def lineEnds : Decoder → Nat → List UInt8 → List Nat
  | _, _, [] => []
  | d, p, b :: s =>
    match d.next b with
    | none => []
    | some d => (if d.skip then [p + 1] else []) ++ lineEnds d (p + 1) s

/-- Bytes that are data. -/
theorem decode_data (data s : List UInt8) : ∀ {size tmp : Nat} {flag : Bool}, data.length ≤ size →
    decode ⟨size, tmp, flag, false⟩ (data ++ s) =
      data ++ decode ⟨size - data.length, tmp, flag, false⟩ s := by
  induction data with
  | nil => exact fun _ => rfl
  | cons b data ih =>
    intro size tmp flag le
    rw [List.length_cons] at le ⊢
    have ne : size ≠ 0 := by omega
    rw [List.cons_append, decode]
    simp only [output, next, Bool.false_eq_true, if_false, ne, Bool.false_or, beq_iff_eq]
    rw [ih (by omega), Nat.sub_sub, Nat.add_comm 1]
    rfl

theorem lineEnds_data (data s : List UInt8) : ∀ {p size tmp : Nat} {flag : Bool}, data.length ≤ size →
    lineEnds ⟨size, tmp, flag, false⟩ p (data ++ s) =
      lineEnds ⟨size - data.length, tmp, flag, false⟩ (p + data.length) s := by
  induction data with
  | nil => exact fun _ => rfl
  | cons b data ih =>
    intro p size tmp flag le
    rw [List.length_cons] at le ⊢
    have ne : size ≠ 0 := by omega
    rw [List.cons_append, lineEnds]
    simp only [next, Bool.false_eq_true, if_false, ne, List.nil_append]
    rw [ih (by omega), Nat.sub_sub, Nat.add_comm 1, Nat.add_assoc, Nat.add_comm 1]

theorem lineEnds_add (s : List UInt8) : ∀ (d : Decoder) (p n : Nat),
    d.lineEnds (p + n) s = (d.lineEnds p s).map (n + ·) := by
  induction s with
  | nil => exact fun _ _ _ => rfl
  | cons b s ih =>
    intro d p n
    rw [lineEnds, lineEnds]
    cases d.next b with
    | none => rfl
    | some d' =>
      dsimp only
      rw [Nat.add_right_comm, ih, List.map_append]
      split
      · rw [List.map_singleton, Nat.add_comm n]
      · rfl

end Decoder

namespace ChunkedReader

open Decoder

variable {buffSize : Nat} {r r' : ChunkedReader}

/-- The decoder that a reader is, between two turns. -/
def decoder (r : ChunkedReader) : Decoder := ⟨r.chunkSize, r.tmpSize, r.readChunkSize, false⟩

/-- No read of what a reader has still to see ends behind the carriage return of a size line. -/
def LinesWhole (d : Decoder) (r : ChunkedReader) : Prop :=
  ∀ k ∈ d.lineEnds 0 r.stream, k < r.stream.length → cutAt r.segments k = false

/-- The reader ends with what the decoder adds to its body. -/
def Collects (buffSize : Nat) (d : Decoder) (r : ChunkedReader) : Prop :=
  ∃ fuel ret r', r.loop buffSize fuel = some (ret, r') ∧ r'.body = r.body ++ d.decode r.stream

/-- What is behind some bytes, for a reader that has moved on by them. -/
theorem Collects.of_after {n : Nat} {d d' : Decoder} (out : List UInt8) (after : After buffSize n r r')
    (body : r'.body = r.body ++ out) (decodes : d.decode r.stream = out ++ d'.decode r'.stream)
    (rest : Collects buffSize d' r') : Collects buffSize d r := by
  obtain ⟨k, goes⟩ := after.goes
  obtain ⟨fuel, ret, r'', loop, body'⟩ := rest
  refine ⟨k + fuel, ret, r'', (goes fuel).trans loop, ?_⟩
  rw [body', body, decodes, List.append_assoc]

theorem LinesWhole.of_after {n : Nat} {d d' : Decoder} (whole : LinesWhole d r)
    (after : After buffSize n r r') (le : n ≤ r.stream.length)
    (ends : ∀ k ∈ d'.lineEnds (0 + n) r'.stream, k ∈ d.lineEnds 0 r.stream) : LinesWhole d' r' := by
  intro k mem lt
  have moved : n + k ∈ d.lineEnds 0 r.stream := by
    refine ends (n + k) ?_
    rw [lineEnds_add]
    exact List.mem_map_of_mem mem
  rw [← after.stream, List.length_drop] at lt
  rw [← after.cuts]
  exact whole (n + k) moved (by omega)

/-- A reader with nothing more to see. -/
theorem collects_nil (nothing : r.stream = []) (fed : Fed buffSize r.reads) (d : Decoder) :
    Collects buffSize d r := by
  obtain ⟨pending, rest⟩ := List.append_eq_nil_iff.mp nothing
  have none : r.reads = [] := by
    cases reads : r.reads with
    | nil => rfl
    | cons segment segments =>
      rw [reads] at fed rest
      exact absurd (List.append_eq_nil_iff.mp rest).1 (fed segment List.mem_cons_self).1
  have past : r.parsed ≥ r.buffer.length := List.drop_eq_nil_iff.mp pending
  refine ⟨1, false, r, ?_, ?_⟩
  · rw [loop, refill, if_pos past, none]
    rfl
  · rw [nothing, decode, List.append_nil]

/-- A byte outside the data that does not end a line. -/
theorem collects_byte {b : UInt8} {s : List UInt8} (d' : Decoder) (here : r.stream = b :: s)
    (fed : Fed buffSize r.reads) (whole : LinesWhole r.decoder r) (size : r.chunkSize = 0)
    (next : r.decoder.next b = some d') (noLine : d'.skip = false)
    (turn : ∀ w : ChunkedReader, w.buffer[w.parsed]?.getD 0 = b → w.chunkSize = r.chunkSize →
      w.tmpSize = r.tmpSize → w.readChunkSize = r.readChunkSize →
      w.consume = (false, w.set (w.parsed + 1) d'.chunkSize d'.tmpSize d'.readChunkSize))
    (ih : ∀ r' : ChunkedReader, r'.stream = s → Fed buffSize r'.reads → LinesWhole r'.decoder r' →
      Collects buffSize r'.decoder r') : Collects buffSize r.decoder r := by
  obtain ⟨r', after, body, size', tmp', flag'⟩ :=
    after_byte d'.chunkSize d'.tmpSize d'.readChunkSize here fed turn
  have behind : r'.stream = s := after.stream_of_append [b] here rfl
  have same : r'.decoder = d' := by
    rw [decoder, size', tmp', flag', ← noLine]
  have none : r.decoder.output b = [] := by
    simp only [output, decoder, size, beq_self_eq_true, Bool.or_true, if_true]
  refine Collects.of_after [] after (by rw [body, List.append_nil]) ?_
    (ih r' behind after.fed (whole.of_after after ?_ fun k mem => ?_))
  · rw [here, decode, next, none, behind, same]
  · rw [here, List.length_cons]
    omega
  · rw [here, lineEnds, next]
    rw [behind, same] at mem
    exact List.mem_append_right _ mem

/-- The byte that ends a size line. The byte behind it is skipped, and is in the same read unless there
is none. -/
theorem collects_line {b : UInt8} {s : List UInt8} (here : r.stream = b :: s) (fed : Fed buffSize r.reads)
    (whole : LinesWhole r.decoder r) (notDigit : hexDigit (toupper b) = none) (size : r.chunkSize = 0)
    (flag : r.readChunkSize = true)
    (ih : ∀ r' : ChunkedReader, r'.stream = s.drop 1 → Fed buffSize r'.reads → LinesWhole r'.decoder r' →
      Collects buffSize r'.decoder r') : Collects buffSize r.decoder r := by
  obtain ⟨w, woken⟩ := exists_woken (by rw [here]; exact List.cons_ne_nil b s) fed
  obtain ⟨body, size', tmp', flag'⟩ := woken.same
  obtain ⟨c, rest, pending⟩ := List.exists_cons_of_ne_nil woken.pending
  have view := woken.stream
  rw [stream, pending, here, List.cons_append] at view
  obtain ⟨rfl, behind⟩ := List.cons.inj view
  have turn := consume_line (head_pending pending) notDigit (size'.trans size) (flag'.trans flag)
  have none : r.decoder.output c = [] := by
    simp only [output, decoder, size, beq_self_eq_true, Bool.or_true, if_true]
  have next : r.decoder.next c = if r.tmpSize = 0 then Option.none else some ⟨r.tmpSize, 0, false, true⟩ := by
    simp only [Decoder.next, decoder, size, notDigit, flag, Bool.false_eq_true, if_false, if_true]
  by_cases last : r.tmpSize = 0
  · -- the last line: the loop breaks
    rw [if_pos last] at next
    rw [if_pos (tmp'.trans last)] at turn
    refine ⟨1, true, { w with parsed := w.parsed + 2 },
      (woken.runs 0).trans (loop_of_break woken.pending turn 0), ?_⟩
    rw [here, decode, none, next, List.append_nil, List.append_nil]
    exact body
  · rw [if_neg last] at next
    rw [tmp', if_neg last] at turn
    have two : (w.set (w.parsed + 2) r.tmpSize 0 false).pending = w.pending.drop 2 := List.drop_drop.symm
    cases rest with
    | nil =>
      -- the read ends here, so the stream does
      have ended : s = [] := by
        have cut : cutAt r.segments 1 = true := by
          rw [woken.cuts 0, segments, pending]
          exact cutAt_one.mpr rfl
        have mem : 1 ∈ r.decoder.lineEnds 0 r.stream := by
          rw [here, lineEnds, next]
          exact List.mem_append_left _ (List.mem_singleton.mpr rfl)
        have all : ¬ 1 < r.stream.length := fun lt => by
          rw [whole 1 mem lt] at cut
          cases cut
        rw [here, List.length_cons] at all
        exact List.length_eq_zero_iff.mp (by omega)
      have after : After buffSize 1 r (w.set (w.parsed + 2) r.tmpSize 0 false) :=
        after_of_woken woken turn (Nat.le_refl 1) (by rw [pending]; exact Nat.le_refl 1)
          (by rw [two, pending]; rfl) rfl
      have nothing : (w.set (w.parsed + 2) r.tmpSize 0 false).stream = [] :=
        after.stream_of_append [c] (by rw [here, ended]; rfl) rfl
      refine Collects.of_after [] after (by rw [List.append_nil]; exact body) ?_
        (collects_nil nothing after.fed .start)
      rw [here, ended, decode, none, next, nothing]
      rfl
    | cons l rest =>
      have after : After buffSize 2 r (w.set (w.parsed + 2) r.tmpSize 0 false) :=
        after_of_woken woken turn (by decide) (by rw [pending, List.length_cons, List.length_cons]; omega)
          two rfl
      rw [List.cons_append] at behind
      have tail : (w.set (w.parsed + 2) r.tmpSize 0 false).stream = s.drop 1 := by
        rw [← behind]
        exact after.stream_of_append [c, l] (by rw [here, ← behind]; rfl) rfl
      refine Collects.of_after [] after (by rw [List.append_nil]; exact body) ?_
        (ih _ tail after.fed (whole.of_after after ?_ fun k mem => ?_))
      · rw [here, decode, none, next, tail, ← behind]
        rfl
      · rw [here, ← behind]
        simp only [List.length_cons]
        omega
      · rw [here, lineEnds, next, ← behind]
        rw [tail, ← behind] at mem
        exact List.mem_append_right _ (List.mem_append_right _ mem)

/-- A turn inside the data. -/
theorem collects_data {b : UInt8} {s : List UInt8} (here : r.stream = b :: s) (fed : Fed buffSize r.reads)
    (whole : LinesWhole r.decoder r) (size : r.chunkSize ≠ 0)
    (ih : ∀ r' : ChunkedReader, r'.stream.length < r.stream.length → Fed buffSize r'.reads →
      LinesWhole r'.decoder r' → Collects buffSize r'.decoder r') : Collects buffSize r.decoder r := by
  obtain ⟨w, woken⟩ := exists_woken (by rw [here]; exact List.cons_ne_nil b s) fed
  obtain ⟨body, size', tmp', flag'⟩ := woken.same
  have atHand := List.length_pos_iff.mpr woken.pending
  have count : w.buffer.length - w.parsed = w.pending.length := (pending_length w).symm
  have view : r.stream = w.pending ++ w.reads.flatten := woken.stream.symm
  -- the turn takes `n` bytes, all that are at hand or all that are missing
  obtain ⟨n, w', pos, le, fits, turn, taken, moved, reads, sameSize, sameTmp, sameFlag⟩ :
      ∃ n w', 1 ≤ n ∧ n ≤ w.pending.length ∧ n ≤ r.chunkSize ∧ w.consume = (false, w') ∧
        w'.body = r.body ++ w.pending.take n ∧ w'.pending = w.pending.drop n ∧ w'.reads = w.reads ∧
        w'.chunkSize = r.chunkSize - n ∧ w'.tmpSize = r.tmpSize ∧ w'.readChunkSize = r.readChunkSize := by
    have notZero : ¬ w.chunkSize = 0 := size' ▸ size
    by_cases enough : r.chunkSize ≤ w.pending.length
    · refine ⟨r.chunkSize, { w with
          body := w.body ++ w.pending.take r.chunkSize
          parsed := w.parsed + r.chunkSize
          chunkSize := 0 }, by omega, enough, Nat.le_refl _, ?_, ?_, List.drop_drop.symm, rfl,
        (Nat.sub_self _).symm, tmp', flag'⟩
      · rw [consume, if_neg notZero, count, size', if_pos enough]
        rfl
      · rw [body]
    · refine ⟨w.pending.length, { w with
          body := w.body ++ w.pending
          chunkSize := r.chunkSize - w.pending.length
          parsed := w.buffer.length }, atHand, Nat.le_refl _, by omega, ?_, ?_, ?_, rfl, rfl, tmp', flag'⟩
      · rw [consume, if_neg notZero, count, size', if_neg enough]
        rfl
      · rw [body, List.take_length]
      · rw [List.drop_length]
        exact List.drop_length ..
  have after : After buffSize n r w' := after_of_woken woken turn pos le moved reads
  have split : r.stream = w.pending.take n ++ w'.stream := by
    rw [view, stream, moved, reads, ← List.append_assoc, List.take_append_drop]
  have length : (w.pending.take n).length = n := List.length_take_of_le le
  have same : w'.decoder = ⟨r.chunkSize - (w.pending.take n).length, r.tmpSize, r.readChunkSize, false⟩ := by
    rw [decoder, sameSize, sameTmp, sameFlag, length]
  have shorter : r.stream.length = n + w'.stream.length := by
    rw [split, List.length_append, length]
  refine Collects.of_after (w.pending.take n) after taken ?_
    (ih w' (by omega) after.fed (whole.of_after after (by omega) fun k mem => ?_))
  · rw [split, decoder, decode_data _ _ (by omega), same]
  · rw [split, decoder, lineEnds_data _ _ (by omega), length]
    rwa [same, length] at mem

/-- Where no read ends behind the carriage return of a size line, the reader collects what the decoder
does. -/
theorem collects (n : Nat) : ∀ {r : ChunkedReader}, r.stream.length = n → Fed buffSize r.reads →
    LinesWhole r.decoder r → Collects buffSize r.decoder r := by
  induction n using Nat.strong_induction_on with
  | _ n ih =>
    intro r len fed whole
    have shorter : ∀ r' : ChunkedReader, r'.stream.length < n → Fed buffSize r'.reads →
        LinesWhole r'.decoder r' → Collects buffSize r'.decoder r' :=
      fun r' lt => ih _ lt rfl
    cases here : r.stream with
    | nil => exact collects_nil here fed _
    | cons b s =>
      have count : s.length < n := by
        rw [← len, here, List.length_cons]
        omega
      by_cases size : r.chunkSize = 0
      · cases digit : hexDigit (toupper b) with
        | some d =>
          refine collects_byte ⟨0, (r.tmpSize * 16 + d) % 2 ^ 64, true, false⟩ here fed whole size
            (by simp only [next, decoder, size, digit, Bool.false_eq_true, if_false, if_true]) rfl
            (fun w head same same' _ => ?_) fun r' tail => shorter r' (by rw [tail]; exact count)
          rw [← same']
          exact consume_digit head digit (same.trans size)
        | none =>
          cases flag : r.readChunkSize with
          | true =>
            refine collects_line here fed whole digit size flag fun r' tail => shorter r' ?_
            rw [tail, List.length_drop]
            omega
          | false =>
            refine collects_byte r.decoder here fed whole size
              (by simp only [next, decoder, size, digit, flag, Bool.false_eq_true, if_false, if_true]) rfl
              (fun w head same same' same'' => ?_) fun r' tail => shorter r' (by rw [tail]; exact count)
            have turn := consume_other head digit (same.trans size) (same''.trans flag)
            rw [same'] at turn
            rw [decoder, size, flag]
            exact turn
      · exact collects_data here fed whole size fun r' lt => shorter r' (by rw [← len]; exact lt)

end ChunkedReader

/-- The body that `read_chunked_body` collects, from the bytes already read and those to come. -/
theorem readChunkedBody_decode {buffSize : Nat} {lead : List UInt8} {reads : Reads}
    (fed : ChunkedReader.Fed buffSize reads)
    (whole : ∀ k ∈ Decoder.start.lineEnds 0 (lead ++ reads.flatten),
      k < (lead ++ reads.flatten).length → cutAt (lead :: reads) k = false) :
    ∃ chunked, readChunkedBody buffSize [] lead reads = some chunked ∧
      chunked.body = Decoder.start.decode (lead ++ reads.flatten) := by
  obtain ⟨fuel, ret, r, loop, body⟩ :=
    ChunkedReader.collects (r := ChunkedReader.start [] lead reads) _ rfl fed whole
  have enough : ((ChunkedReader.start [] lead reads).loop buffSize
      (lead.length + reads.flatten.length + 1)).isSome = true :=
    ChunkedReader.loop_isSome _ (Nat.lt_succ_self _)
  obtain ⟨x, run⟩ := Option.isSome_iff_exists.mp enough
  obtain rfl := ChunkedReader.loop_unique loop run
  refine ⟨_, by rw [readChunkedBody, run, Option.map_some], ?_⟩
  cases ret with
  | true => exact body
  | false => exact body

end Sylar.SocketStream
