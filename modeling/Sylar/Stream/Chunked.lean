import Sylar.Stream.Basic

/-!
# Chunked bodies, whatever the reads

`read_chunked_body` steps over the line feed of a size line by adding one to its index. When a read
ends right after the carriage return the line feed is not there yet: the index is forgotten at the
next read, and the line feed is taken for the first byte of the data. `decodes_iff` says exactly when
the decoding is right all the same: when this happens only to chunks that consist of line feeds, and
not to the last line, whose count of remaining bytes it makes wrap.

The reader is followed by what it has still to read, its `stream`, and by where its reads end,
`cutAt`. `After` says that the reader has moved on by some bytes; the lemmas about it take the reader
through the digits of a size, the end of the line, the data and the line break behind the data.
-/

namespace Sylar.SocketStream

def CR : UInt8 := 0x0D

def LF : UInt8 := 0x0A

/-! ## Encoding -/

/-- The number a string of hexadecimal digits stands for, after a number already read. -/
def hexValue (digits : List UInt8) (start : Nat) : Nat :=
  digits.foldl (fun acc c => acc * 16 + (hexDigit (toupper c)).getD 0) start

/-- A non-empty chunk, with its size spelt in any way. -/
structure Chunk where
  digits : List UInt8
  data : List UInt8
  isHex : ∀ c ∈ digits, (hexDigit (toupper c)).isSome = true
  size : hexValue digits 0 = data.length
  nonempty : data ≠ []
  small : data.length < 2 ^ 64

def Chunk.encode (c : Chunk) : List UInt8 :=
  c.digits ++ CR :: LF :: (c.data ++ [CR, LF])

/-- The chunks, and the last chunk. -/
def encodeChunked (chunks : List Chunk) : List UInt8 :=
  chunks.flatMap Chunk.encode ++ [0x30, CR, LF, CR, LF]

/-! ## Where reads end -/

/-- Whether a read ends after the first `p` bytes. -/
def cutAt : Reads → Nat → Bool
  | [], _ => false
  | segment :: segments, p =>
    p == segment.length || (decide (segment.length < p) && cutAt segments (p - segment.length))

/-- The cuts behind the first bytes of a segment. -/
theorem cutAt_drop {segment : List UInt8} {n : Nat} (le : n ≤ segment.length) (segments : Reads)
    (q : Nat) : cutAt (segment :: segments) (n + q) = cutAt (segment.drop n :: segments) q := by
  have same : (n + q == segment.length) = (q == segment.length - n) := by
    rw [Bool.eq_iff_iff, beq_iff_eq, beq_iff_eq]
    omega
  have less : decide (segment.length < n + q) = decide (segment.length - n < q) := by
    rw [decide_eq_decide]
    omega
  rw [cutAt, cutAt, List.length_drop, same, less]
  congr 3
  omega

/-- An exhausted segment makes no cut further on. -/
theorem cutAt_nil_cons (segments : Reads) (q : Nat) :
    cutAt ([] :: segments) (q + 1) = cutAt segments (q + 1) := by
  rw [cutAt, List.length_nil, Nat.sub_zero]
  simp

theorem cutAt_one {b : UInt8} {segment : List UInt8} {segments : Reads} :
    cutAt ((b :: segment) :: segments) 1 = true ↔ segment = [] := by
  rw [cutAt, List.length_cons]
  simp only [Bool.or_eq_true, beq_iff_eq, Bool.and_eq_true, decide_eq_true_eq]
  rw [← List.length_eq_zero_iff]
  omega

namespace ChunkedReader

variable {buffSize : Nat} {r r' r'' : ChunkedReader}

/-! ## The reader's view -/

/-- The bytes of the last read that are not parsed yet. -/
def pending (r : ChunkedReader) : List UInt8 := r.buffer.drop r.parsed

/-- Everything the reader has still to see. -/
def stream (r : ChunkedReader) : List UInt8 := r.pending ++ r.reads.flatten

/-- The same, with its reads. -/
def segments (r : ChunkedReader) : Reads := r.pending :: r.reads

/-- The reads to come are not empty and fit the buffer. -/
def Fed (buffSize : Nat) (reads : Reads) : Prop :=
  ∀ segment ∈ reads, segment ≠ [] ∧ segment.length ≤ buffSize

/-- Some turns of the loop lead from one reader to another. -/
def Goes (buffSize : Nat) (r r' : ChunkedReader) : Prop :=
  ∃ k, ∀ fuel, r.loop buffSize (k + fuel) = r'.loop buffSize fuel

theorem Goes.trans (first : Goes buffSize r r') (second : Goes buffSize r' r'') : Goes buffSize r r'' := by
  obtain ⟨k, first⟩ := first
  obtain ⟨l, second⟩ := second
  refine ⟨k + l, fun fuel => ?_⟩
  rw [Nat.add_assoc, first, second]

/-- The reader has moved on by `n` bytes. -/
structure After (buffSize n : Nat) (r r' : ChunkedReader) : Prop where
  goes : Goes buffSize r r'
  stream : r.stream.drop n = r'.stream
  cuts : ∀ q, cutAt r.segments (n + q) = cutAt r'.segments q
  fed : Fed buffSize r'.reads

theorem After.refl (fed : Fed buffSize r.reads) : After buffSize 0 r r :=
  ⟨⟨0, fun fuel => by rw [Nat.zero_add]⟩, rfl, fun q => by rw [Nat.zero_add], fed⟩

theorem After.trans {n m : Nat} (first : After buffSize n r r') (second : After buffSize m r' r'') :
    After buffSize (n + m) r r'' where
  goes := first.goes.trans second.goes
  stream := by rw [← second.stream, ← first.stream, List.drop_drop]
  cuts q := by rw [Nat.add_assoc, first.cuts, second.cuts]
  fed := second.fed

/-! ## One turn -/

/-- A reader with bytes at hand that continues as another one does. -/
structure Woken (buffSize : Nat) (r w : ChunkedReader) : Prop where
  runs : ∀ fuel, r.loop buffSize (fuel + 1) = w.loop buffSize (fuel + 1)
  same : w.body = r.body ∧ w.chunkSize = r.chunkSize ∧ w.tmpSize = r.tmpSize ∧
    w.readChunkSize = r.readChunkSize
  pending : w.pending ≠ []
  stream : w.stream = r.stream
  cuts : ∀ q, cutAt r.segments (q + 1) = cutAt w.segments (q + 1)
  fed : Fed buffSize w.reads

theorem pending_ne_nil : r.pending ≠ [] ↔ r.parsed < r.buffer.length := by
  rw [pending, Ne, List.drop_eq_nil_iff]
  omega

theorem refill_of_pending (h : r.pending ≠ []) : r.refill buffSize = some r := by
  rw [refill, if_neg (Nat.not_le_of_lt (pending_ne_nil.mp h))]

/-- The read at the top of the loop, when it is needed. -/
theorem exists_refill (more : r.stream ≠ []) (fed : Fed buffSize r.reads) :
    ∃ w, r.refill buffSize = some w ∧ Woken buffSize r w := by
  by_cases atHand : r.pending = []
  · cases reads : r.reads with
    | nil =>
      rw [stream, atHand, reads] at more
      exact absurd rfl more
    | cons segment rest =>
      obtain ⟨nonempty, fits⟩ := fed segment (by rw [reads]; exact List.mem_cons_self)
      have room : ¬ (buffSize = 0 ∨ segment = []) := by
        have := List.length_pos_iff.mpr nonempty
        rintro (zero | empty)
        · omega
        · exact nonempty empty
      have past : r.parsed ≥ r.buffer.length := by
        have := mt pending_ne_nil.mpr (not_not_intro atHand)
        omega
      have got : r.refill buffSize = some { r with buffer := segment, parsed := 0, reads := rest } := by
        rw [refill, if_pos past, reads, read, if_neg room, if_pos fits, List.take_of_length_le fits]
        rfl
      have ready : ({ r with buffer := segment, parsed := 0, reads := rest } : ChunkedReader).pending ≠ [] :=
        nonempty
      refine ⟨{ r with buffer := segment, parsed := 0, reads := rest }, got, fun fuel => ?_,
        ⟨rfl, rfl, rfl, rfl⟩, ready, ?_, fun q => ?_, fun s mem => ?_⟩
      · rw [loop, got, loop, refill_of_pending ready]
      · rw [stream, stream, atHand, reads]
        rfl
      · rw [segments, atHand, cutAt_nil_cons, reads]
        rfl
      · exact fed s (by rw [reads]; exact List.mem_cons_of_mem _ mem)
  · exact ⟨r, refill_of_pending atHand, fun _ => rfl, ⟨rfl, rfl, rfl, rfl⟩, atHand, rfl, fun _ => rfl, fed⟩

theorem exists_woken (more : r.stream ≠ []) (fed : Fed buffSize r.reads) : ∃ w, Woken buffSize r w := by
  obtain ⟨w, -, woken⟩ := exists_refill more fed
  exact ⟨w, woken⟩

/-- A turn that does not break. -/
theorem loop_of_consume (h : r.pending ≠ []) (turn : r.consume = (false, r')) (fuel : Nat) :
    r.loop buffSize (fuel + 1) = r'.loop buffSize fuel := by
  rw [loop, refill_of_pending h]
  dsimp only
  rw [turn]

/-- A turn that breaks. -/
theorem loop_of_break (h : r.pending ≠ []) (turn : r.consume = (true, r')) (fuel : Nat) :
    r.loop buffSize (fuel + 1) = some (true, r') := by
  rw [loop, refill_of_pending h]
  dsimp only
  rw [turn]

/-- The reader with other counters. -/
def set (w : ChunkedReader) (parsed size tmp : Nat) (flag : Bool) : ChunkedReader :=
  { w with parsed := parsed, chunkSize := size, tmpSize := tmp, readChunkSize := flag }

theorem head_pending {b : UInt8} {rest : List UInt8} (h : r.pending = b :: rest) :
    r.buffer[r.parsed]?.getD 0 = b := by
  have head : (r.buffer.drop r.parsed)[0]? = some b := by
    rw [← pending, h]
    rfl
  rw [List.getElem?_drop, Nat.add_zero] at head
  rw [head, Option.getD_some]

/-- A turn that does not break and consumes `n` bytes of those at hand. -/
theorem after_of_woken {w x : ChunkedReader} {n : Nat} (woken : Woken buffSize r w)
    (turn : w.consume = (false, x)) (pos : 1 ≤ n) (le : n ≤ w.pending.length)
    (moved : x.pending = w.pending.drop n) (reads : x.reads = w.reads) : After buffSize n r x := by
  refine ⟨⟨1, fun fuel => ?_⟩, ?_, fun q => ?_, reads ▸ woken.fed⟩
  · rw [Nat.add_comm, woken.runs, loop_of_consume woken.pending turn]
  · rw [← woken.stream, stream, stream, moved, reads, List.drop_append_of_le_length le]
  · have behind := cutAt_drop le w.reads q
    rw [← moved] at behind
    obtain ⟨p, eq⟩ : ∃ p, n + q = p + 1 := ⟨n + q - 1, by omega⟩
    rw [eq, woken.cuts, ← eq, segments, segments, behind, reads]

/-- A turn that takes a byte outside the data. -/
theorem after_byte {b : UInt8} {s : List UInt8} (size tmp : Nat) (flag : Bool) (here : r.stream = b :: s)
    (fed : Fed buffSize r.reads)
    (turn : ∀ w : ChunkedReader, w.buffer[w.parsed]?.getD 0 = b → w.chunkSize = r.chunkSize →
      w.tmpSize = r.tmpSize → w.readChunkSize = r.readChunkSize →
      w.consume = (false, w.set (w.parsed + 1) size tmp flag)) :
    ∃ r', After buffSize 1 r r' ∧ r'.body = r.body ∧ r'.chunkSize = size ∧ r'.tmpSize = tmp ∧
      r'.readChunkSize = flag := by
  obtain ⟨w, woken⟩ := exists_woken (by rw [here]; exact List.cons_ne_nil b s) fed
  obtain ⟨c, rest, pending⟩ := List.exists_cons_of_ne_nil woken.pending
  obtain rfl : c = b := by
    have same := woken.stream
    rw [stream, pending, here, List.cons_append] at same
    exact (List.cons.inj same).1
  have step := turn w (head_pending pending) woken.same.2.1 woken.same.2.2.1 woken.same.2.2.2
  have moved : (w.set (w.parsed + 1) size tmp flag).pending = w.pending.drop 1 :=
    List.drop_drop.symm
  have whole : 1 ≤ w.pending.length := by rw [pending, List.length_cons]; omega
  exact ⟨w.set (w.parsed + 1) size tmp flag, after_of_woken woken step (Nat.le_refl 1) whole moved rfl,
    woken.same.1, rfl, rfl, rfl⟩

theorem After.stream_of_append {n : Nat} (taken : List UInt8) {s : List UInt8}
    (after : After buffSize n r r') (here : r.stream = taken ++ s) (len : taken.length = n) :
    r'.stream = s := by
  rw [← after.stream, here, ← len, List.drop_left]

/-! ## A size line -/

/-- Between two chunks. -/
structure Start (r : ChunkedReader) : Prop where
  chunkSize : r.chunkSize = 0
  tmpSize : r.tmpSize = 0
  readChunkSize : r.readChunkSize = false

theorem consume_digit {w : ChunkedReader} {b : UInt8} {d : Nat} (head : w.buffer[w.parsed]?.getD 0 = b)
    (digit : hexDigit (toupper b) = some d) (size : w.chunkSize = 0) :
    w.consume = (false, w.set (w.parsed + 1) 0 ((w.tmpSize * 16 + d) % 2 ^ 64) true) := by
  rw [consume, if_pos size, head, digit, set, ← size]

theorem consume_other {w : ChunkedReader} {b : UInt8} (head : w.buffer[w.parsed]?.getD 0 = b)
    (notDigit : hexDigit (toupper b) = none) (size : w.chunkSize = 0) (flag : w.readChunkSize = false) :
    w.consume = (false, w.set (w.parsed + 1) 0 w.tmpSize false) := by
  rw [consume, if_pos size, head, notDigit]
  dsimp only
  rw [if_neg (by rw [flag]; exact Bool.false_ne_true), set, ← size, ← flag]

theorem consume_line {w : ChunkedReader} {b : UInt8} (head : w.buffer[w.parsed]?.getD 0 = b)
    (notDigit : hexDigit (toupper b) = none) (size : w.chunkSize = 0) (flag : w.readChunkSize = true) :
    w.consume = if w.tmpSize = 0 then (true, { w with parsed := w.parsed + 2 })
      else (false, w.set (w.parsed + 2) w.tmpSize 0 false) := by
  rw [consume, if_pos size, head, notDigit]
  dsimp only
  rw [if_pos flag]
  rfl

/-- Cutting off what does not fit early does not change what fits. -/
theorem hexValue_mod (digits : List UInt8) (m : Nat) : ∀ a : Nat,
    hexValue digits (a % m) % m = hexValue digits a % m := by
  induction digits with
  | nil => exact fun a => Nat.mod_mod a m
  | cons c digits ih =>
    intro a
    have step : ∀ x, hexValue (c :: digits) x =
        hexValue digits (x * 16 + (hexDigit (toupper c)).getD 0) := fun _ => rfl
    have low : (a % m * 16 + (hexDigit (toupper c)).getD 0) % m =
        (a * 16 + (hexDigit (toupper c)).getD 0) % m := by
      rw [Nat.add_mod, Nat.mod_mul_mod, ← Nat.add_mod]
    rw [step, step, ← ih, low, ih]

/-- How a header ends: its chunk's data is next, the body has ended, or a read threw. -/
inductive LineEnd where
  | data (r : ChunkedReader)
  | last (r : ChunkedReader)
  | failed (r : ChunkedReader)

/-- The turns of the loop from a reader on, up to the end of its header. -/
inductive ReadsLine (buffSize : Nat) : ChunkedReader → LineEnd → Prop where
  | data {r : ChunkedReader} (sized : r.chunkSize ≠ 0) : ReadsLine buffSize r (.data r)
  | failed {r : ChunkedReader} (line : r.chunkSize = 0) (read : r.refill buffSize = none) :
      ReadsLine buffSize r (.failed r)
  | last {r w r' : ChunkedReader} (line : r.chunkSize = 0) (read : r.refill buffSize = some w)
      (turn : w.consume = (true, r')) : ReadsLine buffSize r (.last r')
  | turn {r w r' : ChunkedReader} {e : LineEnd} (line : r.chunkSize = 0) (read : r.refill buffSize = some w)
      (turn : w.consume = (false, r')) (rest : ReadsLine buffSize r' e) : ReadsLine buffSize r e

/-- The reader has moved on by `n` bytes of a header. -/
structure Within (buffSize n : Nat) (r r' : ChunkedReader) : Prop extends After buffSize n r r' where
  body : r'.body = r.body
  ends : ∀ {e}, ReadsLine buffSize r' e → ReadsLine buffSize r e

theorem within_digit {b : UInt8} {s : List UInt8} {d : Nat} (here : r.stream = b :: s)
    (fed : Fed buffSize r.reads) (size : r.chunkSize = 0) (digit : hexDigit (toupper b) = some d) :
    ∃ r', Within buffSize 1 r r' ∧ r'.chunkSize = 0 ∧ r'.tmpSize = (r.tmpSize * 16 + d) % 2 ^ 64 ∧
      r'.readChunkSize = true := by
  obtain ⟨w, read, woken⟩ := exists_refill (by rw [here]; exact List.cons_ne_nil b s) fed
  obtain ⟨body, size', tmp', -⟩ := woken.same
  obtain ⟨c, rest, pending⟩ := List.exists_cons_of_ne_nil woken.pending
  obtain rfl : c = b := by
    have same := woken.stream
    rw [stream, pending, here, List.cons_append] at same
    exact (List.cons.inj same).1
  have turn := consume_digit (head_pending pending) digit (size'.trans size)
  have after := after_of_woken woken turn (Nat.le_refl 1)
    (by rw [pending, List.length_cons]; omega) List.drop_drop.symm rfl
  exact ⟨_, ⟨after, body, .turn size read turn⟩, rfl, by rw [← tmp']; rfl, rfl⟩

/-- The digits of a size, as they are shifted into it. -/
theorem within_digits (digits : List UInt8) : ∀ {r : ChunkedReader} {s : List UInt8},
    (∀ c ∈ digits, (hexDigit (toupper c)).isSome = true) → r.stream = digits ++ s →
    Fed buffSize r.reads → r.chunkSize = 0 → r.tmpSize < 2 ^ 64 →
    ∃ r', Within buffSize digits.length r r' ∧ r'.chunkSize = 0 ∧
      r'.tmpSize = hexValue digits r.tmpSize % 2 ^ 64 ∧
      r'.readChunkSize = (r.readChunkSize || !digits.isEmpty) := by
  induction digits with
  | nil =>
    intro r s _ _ fed size tmp
    exact ⟨r, ⟨.refl fed, rfl, id⟩, size, (Nat.mod_eq_of_lt tmp).symm, (Bool.or_false _).symm⟩
  | cons c digits ih =>
    intro r s isHex here fed size tmp
    obtain ⟨d, digit⟩ := Option.isSome_iff_exists.mp (isHex c List.mem_cons_self)
    obtain ⟨r₁, one, size₁, tmp₁, flag₁⟩ := within_digit here fed size digit
    have rest : r₁.stream = digits ++ s := one.stream_of_append [c] here rfl
    have small : r₁.tmpSize < 2 ^ 64 := by rw [tmp₁]; exact Nat.mod_lt _ (by decide)
    obtain ⟨r', more, size', tmp', flag'⟩ :=
      ih (fun c mem => isHex c (List.mem_cons_of_mem _ mem)) rest one.fed size₁ small
    refine ⟨r', ⟨?_, more.body.trans one.body, fun ends => one.ends (more.ends ends)⟩, size', ?_, ?_⟩
    · rw [List.length_cons, Nat.add_comm]
      exact one.toAfter.trans more.toAfter
    · have value : hexValue (c :: digits) r.tmpSize = hexValue digits (r.tmpSize * 16 + d) := by
        show hexValue digits (r.tmpSize * 16 + (hexDigit (toupper c)).getD 0) = _
        rw [digit, Option.getD_some]
      rw [tmp', tmp₁, hexValue_mod, value]
    · rw [flag', flag₁]
      simp

/-- The digits of a size. -/
theorem after_digits (digits : List UInt8) {s : List UInt8}
    (isHex : ∀ c ∈ digits, (hexDigit (toupper c)).isSome = true) (here : r.stream = digits ++ s)
    (fed : Fed buffSize r.reads) (size : r.chunkSize = 0) (tmp : r.tmpSize < 2 ^ 64) :
    ∃ r', After buffSize digits.length r r' ∧ r'.body = r.body ∧ r'.chunkSize = 0 ∧
      r'.tmpSize = hexValue digits r.tmpSize % 2 ^ 64 ∧
      r'.readChunkSize = (r.readChunkSize || !digits.isEmpty) := by
  obtain ⟨r', within, counters⟩ := within_digits digits isHex here fed size tmp
  exact ⟨r', within.toAfter, within.body, counters⟩

/-- A byte between two chunks that is no digit. -/
theorem after_other {b : UInt8} {s : List UInt8} (start : Start r) (here : r.stream = b :: s)
    (fed : Fed buffSize r.reads) (notDigit : hexDigit (toupper b) = none) :
    ∃ r', After buffSize 1 r r' ∧ r'.body = r.body ∧ Start r' := by
  obtain ⟨r', one, body, size, tmp, flag⟩ := after_byte 0 0 false here fed fun w head same same' same'' => by
    have turn :=
      consume_other head notDigit (same.trans start.chunkSize) (same''.trans start.readChunkSize)
    rwa [same'.trans start.tmpSize] at turn
  exact ⟨r', one, body, size, tmp, flag⟩

theorem notDigit_CR : hexDigit (toupper CR) = none := by decide

theorem notDigit_LF : hexDigit (toupper LF) = none := by decide

/-- The line break behind the data. -/
theorem after_break {s : List UInt8} (start : Start r) (here : r.stream = CR :: LF :: s)
    (fed : Fed buffSize r.reads) : ∃ r', After buffSize 2 r r' ∧ r'.body = r.body ∧ Start r' := by
  obtain ⟨r₁, one, body₁, start₁⟩ := after_other start here fed notDigit_CR
  have rest : r₁.stream = LF :: s := one.stream_of_append [CR] here rfl
  obtain ⟨r₂, two, body₂, start₂⟩ := after_other start₁ rest one.fed notDigit_LF
  exact ⟨r₂, one.trans two, body₂.trans body₁, start₂⟩

/-- The reader at the end of a size line, with the carriage return at hand and what follows it in the
same read. -/
theorem exists_line {s : List UInt8} (here : r.stream = CR :: LF :: s) (fed : Fed buffSize r.reads) :
    ∃ w rest, Woken buffSize r w ∧ w.pending = CR :: rest ∧
      (cutAt r.segments 1 = true ↔ rest = []) ∧ rest ++ w.reads.flatten = LF :: s := by
  obtain ⟨w, woken⟩ := exists_woken (by rw [here]; exact List.cons_ne_nil _ _) fed
  obtain ⟨c, rest, pending⟩ := List.exists_cons_of_ne_nil woken.pending
  have same := woken.stream
  rw [stream, pending, here, List.cons_append] at same
  obtain ⟨rfl, behind⟩ := List.cons.inj same
  refine ⟨w, rest, woken, pending, ?_, behind⟩
  rw [woken.cuts 0, segments, pending]
  exact cutAt_one

/-- The end of a size line: the line feed is skipped, unless the read ends before it. -/
theorem after_line {s : List UInt8} (here : r.stream = CR :: LF :: s) (fed : Fed buffSize r.reads)
    (size : r.chunkSize = 0) (flag : r.readChunkSize = true) (tmp : r.tmpSize ≠ 0) :
    ∃ r', After buffSize (if cutAt r.segments 1 then 1 else 2) r r' ∧ r'.body = r.body ∧
      r'.chunkSize = r.tmpSize ∧ r'.tmpSize = 0 ∧ r'.readChunkSize = false := by
  obtain ⟨w, rest, woken, pending, cut, behind⟩ := exists_line here fed
  obtain ⟨body, size', tmp', flag'⟩ := woken.same
  have turn := consume_line (head_pending pending) notDigit_CR (size'.trans size) (flag'.trans flag)
  rw [if_neg (by rw [tmp']; exact tmp), tmp'] at turn
  have two : (w.set (w.parsed + 2) r.tmpSize 0 false).pending = w.pending.drop 2 := List.drop_drop.symm
  refine ⟨w.set (w.parsed + 2) r.tmpSize 0 false, ?_, body, rfl, rfl, rfl⟩
  by_cases isCut : cutAt r.segments 1 = true
  · -- only the carriage return is at hand: both bytes of the skip end at the end of the read
    rw [if_pos isCut]
    obtain rfl := cut.mp isCut
    refine after_of_woken woken turn (Nat.le_refl 1) (by rw [pending]; exact Nat.le_refl 1) ?_ rfl
    rw [two, pending]
    rfl
  · rw [if_neg isCut]
    obtain ⟨c, rest, rfl⟩ := List.exists_cons_of_ne_nil (mt cut.mpr isCut)
    refine after_of_woken woken turn (by decide) ?_ two rfl
    rw [pending, List.length_cons, List.length_cons]
    omega

/-! ## Data -/

/-- The data of a chunk, however many reads it takes. -/
theorem after_data (n : Nat) : ∀ {r : ChunkedReader} {data s : List UInt8}, data.length = n → 1 ≤ n →
    r.stream = data ++ s → Fed buffSize r.reads → r.chunkSize = n →
    ∃ r', After buffSize n r r' ∧ r'.body = r.body ++ data ∧ r'.chunkSize = 0 ∧
      r'.tmpSize = r.tmpSize ∧ r'.readChunkSize = r.readChunkSize := by
  induction n using Nat.strong_induction_on with
  | _ n ih =>
    intro r data s len pos here fed size
    have more : r.stream ≠ [] := by
      rw [here]
      exact List.append_ne_nil_of_left_ne_nil (List.ne_nil_of_length_pos (by omega)) s
    obtain ⟨w, woken⟩ := exists_woken more fed
    obtain ⟨body, size', tmp', flag'⟩ := woken.same
    have whole : w.buffer.length - w.parsed = w.pending.length := by rw [pending, List.length_drop]
    have atHand := List.length_pos_iff.mpr woken.pending
    have view : w.pending ++ w.reads.flatten = data ++ s := woken.stream.trans here
    have notZero : ¬ w.chunkSize = 0 := by rw [size', size]; omega
    by_cases enough : n ≤ w.pending.length
    · -- the rest of the data is at hand
      have taken : w.pending.take n = data := by
        have firsts := congrArg (List.take n) view
        rwa [List.take_append_of_le_length enough, ← len, List.take_left, len] at firsts
      have turn : w.consume = (false, { w with
          body := w.body ++ w.pending.take n
          parsed := w.parsed + n
          chunkSize := 0 }) := by
        rw [consume, if_neg notZero, whole, size', size, if_pos enough]
        rfl
      refine ⟨_, after_of_woken woken turn pos enough List.drop_drop.symm rfl, ?_, rfl, tmp', flag'⟩
      show w.body ++ w.pending.take n = _
      rw [body, taken]
    · -- all that is at hand is data, and more is to come
      have short : w.pending.length < n := Nat.lt_of_not_le enough
      have turn : w.consume = (false, { w with
          body := w.body ++ w.pending
          chunkSize := n - w.pending.length
          parsed := w.buffer.length }) := by
        rw [consume, if_neg notZero, whole, size', size, if_neg enough]
        rfl
      obtain ⟨rest, rfl⟩ : ∃ rest, data = w.pending ++ rest := by
        have firsts := congrArg (List.take w.pending.length) view
        rw [List.take_left, List.take_append_of_le_length (by omega)] at firsts
        exact ⟨data.drop w.pending.length, by
          nth_rewrite 1 [firsts]
          exact (List.take_append_drop ..).symm⟩
      have first := after_of_woken woken turn atHand (Nat.le_refl _)
        (by rw [List.drop_length]; exact List.drop_length ..) rfl
      have restLen : rest.length = n - w.pending.length := by
        rw [← len, List.length_append]
        omega
      rw [List.append_assoc] at here
      obtain ⟨r', second, body', size'', tmp'', flag''⟩ := ih (n - w.pending.length) (by omega) restLen
        (by omega) (first.stream_of_append w.pending here rfl) first.fed rfl
      refine ⟨r', ?_, ?_, size'', tmp''.trans tmp', flag''.trans flag'⟩
      · have both := first.trans second
        rwa [show w.pending.length + (n - w.pending.length) = n by omega] at both
      · rw [body', ← List.append_assoc, ← body]

/-! ## A chunk -/

/-- A size line, up to the carriage return or beyond the line feed. -/
theorem after_sizeLine {c : Chunk} {s : List UInt8} (start : Start r) (here : r.stream = c.encode ++ s)
    (fed : Fed buffSize r.reads) :
    ∃ r', After buffSize
        (c.digits.length + if cutAt r.segments (c.digits.length + 1) then 1 else 2) r r' ∧
      r'.body = r.body ∧ r'.chunkSize = c.data.length ∧ r'.tmpSize = 0 ∧ r'.readChunkSize = false := by
  have pos := List.length_pos_iff.mpr c.nonempty
  have digits : r.stream = c.digits ++ CR :: LF :: (c.data ++ CR :: LF :: s) := by
    rw [here, Chunk.encode]
    simp only [List.append_assoc, List.cons_append, List.nil_append]
  obtain ⟨r₁, one, body₁, size₁, tmp₁, flag₁⟩ :=
    after_digits c.digits c.isHex digits fed start.chunkSize (by rw [start.tmpSize]; decide)
  rw [start.tmpSize, c.size, Nat.mod_eq_of_lt c.small] at tmp₁
  have someDigits : c.digits.isEmpty = false := by
    cases empty : c.digits with
    | nil =>
      have size := c.size
      rw [empty] at size
      exact absurd size (Nat.ne_of_lt pos)
    | cons d ds => rfl
  obtain ⟨r₂, two, body₂, size₂, tmp₂, flag₂⟩ :=
    after_line (one.stream_of_append c.digits digits rfl) one.fed size₁ (by rw [flag₁, someDigits]; simp)
      (by rw [tmp₁]; omega)
  rw [← one.cuts] at two
  exact ⟨r₂, one.trans two, body₂.trans body₁, size₂.trans tmp₁, tmp₂, flag₂⟩

/-- A list of line feeds, with one in front or behind. -/
theorem cons_eq_append_of_forall {data : List UInt8} (all : ∀ b ∈ data, b = LF) :
    LF :: data = data ++ [LF] := by
  have copies := List.eq_replicate_of_mem all
  rw [copies, ← List.replicate_succ, ← List.replicate_succ']

/-- A chunk read right: its size line is not cut after the carriage return, or its data is nothing
but line feeds. -/
theorem after_chunk {c : Chunk} {s : List UInt8} (start : Start r) (here : r.stream = c.encode ++ s)
    (fed : Fed buffSize r.reads)
    (clear : cutAt r.segments (c.digits.length + 1) = true → ∀ b ∈ c.data, b = LF) :
    ∃ r', After buffSize c.encode.length r r' ∧ r'.body = r.body ++ c.data ∧ Start r' := by
  have pos := List.length_pos_iff.mpr c.nonempty
  have total : c.encode.length = c.digits.length + 2 + c.data.length + 2 := by
    simp only [Chunk.encode, List.length_append, List.length_cons, List.length_nil]
    omega
  obtain ⟨r₁, line, body₁, size₁, tmp₁, flag₁⟩ := after_sizeLine start here fed
  by_cases isCut : cutAt r.segments (c.digits.length + 1) = true
  · -- the line feed counts as data, and the last line feed of the data is skipped as a line break
    have swap := cons_eq_append_of_forall (clear isCut)
    rw [if_pos isCut] at line
    have behind : r₁.stream = c.data ++ LF :: CR :: LF :: s := by
      refine line.stream_of_append (c.digits ++ [CR]) ?_ (by rw [List.length_append]; rfl)
      rw [here, Chunk.encode]
      have shift : LF :: (c.data ++ CR :: LF :: s) = c.data ++ LF :: CR :: LF :: s := by
        rw [← List.cons_append, swap, List.append_assoc]
        rfl
      simp only [List.append_assoc, List.cons_append, List.nil_append, shift]
    obtain ⟨r₂, data, body₂, size₂, tmp₂, flag₂⟩ := after_data _ rfl pos behind line.fed size₁
    have start₂ : Start r₂ := ⟨size₂, tmp₂.trans tmp₁, flag₂.trans flag₁⟩
    obtain ⟨r₃, skip, body₃, start₃⟩ :=
      after_other start₂ (data.stream_of_append c.data behind rfl) data.fed notDigit_LF
    obtain ⟨r₄, last, body₄, start₄⟩ :=
      after_break start₃ (skip.stream_of_append [LF] (data.stream_of_append c.data behind rfl) rfl) skip.fed
    refine ⟨r₄, ?_, by rw [body₄, body₃, body₂, body₁], start₄⟩
    have all := ((line.trans data).trans skip).trans last
    rwa [show c.digits.length + 1 + c.data.length + 1 + 2 = c.encode.length by omega] at all
  · rw [if_neg isCut] at line
    have behind : r₁.stream = c.data ++ CR :: LF :: s := by
      refine line.stream_of_append (c.digits ++ [CR, LF]) ?_ (by rw [List.length_append]; rfl)
      rw [here, Chunk.encode]
      simp only [List.append_assoc, List.cons_append, List.nil_append]
    obtain ⟨r₂, data, body₂, size₂, tmp₂, flag₂⟩ := after_data _ rfl pos behind line.fed size₁
    have start₂ : Start r₂ := ⟨size₂, tmp₂.trans tmp₁, flag₂.trans flag₁⟩
    obtain ⟨r₃, last, body₃, start₃⟩ :=
      after_break start₂ (data.stream_of_append c.data behind rfl) data.fed
    refine ⟨r₃, ?_, by rw [body₃, body₂, body₁], start₃⟩
    have all := (line.trans data).trans last
    rwa [show c.digits.length + 2 + c.data.length + 2 = c.encode.length by omega] at all

/-- A chunk whose size line is cut after the carriage return: the line feed is taken for its first
byte. -/
theorem goes_cutChunk {c : Chunk} {s : List UInt8} (start : Start r) (here : r.stream = c.encode ++ s)
    (fed : Fed buffSize r.reads) (isCut : cutAt r.segments (c.digits.length + 1) = true) :
    ∃ r', Goes buffSize r r' ∧ r'.body = r.body ++ LF :: c.data.dropLast := by
  have pos := List.length_pos_iff.mpr c.nonempty
  obtain ⟨r₁, line, body₁, size₁, tmp₁, flag₁⟩ := after_sizeLine start here fed
  rw [if_pos isCut] at line
  have behind : r₁.stream = (LF :: c.data.dropLast) ++ c.data.getLast c.nonempty :: CR :: LF :: s := by
    refine line.stream_of_append (c.digits ++ [CR]) ?_ (by rw [List.length_append]; rfl)
    rw [here, Chunk.encode]
    nth_rewrite 1 [← List.dropLast_append_getLast c.nonempty]
    simp only [List.append_assoc, List.cons_append, List.nil_append]
  have len : (LF :: c.data.dropLast).length = c.data.length := by
    rw [List.length_cons, List.length_dropLast]
    omega
  obtain ⟨r₂, data, body₂, -⟩ := after_data _ len pos behind line.fed size₁
  exact ⟨r₂, line.goes.trans data.goes, by rw [body₂, body₁]⟩

/-- The last line: the loop breaks on the carriage return, with what follows it in the same read not
looked at. -/
theorem exists_lastLine {s : List UInt8} (start : Start r) (here : r.stream = 0x30 :: CR :: LF :: s)
    (fed : Fed buffSize r.reads) :
    ∃ (k : Nat) (w : ChunkedReader) (rest : List UInt8),
      r.loop buffSize k = some (true, { w with parsed := w.parsed + 2 }) ∧ w.body = r.body ∧
      w.pending = CR :: rest ∧ rest ++ w.reads.flatten = LF :: s ∧ Fed buffSize w.reads ∧
      ∀ q, cutAt r.segments (q + 2) = cutAt w.segments (q + 1) := by
  obtain ⟨r₁, one, body₁, size₁, tmp₁, flag₁⟩ :=
    after_digits [0x30] (List.forall_mem_singleton.mpr rfl) here fed start.chunkSize
      (by rw [start.tmpSize]; decide)
  have line := one.stream_of_append [0x30] here rfl
  obtain ⟨w, rest, woken, pending, -, behind⟩ := exists_line line one.fed
  obtain ⟨body, size', tmp', flag'⟩ := woken.same
  have turn := consume_line (head_pending pending) notDigit_CR (size'.trans size₁)
    (flag'.trans (by rw [flag₁]; exact Bool.or_true _))
  have zero : w.tmpSize = 0 := by rw [tmp', tmp₁, start.tmpSize]; decide
  rw [if_pos zero] at turn
  obtain ⟨k, goes⟩ := one.goes
  refine ⟨k + 1, w, rest, (goes 1).trans ((woken.runs 0).trans (loop_of_break woken.pending turn 0)),
    body.trans body₁, pending, behind, woken.fed, fun q => ?_⟩
  rw [← woken.cuts, ← one.cuts, List.length_singleton, Nat.add_comm 1]

/-- The last line: the loop breaks, and what it has not parsed is right unless the line is cut after
the carriage return. -/
theorem last_line {s : List UInt8} (start : Start r) (here : r.stream = 0x30 :: CR :: LF :: s)
    (fed : Fed buffSize r.reads) :
    ∃ k r', r.loop buffSize k = some (true, r') ∧ r'.body = r.body ∧
      if cutAt r.segments 2 then
        sizeSub r'.buffer.length r'.parsed = 2 ^ 64 - 1 ∧ r'.reads.flatten = LF :: s
      else r'.reads.flatten.length + sizeSub r'.buffer.length r'.parsed = s.length := by
  obtain ⟨k, w, rest, run, body, pending, behind, -, cuts⟩ := exists_lastLine start here fed
  have len : w.parsed + (rest.length + 1) = w.buffer.length := by
    have lengths := congrArg List.length pending
    rw [ChunkedReader.pending, List.length_drop, List.length_cons] at lengths
    omega
  refine ⟨k, { w with parsed := w.parsed + 2 }, run, body, ?_⟩
  have cut : cutAt r.segments 2 = true ↔ rest = [] := by
    rw [cuts 0, segments, pending]
    exact cutAt_one
  by_cases isCut : cutAt r.segments 2 = true
  · rw [if_pos isCut]
    obtain rfl := cut.mp isCut
    rw [List.length_nil] at len
    refine ⟨?_, behind⟩
    dsimp only
    rw [sizeSub, if_neg (by omega)]
    omega
  · rw [if_neg isCut]
    obtain ⟨c, rest, rfl⟩ := List.exists_cons_of_ne_nil (mt cut.mpr isCut)
    have lengths := congrArg List.length behind
    rw [List.length_append, List.length_cons, List.length_cons] at lengths
    rw [List.length_cons] at len
    dsimp only
    rw [sizeSub_of_le (by omega)]
    omega

/-! ## The loop as a whole -/

theorem read_spec {length : Nat} {reads reads' : Reads} {got : List UInt8}
    (h : read length reads = some (got, reads')) :
    got ≠ [] ∧ got.length + reads'.flatten.length = reads.flatten.length := by
  cases reads with
  | nil => cases h
  | cons segment reads =>
    rw [read] at h
    split at h
    · cases h
    · rename_i room
      obtain ⟨rfl, rfl⟩ := Prod.mk.inj (Option.some.inj h)
      obtain ⟨notZero, nonempty⟩ := not_or.mp room
      refine ⟨?_, ?_⟩
      · rw [Ne, List.take_eq_nil_iff]
        exact not_or.mpr ⟨notZero, nonempty⟩
      · split
        · rename_i fits
          rw [List.take_of_length_le fits, List.flatten_cons, List.length_append]
        · rw [List.flatten_cons, List.flatten_cons, List.length_append, List.length_append,
            List.length_take, List.length_drop]
          omega

/-- The bytes that can still come. -/
def left (r : ChunkedReader) : Nat := r.pending.length + r.reads.flatten.length

theorem refill_left {w : ChunkedReader} (h : r.refill buffSize = some w) :
    w.left = r.left ∧ w.pending ≠ [] ∧ w.body = r.body := by
  rw [refill] at h
  split at h
  · rename_i past
    obtain ⟨⟨got, reads⟩, got', rfl⟩ := Option.map_eq_some_iff.mp h
    obtain ⟨nonempty, count⟩ := read_spec got'
    have none : r.pending = [] := List.drop_eq_nil_iff.mpr past
    refine ⟨?_, nonempty, rfl⟩
    rw [left, left, none, List.length_nil, Nat.zero_add]
    exact count
  · rename_i atHand
    obtain rfl := Option.some.inj h
    exact ⟨rfl, pending_ne_nil.mpr (Nat.lt_of_not_le atHand), rfl⟩

theorem pending_length (r : ChunkedReader) : r.pending.length = r.buffer.length - r.parsed :=
  List.length_drop

/-- A turn consumes something and only adds to the body. -/
theorem consume_left (h : r.pending ≠ []) :
    r.consume.2.left < r.left ∧ r.body <+: r.consume.2.body := by
  have atHand := pending_ne_nil.mp h
  unfold consume left
  rw [pending_length, pending_length]
  split
  · split
    · exact ⟨by dsimp only; omega, List.prefix_rfl⟩
    · split
      · split
        · exact ⟨by dsimp only; omega, List.prefix_rfl⟩
        · exact ⟨by dsimp only; omega, List.prefix_rfl⟩
      · exact ⟨by dsimp only; omega, List.prefix_rfl⟩
  · split
    · exact ⟨by dsimp only; omega, List.prefix_append ..⟩
    · exact ⟨by dsimp only; omega, List.prefix_append ..⟩

/-- Enough fuel: one turn for every byte that can still come, and one to find that there is none. -/
theorem loop_isSome (fuel : Nat) : ∀ {r : ChunkedReader}, r.left < fuel →
    (r.loop buffSize fuel).isSome = true := by
  induction fuel with
  | zero => exact fun lt => absurd lt (Nat.not_lt_zero _)
  | succ fuel ih =>
    intro r lt
    rw [loop]
    split
    · rfl
    · rename_i w refilled
      obtain ⟨same, atHand, -⟩ := refill_left refilled
      obtain ⟨less, -⟩ := consume_left atHand
      split
      · rfl
      · rename_i next turn
        rw [turn] at less
        exact ih (by dsimp only at less; omega)

theorem loop_mono (fuel : Nat) : ∀ {r : ChunkedReader} {x : Bool × ChunkedReader} (more : Nat),
    r.loop buffSize fuel = some x → r.loop buffSize (fuel + more) = some x := by
  induction fuel with
  | zero => exact fun _ h => nomatch h
  | succ fuel ih =>
    intro r x more h
    rw [Nat.succ_add, loop]
    rw [loop] at h
    split at h
    · exact h
    · split at h
      · exact h
      · exact ih more h

/-- The answer does not depend on the fuel. -/
theorem loop_unique {k l : Nat} {x y : Bool × ChunkedReader} (first : r.loop buffSize k = some x)
    (second : r.loop buffSize l = some y) : x = y := by
  have up := loop_mono k l first
  have up' := loop_mono l k second
  rw [Nat.add_comm, up'] at up
  exact (Option.some.inj up).symm

/-- The body only grows. -/
theorem body_prefix_loop (fuel : Nat) : ∀ {r r' : ChunkedReader} {ret : Bool},
    r.loop buffSize fuel = some (ret, r') → r.body <+: r'.body := by
  induction fuel with
  | zero => exact fun h => nomatch h
  | succ fuel ih =>
    intro r r' ret h
    rw [loop] at h
    split at h
    · obtain ⟨-, rfl⟩ := Prod.mk.inj (Option.some.inj h)
      exact List.prefix_rfl
    · rename_i w refilled
      obtain ⟨-, atHand, body⟩ := refill_left refilled
      obtain ⟨-, grown⟩ := consume_left atHand
      split at h
      · rename_i next turn
        obtain ⟨-, rfl⟩ := Prod.mk.inj (Option.some.inj h)
        rw [turn, body] at grown
        exact grown
      · rename_i next turn
        rw [turn, body] at grown
        exact grown.trans (ih h)

/-- Turns before it do not change an answer. -/
theorem Goes.loop_of_loop {k : Nat} {x : Bool × ChunkedReader} (goes : Goes buffSize r r')
    (run : r.loop buffSize k = some x) : ∃ l, r'.loop buffSize l = some x := by
  obtain ⟨n, goes⟩ := goes
  refine ⟨k, ?_⟩
  rw [← goes, Nat.add_comm]
  exact loop_mono k n run

theorem Goes.ends_iff {P : ChunkedReader → Prop} (goes : Goes buffSize r r') :
    (∃ k x, r'.loop buffSize k = some (true, x) ∧ P x) ↔
      ∃ k x, r.loop buffSize k = some (true, x) ∧ P x := by
  refine ⟨fun ⟨k, x, run, holds⟩ => ?_, fun ⟨k, x, run, holds⟩ => ?_⟩
  · obtain ⟨n, goes⟩ := goes
    exact ⟨n + k, x, (goes k).trans run, holds⟩
  · obtain ⟨l, run'⟩ := goes.loop_of_loop run
    exact ⟨l, x, run', holds⟩

/-- A list that stays itself when moved on by one behind an element consists of the element. -/
theorem forall_eq_of_shifted {a : UInt8} {l : List UInt8} (shifted : a :: l.dropLast = l) :
    ∀ b ∈ l, b = a := by
  induction l with
  | nil => cases shifted
  | cons b l ih =>
    obtain ⟨rfl, rest⟩ := List.cons.inj shifted
    intro c mem
    rcases List.mem_cons.mp mem with rfl | mem
    · rfl
    · have nonempty : l ≠ [] := List.ne_nil_of_mem mem
      rw [List.dropLast_cons_of_ne_nil nonempty] at rest
      exact ih rest c mem

/-- A chunk whose data the body has got: its size line is not cut after the carriage return, or its data
is nothing but line feeds. -/
theorem clear_of_loop {c : Chunk} {s more : List UInt8} {k : Nat} {ret : Bool} (start : Start r)
    (here : r.stream = c.encode ++ s) (fed : Fed buffSize r.reads)
    (run : r.loop buffSize k = some (ret, r')) (body : r'.body = r.body ++ (c.data ++ more))
    (isCut : cutAt r.segments (c.digits.length + 1) = true) : ∀ b ∈ c.data, b = LF := by
  obtain ⟨r₁, goes, body₁⟩ := goes_cutChunk start here fed isCut
  obtain ⟨l, run₁⟩ := goes.loop_of_loop run
  -- the body has the line feed where the chunk's data should start
  have grown := body_prefix_loop l run₁
  rw [body₁, body, List.prefix_append_right_inj] at grown
  have len : (LF :: c.data.dropLast).length = c.data.length := by
    have := List.length_pos_iff.mpr c.nonempty
    rw [List.length_cons, List.length_dropLast]
    omega
  have shifted : LF :: c.data.dropLast = c.data := by
    have firsts := List.prefix_iff_eq_take.mp grown
    rwa [len, List.take_left] at firsts
  exact forall_eq_of_shifted shifted

/-! ## All chunks -/

/-- The reads, seen from the offset where the chunks start: a size line that is cut after its carriage
return is one of a chunk of line feeds, and not the last line. -/
def CutsClear (segments : Reads) : Nat → List Chunk → Prop
  | offset, [] => cutAt segments (offset + 2) = false
  | offset, c :: chunks =>
    (cutAt segments (offset + (c.digits.length + 1)) = true → ∀ b ∈ c.data, b = LF) ∧
      CutsClear segments (offset + c.encode.length) chunks

instance (segments : Reads) : (offset : Nat) → (chunks : List Chunk) →
    Decidable (CutsClear segments offset chunks)
  | offset, [] => inferInstanceAs (Decidable (cutAt segments (offset + 2) = false))
  | offset, c :: chunks =>
    have := instDecidableCutsClear segments (offset + c.encode.length) chunks
    inferInstanceAs (Decidable (_ ∧ _))

/-- From the start of a chunk on, with the cuts seen from there: if they are clear the loop ends with
all data and the right rest, and otherwise it does not. -/
theorem loop_chunks (segments : Reads) (rest : List UInt8) (chunks : List Chunk) :
    ∀ {r : ChunkedReader} {offset : Nat}, Start r → r.stream = encodeChunked chunks ++ rest →
    Fed buffSize r.reads → (∀ q, 1 ≤ q → cutAt segments (offset + q) = cutAt r.segments q) →
    (CutsClear segments offset chunks ↔ ∃ k r', r.loop buffSize k = some (true, r') ∧
      r'.body = r.body ++ chunks.flatMap Chunk.data ∧
      r'.reads.flatten.length + sizeSub r'.buffer.length r'.parsed = rest.length + 2) := by
  induction chunks with
  | nil =>
    intro r offset start here fed cuts
    obtain ⟨k, r', run, body, ends⟩ := last_line (s := CR :: LF :: rest) start here fed
    rw [CutsClear, cuts 2 (by decide), List.flatMap_nil, List.append_nil]
    split at ends
    · rename_i isCut
      rw [isCut]
      refine iff_of_false (by decide) ?_
      rintro ⟨l, r'', run', -, count⟩
      obtain ⟨-, rfl⟩ := Prod.mk.inj (loop_unique run run')
      rw [ends.1, ends.2] at count
      simp only [List.length_cons] at count
      omega
    · rename_i notCut
      refine iff_of_true (Bool.eq_false_iff.mpr notCut) ⟨k, r', run, body, ?_⟩
      rw [ends]
      rfl
  | cons c chunks ih =>
    intro r offset start here fed cuts
    rw [encodeChunked, List.flatMap_cons, List.append_assoc, List.append_assoc, ← List.append_assoc
      (chunks.flatMap _), ← encodeChunked] at here
    rw [CutsClear, cuts _ (by omega)]
    by_cases clear : cutAt r.segments (c.digits.length + 1) = true → ∀ b ∈ c.data, b = LF
    · obtain ⟨r₁, after, body₁, start₁⟩ := after_chunk start here fed clear
      have behind := after.stream_of_append c.encode here rfl
      have next : ∀ q, 1 ≤ q →
          cutAt segments (offset + c.encode.length + q) = cutAt r₁.segments q := fun q pos => by
        rw [Nat.add_assoc, cuts _ (by omega), after.cuts]
      rw [and_iff_right clear, ih start₁ behind after.fed next, after.goes.ends_iff]
      simp only [body₁, List.flatMap_cons, List.append_assoc]
    · refine iff_of_false (fun both => clear both.1) ?_
      rintro ⟨k, r', run, body, -⟩
      rw [List.flatMap_cons] at body
      exact clear (clear_of_loop start here fed run body)

end ChunkedReader

/-- The call returns true with the data of the chunks, and the bytes it has read beyond the last size
line: with those up to the line and those it has not read they are all bytes. -/
def Decodes (buffSize : Nat) (chunks : List Chunk) (lead : List UInt8) (reads : Reads) : Prop :=
  ∃ remained left, readChunkedBody buffSize [] lead reads =
      some ⟨true, chunks.flatMap Chunk.data, remained, left⟩ ∧
    (chunks.flatMap Chunk.encode ++ [0x30, CR, LF]).length + remained + left.flatten.length =
      lead.length + reads.flatten.length

/-- Chunked decoding undoes chunked encoding exactly when every size line that a read cuts after its
carriage return belongs to a chunk of line feeds, and is not the last one. -/
theorem decodes_iff (buffSize : Nat) (chunks : List Chunk) (rest lead : List UInt8) (reads : Reads)
    (bytes : lead ++ reads.flatten = encodeChunked chunks ++ rest)
    (cut : ∀ segment ∈ reads, segment ≠ [] ∧ segment.length ≤ buffSize) :
    Decodes buffSize chunks lead reads ↔ ChunkedReader.CutsClear (lead :: reads) 0 chunks := by
  have total : lead.length + reads.flatten.length =
      (chunks.flatMap Chunk.encode ++ [0x30, CR, LF]).length + 2 + rest.length := by
    have lengths := congrArg List.length bytes
    simp only [encodeChunked, List.length_append, List.length_cons, List.length_nil] at lengths ⊢
    omega
  have whole : (ChunkedReader.start [] lead reads).left = lead.length + reads.flatten.length := rfl
  have ends : ((ChunkedReader.start [] lead reads).loop buffSize
      (lead.length + reads.flatten.length + 1)).isSome = true :=
    ChunkedReader.loop_isSome _ (by rw [whole]; exact Nat.lt_succ_self _)
  obtain ⟨x, run⟩ := Option.isSome_iff_exists.mp ends
  have loops : ChunkedReader.CutsClear (lead :: reads) 0 chunks ↔
      ∃ k r', (ChunkedReader.start [] lead reads).loop buffSize k = some (true, r') ∧
        r'.body = [] ++ chunks.flatMap Chunk.data ∧
        r'.reads.flatten.length + sizeSub r'.buffer.length r'.parsed = rest.length + 2 :=
    ChunkedReader.loop_chunks (lead :: reads) rest chunks ⟨rfl, rfl, rfl⟩ bytes cut
      (fun q _ => by rw [Nat.zero_add]; rfl)
  rw [loops, Decodes, readChunkedBody, run, Option.map_some]
  refine ⟨?_, ?_⟩
  · rintro ⟨remained, left, eq, count⟩
    obtain ⟨ret, r⟩ := x
    cases ret with
    | false => cases eq
    | true =>
      obtain ⟨-, body, rfl, rfl⟩ := ChunkedBody.mk.inj (Option.some.inj eq)
      exact ⟨_, r, run, body, by omega⟩
  · rintro ⟨k, r, run', body, count⟩
    obtain rfl := ChunkedReader.loop_unique run run'
    refine ⟨sizeSub r.buffer.length r.parsed, r.reads, ?_, by omega⟩
    rw [ChunkedBody.ofLoop, body, List.nil_append]

/-- A chunk of five bytes. -/
def hello : Chunk where
  digits := [0x35]
  data := [0x68, 0x65, 0x6C, 0x6C, 0x6F]
  isHex := List.forall_mem_singleton.mpr rfl
  size := by decide
  nonempty := by decide
  small := by decide

/-- Reads that end inside the data and between the two bytes of the line break behind it. -/
theorem decodes_iff_hello : Decodes 8 [hello] [0x35, 0x0D, 0x0A, 0x68, 0x65]
    [[0x6C, 0x6C, 0x6F, 0x0D], [0x0A, 0x30, 0x0D, 0x0A, 0x0D, 0x0A]] :=
  (decodes_iff 8 [hello] [] [0x35, 0x0D, 0x0A, 0x68, 0x65]
    [[0x6C, 0x6C, 0x6F, 0x0D], [0x0A, 0x30, 0x0D, 0x0A, 0x0D, 0x0A]] rfl (by decide)).mpr (by decide)

/-- A read that ends between the carriage return and the line feed of the size line: the body is
`"\nhell"`. -/
theorem not_decodes_hello : ¬ ∀ (buffSize : Nat) (chunks : List Chunk) (rest lead : List UInt8)
    (reads : Reads), lead ++ reads.flatten = encodeChunked chunks ++ rest →
    (∀ segment ∈ reads, segment ≠ [] ∧ segment.length ≤ buffSize) → Decodes buffSize chunks lead reads := by
  intro all
  obtain ⟨remained, left, eq, -⟩ := all 16 [hello] [] [0x35, 0x0D]
    [[0x0A, 0x68, 0x65, 0x6C, 0x6C, 0x6F, 0x0D, 0x0A, 0x30, 0x0D, 0x0A, 0x0D, 0x0A]] rfl (by decide)
  have body : _ = some hello.data := congrArg (Option.map ChunkedBody.body) eq
  exact absurd body (by decide)

end Sylar.SocketStream
