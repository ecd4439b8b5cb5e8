import Sylar.Stream.Bodies

/-!
# What is behind a body

`read_fix_length` leaves the reads behind the bytes it was asked for (`Behind`). `read_chunked_body`
drops what the read with the last size line has behind the line, so it leaves the reads behind the body
only if that read ends where the body does (`EndsRead`).
-/

namespace Sylar.SocketStream

/-! ## Reads behind some bytes -/

/-- What is left of the reads behind their first `n` bytes, with the cuts that are there. -/
structure Behind (n : Nat) (reads reads' : Reads) : Prop where
  flat : reads'.flatten = reads.flatten.drop n
  cuts : ∀ k, 0 < k → cutAt reads' k = cutAt reads (n + k)

theorem Behind.trans {n m : Nat} {reads reads' reads'' : Reads} (first : Behind n reads reads')
    (second : Behind m reads' reads'') : Behind (n + m) reads reads'' where
  flat := by rw [second.flat, first.flat, List.drop_drop]
  cuts k pos := by rw [second.cuts k pos, first.cuts _ (by omega), Nat.add_assoc]

/-- The first bytes of a segment. -/
theorem behind_drop {segment : List UInt8} {n : Nat} (le : n ≤ segment.length) (reads : Reads) :
    Behind n (segment :: reads) (segment.drop n :: reads) where
  flat := by rw [List.flatten_cons, List.flatten_cons, List.drop_append_of_le_length le]
  cuts k _ := (cutAt_drop le reads k).symm

/-- A segment of which nothing is left. -/
theorem behind_nil (reads : Reads) : Behind 0 ([] :: reads) reads where
  flat := rfl
  cuts k pos := by
    obtain ⟨q, rfl⟩ : ∃ q, k = q + 1 := ⟨k - 1, by omega⟩
    rw [Nat.zero_add, cutAt_nil_cons]

/-- A whole segment. -/
theorem behind_segment (segment : List UInt8) (reads : Reads) :
    Behind segment.length (segment :: reads) reads := by
  have whole := behind_drop (Nat.le_refl segment.length) reads
  rw [List.drop_length] at whole
  exact whole.trans (behind_nil reads)

theorem cutAt_length (segment : List UInt8) (reads : Reads) :
    cutAt (segment :: reads) segment.length = true := by
  rw [cutAt, beq_self_eq_true, Bool.true_or]

theorem length_le_of_cutAt {segment : List UInt8} {reads : Reads} {k : Nat}
    (cut : cutAt (segment :: reads) k = true) : segment.length ≤ k := by
  simp only [cutAt, Bool.or_eq_true, beq_iff_eq, Bool.and_eq_true, decide_eq_true_eq] at cut
  omega

/-! ## Chunked bodies -/

/-- The read that has the last size line of a body, which ends at `stop`, ends there too. -/
def EndsRead (segments : Reads) (stop : Nat) : Prop :=
  cutAt segments stop = true ∧ cutAt segments (stop - 1) = false ∧ cutAt segments (stop - 2) = false ∧
    cutAt segments (stop - 3) = false

instance (segments : Reads) (stop : Nat) : Decidable (EndsRead segments stop) :=
  inferInstanceAs (Decidable (_ ∧ _))

/-- The end seen from further on. -/
theorem EndsRead.shift {segments segments' : Reads} {n stop : Nat}
    (cuts : ∀ k, 0 < k → cutAt segments' k = cutAt segments (n + k)) (more : 3 < stop)
    (ends : EndsRead segments (n + stop)) : EndsRead segments' stop := by
  rw [EndsRead, Nat.add_sub_assoc (by omega), Nat.add_sub_assoc (by omega), Nat.add_sub_assoc (by omega)] at ends
  rw [EndsRead, cuts _ (by omega), cuts _ (by omega), cuts _ (by omega), cuts _ (by omega)]
  exact ends

/-- A size line that is cut after its carriage return is one of a chunk of line feeds, or the last. -/
def LinesClear (segments : Reads) : Nat → List Chunk → Prop
  | _, [] => True
  | offset, c :: chunks =>
    (cutAt segments (offset + (c.digits.length + 1)) = true → ∀ b ∈ c.data, b = LF) ∧
      LinesClear segments (offset + c.encode.length) chunks

instance (segments : Reads) : (offset : Nat) → (chunks : List Chunk) →
    Decidable (LinesClear segments offset chunks)
  | _, [] => inferInstanceAs (Decidable True)
  | offset, c :: chunks =>
    have := instDecidableLinesClear segments (offset + c.encode.length) chunks
    inferInstanceAs (Decidable (_ ∧ _))

/-- The lines seen from further on. -/
theorem LinesClear.shift {segments segments' : Reads} {n : Nat}
    (cuts : ∀ k, 0 < k → cutAt segments' k = cutAt segments (n + k)) (chunks : List Chunk) :
    ∀ {offset : Nat}, LinesClear segments (n + offset) chunks → LinesClear segments' offset chunks := by
  induction chunks with
  | nil => exact fun _ => trivial
  | cons c chunks ih =>
    intro offset clear
    rw [LinesClear, Nat.add_assoc, Nat.add_assoc] at clear
    rw [LinesClear, cuts _ (by omega)]
    exact ⟨clear.1, ih clear.2⟩

namespace ChunkedReader

variable {buffSize : Nat} {r : ChunkedReader}

/-- All chunks, up to the last line. -/
theorem after_chunks (chunks : List Chunk) : ∀ {r : ChunkedReader} {s : List UInt8}, Start r →
    r.stream = chunks.flatMap Chunk.encode ++ s → Fed buffSize r.reads → LinesClear r.segments 0 chunks →
    ∃ r', After buffSize (chunks.flatMap Chunk.encode).length r r' ∧
      r'.body = r.body ++ chunks.flatMap Chunk.data ∧ Start r' := by
  induction chunks with
  | nil =>
    intro r s start _ fed _
    exact ⟨r, .refl fed, (List.append_nil _).symm, start⟩
  | cons c chunks ih =>
    intro r s start here fed clear
    rw [List.flatMap_cons, List.append_assoc] at here
    rw [LinesClear, Nat.zero_add, Nat.zero_add] at clear
    obtain ⟨r₁, after, body₁, start₁⟩ := after_chunk start here fed clear.1
    have behind := after.stream_of_append c.encode here rfl
    have next : LinesClear r₁.segments 0 chunks := LinesClear.shift (fun k _ => (after.cuts k).symm) chunks clear.2
    obtain ⟨r₂, after', body₂, start₂⟩ := ih start₁ behind after.fed next
    refine ⟨r₂, ?_, ?_, start₂⟩
    · rw [List.flatMap_cons, List.length_append]
      exact after.trans after'
    · rw [body₂, body₁, List.flatMap_cons, List.append_assoc]

/-- The last line, in a read that ends with the body. -/
theorem lastLine_ends {s : List UInt8} (start : Start r)
    (here : r.stream = 0x30 :: CR :: LF :: CR :: LF :: s) (fed : Fed buffSize r.reads) :
    ∃ (k : Nat) (r' : ChunkedReader), r.loop buffSize k = some (true, r') ∧ r'.body = r.body ∧
      (EndsRead r.segments 5 → Behind 5 r.segments r'.reads ∧ Fed buffSize r'.reads) := by
  obtain ⟨k, w, rest, run, body, pending, behind, fed', cuts⟩ := exists_lastLine start here fed
  refine ⟨k, { w with parsed := w.parsed + 2 }, run, body, fun ends => ?_⟩
  obtain ⟨atEnd, notFour, notThree, notTwo⟩ := ends
  rw [cuts 3] at atEnd
  rw [cuts 2] at notFour
  rw [cuts 1] at notThree
  rw [cuts 0] at notTwo
  have own : cutAt w.segments w.pending.length = true := cutAt_length ..
  have le : w.pending.length ≤ 3 + 1 := length_le_of_cutAt atEnd
  -- the read ends at none of the three places before
  have four : w.pending.length = 3 + 1 := by
    have pos := List.length_pos_iff.mpr (show w.pending ≠ [] by rw [pending]; exact List.cons_ne_nil _ _)
    rcases (show w.pending.length = 0 + 1 ∨ w.pending.length = 1 + 1 ∨ w.pending.length = 2 + 1 ∨
      w.pending.length = 3 + 1 by omega) with eq | eq | eq | eq
    · rw [eq, notTwo] at own
      cases own
    · rw [eq, notThree] at own
      cases own
    · rw [eq, notFour] at own
      cases own
    · exact eq
  have left : w.reads.flatten = s := by
    rw [pending, List.length_cons] at four
    have dropped := congrArg (List.drop 3) behind
    rwa [List.drop_append, List.drop_eq_nil_of_le (by omega), List.nil_append,
      show 3 - rest.length = 0 by omega, List.drop_zero] at dropped
  refine ⟨⟨?_, fun q pos => ?_⟩, fed'⟩
  · have all : r.segments.flatten = r.stream := rfl
    rw [all, here]
    exact left
  · have view : cutAt w.segments (w.pending.length + q) = cutAt w.reads q :=
      ((behind_segment w.pending w.reads).cuts q pos).symm
    rw [four, Nat.add_right_comm, ← cuts] at view
    rw [← view]
    congr 1
    omega

end ChunkedReader

/-- What `read_chunked_body` collects from a chunked body, and what it leaves if the last read ends with
the body. -/
theorem readChunkedBody_behind {buffSize : Nat} {chunks : List Chunk} {lead rest : List UInt8}
    {reads : Reads} (bytes : lead ++ reads.flatten = encodeChunked chunks ++ rest)
    (fed : ChunkedReader.Fed buffSize reads) (lines : LinesClear (lead :: reads) 0 chunks) :
    ∃ chunked, readChunkedBody buffSize [] lead reads = some chunked ∧
      chunked.body = chunks.flatMap Chunk.data ∧
      (EndsRead (lead :: reads) (encodeChunked chunks).length →
        Behind (encodeChunked chunks).length (lead :: reads) chunked.reads ∧
          ChunkedReader.Fed buffSize chunked.reads) := by
  have split : encodeChunked chunks ++ rest =
      chunks.flatMap Chunk.encode ++ 0x30 :: CR :: LF :: CR :: LF :: rest := by
    rw [encodeChunked, List.append_assoc]
    rfl
  have length : (encodeChunked chunks).length = (chunks.flatMap Chunk.encode).length + 5 := by
    rw [encodeChunked, List.length_append]
    rfl
  rw [split] at bytes
  obtain ⟨r₁, after, body₁, start₁⟩ := ChunkedReader.after_chunks chunks
    (r := ChunkedReader.start [] lead reads) ⟨rfl, rfl, rfl⟩ bytes fed lines
  obtain ⟨k, r₂, run, body₂, left⟩ :=
    ChunkedReader.lastLine_ends start₁ (after.stream_of_append _ bytes rfl) after.fed
  have enough : ((ChunkedReader.start [] lead reads).loop buffSize
      (lead.length + reads.flatten.length + 1)).isSome = true :=
    ChunkedReader.loop_isSome _ (Nat.lt_succ_self _)
  obtain ⟨x, loop⟩ := Option.isSome_iff_exists.mp enough
  obtain ⟨n, goes⟩ := after.goes
  obtain rfl := ChunkedReader.loop_unique loop ((goes k).trans run)
  refine ⟨⟨true, r₂.body, sizeSub r₂.buffer.length r₂.parsed, r₂.reads⟩, ?_, ?_, fun ends => ?_⟩
  · rw [readChunkedBody, loop]
    rfl
  · show r₂.body = _
    rw [body₂, body₁]
    rfl
  · have cuts : ∀ q, cutAt (lead :: reads) ((chunks.flatMap Chunk.encode).length + q) =
        cutAt r₁.segments q := after.cuts
    rw [length] at ends ⊢
    have there : Behind (chunks.flatMap Chunk.encode).length (lead :: reads) r₁.segments :=
      ⟨after.stream.symm, fun q _ => (cuts q).symm⟩
    obtain ⟨behind, fed'⟩ := left ⟨(cuts 5).symm.trans ends.1, (cuts 4).symm.trans ends.2.1,
      (cuts 3).symm.trans ends.2.2.1, (cuts 2).symm.trans ends.2.2.2⟩
    exact ⟨there.trans behind, fed'⟩

end Sylar.SocketStream
