import Sylar.Stream.Chunked

/-!
# Chunk sizes

What `read_chunked_body` makes of one chunk header: hexadecimal digits, perhaps an extension, and a line
break. The size is shifted into a `size_t`, so digits are lost at the top; the first byte that is no
digit is taken for the carriage return, whatever it is; and the line feed is skipped by its index. A
header is read exactly if and only if its value is zero, or it fits, there is no extension, and the line
break is not cut in two by a read (`readsExactly_iff`).

`ReadsLine` follows the turns of the loop through a header, up to where data is next, the loop breaks
or a read throws; `ReadsLine.loop_spec` connects it with the loop.
-/

namespace Sylar.SocketStream

/-! ## Headers -/

def SEMICOLON : UInt8 := 0x3B

/-- A chunk header: at least one hexadecimal digit, then nothing or an extension. -/
structure ChunkHeader where
  digits : List UInt8
  extension : List UInt8
  isHex : ∀ c ∈ digits, (hexDigit (toupper c)).isSome = true
  nonempty : digits ≠ []
  starts : extension = [] ∨ extension.head? = some SEMICOLON
  oneLine : ¬ [CR, LF] <:+: extension

namespace ChunkHeader

/-! No extension is one that a header may have. -/

theorem starts_nil : ([] : List UInt8) = [] ∨ ([] : List UInt8).head? = some SEMICOLON := .inl rfl

theorem oneLine_nil : ¬ [CR, LF] <:+: ([] : List UInt8) := fun inside =>
  absurd (inside.subset List.mem_cons_self) List.not_mem_nil

/-- The number its digits stand for. -/
def value (h : ChunkHeader) : Nat := hexValue h.digits 0

def line (h : ChunkHeader) : List UInt8 := h.digits ++ (h.extension ++ [CR, LF])

/-- The first byte behind the digits of a header. -/
theorem exists_end (h : ChunkHeader) (rest : List UInt8) :
    ∃ b s, h.extension ++ CR :: LF :: rest = b :: s ∧ hexDigit (toupper b) = none ∧
      (h.extension = [] → s = LF :: rest) ∧ (h.extension ≠ [] → rest.length + 1 < s.length) := by
  cases extension : h.extension with
  | nil => exact ⟨CR, LF :: rest, rfl, ChunkedReader.notDigit_CR, fun _ => rfl, fun some => absurd rfl some⟩
  | cons c e =>
    obtain rfl : c = SEMICOLON := by
      rcases h.starts with none | starts
      · rw [extension] at none
        cases none
      · rw [extension] at starts
        exact Option.some.inj starts
    refine ⟨SEMICOLON, e ++ CR :: LF :: rest, rfl, by decide, fun none => absurd none (List.cons_ne_nil _ _), fun _ => ?_⟩
    rw [List.length_append, List.length_cons, List.length_cons]
    omega

end ChunkHeader

namespace ChunkedReader

variable {buffSize : Nat} {r r' : ChunkedReader}

/-! ## The turns of a header -/

/-- A header ends in one way. -/
theorem ReadsLine.unique {e e' : LineEnd} (first : ReadsLine buffSize r e) :
    ReadsLine buffSize r e' → e = e' := by
  induction first with
  | data sized =>
    intro second
    cases second with
    | data => rfl
    | failed line => exact absurd line sized
    | last line => exact absurd line sized
    | turn line => exact absurd line sized
  | failed line read =>
    intro second
    cases second with
    | data sized => exact absurd line sized
    | failed => rfl
    | last _ read' => exact absurd (read.symm.trans read') (Option.some_ne_none _).symm
    | turn _ read' => exact absurd (read.symm.trans read') (Option.some_ne_none _).symm
  | last line read turn =>
    intro second
    cases second with
    | data sized => exact absurd line sized
    | failed _ read' => exact absurd (read'.symm.trans read) (Option.some_ne_none _).symm
    | last _ read' turn' =>
      obtain rfl := Option.some.inj (read.symm.trans read')
      rw [(Prod.mk.inj (turn.symm.trans turn')).2]
    | turn _ read' turn' =>
      obtain rfl := Option.some.inj (read.symm.trans read')
      exact absurd (Prod.mk.inj (turn.symm.trans turn')).1.symm Bool.false_ne_true
  | turn line read turn _ ih =>
    intro second
    cases second with
    | data sized => exact absurd line sized
    | failed _ read' => exact absurd (read'.symm.trans read) (Option.some_ne_none _).symm
    | last _ read' turn' =>
      obtain rfl := Option.some.inj (read.symm.trans read')
      exact absurd (Prod.mk.inj (turn.symm.trans turn')).1 Bool.false_ne_true
    | turn _ read' turn' rest' =>
      obtain rfl := Option.some.inj (read.symm.trans read')
      obtain rfl := (Prod.mk.inj (turn.symm.trans turn')).2
      exact ih rest'

/-- What the loop does from a reader on whose header ends in a given way. -/
def Ends (buffSize : Nat) (r : ChunkedReader) : LineEnd → Prop
  | .data r' => Goes buffSize r r'
  | .last r' => ∃ k, r.loop buffSize k = some (true, r')
  | .failed r' => ∃ k, r.loop buffSize k = some (false, r')

theorem ReadsLine.loop_spec {e : LineEnd} (reads : ReadsLine buffSize r e) : Ends buffSize r e := by
  induction reads with
  | data => exact ⟨0, fun fuel => by rw [Nat.zero_add]⟩
  | failed _ read => exact ⟨1, by rw [loop, read]⟩
  | last _ read turn =>
    refine ⟨1, ?_⟩
    rw [loop, read]
    dsimp only
    rw [turn]
  | @turn r w r' e _ read turn _ ih =>
    have once : ∀ fuel, r.loop buffSize (fuel + 1) = r'.loop buffSize fuel := fun fuel => by
      rw [loop, read]
      dsimp only
      rw [turn]
    cases e with
    | data r'' => exact Goes.trans ⟨1, fun fuel => by rw [Nat.add_comm, once]⟩ ih
    | last r'' =>
      obtain ⟨k, run⟩ := ih
      exact ⟨k + 1, (once k).trans run⟩
    | failed r'' =>
      obtain ⟨k, run⟩ := ih
      exact ⟨k + 1, (once k).trans run⟩

/-! ## The end of a header -/

/-- The byte behind the digits ends the header. If it is not the last one, the byte after it is skipped
when it is in the same read. -/
theorem readsLine_of_end {b : UInt8} {s : List UInt8} (here : r.stream = b :: s) (fed : Fed buffSize r.reads)
    (notDigit : hexDigit (toupper b) = none) (size : r.chunkSize = 0) (flag : r.readChunkSize = true) :
    if r.tmpSize = 0 then ∃ r', ReadsLine buffSize r (.last r') ∧ r'.body = r.body
    else ∃ r', ReadsLine buffSize r (.data r') ∧ r'.body = r.body ∧ r'.chunkSize = r.tmpSize ∧
      r'.stream = s.drop (if cutAt r.segments 1 then 0 else 1) ∧ Fed buffSize r'.reads := by
  obtain ⟨w, read, woken⟩ := exists_refill (by rw [here]; exact List.cons_ne_nil b s) fed
  obtain ⟨body, size', tmp', flag'⟩ := woken.same
  obtain ⟨c, rest, pending⟩ := List.exists_cons_of_ne_nil woken.pending
  have view := woken.stream
  rw [stream, pending, here, List.cons_append] at view
  obtain ⟨rfl, behind⟩ := List.cons.inj view
  have turn := consume_line (head_pending pending) notDigit (size'.trans size) (flag'.trans flag)
  rw [tmp'] at turn
  split
  · rename_i zero
    rw [if_pos zero] at turn
    exact ⟨_, .last size read turn, body⟩
  · rename_i nonzero
    rw [if_neg nonzero] at turn
    have cut : cutAt r.segments 1 = true ↔ rest = [] := by
      rw [woken.cuts 0, segments, pending]
      exact cutAt_one
    have two : (w.set (w.parsed + 2) r.tmpSize 0 false).pending = rest.drop 1 := by
      have skipped : (w.set (w.parsed + 2) r.tmpSize 0 false).pending = w.pending.drop 2 :=
        List.drop_drop.symm
      rw [skipped, pending, List.drop_succ_cons]
    refine ⟨_, .turn size read turn (.data nonzero), body, rfl, ?_, woken.fed⟩
    rw [stream, two]
    show rest.drop 1 ++ w.reads.flatten = _
    rw [← behind]
    by_cases isCut : cutAt r.segments 1 = true
    · rw [if_pos isCut, cut.mp isCut]
      rfl
    · rw [if_neg isCut]
      obtain ⟨x, rest, rfl⟩ := List.exists_cons_of_ne_nil (mt cut.mpr isCut)
      rfl

/-! ## Exactness -/

/-- A header read as it should be. A value of zero ends the body. A value that fits is the number of
bytes taken from right behind the header. A value that does not fit makes the call return false. -/
structure ReadsExactly (buffSize : Nat) (r : ChunkedReader) (h : ChunkHeader) (rest : List UInt8) : Prop where
  last : h.value = 0 → ∃ r', ReadsLine buffSize r (.last r') ∧ r'.body = r.body
  sized : 0 < h.value → h.value < 2 ^ 64 → ∃ r', ReadsLine buffSize r (.data r') ∧ r'.body = r.body ∧
    r'.chunkSize = h.value ∧ r'.stream = rest ∧
    ∀ data s, rest = data ++ s → data.length = h.value →
      ∃ r'', Goes buffSize r' r'' ∧ r''.body = r.body ++ data ∧ r''.chunkSize = 0 ∧ r''.stream = s
  tooLarge : 2 ^ 64 ≤ h.value → ∃ r', ReadsLine buffSize r (.failed r')

/-- What becomes of a header, whatever it is. -/
theorem readsLine_header (h : ChunkHeader) {rest : List UInt8} (start : Start r)
    (here : r.stream = h.line ++ rest) (fed : Fed buffSize r.reads) :
    if h.value % 2 ^ 64 = 0 then ∃ r', ReadsLine buffSize r (.last r') ∧ r'.body = r.body
    else ∃ r', ReadsLine buffSize r (.data r') ∧ r'.body = r.body ∧ r'.chunkSize = h.value % 2 ^ 64 ∧
      Fed buffSize r'.reads ∧
      (r'.stream = rest ↔ h.extension = [] ∧ cutAt r.segments (h.digits.length + 1) = false) := by
  have digits : r.stream = h.digits ++ (h.extension ++ CR :: LF :: rest) := by
    rw [here, ChunkHeader.line]
    simp only [List.append_assoc, List.cons_append, List.nil_append]
  obtain ⟨r₁, one, size₁, tmp₁, flag₁⟩ :=
    within_digits h.digits h.isHex digits fed start.chunkSize (by rw [start.tmpSize]; decide)
  have behind := one.stream_of_append h.digits digits rfl
  have value : r₁.tmpSize = h.value % 2 ^ 64 := by rw [tmp₁, start.tmpSize, ChunkHeader.value]
  obtain ⟨b, s, ends, notDigit, bare, extended⟩ := h.exists_end rest
  have flag : r₁.readChunkSize = true := by
    rw [flag₁, List.isEmpty_eq_false_iff.mpr h.nonempty, Bool.not_false, Bool.or_true]
  have line := readsLine_of_end (behind.trans ends) one.fed notDigit size₁ flag
  rw [value] at line
  split
  · rename_i zero
    rw [if_pos zero] at line
    obtain ⟨r', last, body⟩ := line
    exact ⟨r', one.ends last, body.trans one.body⟩
  · rename_i nonzero
    rw [if_neg nonzero] at line
    obtain ⟨r', data, body, size, left, fed'⟩ := line
    refine ⟨r', one.ends data, body.trans one.body, size, fed', ?_⟩
    rw [left, ← one.cuts]
    by_cases none : h.extension = []
    · -- only the line feed is between the end and the rest
      rw [bare none]
      cases isCut : cutAt r.segments (h.digits.length + 1) with
      | true => exact iff_of_false (fun same => by simpa using congrArg List.length same) (by simp)
      | false => exact iff_of_true rfl ⟨none, rfl⟩
    · refine iff_of_false (fun same => ?_) fun both => none both.1
      have longer := extended none
      have lengths := congrArg List.length same
      rw [List.length_drop] at lengths
      split at lengths
      · omega
      · omega

/-- A header is read exactly if and only if its value is zero, or it fits a `size_t`, there is no
extension, and no read ends between its carriage return and its line feed. -/
theorem readsExactly_iff (h : ChunkHeader) {rest : List UInt8} (start : Start r)
    (here : r.stream = h.line ++ rest) (fed : Fed buffSize r.reads) :
    ReadsExactly buffSize r h rest ↔ h.value = 0 ∨
      (h.value < 2 ^ 64 ∧ h.extension = [] ∧ cutAt r.segments (h.digits.length + 1) = false) := by
  have line := readsLine_header h start here fed
  rcases Nat.eq_zero_or_pos h.value with zero | pos
  · rw [zero, Nat.zero_mod, if_pos rfl] at line
    exact iff_of_true ⟨fun _ => line, fun pos => by omega, fun large => by omega⟩ (.inl zero)
  · by_cases fits : h.value < 2 ^ 64
    · rw [Nat.mod_eq_of_lt fits, if_neg (by omega)] at line
      obtain ⟨r', data, body, size, fed', left⟩ := line
      have rhs : (h.value = 0 ∨ (h.value < 2 ^ 64 ∧ h.extension = [] ∧
          cutAt r.segments (h.digits.length + 1) = false)) ↔ r'.stream = rest := by
        rw [left, or_iff_right (by omega), and_iff_right fits]
      rw [rhs]
      constructor
      · intro exact
        obtain ⟨r'', data', -, -, left', -⟩ := exact.sized pos fits
        obtain rfl := LineEnd.data.inj (data.unique data')
        exact left'
      · intro left'
        refine ⟨fun zero => by omega, fun _ _ => ⟨r', data, body, size, left', ?_⟩, fun large => by omega⟩
        intro taken s split len
        obtain ⟨r'', after, body'', size'', -⟩ :=
          after_data h.value len pos (left'.trans split) fed' size
        exact ⟨r'', after.goes, by rw [body'', body], size'',
          after.stream_of_append taken (left'.trans split) len⟩
    · refine iff_of_false (fun exact => ?_) (by omega)
      obtain ⟨r', failed⟩ := exact.tooLarge (by omega)
      split at line
      · obtain ⟨r'', last, -⟩ := line
        cases last.unique failed
      · obtain ⟨r'', data, -⟩ := line
        cases data.unique failed

/-- A chunk of 26 bytes. -/
def twentySix : ChunkHeader where
  digits := [0x31, 0x61]
  extension := []
  isHex := List.forall_mem_cons.mpr ⟨rfl, List.forall_mem_singleton.mpr rfl⟩
  nonempty := by decide
  starts := ChunkHeader.starts_nil
  oneLine := ChunkHeader.oneLine_nil

/-- The header `1a`, with its line break in a second read. -/
theorem readsExactly_iff_twentySix :
    ReadsExactly 16 (start [] [0x31, 0x61] [[CR, LF, 0x41]]) twentySix [0x41] :=
  (readsExactly_iff twentySix ⟨rfl, rfl, rfl⟩ rfl
    fun segment mem => by rw [List.mem_singleton.mp mem]; decide).mpr (.inr ⟨by decide, rfl, rfl⟩)

/-- A chunk of one byte, with an extension. -/
def extended : ChunkHeader where
  digits := [0x31]
  extension := [SEMICOLON, 0x78]
  isHex := List.forall_mem_singleton.mpr rfl
  nonempty := by decide
  starts := .inr rfl
  oneLine := fun inside => absurd (inside.subset List.mem_cons_self) (by decide)

/-- A value of 2 to the 64. -/
def wrapping : ChunkHeader where
  digits := 0x31 :: List.replicate 16 0x30
  extension := []
  isHex := List.forall_mem_cons.mpr ⟨rfl, fun c mem => by rw [List.eq_of_mem_replicate mem]; rfl⟩
  nonempty := by decide
  starts := ChunkHeader.starts_nil
  oneLine := ChunkHeader.oneLine_nil

/-- The header `1;x` of the byte `A`: the carriage return is taken for the data. And a header of 2 to the
64, which is read as the last one. -/
theorem not_readsExactly_extended :
    ¬ ReadsExactly 16 (start [] (extended.line ++ [0x41, CR, LF]) []) extended [0x41, CR, LF] ∧
      ¬ ReadsExactly 32 (start [] (wrapping.line ++ [0x41]) []) wrapping [0x41] := by
  constructor
  · intro exact
    obtain ⟨r', data, -, -, left, -⟩ := exact.sized (by decide) (by decide)
    obtain rfl := LineEnd.data.inj
      (ReadsLine.unique (.turn rfl rfl rfl (.turn rfl rfl rfl (.data (by decide)))) data)
    exact absurd left (by decide)
  · intro exact
    obtain ⟨r', failed⟩ := exact.tooLarge (by decide)
    have loops := failed.loop_spec
    obtain ⟨k, run⟩ := loops
    have ends : (start [] (wrapping.line ++ [0x41]) []).loop 32 20 = some (true, _) := rfl
    obtain ⟨no, -⟩ := Prod.mk.inj (loop_unique ends run)
    cases no

end ChunkedReader

end Sylar.SocketStream
