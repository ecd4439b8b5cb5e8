import Sylar.ByteArray.Basic

/-!
# The layout of a byte array

The representation invariant and what each loop of `ByteArray` does under it. An array is either
`Blank` (no block yet, as after construction and after `clear`) or `Placed`: the blocks all have the
block size, the capacity counts them, the positions are ordered and the write position stays strictly
below the capacity, and each cached cursor is the block of its position. Strictness is the point. It
is what `expand_capacity` buys with its "size + 1", and it is why a cursor that has just moved past
the end of a block still has a block to point to.

`contents` is what a byte array is for: the bytes below the write position, in order.
-/

namespace Sylar.ByteArray

open Lib

variable {s : ByteArray}

/-- The bytes written so far. -/
def contents (s : ByteArray) : List UInt8 := s.blocks.flatten.take s.writePos

/-- No block has been allocated yet. -/
structure Blank (s : ByteArray) : Prop where
  size_pos : 0 < s.blockSize
  blocks : s.blocks = []
  capacity : s.capacity = 0
  readPos : s.readPos = 0
  writePos : s.writePos = 0
  readCur : s.readCur = none
  writeCur : s.writeCur = none

/-- The blocks hold the positions, and each cursor is the block of its position. -/
structure Placed (s : ByteArray) : Prop where
  size_pos : 0 < s.blockSize
  uniform : Uniform s.blockSize s.blocks
  capacity : s.capacity = s.blocks.length * s.blockSize
  read_le : s.readPos ≤ s.writePos
  write_lt : s.writePos < s.capacity
  readCur : s.readCur = some (s.readPos / s.blockSize)
  writeCur : s.writeCur = some (s.writePos / s.blockSize)

/-- What an operation leaves alone when it only makes room. -/
structure SameView (s s' : ByteArray) : Prop where
  blockSize : s'.blockSize = s.blockSize
  readPos : s'.readPos = s.readPos
  writePos : s'.writePos = s.writePos
  contents : s'.contents = s.contents

theorem init_blank {blockSize : Nat} (h : 0 < blockSize) (junk : Nat → Nat → UInt8) :
    (init blockSize junk).Blank := ⟨h, rfl, rfl, rfl, rfl, rfl, rfl⟩

theorem Placed.capacity_le_flatten (p : s.Placed) : s.capacity = s.blocks.flatten.length := by
  rw [p.uniform.length_flatten, p.capacity]

theorem Placed.length_contents (p : s.Placed) : s.contents.length = s.writePos := by
  have bound := p.write_lt
  rw [p.capacity_le_flatten] at bound
  rw [contents, List.length_take]
  omega

theorem Placed.root (p : s.Placed) : s.root = some 0 := by
  refine if_neg fun none => ?_
  have lt := p.write_lt
  rw [p.capacity, none, List.length_nil, Nat.zero_mul] at lt
  omega

/-- A position below the capacity has its block. -/
theorem Placed.block_at (p : s.Placed) {pos : Nat} (h : pos < s.capacity) :
    ∃ block, s.blocks[pos / s.blockSize]? = some block := by
  have lt : pos / s.blockSize < s.blocks.length := block_lt p.size_pos (by rwa [← p.capacity])
  exact ⟨_, List.getElem?_eq_getElem lt⟩

/-- Following a pointer to the block of a position below the capacity. -/
theorem deref_apply (p : s.Placed) {pos : Nat} (h : pos < s.capacity) {β : Type}
    (f : Nat × List UInt8 → M β) :
    ∃ block, s.blocks[pos / s.blockSize]? = some block ∧
      (deref (some (pos / s.blockSize)) >>= f) s = f (pos / s.blockSize, block) s := by
  obtain ⟨block, hb⟩ := p.block_at h
  refine ⟨block, hb, ?_⟩
  apply Proc.bind_done
  simp only [deref, Proc.demand_some_bind_apply, Proc.read_bind_apply, hb, Proc.pure_apply]

/-- Moving a cursor on by at most the rest of its block: where the code says it then points. -/
theorem Placed.next_cursor (p : s.Placed) (pos n : Nat) (hn : 0 < n)
    (room : pos + min (s.blockSize - pos % s.blockSize) n < s.capacity) :
    (if (pos + min (s.blockSize - pos % s.blockSize) n) % s.blockSize = 0
      then s.next (pos / s.blockSize) else some (pos / s.blockSize)) =
      some ((pos + min (s.blockSize - pos % s.blockSize) n) / s.blockSize) := by
  have block := block_lt p.size_pos (by rwa [← p.capacity])
  rw [next_block p.size_pos hn] at block ⊢
  split
  · rename_i whole
    rw [if_pos whole] at block
    exact if_pos block
  · rfl

/-! ## Making room -/

theorem length_newBlock (s : ByteArray) : s.newBlock.length = s.blockSize := by
  rw [newBlock, List.length_map, List.length_range]

/-- Walking from any block of the list ends at the last one. -/
theorem lastBlock_eq (s : ByteArray) (fuel cur : Nat) (hcur : cur < s.blocks.length)
    (enough : s.blocks.length ≤ cur + 1 + fuel) : s.lastBlock fuel cur + 1 = s.blocks.length := by
  induction fuel generalizing cur with
  | zero => rw [lastBlock]; omega
  | succ fuel ih =>
    rw [lastBlock, next]
    split
    · rename_i cur' h
      split at h
      · rename_i lt
        cases h
        exact ih (cur + 1) lt (by omega)
      · cases h
    · rename_i h
      split at h
      · cases h
      · omega

/-- Linking a block behind the last one keeps everything that was placed. -/
theorem Placed.linkBlock (p : s.Placed) {cur : Nat} (last : cur + 1 = s.blocks.length) :
    (s.linkBlock cur).Placed ∧ SameView s (s.linkBlock cur) := by
  have all : s.blocks.take (cur + 1) = s.blocks := List.take_of_length_le (by omega)
  have bound := p.write_lt
  rw [p.capacity_le_flatten] at bound
  refine ⟨⟨p.size_pos, ?_, ?_, p.read_le, ?_, p.readCur, p.writeCur⟩, ⟨rfl, rfl, rfl, ?_⟩⟩
  · simp only [ByteArray.linkBlock, all]
    refine p.uniform.append fun b hb => ?_
    rw [List.mem_singleton.mp hb, length_newBlock]
  · simp only [ByteArray.linkBlock, all, List.length_append, List.length_singleton, p.capacity,
      Nat.add_mul, Nat.one_mul]
  · have := p.write_lt
    simp only [ByteArray.linkBlock]
    omega
  · simp only [contents, ByteArray.linkBlock, all, List.flatten_append]
    rw [List.take_append_of_le_length (Nat.le_of_lt bound)]

theorem SameView.trans {a b c : ByteArray} (h : SameView a b) (k : SameView b c) : SameView a c :=
  ⟨k.blockSize.trans h.blockSize, k.readPos.trans h.readPos, k.writePos.trans h.writePos,
    k.contents.trans h.contents⟩

theorem SameView.refl (s : ByteArray) : SameView s s := ⟨rfl, rfl, rfl, rfl⟩

/-- The growing loop stops with room for more than `size` bytes. Each turn adds a whole block, so
one unit of fuel pays for at least one byte of room. -/
theorem growLoop_spec (size fuel : Nat) : ∀ (s : ByteArray) (cur : Nat), s.Placed →
    cur + 1 = s.blocks.length → s.writePos + size < s.capacity + fuel →
    ∃ s', growLoop size fuel cur s = .done () s' ∧ s'.Placed ∧ SameView s s' ∧
      s'.writePos + size < s'.capacity := by
  induction fuel with
  | zero =>
    intro s cur p last enough
    have room : ¬ s.getSpareCapacity ≤ size := by
      rw [getSpareCapacity, sizeSub_of_le (Nat.le_of_lt p.write_lt)]; omega
    refine ⟨s, ?_, p, SameView.refl s, by omega⟩
    simp only [growLoop, Proc.read_bind_apply, if_neg room, Proc.pure_apply]
  | succ fuel ih =>
    intro s cur p last enough
    by_cases room : s.getSpareCapacity ≤ size
    · obtain ⟨p', view⟩ := p.linkBlock last
      have step : (s.linkBlock cur).capacity = s.capacity + s.blockSize := rfl
      have same : (s.linkBlock cur).writePos = s.writePos := rfl
      have pos := p.size_pos
      obtain ⟨s', run, p'', view', done⟩ := ih (s.linkBlock cur) (cur + 1) p'
        (by simp only [ByteArray.linkBlock, List.length_append, List.length_take,
              List.length_singleton]; omega)
        (by rw [step, same]; omega)
      refine ⟨s', ?_, p'', view.trans view', done⟩
      simp only [growLoop, Proc.read_bind_apply, if_pos room, Proc.update_bind_apply]
      exact run
    · refine ⟨s, ?_, p, SameView.refl s, ?_⟩
      · simp only [growLoop, Proc.read_bind_apply, if_neg room, Proc.pure_apply]
      · have lt := p.write_lt
        rw [getSpareCapacity, sizeSub_of_le (Nat.le_of_lt lt)] at room
        omega

/-- The growing loop adds no block more than it needs: the last one it added was called for. -/
theorem growLoop_least (size fuel : Nat) : ∀ (s s' : ByteArray) (cur : Nat), s.writePos ≤ s.capacity →
    growLoop size fuel cur s = .done () s' →
    s'.capacity = s.capacity ∨ s'.capacity ≤ s.writePos + size + s.blockSize := by
  induction fuel with
  | zero =>
    intro s s' cur _ run
    simp only [growLoop, Proc.read_bind_apply] at run
    split at run
    · cases run
    · cases run
      exact .inl rfl
  | succ fuel ih =>
    intro s s' cur le run
    simp only [growLoop, Proc.read_bind_apply] at run
    split at run
    · rename_i full
      rw [getSpareCapacity, sizeSub_of_le le] at full
      have step : (s.linkBlock cur).capacity = s.capacity + s.blockSize := rfl
      rcases ih (s.linkBlock cur) s' (cur + 1) (Nat.le_trans le (Nat.le_add_right _ _)) run with same | less
      · exact .inr (by omega)
      · exact .inr less
    · cases run
      exact .inl rfl

/-- The first block places a blank array. -/
theorem Blank.firstBlock (b : s.Blank) : s.firstBlock.Placed ∧ SameView s s.firstBlock := by
  have pos := b.size_pos
  refine ⟨⟨pos, ?_, ?_, ?_, ?_, ?_, ?_⟩, ⟨rfl, rfl, rfl, ?_⟩⟩
  · intro c hc
    rw [List.mem_singleton.mp hc, length_newBlock]; rfl
  · simp only [ByteArray.firstBlock, List.length_singleton, Nat.one_mul]
  · simp only [ByteArray.firstBlock, b.readPos, b.writePos, Nat.le_refl]
  · simp only [ByteArray.firstBlock, b.writePos, pos]
  · simp only [ByteArray.firstBlock, b.readPos, Nat.zero_div]
  · simp only [ByteArray.firstBlock, b.writePos, Nat.zero_div]
  · simp only [contents, ByteArray.firstBlock, b.writePos, List.take_zero]

/-- `expand_capacity(size)` leaves room for more than `size` bytes behind the write position, and
nothing else a caller could see changes. -/
theorem expandCapacity_spec (size : Nat) (h : s.Blank ∨ s.Placed) :
    ∃ s', expandCapacity size s = .done () s' ∧ s'.Placed ∧ SameView s s' ∧
      s'.writePos + size < s'.capacity := by
  obtain ⟨s₁, first, p, view⟩ : ∃ s₁, (if s.root = none then s.firstBlock else s) = s₁ ∧
      s₁.Placed ∧ SameView s s₁ := by
    rcases h with b | p
    · refine ⟨s.firstBlock, ?_, b.firstBlock⟩
      rw [if_pos (by rw [root, if_pos b.blocks])]
    · refine ⟨s, ?_, p, SameView.refl s⟩
      rw [if_neg (by rw [p.root]; exact Option.some_ne_none _)]
  have inside := block_lt p.size_pos (by rw [← p.capacity]; exact p.write_lt)
  have last := lastBlock_eq s₁ s₁.blocks.length (s₁.writePos / s₁.blockSize) inside
    (Nat.le_add_left _ _)
  have lt := p.write_lt
  obtain ⟨s', run, p', view', room⟩ := growLoop_spec size (size + 1) s₁ _ p last (by omega)
  refine ⟨s', ?_, p', view.trans view', room⟩
  simp only [expandCapacity, Proc.update_bind_apply, first, Proc.read_bind_apply, p.writeCur]
  obtain ⟨block, _, step⟩ := deref_apply p p.write_lt
    (fun b : Nat × List UInt8 => growLoop size (size + 1) (s₁.lastBlock s₁.blocks.length b.1))
  rw [step]
  exact run

/-- `expand_capacity(size)` allocates no more than it needs. -/
theorem expandCapacity_least (p : s.Placed) {size : Nat} {s' : ByteArray}
    (run : expandCapacity size s = .done () s') :
    s'.capacity = s.capacity ∨ s'.capacity ≤ s.writePos + size + s.blockSize := by
  have some_block : ¬ s.root = none := by
    rw [p.root]
    exact Option.some_ne_none _
  simp only [expandCapacity, Proc.update_bind_apply, if_neg some_block, Proc.read_bind_apply,
    p.writeCur] at run
  obtain ⟨block, _, step⟩ := deref_apply p p.write_lt
    (fun b : Nat × List UInt8 => growLoop size (size + 1) (s.lastBlock s.blocks.length b.1))
  rw [step] at run
  exact growLoop_least size (size + 1) s s' _ (Nat.le_of_lt p.write_lt) run

/-! ## Writing and reading -/

@[simp] theorem store_nil (cur off : Nat) (s : ByteArray) : store cur off [] s = s := by
  have unchanged : s.blocks.modify cur (splice · off []) = s.blocks := by
    simp only [splice_nil]
    exact List.modify_id _ _
  simp only [store, unchanged]

/-- A run of positions inside the block of its first one fits in that block. -/
theorem Placed.piece_fits (p : s.Placed) (pos n : Nat) :
    pos % s.blockSize + min (s.blockSize - pos % s.blockSize) n ≤ s.blockSize := by
  have := Nat.mod_lt pos p.size_pos
  omega

/-- One turn of the write loop. -/
theorem Placed.write_piece (p : s.Placed) {src : List UInt8} (hsrc : 0 < src.length)
    (room : s.writePos + src.length < s.capacity) :
    let n := min (s.blockSize - s.writePos % s.blockSize) src.length
    let s' := advanceWrite (s.writePos / s.blockSize) n
      (store (s.writePos / s.blockSize) (s.writePos % s.blockSize) (src.take n) s)
    s'.Placed ∧ s'.writePos = s.writePos + n ∧ s'.contents = s.contents ++ src.take n := by
  intro n s'
  have small := Nat.mod_lt s.writePos p.size_pos
  have fits := p.piece_fits s.writePos src.length
  have len : (src.take n).length = n := by rw [List.length_take]; omega
  have place : s.writePos / s.blockSize * s.blockSize + s.writePos % s.blockSize = s.writePos := by
    rw [Nat.mul_comm]; exact Nat.div_add_mod _ _
  have inside : s.writePos / s.blockSize < s.blocks.length :=
    block_lt p.size_pos (by rw [← p.capacity]; exact p.write_lt)
  have flat : s'.blocks.flatten = splice s.blocks.flatten s.writePos (src.take n) := by
    have h := flatten_modify_splice p.uniform (s.writePos / s.blockSize)
      (s.writePos % s.blockSize) (src.take n) inside (by rw [len]; exact fits)
    rwa [place] at h
  have cursor := p.next_cursor s.writePos src.length hsrc (by omega)
  refine ⟨⟨p.size_pos, ?_, ?_, ?_, ?_, p.readCur, ?_⟩, rfl, ?_⟩
  · exact p.uniform.modify_splice (by rw [len]; exact fits)
  · show s.capacity = (s.blocks.modify _ _).length * s.blockSize
    rw [List.length_modify, p.capacity]
  · show s.readPos ≤ s.writePos + n
    have := p.read_le
    omega
  · show s.writePos + n < s.capacity
    omega
  · show (if (s.writePos + n) % s.blockSize = 0 then
      (store _ _ (src.take n) s).next (s.writePos / s.blockSize) else s.writeCur) =
      some ((s.writePos + n) / s.blockSize)
    simp only [next] at cursor
    simp only [next, store, List.length_modify, p.writeCur]
    exact cursor
  · show s'.blocks.flatten.take (s.writePos + n) = _
    have bound : s.writePos + (src.take n).length ≤ s.blocks.flatten.length := by
      rw [len, ← p.capacity_le_flatten]; omega
    have written := take_splice bound
    rw [len] at written
    rw [flat, written]
    rfl

/-- The write loop appends its bytes. -/
theorem writeLoop_spec (fuel : Nat) : ∀ (s : ByteArray) (src : List UInt8), s.Placed →
    s.writePos + src.length < s.capacity → src.length ≤ fuel →
    ∃ s', writeLoop fuel src s = .done () s' ∧ s'.Placed ∧ s'.readPos = s.readPos ∧
      s'.contents = s.contents ++ src := by
  induction fuel with
  | zero =>
    intro s src p _ short
    obtain rfl : src = [] := List.length_eq_zero_iff.mp (by omega)
    exact ⟨s, rfl, p, rfl, (List.append_nil _).symm⟩
  | succ fuel ih =>
    intro s src p room short
    by_cases empty : src = []
    · subst empty
      exact ⟨s, rfl, p, rfl, (List.append_nil _).symm⟩
    · have nonempty : 0 < src.length := List.length_pos_iff.mpr empty
      have small := Nat.mod_lt s.writePos p.size_pos
      obtain ⟨p', pos', contents'⟩ := p.write_piece nonempty room
      obtain ⟨s', run, p'', read', done⟩ := ih _
        (src.drop (min (s.blockSize - s.writePos % s.blockSize) src.length)) p'
        (by
          rw [pos', List.length_drop]
          show _ < s.capacity
          omega)
        (by rw [List.length_drop]; omega)
      refine ⟨s', ?_, p'', read', ?_⟩
      · simp only [writeLoop, if_neg empty, Proc.read_bind_apply, p.writeCur]
        obtain ⟨block, _, step⟩ := deref_apply p p.write_lt
          (fun b : Nat × List UInt8 => (do
            Proc.update (store b.1 (s.writePos % s.blockSize)
              (src.take (min (s.blockSize - s.writePos % s.blockSize) src.length)))
            Proc.update (advanceWrite b.1 (min (s.blockSize - s.writePos % s.blockSize) src.length))
            writeLoop fuel (src.drop (min (s.blockSize - s.writePos % s.blockSize) src.length)) :
              M Unit))
        rw [step]
        exact run
      · rw [done, contents', List.append_assoc, List.take_append_drop]

/-- The array with its read position and read cursor at `pos`. -/
def readAt (s : ByteArray) (pos : Nat) : ByteArray :=
  { s with readPos := pos, readCur := some (pos / s.blockSize) }

theorem Placed.readAt (p : s.Placed) {pos : Nat} (h : pos ≤ s.writePos) : (s.readAt pos).Placed :=
  ⟨p.size_pos, p.uniform, p.capacity, h, p.write_lt, rfl, p.writeCur⟩

theorem Placed.readAt_readPos (p : s.Placed) : s.readAt s.readPos = s := by
  rw [ByteArray.readAt, ← p.readCur]

/-- The read loop copies the run of bytes at the read position and moves the position behind it. -/
theorem readLoop_spec (fuel : Nat) : ∀ (s : ByteArray) (size : Nat), s.Placed →
    s.readPos + size ≤ s.writePos → size ≤ fuel →
    readLoop fuel size s =
      .done ((s.blocks.flatten.drop s.readPos).take size) (s.readAt (s.readPos + size)) := by
  induction fuel with
  | zero =>
    intro s size p _ short
    obtain rfl : size = 0 := by omega
    simp only [readLoop, if_true, Proc.pure_apply, List.take_zero, Nat.add_zero, p.readAt_readPos]
  | succ fuel ih =>
    intro s size p avail short
    by_cases zero : size = 0
    · subst zero
      simp only [readLoop, if_true, Proc.pure_apply, List.take_zero, Nat.add_zero, p.readAt_readPos]
    · have lt := p.write_lt
      have small := Nat.mod_lt s.readPos p.size_pos
      have fits := p.piece_fits s.readPos size
      generalize hn : min (s.blockSize - s.readPos % s.blockSize) size = n at fits
      have cursor := p.next_cursor s.readPos size (by omega) (by omega)
      have moved : advanceRead (s.readPos / s.blockSize) n s = s.readAt (s.readPos + n) := by
        rw [hn] at cursor
        simp only [advanceRead, ByteArray.readAt, p.readCur, cursor]
      have rest := ih (s.readAt (s.readPos + n)) (size - n) (p.readAt (by omega))
        (by show s.readPos + n + (size - n) ≤ s.writePos; omega) (by omega)
      obtain ⟨block, hb, step⟩ := deref_apply p (by omega : s.readPos < s.capacity)
        (fun b : Nat × List UInt8 => (do
          Proc.update (advanceRead b.1 n)
          let rest ← readLoop fuel (size - n)
          pure ((b.2.drop (s.readPos % s.blockSize)).take n ++ rest) : M (List UInt8)))
      have piece := slice_flatten p.uniform hb fits
      rw [Nat.mul_comm, Nat.div_add_mod] at piece
      simp only [readLoop, if_neg zero, Proc.read_bind_apply, p.readCur, hn]
      rw [step, Proc.update_bind_apply, moved, Proc.bind_done _ rest, Proc.pure_apply, ← piece]
      show Outcome.done ((s.blocks.flatten.drop s.readPos).take n ++
        (s.blocks.flatten.drop (s.readPos + n)).take (size - n)) (s.readAt (s.readPos + n + (size - n))) = _
      rw [← List.drop_drop, ← List.take_add, show s.readPos + n + (size - n) = s.readPos + size by omega,
        show n + (size - n) = size by omega]

/-! ## Positions -/

theorem walk_spec (s : ByteArray) (n i : Nat) (t : ByteArray) (h : i + n < s.blocks.length) :
    walk s n (some i) t = .done (some (i + n)) t := by
  induction n generalizing i with
  | zero => rfl
  | succ n ih =>
    have succ : s.next i = some (i + 1) := if_pos (by omega)
    simp only [walk, Proc.demand_some_bind_apply, succ]
    rw [ih (i + 1) (by omega), show i + 1 + n = i + (n + 1) by omega]

/-- The walk from the root reaches the block of every position below the capacity. -/
theorem Placed.walk_root (p : s.Placed) {pos : Nat} (h : pos < s.capacity) (t : ByteArray) :
    walk s (pos / s.blockSize) s.root t = .done (some (pos / s.blockSize)) t := by
  have block := block_lt p.size_pos (by rwa [← p.capacity])
  rw [p.root, walk_spec s _ 0 t (by omega), Nat.zero_add]

theorem setReadPosition_placed (p : s.Placed) {pos : Nat} (h : pos ≤ s.writePos) :
    setReadPosition pos s = .done () (s.readAt pos) := by
  have lt := p.write_lt
  simp only [setReadPosition, Proc.read_bind_apply, gt_iff_lt, if_neg (by omega : ¬ s.writePos < pos)]
  rw [Proc.bind_done _ (p.walk_root (by omega) s)]
  rfl

/-- The array with its write position and write cursor at `pos`. -/
def writeAt (s : ByteArray) (pos : Nat) : ByteArray :=
  { s with writePos := pos, writeCur := some (pos / s.blockSize) }

theorem Placed.writeAt (p : s.Placed) {pos : Nat} (behind : s.readPos ≤ pos) (h : pos < s.capacity) :
    (s.writeAt pos).Placed :=
  ⟨p.size_pos, p.uniform, p.capacity, behind, h, p.readCur, rfl⟩

theorem Placed.writeAt_writePos (p : s.Placed) : s.writeAt s.writePos = s := by
  rw [ByteArray.writeAt, ← p.writeCur]

/-- Below the capacity nothing is allocated. -/
theorem setWritePosition_placed (p : s.Placed) {pos : Nat} (h : pos < s.capacity) :
    setWritePosition pos s = .done () (s.writeAt pos) := by
  simp only [setWritePosition, Proc.read_bind_apply, gt_iff_lt, if_neg (Nat.lt_asymm h)]
  rw [Proc.bind_done _ (p.walk_root h s)]
  rfl

/-! ## Regions -/

/-- The regions are, in order, the runs of positions from `pos` on that make up `length` bytes. -/
def Covers (s : ByteArray) : Nat → Nat → List IoVec → Prop
  | _, length, [] => length = 0
  | pos, length, v :: iovs =>
    v.block * s.blockSize + v.off = pos ∧ v.off + v.len ≤ s.blockSize ∧
      v.block < s.blocks.length ∧ v.len ≤ length ∧ Covers s (pos + v.len) (length - v.len) iovs

/-- The loop that collects regions covers the run of positions it was asked for. -/
theorem buffersLoop_spec (p : s.Placed) (fuel : Nat) : ∀ (pos length : Nat),
    pos + length < s.capacity → length ≤ fuel →
    ∃ iovs, buffersLoop s fuel pos (some (pos / s.blockSize)) length s = .done iovs s ∧
      Covers s pos length iovs := by
  induction fuel with
  | zero =>
    intro pos length _ short
    obtain rfl : length = 0 := by omega
    exact ⟨[], rfl, rfl⟩
  | succ fuel ih =>
    intro pos length room short
    by_cases zero : length = 0
    · subst zero
      exact ⟨[], rfl, rfl⟩
    · have small := Nat.mod_lt pos p.size_pos
      have fits := p.piece_fits pos length
      generalize hn : min (s.blockSize - pos % s.blockSize) length = n at fits
      have cursor := p.next_cursor pos length (by omega) (by omega)
      rw [hn] at cursor
      obtain ⟨iovs, run, covers⟩ := ih (pos + n) (length - n) (by omega) (by omega)
      obtain ⟨block, _, step⟩ := deref_apply p (by omega : pos < s.capacity)
        (fun b : Nat × List UInt8 => (do
          let rest ← buffersLoop s fuel (pos + n)
            (if (pos + n) % s.blockSize = 0 then s.next b.1 else some b.1) (length - n)
          pure ({ block := b.1, off := pos % s.blockSize, len := n } :: rest) : M (List IoVec)))
      refine ⟨{ block := pos / s.blockSize, off := pos % s.blockSize, len := n } :: iovs, ?_, ?_⟩
      · simp only [buffersLoop, if_neg zero, hn]
        rw [step]
        simp only [cursor]
        rw [Proc.bind_done _ run, Proc.pure_apply]
      · refine ⟨?_, fits, ?_, ?_, covers⟩
        · rw [Nat.mul_comm]; exact Nat.div_add_mod _ _
        · exact block_lt p.size_pos (by rw [← p.capacity]; omega)
        · show n ≤ length
          omega

/-- What covering regions hold is the run of bytes they cover. -/
theorem gather_covers (u : Uniform s.blockSize s.blocks) (iovs : List IoVec) : ∀ (pos length : Nat),
    Covers s pos length iovs → s.gather iovs = (s.blocks.flatten.drop pos).take length := by
  induction iovs with
  | nil =>
    intro pos length covers
    rw [show length = 0 from covers, List.take_zero]
    rfl
  | cons v iovs ih =>
    intro pos length covers
    obtain ⟨place, fits, inside, le, rest⟩ := covers
    have piece := slice_flatten u (List.getElem?_eq_getElem inside) fits
    rw [place] at piece
    rw [gather, List.flatMap_cons, ← gather, ih _ _ rest, List.getD_eq_getElem?_getD,
      List.getElem?_eq_getElem inside, Option.getD_some, ← piece, ← List.drop_drop, ← List.take_add,
      Nat.add_sub_cancel' le]

@[simp] theorem scatter_nil (iovs : List IoVec) (s : ByteArray) : scatter iovs [] s = s := by
  induction iovs with
  | nil => rfl
  | cons v iovs ih => rw [scatter, List.take_nil, List.drop_nil, store_nil, ih]

/-- Filling covering regions overwrites the run of bytes they cover, and nothing else. -/
theorem scatter_covers (iovs : List IoVec) : ∀ (s : ByteArray) (pos length : Nat) (data : List UInt8),
    Uniform s.blockSize s.blocks → Covers s pos length iovs → data.length ≤ length →
    pos + length ≤ s.blocks.flatten.length →
    ∃ blocks, scatter iovs data s = { s with blocks } ∧ Uniform s.blockSize blocks ∧
      blocks.length = s.blocks.length ∧ blocks.flatten = splice s.blocks.flatten pos data := by
  induction iovs with
  | nil =>
    intro s pos length data u covers short _
    obtain rfl : data = [] := List.length_eq_zero_iff.mp (by rw [Covers] at covers; omega)
    exact ⟨s.blocks, rfl, u, rfl, (splice_nil _ _).symm⟩
  | cons v iovs ih =>
    intro s pos length data u covers short bound
    obtain ⟨place, fits, inside, le, rest⟩ := covers
    have len : (data.take v.len).length = min v.len data.length := List.length_take
    have fits' : v.off + (data.take v.len).length ≤ s.blockSize := by omega
    have flat := flatten_modify_splice u v.block v.off (data.take v.len) inside fits'
    rw [place] at flat
    -- the rest of the regions covers the same positions of the array with this region filled
    have rest' : Covers (store v.block v.off (data.take v.len) s) (pos + v.len) (length - v.len) iovs := by
      have transfer : ∀ (vs : List IoVec) (p l : Nat), Covers s p l vs →
          Covers (store v.block v.off (data.take v.len) s) p l vs := by
        intro vs
        induction vs with
        | nil => intro p l h; exact h
        | cons w ws inner =>
          rintro p l ⟨h1, h2, h3, h4, h5⟩
          exact ⟨h1, h2, by simpa only [store, List.length_modify] using h3, h4, inner _ _ h5⟩
      exact transfer iovs _ _ rest
    have total : (store v.block v.off (data.take v.len) s).blocks.flatten =
        splice s.blocks.flatten pos (data.take v.len) := flat
    have sized : (splice s.blocks.flatten pos (data.take v.len)).length = s.blocks.flatten.length :=
      length_splice (by omega)
    obtain ⟨blocks, run, u', count, done⟩ := ih (store v.block v.off (data.take v.len) s)
      (pos + v.len) (length - v.len) (data.drop v.len) (u.modify_splice fits') rest'
      (by rw [List.length_drop]; omega) (by rw [total, sized]; omega)
    refine ⟨blocks, ?_, u', ?_, ?_⟩
    · rw [scatter, run]; rfl
    · rw [count]; simp only [store, List.length_modify]
    · rw [done, total]
      by_cases short' : data.length ≤ v.len
      · rw [List.drop_of_length_le short', splice_nil, List.take_of_length_le short']
      · have whole : (data.take v.len).length = v.len := by omega
        have join := splice_splice s.blocks.flatten pos (data.take v.len)
          (data.drop v.len) (by rw [List.take_append_drop]; omega)
        rw [whole, List.take_append_drop] at join
        exact join

end Sylar.ByteArray
