import Sylar.ByteArray.Readers

/-!
# `write_to_file` and `read_from_file`

Writing walks the blocks with the read cursor itself, from position 0, and puts it back on every way
out. Reading goes around `write`: it fills whole blocks directly and counts capacity, cursor and
position by hand. A file whose size is a multiple of the block size costs one more turn, with room for
a block that stays empty; that turn is what keeps the write position strictly below the capacity.

Of stdio only its answers matter: whether the file opens and how many of the bytes it was offered each
`fwrite` took. What was taken is in the file, and `fread` returns short at its end only.
-/

namespace Sylar.ByteArray

open Lib

variable {s : ByteArray}

/-- What stdio answers while one array is written out. -/
structure Stdio where
  /-- `fopen` returns a file. -/
  opens : Bool
  /-- How many bytes the `i`-th `fwrite` is ready to take, when it is offered `size`. -/
  takes : Nat → Nat → Nat

/-- The count the `i`-th `fwrite` returns. -/
def Stdio.fwrite (io : Stdio) (i size : Nat) : Nat := min (io.takes i size) size

/-- The loop of `write_to_file`, `i` calls of `fwrite` done: the bytes it puts into the file. -/
def writeFileLoop (io : Stdio) (oldReadPos : Nat) : Nat → Nat → Nat → M (List UInt8)
  | 0, _, toWrite => if toWrite = 0 then pure [] else Proc.abort
  | fuel + 1, i, toWrite =>
    if toWrite = 0 then pure []
    else do
      let s ← Proc.read
      let blockPos := s.readPos % s.blockSize
      let blockSpace := s.blockSize - blockPos
      let writeSize := min blockSpace toWrite
      let (cur, data) ← deref s.readCur
      if io.fwrite i writeSize ≠ writeSize then do
        setReadPosition oldReadPos
        Proc.raise (.logicError "ByteArray::write_to_file write file failed")
      else do
        Proc.update (advanceRead cur writeSize)
        let rest ← writeFileLoop io oldReadPos fuel (i + 1) (toWrite - writeSize)
        pure ((data.drop blockPos).take writeSize ++ rest)

/-- `ByteArray::write_to_file(filename)`: the bytes in the file when it is closed. -/
def writeToFile (io : Stdio) : M (List UInt8) :=
  if io.opens then do
    let s ← Proc.read
    let oldReadPos := s.getReadPosition
    setReadPosition 0
    let file ← writeFileLoop io oldReadPos s.writePos 0 s.writePos
    setReadPosition oldReadPos
    pure file
  else Proc.raise (.logicError "ByteArray::write_to_file open file failed")

/-- Move behind the `n` bytes that `fread` put into block `cur`. -/
def advanceFread (cur n : Nat) (s : ByteArray) : ByteArray :=
  { s with
    writePos := s.writePos + n
    writeCur := if n = s.blockSize then s.next cur else s.writeCur }

/-- The loop of `read_from_file`; `rest` is what `fread` has not returned yet. -/
def readFileLoop : Nat → List UInt8 → M Unit
  | 0, _ => Proc.abort
  | fuel + 1, rest => do
    let s ← Proc.read
    expandCapacity s.blockSize
    let s ← Proc.read
    let (cur, _) ← deref s.writeCur
    let data := rest.take s.blockSize
    Proc.update (store cur 0 data)
    Proc.update (advanceFread cur data.length)
    if data.length = s.blockSize then readFileLoop fuel (rest.drop s.blockSize) else pure ()

/-- `ByteArray::read_from_file(filename)`; `none` is a file that does not open. -/
def readFromFile : Option (List UInt8) → M Unit
  | none => Proc.raise (.logicError "ByteArray::read_from_file open file failed")
  | some file => do
    clear
    Proc.update firstBlock
    readFileLoop (file.length + 1) file
    Proc.update fun s => { s with readPos := 0, readCur := s.root }

/-! ## Writing -/

/-- The bytes offered to the `i`-th `fwrite`: a block, or what is left of the contents. -/
def offered (s : ByteArray) (i : Nat) : Nat := min s.blockSize (s.writePos - i * s.blockSize)

/-- The `i`-th `fwrite`, if it comes to it, takes all it is offered. -/
def Stdio.Full (io : Stdio) (s : ByteArray) (i : Nat) : Prop :=
  i * s.blockSize < s.writePos → io.fwrite i (s.offered i) = s.offered i

/-- One turn of the loop at the beginning of block `i`. -/
theorem writeFileLoop_turn (io : Stdio) {old : Nat} (fuel : Nat) {i : Nat} (p : s.Placed)
    (old_le : old ≤ s.writePos) (start : s.readPos = i * s.blockSize) (more : s.readPos < s.writePos) :
    writeFileLoop io old (fuel + 1) i (s.writePos - s.readPos) s =
      if io.fwrite i (s.offered i) = s.offered i then
        (do let rest ← writeFileLoop io old fuel (i + 1) (s.writePos - s.readPos - s.offered i)
            pure ((s.contents.drop s.readPos).take (s.offered i) ++ rest) : M (List UInt8))
          (s.readAt (s.readPos + s.offered i))
      else .thrown (.logicError "ByteArray::write_to_file write file failed") (s.readAt old) := by
  have lt := p.write_lt
  have zero : s.readPos % s.blockSize = 0 := by rw [start, Nat.mul_mod_left]
  have size : min (s.blockSize - s.readPos % s.blockSize) (s.writePos - s.readPos) = s.offered i := by
    rw [zero, Nat.sub_zero, offered, ← start]
  have fits := p.piece_fits s.readPos (s.writePos - s.readPos)
  have cursor := p.next_cursor s.readPos (s.writePos - s.readPos) (by omega) (by omega)
  have le : s.offered i ≤ s.writePos - s.readPos := by rw [← size]; exact Nat.min_le_right _ _
  rw [size] at fits cursor
  have moved : advanceRead (s.readPos / s.blockSize) (s.offered i) s =
      s.readAt (s.readPos + s.offered i) := by
    simp only [advanceRead, ByteArray.readAt, p.readCur, cursor]
  obtain ⟨block, hb, step⟩ := deref_apply p (by omega : s.readPos < s.capacity)
    (fun b : Nat × List UInt8 => (do
      if io.fwrite i (s.offered i) ≠ s.offered i then do
        setReadPosition old
        Proc.raise (.logicError "ByteArray::write_to_file write file failed")
      else do
        Proc.update (advanceRead b.1 (s.offered i))
        let rest ← writeFileLoop io old fuel (i + 1) (s.writePos - s.readPos - s.offered i)
        pure ((b.2.drop (s.readPos % s.blockSize)).take (s.offered i) ++ rest) : M (List UInt8)))
  have piece := slice_flatten p.uniform hb fits
  rw [Nat.mul_comm, Nat.div_add_mod] at piece
  have slice : (s.contents.drop s.readPos).take (s.offered i) =
      (s.blocks.flatten.drop s.readPos).take (s.offered i) := by
    rw [contents, List.drop_take, List.take_take, Nat.min_eq_left le]
  rw [writeFileLoop, if_neg (by omega), Proc.read_bind_apply]
  simp only [size, p.readCur]
  rw [step]
  by_cases full : io.fwrite i (s.offered i) = s.offered i
  · rw [if_neg (not_not_intro full), if_pos full, Proc.update_bind_apply, moved, ← piece, slice]
  · rw [if_pos full, if_neg full, Proc.bind_done _ (setReadPosition_placed p old_le), Proc.raise_apply]

/-- Nothing left to write. -/
theorem writeFileLoop_zero (io : Stdio) (old fuel i : Nat) (s : ByteArray) :
    writeFileLoop io old fuel i 0 s = .done [] s := by
  cases fuel <;> simp only [writeFileLoop, if_true, Proc.pure_apply]

/-- The end of the contents at the beginning of block `i`. -/
theorem writeFileLoop_end (io : Stdio) (old fuel : Nat) {i : Nat} (p : s.Placed)
    (start : s.readPos = i * s.blockSize) (all : s.writePos ≤ s.readPos) :
    writeFileLoop io old fuel i (s.writePos - s.readPos) s =
      .done (s.contents.drop s.readPos) (s.readAt s.writePos) ∧ ∀ k, i ≤ k → io.Full s k := by
  have same : s.writePos = s.readPos := Nat.le_antisymm all p.read_le
  refine ⟨?_, fun k le inside => ?_⟩
  · rw [same, Nat.sub_self, writeFileLoop_zero, p.readAt_readPos,
      List.drop_of_length_le (by rw [p.length_contents]; exact all)]
  · have := Nat.mul_le_mul_right s.blockSize le
    omega

/-- The loop at the beginning of block `i`: either every `fwrite` from there on takes what it is
offered, and the rest of the contents goes to the file, or one of them does not, and the array is put
back to the old read position. -/
theorem writeFileLoop_spec (io : Stdio) {old : Nat} (fuel : Nat) : ∀ (s : ByteArray) (i : Nat),
    s.Placed → old ≤ s.writePos → s.readPos = i * s.blockSize → s.writePos - s.readPos ≤ fuel →
    (writeFileLoop io old fuel i (s.writePos - s.readPos) s =
        .done (s.contents.drop s.readPos) (s.readAt s.writePos) ∧ ∀ k, i ≤ k → io.Full s k) ∨
      (writeFileLoop io old fuel i (s.writePos - s.readPos) s =
        .thrown (.logicError "ByteArray::write_to_file write file failed") (s.readAt old) ∧
        ∃ k, i ≤ k ∧ ¬ io.Full s k) := by
  induction fuel with
  | zero =>
    intro s i p _ start short
    exact .inl (writeFileLoop_end io old 0 p start (by omega))
  | succ fuel ih =>
    intro s i p old_le start short
    by_cases more : s.readPos < s.writePos
    · have size_pos := p.size_pos
      have count : s.offered i = min s.blockSize (s.writePos - s.readPos) := by rw [offered, start]
      rw [writeFileLoop_turn io fuel p old_le start more]
      by_cases full : io.fwrite i (s.offered i) = s.offered i
      · rw [if_pos full]
        have from_here : (∀ k, i + 1 ≤ k → io.Full s k) → ∀ k, i ≤ k → io.Full s k := by
          intro later k le
          rcases Nat.lt_or_eq_of_le le with lt | rfl
          · exact later k lt
          · exact fun _ => full
        rcases Nat.lt_or_ge s.blockSize (s.writePos - s.readPos) with whole | last
        · -- a whole block, and more behind it
          have block : s.offered i = s.blockSize := by rw [count]; omega
          have step : s.readPos + s.blockSize = (i + 1) * s.blockSize := by rw [start, Nat.succ_mul]
          have rest : s.writePos - s.readPos - s.blockSize = s.writePos - (s.readPos + s.blockSize) := by
            omega
          have whole_rest : (s.contents.drop s.readPos).take s.blockSize ++
              s.contents.drop (s.readPos + s.blockSize) = s.contents.drop s.readPos := by
            rw [← List.drop_drop, List.take_append_drop]
          rw [block, rest]
          rcases ih (s.readAt (s.readPos + s.blockSize)) (i + 1) (p.readAt (by omega)) old_le step
            (by show s.writePos - (s.readPos + s.blockSize) ≤ fuel; omega) with
            ⟨run, later⟩ | ⟨run, k, le, short'⟩
          · refine .inl ⟨?_, from_here later⟩
            refine (Proc.bind_done _ run).trans ?_
            exact congrArg (Outcome.done · _) whole_rest
          · exact .inr ⟨Proc.bind_thrown _ run, k, Nat.le_of_succ_le le, short'⟩
        · -- the last piece
          have piece : s.offered i = s.writePos - s.readPos := by rw [count]; omega
          refine .inl ⟨?_, from_here fun k le inside => ?_⟩
          · rw [piece, Nat.sub_self, Proc.bind_done _ (writeFileLoop_zero io old fuel _ _),
              Proc.pure_apply, List.append_nil,
              List.take_of_length_le (by rw [List.length_drop, p.length_contents]),
              Nat.add_sub_cancel' (Nat.le_of_lt more)]
          · have := Nat.mul_le_mul_right s.blockSize le
            rw [Nat.succ_mul] at this
            omega
      · rw [if_neg full]
        exact .inr ⟨rfl, i, Nat.le_refl i, fun claim => full (claim (by omega))⟩
    · exact .inl (writeFileLoop_end io old _ p start (by omega))

/-- `write_to_file` on an open file. The array comes out as it went in. -/
theorem writeToFile_spec {io : Stdio} (opens : io.opens = true) {f : FlatBuffer} (r : Rep s f) :
    (writeToFile io s = .done s.contents s ∧ ∀ k, io.Full s k) ∨
      (writeToFile io s =
        .thrown (.logicError "ByteArray::write_to_file write file failed") s ∧
        ∃ k, ¬ io.Full s k) := by
  rw [writeToFile, if_pos opens, Proc.read_bind_apply]
  rcases r with ⟨b, rfl⟩ | ⟨p, _⟩
  · have empty : Rep s FlatBuffer.empty := .inl ⟨b, rfl⟩
    have stays : setReadPosition 0 s = .done () s := by
      obtain ⟨s', run, r'⟩ := (setReadPosition_refines 0).done empty rfl
      rwa [((setReadPosition_keeps 0).done run).eq_of_rep empty r'] at run
    have nothing : s.contents = [] := by rw [contents, b.writePos, List.take_zero]
    refine .inl ⟨?_, fun k inside => ?_⟩
    · simp only [getReadPosition, b.readPos]
      rw [Proc.bind_done _ stays, b.writePos, Proc.bind_done _ (writeFileLoop_zero io 0 0 0 s),
        Proc.bind_done _ stays, Proc.pure_apply, nothing]
    · rw [b.writePos] at inside
      omega
  · have le := p.read_le
    have start := setReadPosition_placed p (Nat.zero_le s.writePos)
    have p₀ := p.readAt (Nat.zero_le s.writePos)
    have again : setReadPosition s.readPos (s.readAt s.writePos) = .done () s := by
      rw [setReadPosition_placed (p.readAt (Nat.le_refl _)) le]
      exact congrArg (Outcome.done ()) p.readAt_readPos
    simp only [getReadPosition]
    rw [Proc.bind_done _ start]
    rcases writeFileLoop_spec io s.writePos (s.readAt 0) 0 p₀ le (Nat.zero_mul _).symm (Nat.sub_le _ _)
      with ⟨run, all⟩ | ⟨run, k, _, short⟩
    · refine .inl ⟨?_, fun k => all k (Nat.zero_le k)⟩
      refine (Proc.bind_done _ run).trans ?_
      exact Proc.bind_done _ again
    · refine .inr ⟨?_, k, short⟩
      refine (Proc.bind_thrown _ run).trans ?_
      exact congrArg (Outcome.thrown _) p.readAt_readPos

/-! ## Reading -/

/-- What `fread` puts into the block at the write position is appended. -/
theorem Placed.fread_piece (p : s.Placed) (start : s.writePos % s.blockSize = 0) {data : List UInt8}
    (fits : data.length ≤ s.blockSize) (room : s.writePos + s.blockSize < s.capacity) :
    let s' := advanceFread (s.writePos / s.blockSize) data.length
      (store (s.writePos / s.blockSize) 0 data s)
    s'.Placed ∧ s'.writePos = s.writePos + data.length ∧ s'.contents = s.contents ++ data := by
  intro s'
  have size_pos := p.size_pos
  by_cases empty : data = []
  · have same : s' = s := by
      have no_block : ¬ (0 = s.blockSize) := by omega
      simp only [s', empty, advanceFread, store_nil, List.length_nil, Nat.add_zero, if_neg no_block]
    rw [same, empty, List.length_nil, Nat.add_zero, List.append_nil]
    exact ⟨p, rfl, rfl⟩
  · have some_byte : 0 < data.length := List.length_pos_iff.mpr empty
    have piece := p.write_piece some_byte (by omega)
    have count : min (s.blockSize - 0) data.length = data.length := by omega
    -- a block is full exactly when the position has come to a multiple of the block size
    have full : (s.writePos + data.length) % s.blockSize = 0 ↔ data.length = s.blockSize := by
      rw [Nat.add_mod, start, Nat.zero_add, Nat.mod_mod]
      constructor
      · intro zero
        by_contra less
        rw [Nat.mod_eq_of_lt (by omega)] at zero
        omega
      · intro whole
        rw [whole, Nat.mod_self]
    have cursor : ∀ a b : Option Nat, (if data.length = s.blockSize then a else b) =
        if (s.writePos + data.length) % s.blockSize = 0 then a else b :=
      fun a b => (if_congr full rfl rfl).symm
    have same : s' = advanceWrite (s.writePos / s.blockSize) data.length
        (store (s.writePos / s.blockSize) 0 data s) :=
      congrArg (fun cur => { store (s.writePos / s.blockSize) 0 data s with
        writePos := s.writePos + data.length, writeCur := cur }) (cursor _ _)
    simp only [start, count, List.take_length] at piece
    rw [same]
    exact piece

/-- The loop appends what is left of the file, from the beginning of a block on. -/
theorem readFileLoop_spec (fuel : Nat) : ∀ (s : ByteArray) (rest : List UInt8), s.Placed →
    s.writePos % s.blockSize = 0 → rest.length < fuel →
    ∃ s', readFileLoop fuel rest s = .done () s' ∧ s'.Placed ∧ s'.blockSize = s.blockSize ∧
      s'.contents = s.contents ++ rest := by
  induction fuel with
  | zero => intro s rest _ _ short; exact absurd short (Nat.not_lt_zero _)
  | succ fuel ih =>
    intro s rest p start short
    have size_pos := p.size_pos
    obtain ⟨s₁, grow, p₁, view, room⟩ := expandCapacity_spec s.blockSize (.inr p)
    have start₁ : s₁.writePos % s₁.blockSize = 0 := by rw [view.writePos, view.blockSize, start]
    have length : (rest.take s₁.blockSize).length = min s₁.blockSize rest.length := List.length_take
    rw [← view.blockSize] at room
    have turn : readFileLoop (fuel + 1) rest s = (do
        Proc.update (store (s₁.writePos / s₁.blockSize) 0 (rest.take s₁.blockSize))
        Proc.update (advanceFread (s₁.writePos / s₁.blockSize) (rest.take s₁.blockSize).length)
        if (rest.take s₁.blockSize).length = s₁.blockSize then
          readFileLoop fuel (rest.drop s₁.blockSize)
        else pure () : M Unit) s₁ := by
      rw [readFileLoop, Proc.read_bind_apply, Proc.bind_done _ grow, Proc.read_bind_apply, p₁.writeCur]
      obtain ⟨block, _, step⟩ := deref_apply p₁ p₁.write_lt
        (fun b : Nat × List UInt8 => (do
          Proc.update (store b.1 0 (rest.take s₁.blockSize))
          Proc.update (advanceFread b.1 (rest.take s₁.blockSize).length)
          if (rest.take s₁.blockSize).length = s₁.blockSize then
            readFileLoop fuel (rest.drop s₁.blockSize)
          else pure () : M Unit))
      exact step
    have fits : (rest.take s₁.blockSize).length ≤ s₁.blockSize := by omega
    obtain ⟨p₂, position, stored⟩ := p₁.fread_piece start₁ fits room
    rw [turn, Proc.update_bind_apply, Proc.update_bind_apply]
    split
    · rename_i whole
      obtain ⟨s', run, placed, size, all⟩ := ih _ (rest.drop s₁.blockSize) p₂
        (by
          rw [position, whole]
          show (s₁.writePos + s₁.blockSize) % s₁.blockSize = 0
          rw [Nat.add_mod_right, start₁])
        (by
          have := p₁.size_pos
          rw [List.length_drop]
          omega)
      refine ⟨s', run, placed, size.trans view.blockSize, ?_⟩
      rw [all, stored, view.contents, List.append_assoc, List.take_append_drop]
    · rename_i part
      refine ⟨_, rfl, p₂, view.blockSize, ?_⟩
      rw [stored, view.contents, List.take_of_length_le (by omega)]

/-- `read_from_file` on an open file makes the array stand for the file, whatever it held before. -/
theorem readFromFile_spec (file : List UInt8) (hsize : 1 ≤ s.blockSize) :
    ∃ s', readFromFile (some file) s = .done () s' ∧ s'.Placed ∧ s'.blockSize = s.blockSize ∧
      s'.contents = file ∧ s'.readPos = 0 := by
  obtain ⟨s₀, cleared, blank, same⟩ : ∃ s₀, clear s = .done () s₀ ∧ s₀.Blank ∧
      s₀.blockSize = s.blockSize := ⟨_, rfl, ⟨hsize, rfl, rfl, rfl, rfl, rfl, rfl⟩, rfl⟩
  obtain ⟨p, view⟩ := blank.firstBlock
  have start : s₀.firstBlock.writePos % s₀.firstBlock.blockSize = 0 := by
    rw [view.writePos, blank.writePos, Nat.zero_mod]
  have nothing : s₀.contents = [] := by rw [contents, blank.writePos, List.take_zero]
  obtain ⟨s₁, run, placed, size, stored⟩ := readFileLoop_spec (file.length + 1) s₀.firstBlock file p
    start (Nat.lt_succ_self _)
  refine ⟨s₁.readAt 0, ?_, placed.readAt (Nat.zero_le _), ?_, ?_, rfl⟩
  · rw [readFromFile, Proc.bind_done _ cleared, Proc.update_bind_apply, Proc.bind_done _ run,
      Proc.update_apply]
    simp only [placed.root, ByteArray.readAt, Nat.zero_div]
  · exact size.trans (view.blockSize.trans same)
  · show s₁.contents = file
    rw [stored, view.contents, nothing, List.nil_append]

/-- The file round trip. From every state that calls on a fresh array lead to, and for whatever stdio
answers: if every `fwrite` takes what it is offered, the file holds the bytes below the write position
and the array is as before; reading that file into any array, whatever its block size and its state,
gives it exactly these bytes, read position 0 and a valid layout. If some `fwrite` falls short, or the
file does not open, `write_to_file` throws and the array is as before. -/
theorem file_round_trip {host : Host} {blockSize : Nat} (hsize : 1 ≤ blockSize)
    {junk : Nat → Nat → UInt8} (reached : Reached host blockSize junk s) (io : Stdio) :
    (io.opens = true → (∀ k, io.Full s k) → writeToFile io s = .done s.contents s ∧
        ∀ t : ByteArray, 1 ≤ t.blockSize → ∃ t', readFromFile (some s.contents) t = .done () t' ∧
          t'.Placed ∧ t'.blockSize = t.blockSize ∧ t'.contents = s.contents ∧ t'.readPos = 0) ∧
      (io.opens = true → (∃ k, ¬ io.Full s k) →
        writeToFile io s = .thrown (.logicError "ByteArray::write_to_file write file failed") s) ∧
      (io.opens = false →
        writeToFile io s = .thrown (.logicError "ByteArray::write_to_file open file failed") s) := by
  obtain ⟨f, r⟩ := reached.rep hsize
  refine ⟨fun opens full => ⟨?_, fun t ht => readFromFile_spec s.contents ht⟩, fun opens fails => ?_,
    fun closed => ?_⟩
  · rcases writeToFile_spec opens r with ⟨run, _⟩ | ⟨_, k, short⟩
    · exact run
    · exact absurd (full k) short
  · obtain ⟨k, short⟩ := fails
    rcases writeToFile_spec opens r with ⟨_, full⟩ | ⟨run, _⟩
    · exact absurd (full k) short
    · exact run
  · rw [writeToFile, if_neg (by rw [closed]; decide), Proc.raise_apply]

/-- Four bytes in blocks of two, written out and read into blocks of four: both sizes divide them. -/
theorem file_round_trip_even :
    ∃ s, Reached .little 2 (fun _ _ => 0x55) s ∧
      writeToFile ⟨true, fun _ size => size⟩ s = .done [1, 2, 3, 4] s ∧
      ∃ t', readFromFile (some [1, 2, 3, 4]) (init 4 fun _ _ => 0) = .done () t' ∧
        t'.Placed ∧ t'.blockSize = 4 ∧ t'.contents = [1, 2, 3, 4] ∧ t'.readPos = 0 := by
  let s : ByteArray :=
    { blockSize := 2, capacity := 6, blocks := [[1, 2], [3, 4], [0x55, 0x55]], readPos := 0,
      writePos := 4, readCur := some 0, writeCur := some 2, junk := fun _ _ => 0x55, allocs := 3 }
  have reached : Reached .little 2 (fun _ _ => 0x55) s :=
    ⟨[.write [1, 2, 3, 4]], .single (.inl ⟨.unit, rfl⟩)⟩
  have full : ∀ k, Stdio.Full ⟨true, fun _ size => size⟩ s k := fun k _ => Nat.min_self _
  obtain ⟨wrote, back⟩ := (file_round_trip (by decide) reached ⟨true, fun _ size => size⟩).1 rfl full
  exact ⟨s, reached, wrote, back (init 4 fun _ _ => 0) (by decide)⟩

end Sylar.ByteArray
