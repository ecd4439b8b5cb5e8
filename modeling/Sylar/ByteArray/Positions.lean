import Sylar.ByteArray.Readers

/-!
# Moving the write position

`set_write_position(pos)` makes room when `pos` is above the capacity, and then walks to the block of
`pos`. It asks `expand_capacity` for `pos - capacity_` bytes. That request is counted from the write
position, not from the capacity, so the room it buys ends at `write_pos_ + (pos - capacity_)`, which is
below `pos` as long as anything of the capacity is unused. Rounding up to whole blocks hides the
difference when both ends fall into the same block and shows it otherwise: the walk runs off the list.
A position equal to the capacity makes no room at all, and one below the read position turns the number
of unread bytes into a huge one.

`Reachable` states are those of runs in which every such move met the condition `WriteFits`, so the
layout still holds there, and from each of them the next move is safe exactly under that condition.
-/

namespace Sylar.ByteArray

open Lib

variable {s s' : ByteArray} {pos : Nat}

/-- A call of the interface, or a move of the write position. -/
inductive Move where
  | call (op : Op)
  | setWritePosition (pos : Nat)

def move (host : Host) : Move → M Value
  | .call op => apply host op
  | .setWritePosition pos => do
    setWritePosition pos
    pure .unit

/-- The read position is not behind `pos`, and `pos` has a block: inside the capacity, or in the block
up to which `expand_capacity` is asked to grow. -/
def WriteFits (s : ByteArray) (pos : Nat) : Prop :=
  s.readPos ≤ pos ∧ (pos < s.capacity ∨
    s.capacity < pos ∧ (s.writePos + (pos - s.capacity)) / s.blockSize = pos / s.blockSize)

/-- The moves of the write position that meet the condition; position 0 of an array without a block is
left alone. -/
def Move.Fits (s : ByteArray) : Move → Prop
  | .call _ => True
  | .setWritePosition pos => WriteFits s pos ∨ pos = 0 ∧ s.blocks = []

/-- The states of the runs from a fresh array whose moves of the write position all fit. -/
def Reachable (host : Host) (blockSize : Nat) (junk : Nat → Nat → UInt8) (s : ByteArray) : Prop :=
  ∃ moves, Run (Guarded (Proc.Called (move host)) Move.Fits) (init blockSize junk) moves s

/-- What `set_write_position(pos)` owes its caller: it returns, the layout holds with the write
position at `pos`, the read position is where it was, and what is written next is stored from `pos` on. -/
def WritePositionSafe (s : ByteArray) (pos : Nat) : Prop :=
  ∃ s', setWritePosition pos s = .done () s' ∧ s'.Placed ∧ s'.writePos = pos ∧
    s'.readPos = s.readPos ∧
    ∀ data, ∃ s'', write data s' = .done () s'' ∧ s''.writePos = pos + data.length ∧
      s''.contents.drop pos = data

/-! ## One move -/

/-- The first half of `set_write_position`: room up to the position, if the capacity ends before it. -/
def makeRoom (pos : Nat) : M Unit := do
  let s ← Proc.read
  if pos > s.capacity then expandCapacity (pos - s.capacity) else pure ()

/-- The second half: the position, and the cursor from a walk. -/
def moveTo (pos : Nat) : M Unit := do
  let s ← Proc.read
  let cur ← walk s (pos / s.blockSize) s.root
  Proc.update fun s => { s with writePos := pos, writeCur := cur }

theorem setWritePosition_eq (pos : Nat) :
    setWritePosition pos = (do makeRoom pos; moveTo pos) := by
  funext s
  simp only [setWritePosition, makeRoom, moveTo, bind_assoc, Proc.read_bind_apply]
  split
  · rfl
  · rfl

/-- The room that is made before the walk. -/
theorem makeRoom_spec (layout : s.Blank ∨ s.Placed) (off : ¬ (pos = 0 ∧ s.blocks = [])) :
    ∃ s₁, makeRoom pos s = .done () s₁ ∧ s₁.Placed ∧ SameView s s₁ ∧ (pos ≤ s.capacity → s₁ = s) ∧
      (s.capacity < pos → s₁.writePos + (pos - s.capacity) < s₁.capacity) := by
  by_cases more : pos > s.capacity
  · obtain ⟨s₁, run, p, view, room⟩ := expandCapacity_spec (pos - s.capacity) layout
    refine ⟨s₁, ?_, p, view, fun le => absurd le (Nat.not_le_of_lt more), fun _ => room⟩
    rw [makeRoom, Proc.read_bind_apply, if_pos more]
    exact run
  · rcases layout with b | p
    · have zero : pos = 0 := by
        rw [b.capacity] at more
        omega
      exact absurd ⟨zero, b.blocks⟩ off
    · refine ⟨s, ?_, p, SameView.refl s, fun _ => rfl, fun lt => absurd lt more⟩
      rw [makeRoom, Proc.read_bind_apply, if_neg more]
      rfl

/-- A move that fits leads to the layout, with everything a caller could see in place but the write
position. -/
theorem setWritePosition_fits (layout : s.Blank ∨ s.Placed) (off : ¬ (pos = 0 ∧ s.blocks = []))
    (fits : WriteFits s pos) :
    ∃ s', setWritePosition pos s = .done () s' ∧ s'.Placed ∧ s'.writePos = pos ∧
      s'.readPos = s.readPos := by
  obtain ⟨s₁, room, p, view, stays, grown⟩ := makeRoom_spec layout off
  have inside : pos < s₁.capacity := by
    rcases fits.2 with below | ⟨above, same⟩
    · rw [stays (Nat.le_of_lt below)]
      exact below
    · have block := block_lt p.size_pos (by rw [← p.capacity]; exact grown above)
      rw [view.writePos, view.blockSize, same, ← view.blockSize] at block
      rw [p.capacity]
      exact (Nat.div_lt_iff_lt_mul p.size_pos).mp block
  refine ⟨s₁.writeAt pos, ?_, p.writeAt (by rw [view.readPos]; exact fits.1) inside, rfl, view.readPos⟩
  rw [setWritePosition_eq, Proc.bind_done _ room, moveTo, Proc.read_bind_apply,
    Proc.bind_done _ (p.walk_root inside s₁)]
  rfl

/-- What a move that returned has done: room, then the position and some cursor. -/
theorem setWritePosition_done (run : setWritePosition pos s = .done () s') :
    ∃ s₁ cur, makeRoom pos s = .done () s₁ ∧ s' = { s₁ with writePos := pos, writeCur := cur } := by
  have walk_same : ∀ (t : ByteArray) (n : Nat) (cur : Option Nat), Proc.Keeps Eq (walk t n cur) := by
    intro t n
    induction n with
    | zero => intro cur u; rfl
    | succ n ih =>
      intro cur
      have trans : ∀ a b c : ByteArray, a = b → b = c → a = c := fun _ _ _ => Eq.trans
      exact .bind trans (.demand Eq.refl cur) fun i => ih _
  rw [setWritePosition_eq] at run
  obtain ⟨_, s₁, room, rest⟩ := Proc.bind_eq_done run
  rw [moveTo, Proc.read_bind_apply] at rest
  obtain ⟨cur, s₂, walked, last⟩ := Proc.bind_eq_done rest
  obtain rfl := (walk_same _ _ _).done walked
  cases last
  exact ⟨_, cur, room, rfl⟩

/-- A move that leads to the layout fitted. -/
theorem fits_of_placed (layout : s.Blank ∨ s.Placed) (off : ¬ (pos = 0 ∧ s.blocks = []))
    (run : setWritePosition pos s = .done () s') (placed : s'.Placed) (position : s'.writePos = pos) :
    WriteFits s pos := by
  obtain ⟨s₁, room, p, view, stays, _⟩ := makeRoom_spec layout off
  obtain ⟨t₁, cur, room', rfl⟩ := setWritePosition_done run
  cases room.symm.trans room'
  have behind : s₁.readPos ≤ pos := placed.read_le
  have inside : pos < s₁.capacity := placed.write_lt
  rw [view.readPos] at behind
  refine ⟨behind, ?_⟩
  rcases Nat.lt_trichotomy pos s.capacity with below | equal | above
  · exact .inl below
  · rw [stays (Nat.le_of_eq equal)] at inside
    exact absurd equal (Nat.ne_of_lt inside)
  · refine .inr ⟨above, ?_⟩
    rcases layout with b | p₀
    · rw [b.writePos, b.capacity, Nat.zero_add, Nat.sub_zero]
    · rw [makeRoom, Proc.read_bind_apply, if_pos above] at room
      have lt := p₀.write_lt
      have least := expandCapacity_least p₀ room
      -- the last block was called for by the end of the request, so that end is in the block of `pos`
      have block := block_lt p.size_pos (by rw [← p.capacity]; exact inside)
      have request : s.writePos + (pos - s.capacity) ≤ pos := by omega
      apply Nat.le_antisymm (Nat.div_le_div_right request)
      have count := p.capacity
      rw [view.blockSize] at block count
      obtain ⟨k, blocks⟩ : ∃ k, s₁.blocks.length = k + 1 :=
        Nat.exists_eq_succ_of_ne_zero (Nat.ne_zero_of_lt block)
      rw [blocks, Nat.succ_mul] at count
      have last : k ≤ (s.writePos + (pos - s.capacity)) / s.blockSize := by
        rw [Nat.le_div_iff_mul_le p₀.size_pos]
        omega
      omega

/-! ## Runs -/

/-- The layout holds wherever the fitting moves lead. -/
theorem Reachable.layout {host : Host} {blockSize : Nat} {junk : Nat → Nat → UInt8}
    (hsize : 1 ≤ blockSize) (h : Reachable host blockSize junk s) : s.Blank ∨ s.Placed := by
  obtain ⟨moves, run⟩ := h
  refine run.invariant (I := fun s => s.Blank ∨ s.Placed) ?_ (.inl (init_blank hsize junk))
  intro s m s' layout step
  obtain ⟨called, fits⟩ := step
  cases m with
  | call op =>
    obtain ⟨f, r⟩ := rep_of_layout layout
    obtain ⟨f', r'⟩ := Proc.Refines.called (apply_refines host op) r called
    exact r'.layout
  | setWritePosition pos =>
    by_cases off : pos = 0 ∧ s.blocks = []
    · obtain ⟨rfl, empty⟩ := off
      have root : s.root = none := if_pos empty
      have b : s.Blank := by
        rcases layout with b | p
        · exact b
        · rw [p.root] at root
          cases root
      have stays : move host (.setWritePosition 0) s =
          .done .unit { s with writePos := 0, writeCur := none } := by
        simp only [move, setWritePosition, b.capacity, gt_iff_lt, Nat.lt_irrefl, if_false,
          Proc.bind_apply, Proc.read, Proc.pure_apply, Nat.zero_div, walk, root, Proc.update_apply]
      rcases called with ⟨v, run⟩ | ⟨e, run⟩
      · cases stays.symm.trans run
        exact .inl ⟨b.size_pos, b.blocks, b.capacity, b.readPos, rfl, b.readCur, rfl⟩
      · cases stays.symm.trans run
    · have fits := fits.resolve_right off
      obtain ⟨t, moved, placed, _⟩ := setWritePosition_fits layout off fits
      have done : move host (.setWritePosition pos) s = .done .unit t := Proc.bind_done _ moved
      rcases called with ⟨v, run⟩ | ⟨e, run⟩
      · cases done.symm.trans run
        exact .inr placed
      · cases done.symm.trans run

/-- Moving the write position is safe exactly where it fits. In every state of a run whose earlier
moves fitted, and for every position (but 0 in an array without a block), the representation holds
after the move, with the write position there, and a write then stores its bytes from there on, if and
only if the read position is not behind it and it lies in a block that the request for room reaches. -/
theorem setWritePosition_safe_iff {host : Host} {blockSize : Nat} (hsize : 1 ≤ blockSize)
    {junk : Nat → Nat → UInt8} (reachable : Reachable host blockSize junk s) (pos : Nat)
    (off : ¬ (pos = 0 ∧ s.blocks = [])) : WritePositionSafe s pos ↔ WriteFits s pos := by
  have layout := reachable.layout hsize
  constructor
  · rintro ⟨s', run, placed, position, _⟩
    exact fits_of_placed layout off run placed position
  · intro fits
    obtain ⟨s', run, placed, position, behind⟩ := setWritePosition_fits layout off fits
    refine ⟨s', run, placed, position, behind, fun data => ?_⟩
    obtain ⟨f, r⟩ := rep_of_layout (.inr placed)
    obtain ⟨s'', stored, r'⟩ := (write_refines data).done r rfl
    have whole : f.bytes.length = pos := by rw [← r.writePos, position]
    refine ⟨s'', stored, ?_, ?_⟩
    · rw [r'.writePos, List.length_append, whole]
    · rw [r'.contents, ← whole, List.drop_left]

/-- Back from position 3 to 1. -/
theorem setWritePosition_safe_iff_back : WritePositionSafe (justWritten [1, 2, 3]) 1 := by
  have reachable : Reachable .little 16 (fun _ _ => 0) (justWritten [1, 2, 3]) :=
    ⟨[.call (.write [1, 2, 3])], .single ⟨.inl ⟨.unit, rfl⟩, trivial⟩⟩
  refine (setWritePosition_safe_iff (by decide) reachable 1 (by rintro ⟨none, _⟩; cases none)).mpr ?_
  exact ⟨by decide, .inl (by decide)⟩

/-- One byte in a block of sixteen, then position 16, which is the capacity: no room is made, the walk
ends at the null pointer behind the only block, and the write position is not below the capacity. -/
theorem setWritePosition_at_capacity :
    Reachable .little 16 (fun _ _ => 0) (justWritten [7]) ∧
      ¬ WritePositionSafe (justWritten [7]) 16 := by
  refine ⟨⟨[.call (.write [7])], .single ⟨.inl ⟨.unit, rfl⟩, trivial⟩⟩, ?_⟩
  rintro ⟨s', run, placed, _⟩
  have moved : setWritePosition 16 (justWritten [7]) =
      .done () { justWritten [7] with writePos := 16, writeCur := none } := rfl
  cases moved.symm.trans run
  exact absurd placed.write_lt (Nat.lt_irrefl 16)

end Sylar.ByteArray
