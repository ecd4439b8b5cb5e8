import Sylar.ByteArray.Layout
import Sylar.ByteArray.Flat

/-!
# The block list refines the flat buffer

`Rep` relates a byte array to the flat buffer it stands for: a blank array to the empty buffer, a
placed one to its contents and read position. Every call of the interface refines the call on the
flat buffer along `Rep`. The block size does not occur on the flat side, so it cannot be observed.
-/

namespace Sylar.ByteArray

open Lib

/-- The flat buffer a byte array stands for. -/
def Rep (s : ByteArray) (f : FlatBuffer) : Prop :=
  (s.Blank ∧ f = FlatBuffer.empty) ∨ (s.Placed ∧ f.bytes = s.contents ∧ f.readPos = s.readPos)

variable {s : ByteArray} {f : FlatBuffer}

theorem Rep.layout (r : Rep s f) : s.Blank ∨ s.Placed := r.imp And.left And.left

theorem rep_of_layout (h : s.Blank ∨ s.Placed) : ∃ f, Rep s f := by
  rcases h with b | p
  · exact ⟨_, .inl ⟨b, rfl⟩⟩
  · exact ⟨⟨s.contents, s.readPos, by rw [p.length_contents]; exact p.read_le⟩, .inr ⟨p, rfl, rfl⟩⟩

theorem Rep.readPos (r : Rep s f) : s.readPos = f.readPos := by
  rcases r with ⟨b, rfl⟩ | ⟨_, _, h⟩
  · exact b.readPos
  · exact h.symm

theorem Rep.writePos (r : Rep s f) : s.writePos = f.bytes.length := by
  rcases r with ⟨b, rfl⟩ | ⟨p, h, _⟩
  · exact b.writePos
  · rw [h, p.length_contents]

theorem Rep.contents (r : Rep s f) : s.contents = f.bytes := by
  rcases r with ⟨b, rfl⟩ | ⟨_, h, _⟩
  · rw [ByteArray.contents, b.writePos, List.take_zero]; rfl
  · exact h.symm

theorem Rep.unreadSize (r : Rep s f) : s.getUnreadSize = f.unread.length := by
  have le := f.le
  rw [getUnreadSize, r.writePos, r.readPos, sizeSub_of_le le, FlatBuffer.unread, List.length_drop]

theorem Rep.positions (r : Rep s f) : s.positions = f.positions := by
  simp only [ByteArray.positions, FlatBuffer.positions, getReadPosition, getWritePosition, getSize,
    r.readPos, r.writePos, r.unreadSize]

/-- The bytes a read of `n` at most available bytes copies are unread bytes of the flat buffer. -/
theorem slice_eq (hf : f.bytes = s.contents) (hr : f.readPos = s.readPos) {n : Nat}
    (avail : s.readPos + n ≤ s.writePos) :
    (s.blocks.flatten.drop s.readPos).take n = f.unread.take n := by
  rw [FlatBuffer.unread, hf, hr, ByteArray.contents, List.drop_take, List.take_take,
    Nat.min_eq_left (by omega)]

/-! ## The untyped calls -/

theorem write_refines (data : List UInt8) : Proc.Refines Rep (write data) (FlatBuffer.write data) := by
  intro s f r
  rw [write]
  split
  · rename_i none
    obtain rfl : data = [] := List.length_eq_zero_iff.mp none
    refine ⟨rfl, ?_⟩
    simp only [List.append_nil]
    exact r
  · obtain ⟨s₁, grow, p, view, room⟩ := expandCapacity_spec data.length r.layout
    obtain ⟨s₂, run, p', read', written⟩ := writeLoop_spec data.length s₁ data p room (Nat.le_refl _)
    rw [Proc.bind_done _ grow, run]
    refine ⟨rfl, .inr ⟨p', ?_, ?_⟩⟩
    · show f.bytes ++ data = s₂.contents
      rw [written, view.contents, r.contents]
    · show f.readPos = s₂.readPos
      rw [read', view.readPos, r.readPos]

theorem read_refines (n : Nat) : Proc.Refines Rep (read n) (FlatBuffer.read n) := by
  intro s f r
  simp only [read, FlatBuffer.read, Proc.read_bind_apply, Proc.update_bind_apply, r.unreadSize]
  have advanced : (f.advance n).readPos = f.readPos + min n f.unread.length := rfl
  split
  · rename_i none
    have nothing : f.unread.take n = [] := by
      apply List.length_eq_zero_iff.mp
      rw [List.length_take]; exact none
    have stays : f.advance n = f := by
      simp only [FlatBuffer.advance, none, Nat.add_zero]
    refine ⟨nothing.symm, ?_⟩
    rw [stays]
    exact r
  · rename_i some
    rcases r with ⟨b, rfl⟩ | ⟨p, hf, hr⟩
    · exact absurd (Nat.min_eq_zero_iff.mpr (.inr rfl)) some
    · have size : f.unread.length = s.writePos - s.readPos := by
        rw [FlatBuffer.unread, List.length_drop, hf, hr, p.length_contents]
      have le := p.read_le
      have avail : s.readPos + min n f.unread.length ≤ s.writePos := by omega
      rw [readLoop_spec _ s _ p avail (Nat.le_refl _), slice_eq hf hr avail]
      refine ⟨?_, .inr ⟨p.readAt avail, hf, ?_⟩⟩
      · rw [← List.take_take, List.take_length]
      · rw [advanced, hr]; rfl

theorem setReadPosition_refines (pos : Nat) :
    Proc.Refines Rep (setReadPosition pos) (FlatBuffer.setReadPosition pos) := by
  intro s f r
  by_cases h : pos ≤ f.bytes.length
  · rw [FlatBuffer.setReadPosition, dif_pos h]
    rcases r with ⟨b, rfl⟩ | ⟨p, hf, hr⟩
    · obtain rfl : pos = 0 := Nat.le_zero.mp h
      have root : s.root = none := if_pos b.blocks
      simp only [setReadPosition, Proc.read_bind_apply, b.writePos, gt_iff_lt, Nat.lt_irrefl, if_false,
        Nat.zero_div, root, walk, Proc.pure_bind_apply, Proc.update_apply]
      exact ⟨rfl, .inl ⟨⟨b.size_pos, b.blocks, b.capacity, rfl, rfl, rfl, b.writeCur⟩, rfl⟩⟩
    · have le : pos ≤ s.writePos := by rw [hf, p.length_contents] at h; exact h
      rw [setReadPosition_placed p le]
      exact ⟨rfl, .inr ⟨p.readAt le, hf, rfl⟩⟩
  · rw [FlatBuffer.setReadPosition, dif_neg h]
    have gt : pos > s.writePos := by rw [r.writePos]; omega
    simp only [setReadPosition, Proc.read_bind_apply, if_pos gt, Proc.raise_apply]
    exact ⟨rfl, r⟩

theorem getReadBuffers_spec (r : Rep s f) (n : Nat) :
    ∃ iovs, getReadBuffers n s = .done iovs s ∧ s.gather iovs = f.unread.take n := by
  simp only [getReadBuffers, Proc.read_bind_apply, r.unreadSize]
  split
  · rename_i none
    refine ⟨[], rfl, ?_⟩
    symm
    apply List.length_eq_zero_iff.mp
    rw [List.length_take]; exact none
  · rename_i some
    rcases r with ⟨b, rfl⟩ | ⟨p, hf, hr⟩
    · exact absurd (Nat.min_eq_zero_iff.mpr (.inr rfl)) some
    · have size : f.unread.length = s.writePos - s.readPos := by
        rw [FlatBuffer.unread, List.length_drop, hf, hr, p.length_contents]
      have le := p.read_le
      have lt := p.write_lt
      obtain ⟨iovs, run, covers⟩ := buffersLoop_spec p (min n f.unread.length) s.readPos
        (min n f.unread.length) (by omega) (Nat.le_refl _)
      refine ⟨iovs, ?_, ?_⟩
      · rw [p.readCur]; exact run
      · rw [gather_covers p.uniform iovs _ _ covers, slice_eq hf hr (by omega), ← List.take_take,
          List.take_length]

/-- The regions have the asked length in total. -/
theorem Covers.total (iovs : List IoVec) : ∀ (pos length : Nat), Covers s pos length iovs →
    (iovs.map (·.len)).sum = length := by
  induction iovs with
  | nil => intro pos length h; exact h.symm
  | cons v iovs ih =>
    rintro pos length ⟨_, _, _, le, rest⟩
    rw [List.map_cons, List.sum_cons, ih _ _ rest]
    omega

theorem Rep.sameView {s' : ByteArray} (r : Rep s f) (placed : s'.Placed) (view : SameView s s') :
    Rep s' f :=
  .inr ⟨placed, by rw [view.contents, r.contents], by rw [view.readPos, r.readPos]⟩

/-- The regions behind the write position, in an array that has made room for them. -/
theorem getWriteBuffers_spec (layout : s.Blank ∨ s.Placed) {length : Nat} (some_byte : length ≠ 0) :
    ∃ iovs s₁, getWriteBuffers length s = .done iovs s₁ ∧ s₁.Placed ∧ SameView s s₁ ∧
      s₁.writePos + length < s₁.capacity ∧ Covers s₁ s₁.writePos length iovs := by
  obtain ⟨s₁, grow, p, view, room⟩ := expandCapacity_spec length layout
  obtain ⟨iovs, run, covers⟩ := buffersLoop_spec p length s₁.writePos length room (Nat.le_refl _)
  refine ⟨iovs, s₁, ?_, p, view, room, covers⟩
  rw [getWriteBuffers, if_neg some_byte, Proc.bind_done _ grow, Proc.read_bind_apply, p.writeCur]
  exact run

/-- Getting regions behind the write position, filling a front part of them and moving the write
position behind it appends to the flat buffer. -/
theorem storeBuffers_refines (host : Host) (length : Nat) (data : List UInt8) (fits : data.length ≤ length) :
    Proc.Refines Rep (apply host (.storeBuffers length data fits))
      (FlatBuffer.apply host (.storeBuffers length data fits)) := by
  intro s f r
  by_cases zero : length = 0
  · subst zero
    obtain rfl : data = [] := List.length_eq_zero_iff.mp (Nat.le_zero.mp fits)
    have flat : FlatBuffer.apply host (.storeBuffers 0 [] fits) f = .done (.count 0) f := by
      simp only [FlatBuffer.apply, FlatBuffer.write, Proc.update_bind_apply, List.append_nil,
        Proc.pure_apply]
    have start : apply host (.storeBuffers 0 [] fits) s =
        (setWritePosition s.writePos >>= fun _ => pure (.count 0)) s := by
      simp only [ByteArray.apply, getWriteBuffers, if_true, Proc.pure_bind_apply,
        Proc.update_bind_apply, scatter, Proc.read_bind_apply, getWritePosition, List.length_nil,
        Nat.add_zero, List.map_nil, List.sum_nil]
    rw [flat, start]
    rcases r with ⟨b, rfl⟩ | ⟨p, hf, hr⟩
    · have root : s.root = none := if_pos b.blocks
      simp only [setWritePosition, b.writePos, b.capacity, gt_iff_lt, Nat.lt_irrefl, if_false,
        Proc.bind_apply, Proc.read, Proc.pure_apply, Nat.zero_div, walk, root, Proc.update_apply]
      exact ⟨rfl, .inl ⟨⟨b.size_pos, b.blocks, rfl, b.readPos, rfl, b.readCur, rfl⟩, rfl⟩⟩
    · rw [Proc.bind_done _ (setWritePosition_placed p p.write_lt), p.writeAt_writePos]
      exact ⟨rfl, .inr ⟨p, hf, hr⟩⟩
  · obtain ⟨iovs, s₁, buffers, p, view, room, covers⟩ := getWriteBuffers_spec r.layout zero
    have bound : s₁.writePos + length ≤ s₁.blocks.flatten.length := by
      rw [← p.capacity_le_flatten]; omega
    obtain ⟨blocks, filled, u, count, flat⟩ :=
      scatter_covers iovs s₁ s₁.writePos length data p.uniform covers fits bound
    -- the array after the store, before the write position moves
    have placed : ({ s₁ with blocks } : ByteArray).Placed :=
      ⟨p.size_pos, u, by show s₁.capacity = _; rw [p.capacity, ← count], p.read_le, p.write_lt,
        p.readCur, p.writeCur⟩
    have below : s₁.writePos + data.length < ({ s₁ with blocks } : ByteArray).capacity := by
      show _ < s₁.capacity
      omega
    have le := p.read_le
    have written : (splice s₁.blocks.flatten s₁.writePos data).take (s₁.writePos + data.length) =
        s₁.contents ++ data := take_splice (by omega)
    rw [ByteArray.apply, Proc.bind_done _ buffers, Proc.update_bind_apply, filled,
      Proc.read_bind_apply, getWritePosition, Proc.bind_done _ (setWritePosition_placed placed below),
      Proc.pure_apply, Covers.total iovs _ _ covers]
    refine ⟨rfl, .inr ⟨⟨p.size_pos, u, placed.capacity, ?_, below, p.readCur, rfl⟩, ?_, ?_⟩⟩
    · show s₁.readPos ≤ s₁.writePos + data.length
      omega
    · show f.bytes ++ data = blocks.flatten.take (s₁.writePos + data.length)
      rw [flat, written, view.contents, r.contents]
    · show f.readPos = s₁.readPos
      rw [view.readPos, r.readPos]

theorem toHexString_refines : Proc.Refines Rep toHexString (do
    let f ← Proc.read
    pure (f.unread.flatMap hexByte)) := by
  intro s f r
  obtain ⟨s₁, taken, r₁⟩ := (read_refines f.unread.length).done r rfl
  have le : s.readPos ≤ f.bytes.length := by rw [r.readPos]; exact f.le
  have same : FlatBuffer.setReadPosition s.readPos (f.advance f.unread.length) = .done () f := by
    rw [FlatBuffer.setReadPosition, dif_pos (show s.readPos ≤ (f.advance _).bytes.length from le)]
    simp only [FlatBuffer.advance, r.readPos]
  obtain ⟨s₂, moved, r₂⟩ := (setReadPosition_refines s.readPos).done r₁ same
  simp only [toHexString, Proc.read_bind_apply, r.unreadSize, getReadPosition]
  rw [Proc.bind_done _ taken, Proc.bind_done _ moved, List.take_length]
  exact ⟨rfl, r₂⟩

theorem clear_refines : Proc.Refines Rep clear (Proc.update fun _ => FlatBuffer.empty) := by
  intro s f r
  have size_pos : 0 < s.blockSize := r.layout.elim (·.size_pos) (·.size_pos)
  exact ⟨rfl, .inl ⟨⟨size_pos, rfl, rfl, rfl, rfl, rfl, rfl⟩, rfl⟩⟩

/-! ## The typed writers -/

/-- Two writes in a row are one write of both pieces. -/
theorem flat_write_write (a b : List UInt8) :
    (do FlatBuffer.write a; FlatBuffer.write b) = FlatBuffer.write (a ++ b) := by
  funext f
  simp only [FlatBuffer.write, Proc.update_bind_apply, Proc.update_apply, List.append_assoc]

theorem writer_refines (host : Host) (writer : Writer) :
    Proc.Refines Rep (writer.call host) (FlatBuffer.write (writer.bytes host)) := by
  cases writer with
  | stringWithLength value =>
    rw [Writer.bytes, ← flat_write_write]
    exact (write_refines _).bind fun _ => write_refines value
  | _ =>
    simp only [Writer.call, writeFixB, writeFixS, writeFixL, writeFixLL, writeVarL, writeVarUL,
      writeVarLL, writeVarULL, writeFloat, writeDouble, writeString]
    exact write_refines _

/-! ## The typed readers -/

theorem rewind_spec (r : Rep s f) {n : Nat} (h : n ≤ f.readPos) {α : Type} (what : String) :
    ∃ s', (rewind n what : M α) s = .thrown (.outOfRange what) s' ∧ Rep s' (f.back n) := by
  have bound := (f.back n).le
  have flat : FlatBuffer.setReadPosition (f.readPos - n) f = .done () (f.back n) := by
    rw [FlatBuffer.setReadPosition, dif_pos (show f.readPos - n ≤ f.bytes.length from bound)]
    rfl
  obtain ⟨s', moved, r'⟩ := (setReadPosition_refines (f.readPos - n)).done r flat
  refine ⟨s', ?_, r'⟩
  simp only [rewind, Proc.read_bind_apply, r.readPos, sizeSub_of_le h]
  rw [Proc.bind_done _ moved, Proc.raise_apply]

/-- Taking bytes and giving all of them back, with `n` more, is giving `n` back. -/
theorem back_advance (f : FlatBuffer) (k n : Nat) :
    (f.advance k).back (min k f.unread.length + n) = f.back n := by
  simp only [FlatBuffer.advance, FlatBuffer.back, FlatBuffer.mk.injEq, true_and]
  omega

theorem back_zero (f : FlatBuffer) : f.back 0 = f := rfl

/-- The body of the fixed-size readers: all `n` bytes, or an exception with the read index `back`
before where it was. -/
theorem readExact_spec (r : Rep s f) (n : Nat) {back : Nat} (hb : back ≤ f.readPos) (what : String) :
    if n ≤ f.unread.length then
      ∃ s', readExact n back what s = .done (f.unread.take n) s' ∧ Rep s' (f.advance n)
    else ∃ s', readExact n back what s = .thrown (.outOfRange what) s' ∧ Rep s' (f.back back) := by
  obtain ⟨s₁, taken, r₁⟩ := (read_refines n).done r rfl
  have length : (f.unread.take n).length = min n f.unread.length := List.length_take
  simp only [readExact]
  rw [Proc.bind_done _ taken, length]
  split
  · rename_i enough
    refine ⟨s₁, ?_, r₁⟩
    rw [if_neg (by omega), Proc.pure_apply]
  · rename_i short
    have reached : (f.advance n).readPos = f.readPos + min n f.unread.length := rfl
    obtain ⟨s', thrown, r'⟩ := rewind_spec r₁
      (by rw [reached]; omega : min n f.unread.length + back ≤ (f.advance n).readPos) what
    refine ⟨s', ?_, ?_⟩
    · rw [if_pos (by omega)]
      exact thrown
    · rwa [back_advance] at r'

theorem readExact_refines (n : Nat) (what : String) :
    Proc.Refines Rep (readExact n 0 what) (FlatBuffer.readExact n what) := by
  intro s f r
  have spec := readExact_spec r n (Nat.zero_le _) what
  simp only [FlatBuffer.readExact, Proc.read_bind_apply]
  split
  · rename_i enough
    rw [if_pos enough] at spec
    obtain ⟨s', run, r'⟩ := spec
    rw [run]
    exact ⟨rfl, r'⟩
  · rename_i short
    rw [if_neg short] at spec
    obtain ⟨s', run, r'⟩ := spec
    rw [run]
    exact ⟨rfl, r'⟩

theorem readFix_refines {w : Nat} (host : Host) (n : Nat) (convert : BitVec w → BitVec w)
    (what : String) :
    Proc.Refines Rep (readFix host n convert what) (FlatBuffer.readFix host n convert what) :=
  (readExact_refines n what).map _

theorem readStringWithLength_refines (n : Nat) :
    Proc.Refines Rep (readStringWithLength n) (FlatBuffer.readStringWithLength n) := by
  intro s f r
  rw [readStringWithLength, FlatBuffer.readStringWithLength]
  split
  · exact ⟨rfl, r⟩
  · exact readExact_refines n _ s f r

theorem readString_refines (host : Host) :
    Proc.Refines Rep (readString host) (FlatBuffer.readString host) := by
  intro s f r
  have lengthRead := readFix_refines host 4 (Endian.networkToHost32 host)
    "ByteArray::read_fix_ul out of range"
  have agree := lengthRead s f r
  rw [FlatBuffer.readString]
  by_cases enough : 4 ≤ f.unread.length
  · have flat : FlatBuffer.readFix host 4 (Endian.networkToHost32 host)
        "ByteArray::read_fix_ul out of range" f =
        .done (Endian.networkToHost32 host (BitVec.ofNat 32 (host.ofMemory (f.unread.take 4))))
          (f.advance 4) := by
      simp only [FlatBuffer.readFix, FlatBuffer.readExact, Proc.bind_apply, Proc.read, if_pos enough,
        FlatBuffer.read, Proc.update_apply, Proc.pure_apply]
    obtain ⟨s₁, run, r₁⟩ := lengthRead.done r flat
    have front : readString host s = readExact (Endian.networkToHost32 host
        (BitVec.ofNat 32 (host.ofMemory (f.unread.take 4)))).toNat 4
        "ByteArray::read_string out of range" s₁ := by
      rw [readString, readFixUL, Proc.bind_done _ run]
    rw [flat, front]
    have reached : (f.advance 4).readPos = f.readPos + min 4 f.unread.length := rfl
    have spec := readExact_spec r₁ (Endian.networkToHost32 host
      (BitVec.ofNat 32 (host.ofMemory (f.unread.take 4)))).toNat
      (by rw [reached]; omega : 4 ≤ (f.advance 4).readPos) "ByteArray::read_string out of range"
    have undo := back_advance f 4 0
    rw [Nat.min_eq_left enough, Nat.add_zero, back_zero] at undo
    simp only
    split
    · rename_i fits
      rw [if_pos fits] at spec
      obtain ⟨s', run', r'⟩ := spec
      rw [run']
      exact ⟨rfl, r'⟩
    · rename_i short
      rw [if_neg short, undo] at spec
      obtain ⟨s', run', r'⟩ := spec
      rw [run']
      exact ⟨rfl, r'⟩
  · have flat : FlatBuffer.readFix host 4 (Endian.networkToHost32 host)
        "ByteArray::read_fix_ul out of range" f =
        .thrown (.outOfRange "ByteArray::read_fix_ul out of range") f := by
      simp only [FlatBuffer.readFix, FlatBuffer.readExact, Proc.bind_apply, Proc.read, if_neg enough,
        Proc.raise_apply]
    rw [flat] at agree ⊢
    cases run : readFix host 4 (Endian.networkToHost32 host) "ByteArray::read_fix_ul out of range" s with
    | thrown e s' =>
      rw [run] at agree
      rw [readString, readFixUL, Proc.bind_thrown _ run]
      exact agree
    | done v s' => rw [run] at agree; exact agree.elim
    | stuck => rw [run] at agree; exact agree.elim

/-! ## Varints -/

/-- Masking the low seven bits of a byte below `0x80` changes nothing. -/
theorem low_group {w : Nat} {b : UInt8} (h : b.toNat < 0x80) :
    BitVec.ofNat w b.toNat &&& 0x7F#w = BitVec.ofNat w b.toNat := by
  have mask : b.toNat &&& 0x7F = b.toNat := by
    rw [show (0x7F : Nat) = 2 ^ 7 - 1 by decide, Nat.and_two_pow_sub_one_eq_mod]
    exact Nat.mod_eq_of_lt h
  rw [← BitVec.ofNat_and, mask]

/-- The varint loop reads the item the flat buffer sees, or throws with the read index `i` bytes
back, where the item began. -/
theorem readVarLoop_spec {w : Nat} (what : String) (n : Nat) : ∀ (i : Nat) (result : BitVec w)
    (s : ByteArray) (f : FlatBuffer), Rep s f → i ≤ f.readPos →
    match FlatBuffer.varItem n f.unread with
    | some item => ∃ s', readVarLoop what n i result s =
        .done (FlatBuffer.varValue i result item) s' ∧ Rep s' (f.advance item.length)
    | none => ∃ s', readVarLoop what n i result s = .thrown (.outOfRange what) s' ∧
        Rep s' (f.back i) := by
  induction n with
  | zero =>
    intro i result s f r _
    refine ⟨s, rfl, ?_⟩
    have stays : f.advance ([] : List UInt8).length = f := by
      simp only [FlatBuffer.advance, List.length_nil, Nat.zero_min, Nat.add_zero]
    rw [stays]
    exact r
  | succ n ih =>
    intro i result s f r hi
    obtain ⟨s₁, taken, r₁⟩ := (read_refines 1).done r rfl
    have reached : (f.advance 1).readPos = f.readPos + min 1 f.unread.length := rfl
    have behind : (f.advance 1).unread = f.unread.drop (min 1 f.unread.length) := by
      rw [FlatBuffer.unread, reached, FlatBuffer.unread, List.drop_drop]
      rfl
    have undo := back_advance f 1 i
    rw [readVarLoop, Proc.bind_done _ taken]
    cases view : f.unread with
    | nil =>
      rw [view, List.length_nil, Nat.min_zero] at undo reached
      obtain ⟨s', thrown, r'⟩ := rewind_spec r₁ (by rw [reached]; omega : 0 + i ≤ _) what
      exact ⟨s', thrown, by rwa [undo] at r'⟩
    | cons b rest =>
      have one : min 1 (b :: rest).length = 1 := by rw [List.length_cons]; omega
      rw [view, one] at undo reached
      rw [view, one, List.drop_succ_cons, List.drop_zero] at behind
      simp only [List.take_succ_cons, List.take_zero, FlatBuffer.varItem]
      by_cases last : b.toNat < 0x80
      · rw [if_pos last, if_pos last]
        refine ⟨s₁, ?_, r₁⟩
        simp only [FlatBuffer.varValue, low_group last, Proc.pure_apply]
      · rw [if_neg last, if_neg last]
        have inner := ih (i + 1) (result ||| ((BitVec.ofNat w b.toNat &&& 0x7F#w) <<< (7 * i))) s₁
          (f.advance 1) r₁ (by rw [reached]; omega)
        rw [behind] at inner
        cases item : FlatBuffer.varItem n rest with
        | none =>
          rw [item] at inner
          obtain ⟨s', run, r'⟩ := inner
          rw [Nat.add_comm i 1, undo] at r'
          exact ⟨s', run, r'⟩
        | some bytes =>
          rw [item] at inner
          obtain ⟨s', run, r'⟩ := inner
          refine ⟨s', run, ?_⟩
          have join : (f.advance 1).advance bytes.length = f.advance (b :: bytes).length := by
            simp only [FlatBuffer.advance, FlatBuffer.mk.injEq, true_and]
            have := congrArg List.length behind
            simp only [FlatBuffer.advance] at this
            rw [this, view]
            simp only [List.length_cons]
            omega
          rwa [join] at r'

theorem readVar_refines (w n : Nat) (what : String) :
    Proc.Refines Rep (readVarLoop what n 0 0#w) (FlatBuffer.readVar w n what) := by
  intro s f r
  have spec := readVarLoop_spec what n 0 0#w s f r (Nat.zero_le _)
  simp only [FlatBuffer.readVar, Proc.read_bind_apply]
  cases item : FlatBuffer.varItem n f.unread with
  | some bytes =>
    rw [item] at spec
    obtain ⟨s', run, r'⟩ := spec
    rw [run]
    exact ⟨rfl, r'⟩
  | none =>
    rw [item] at spec
    obtain ⟨s', run, r'⟩ := spec
    rw [run]
    exact ⟨rfl, r'⟩

theorem reader_refines (host : Host) (reader : Reader) :
    Proc.Refines Rep (reader.call host) (reader.flat host) := by
  cases reader with
  | varL =>
    simp only [Reader.call, readVarL, bind_assoc, pure_bind]
    exact (readVar_refines 32 5 _).map _
  | varUL => exact (readVar_refines 32 5 _).map _
  | varLL =>
    simp only [Reader.call, readVarLL, bind_assoc, pure_bind]
    exact (readVar_refines 64 10 _).map _
  | varULL => exact (readVar_refines 64 10 _).map _
  | string => exact (readString_refines host).map _
  | stringWithLength n => exact (readStringWithLength_refines n).map _
  | _ => exact (readFix_refines host _ _ _).map _

/-! ## Every call, every sequence of calls -/

theorem apply_refines (host : Host) (op : Op) :
    Proc.Refines Rep (apply host op) (FlatBuffer.apply host op) := by
  cases op with
  | write data => exact (write_refines data).map _
  | read size => exact (read_refines size).map _
  | put writer => exact (writer_refines host writer).map _
  | get reader => exact reader_refines host reader
  | setReadPosition pos => exact (setReadPosition_refines pos).map _
  | getReadBuffers length =>
    intro s f r
    obtain ⟨iovs, run, held⟩ := getReadBuffers_spec r length
    rw [ByteArray.apply, Proc.bind_done _ run, Proc.read_bind_apply, held]
    exact ⟨rfl, r⟩
  | storeBuffers length data fits => exact storeBuffers_refines host length data fits
  | toHexString =>
    have mapped := toHexString_refines.map Value.text
    rwa [bind_assoc] at mapped
  | clear => exact clear_refines.map _

/-- A fresh array stands for the empty buffer. -/
theorem rep_init {blockSize : Nat} (h : 1 ≤ blockSize) (junk : Nat → Nat → UInt8) :
    Rep (init blockSize junk) FlatBuffer.empty := .inl ⟨init_blank h junk, rfl⟩

/-- A byte array cannot be told from the flat buffer. For every block size and every sequence of
calls on a fresh array, each call gives the value or the exception the flat buffer gives, and the
positions and sizes between the calls are those of the flat buffer; no call follows a null pointer.
So neither the block size nor what the allocator returns can be observed. -/
theorem observe_eq_flat (host : Host) {blockSize : Nat} (hsize : 1 ≤ blockSize)
    (junk : Nat → Nat → UInt8) (ops : List Op) :
    Proc.observe (apply host) positions ops (init blockSize junk) =
        Proc.observe (FlatBuffer.apply host) FlatBuffer.positions ops FlatBuffer.empty ∧
      (Proc.observe (apply host) positions ops (init blockSize junk)).isSome ∧
      ∀ (blockSize' : Nat) (junk' : Nat → Nat → UInt8), 1 ≤ blockSize' →
        Proc.observe (apply host) positions ops (init blockSize' junk') =
          Proc.observe (apply host) positions ops (init blockSize junk) := by
  have flat := fun (size : Nat) (h : 1 ≤ size) (fill : Nat → Nat → UInt8) =>
    Proc.observe_eq (apply_refines host) (fun _ _ r => r.positions) ops (init size fill)
      FlatBuffer.empty (rep_init h fill)
  refine ⟨(flat blockSize hsize junk).1, (flat blockSize hsize junk).2, ?_⟩
  intro blockSize' junk' hsize'
  rw [(flat blockSize' hsize' junk').1, (flat blockSize hsize junk).1]

/-- Blocks of one byte against blocks of three: a write across blocks, a read, a typed round trip. -/
theorem observe_eq_flat_one_three :
    Proc.observe (apply .little) positions
        [.write [1, 2, 3, 4], .read 2, .put (.fixL 0x01020304#32), .setReadPosition 4, .get .fixUL,
          .get .fixUB, .toHexString, .clear] (init 3 fun _ _ => 0xAA) =
      Proc.observe (apply .little) positions
        [.write [1, 2, 3, 4], .read 2, .put (.fixL 0x01020304#32), .setReadPosition 4, .get .fixUL,
          .get .fixUB, .toHexString, .clear] (init 1 fun _ _ => 0x55) :=
  (observe_eq_flat .little (Nat.le_refl 1) (fun _ _ => 0x55) _).2.2 3 (fun _ _ => 0xAA) (by decide)

end Sylar.ByteArray
