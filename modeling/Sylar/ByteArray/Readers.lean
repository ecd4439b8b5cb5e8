import Sylar.ByteArray.Codec
import Sylar.Lib.Run

/-!
# The typed readers at the end of the bytes and at their limits

A typed reader that meets the end of the unread bytes inside its item has already moved the read
position, over several blocks perhaps, and goes back by an amount it counts by hand. At the flat level
nothing is left of that. What remains to be said about the block list is that the state after the
exception IS the state before the call, its cached cursor included: a read moves the read position and
its cursor only (`ReadFrame`), and the cursor is determined by the position (`Rep.readCur`). One reader
answers differently: `read_string_with_length` makes room for its string first, and a length above
`max_size()` is a `length_error` whatever the bytes are (`reader_allOrNothing_iff`).

The varint readers stop after 5 and 10 bytes whether or not the last of these ends a varint, and the
last group is shifted out of the top of the result where it does not fit. `readVar_sound_iff` says for
which bytes that happens.

The string writer with a length and the string reader with a length do not read and write the same
format. No string survives the two (`string_never_round_trips`).
-/

namespace Sylar

open Lib Endian

namespace ByteArray

variable {s s' : ByteArray} {f : FlatBuffer} {host : Host} {blockSize : Nat}
  {junk : Nat → Nat → UInt8}

/-! ## Reached states -/

/-- The states a sequence of calls on a fresh array can lead to, exceptions caught between them. -/
def Reached (host : Host) (blockSize : Nat) (junk : Nat → Nat → UInt8) (s : ByteArray) : Prop :=
  ∃ ops, Run (Proc.Called (apply host)) (init blockSize junk) ops s

/-- Every reached state stands for a flat buffer. -/
theorem Reached.rep (hsize : 1 ≤ blockSize) (h : Reached host blockSize junk s) :
    ∃ f, Rep s f := by
  obtain ⟨ops, run⟩ := h
  have keep : ∀ (s : ByteArray) (op : Op) (s' : ByteArray), (∃ f, Rep s f) →
      Proc.Called (apply host) s op s' → ∃ f, Rep s' f := by
    intro s op s' rep called
    obtain ⟨f, r⟩ := rep
    exact (apply_refines host op).called r called
  exact run.invariant keep ⟨_, rep_init hsize junk⟩

/-- The bytes behind the read position. -/
def unread (s : ByteArray) : List UInt8 := s.contents.drop s.readPos

theorem Rep.unread (r : Rep s f) : s.unread = f.unread := by
  rw [ByteArray.unread, r.contents, r.readPos]
  rfl

/-! ## What a read can change -/

/-- Only the read position and its cursor differ. -/
def ReadFrame (s s' : ByteArray) : Prop :=
  ∃ pos cur, s' = { s with readPos := pos, readCur := cur }

theorem ReadFrame.refl (s : ByteArray) : ReadFrame s s := ⟨s.readPos, s.readCur, rfl⟩

theorem ReadFrame.trans (a b c : ByteArray) (h : ReadFrame a b) (k : ReadFrame b c) :
    ReadFrame a c := by
  obtain ⟨_, _, rfl⟩ := h
  obtain ⟨pos, cur, rfl⟩ := k
  exact ⟨pos, cur, rfl⟩

/-- The cached read cursor is determined by the rest of the state. -/
theorem Rep.readCur (r : Rep s f) :
    s.readCur = if s.blocks = [] then none else some (s.readPos / s.blockSize) := by
  rcases r with ⟨b, _⟩ | ⟨p, _⟩
  · rw [if_pos b.blocks, b.readCur]
  · have some_block : s.blocks ≠ [] := by
      intro none
      have root := p.root
      rw [ByteArray.root, if_pos none] at root
      cases root
    rw [if_neg some_block, p.readCur]

/-- A read that ends where it began, as the flat buffer sees it, has changed nothing at all. -/
theorem ReadFrame.eq_of_rep (h : ReadFrame s s') (r : Rep s f) (r' : Rep s' f) : s' = s := by
  obtain ⟨pos, cur, rfl⟩ := h
  have position : pos = s.readPos := r'.readPos.trans r.readPos.symm
  have cursor : cur = s.readCur := by
    rw [r.readCur, ← position]
    exact r'.readCur
  rw [position, cursor]

theorem walk_keeps (s : ByteArray) (n : Nat) : ∀ cur, Proc.Keeps ReadFrame (walk s n cur) := by
  induction n with
  | zero => intro cur; exact .pure ReadFrame.refl _
  | succ n ih =>
    intro cur
    exact .bind ReadFrame.trans (.demand ReadFrame.refl cur) fun i => ih _

theorem setReadPosition_keeps (pos : Nat) : Proc.Keeps ReadFrame (setReadPosition pos) := by
  refine .read_bind fun s => ?_
  split
  · exact .raise ReadFrame.refl _
  · exact .bind ReadFrame.trans (walk_keeps s _ _) fun cur => .update fun t => ⟨_, _, rfl⟩

end ByteArray

/-! ## Items -/

/-- An item of `n` bytes at the head of `bytes`: its size, `none` when they end inside it. -/
def fixedSize (n : Nat) (bytes : List UInt8) : Option Nat :=
  if n ≤ bytes.length then some n else none

/-- The size of a reader's item at the head of `bytes`, `none` when they end inside it. -/
def Reader.itemSize : Reader → List UInt8 → Option Nat
  | .fixB, bytes => fixedSize 1 bytes
  | .fixUB, bytes => fixedSize 1 bytes
  | .fixS, bytes => fixedSize 2 bytes
  | .fixUS, bytes => fixedSize 2 bytes
  | .fixL, bytes => fixedSize 4 bytes
  | .fixUL, bytes => fixedSize 4 bytes
  | .fixLL, bytes => fixedSize 8 bytes
  | .fixULL, bytes => fixedSize 8 bytes
  | .varL, bytes => (FlatBuffer.varItem 5 bytes).map List.length
  | .varUL, bytes => (FlatBuffer.varItem 5 bytes).map List.length
  | .varLL, bytes => (FlatBuffer.varItem 10 bytes).map List.length
  | .varULL, bytes => (FlatBuffer.varItem 10 bytes).map List.length
  | .float, bytes => fixedSize 4 bytes
  | .double, bytes => fixedSize 8 bytes
  -- a length of four bytes in network order, then that many bytes
  | .string, bytes =>
    (fixedSize 4 bytes).bind fun _ => fixedSize (4 + beValue (bytes.take 4)) bytes
  | .stringWithLength n, bytes => fixedSize n bytes

namespace FlatBuffer

variable {f : FlatBuffer}

/-- A reader of the flat buffer takes its whole item, or throws and takes nothing. -/
def TakesItem (size : Option Nat) (f : FlatBuffer) {α : Type} (out : Outcome Exn FlatBuffer α) : Prop :=
  match size with
  | some n => n ≤ f.unread.length ∧ ∃ v, out = .done v (f.advance n)
  | none => ∃ what, out = .thrown (.outOfRange what) f

theorem TakesItem.map {size : Option Nat} {α β : Type} {p : M α} (g : α → β)
    (h : TakesItem size f (p f)) : TakesItem size f ((p >>= fun a => pure (g a)) f) := by
  cases size with
  | some n =>
    obtain ⟨le, v, run⟩ := h
    exact ⟨le, g v, Proc.bind_done _ run⟩
  | none =>
    obtain ⟨what, run⟩ := h
    exact ⟨what, Proc.bind_thrown _ run⟩

/-- A varint item is a front part of the bytes. -/
theorem varItem_prefix (n : Nat) : ∀ {bytes item : List UInt8}, varItem n bytes = some item →
    ∃ rest, bytes = item ++ rest := by
  induction n with
  | zero =>
    intro bytes item h
    cases h
    exact ⟨bytes, rfl⟩
  | succ n ih =>
    intro bytes item h
    cases bytes with
    | nil => cases h
    | cons b bs =>
      rw [varItem] at h
      split at h
      · cases h
        exact ⟨bs, rfl⟩
      · obtain ⟨rest, inner, rfl⟩ := Option.map_eq_some_iff.mp h
        obtain ⟨behind, rfl⟩ := ih inner
        exact ⟨behind, rfl⟩

/-- The length in front of a string, as the fixed-width reader of this host sees it. -/
theorem networkToHost32_ofMemory (host : Host) {bytes : List UInt8} (four : bytes.length = 4) :
    (networkToHost32 host (BitVec.ofNat 32 (host.ofMemory bytes))).toNat = beValue bytes := by
  have stored := host.ofMemory_lt bytes
  have image := host.toMemory_ofMemory bytes
  have value := beValue_lt bytes
  rw [four] at stored image value
  have width : (256 : Nat) ^ 4 = 2 ^ 32 := by decide
  rw [width] at stored value
  rw [networkToHost32, BitVec.toNat_ofNat, BitVec.toNat_ofNat, Nat.mod_eq_of_lt stored, ntoh, image]
  exact Nat.mod_eq_of_lt value

/-- The buffer after a write of `data`. -/
def append (f : FlatBuffer) (data : List UInt8) : FlatBuffer :=
  ⟨f.bytes ++ data, f.readPos, by
    have := f.le
    rw [List.length_append]
    omega⟩

theorem append_nil (f : FlatBuffer) : f.append [] = f := by
  simp only [append, List.append_nil]

theorem append_append (f : FlatBuffer) (a b : List UInt8) :
    (f.append a).append b = f.append (a ++ b) := by
  simp only [append, List.append_assoc]

theorem advance_zero (f : FlatBuffer) : f.advance 0 = f := by
  simp only [advance, Nat.zero_min, Nat.add_zero]

theorem unread_advance {m : Nat} (h : m ≤ f.unread.length) :
    (f.advance m).unread = f.unread.drop m := by
  simp only [unread, advance, List.drop_drop] at h ⊢
  rw [Nat.min_eq_left h]

theorem length_unread_advance {m : Nat} (h : m ≤ f.unread.length) :
    (f.advance m).unread.length = f.unread.length - m := by
  rw [unread_advance h, List.length_drop]

/-- Setting the read position further on, inside the bytes, is advancing. -/
theorem setReadPosition_advance {m : Nat} (h : m ≤ f.unread.length) :
    setReadPosition (f.readPos + m) f = .done () (f.advance m) := by
  have le := f.le
  have inside : f.readPos + m ≤ f.bytes.length := by
    rw [unread, List.length_drop] at h
    omega
  rw [setReadPosition, dif_pos inside]
  simp only [advance, Nat.min_eq_left h]

/-- Two advances that both stay inside the unread bytes. -/
theorem advance_advance {m n : Nat} (h : m + n ≤ f.unread.length) :
    (f.advance m).advance n = f.advance (m + n) := by
  have behind := length_unread_advance (Nat.le_of_add_right_le h)
  simp only [advance, FlatBuffer.mk.injEq, true_and] at behind ⊢
  rw [behind]
  omega

/-- The string reader in one piece: the length, then the bytes, both there or nothing taken. -/
theorem readString_eq (host : Host) (f : FlatBuffer) :
    readString host f =
      if 4 ≤ f.unread.length then
        if 4 + beValue (f.unread.take 4) ≤ f.unread.length then
          .done ((f.advance 4).unread.take (beValue (f.unread.take 4)))
            (f.advance (4 + beValue (f.unread.take 4)))
        else .thrown (.outOfRange "ByteArray::read_string out of range") f
      else .thrown (.outOfRange "ByteArray::read_fix_ul out of range") f := by
  by_cases enough : 4 ≤ f.unread.length
  · have four : (f.unread.take 4).length = 4 := by rw [List.length_take]; omega
    have flat : readFix host 4 (networkToHost32 host) "ByteArray::read_fix_ul out of range" f =
        .done (networkToHost32 host (BitVec.ofNat 32 (host.ofMemory (f.unread.take 4))))
          (f.advance 4) := by
      simp only [readFix, readExact, Proc.bind_apply, Proc.read, if_pos enough, read,
        Proc.update_apply, Proc.pure_apply]
    have behind := length_unread_advance enough
    rw [readString, flat]
    simp only [networkToHost32_ofMemory host four, behind]
    by_cases fits : 4 + beValue (f.unread.take 4) ≤ f.unread.length
    · rw [if_pos enough, if_pos fits, if_pos (by omega), ← advance_advance fits]
      rfl
    · rw [if_pos enough, if_neg fits, if_neg (by omega)]
  · have flat : readFix host 4 (networkToHost32 host) "ByteArray::read_fix_ul out of range" f =
        .thrown (.outOfRange "ByteArray::read_fix_ul out of range") f := by
      simp only [readFix, readExact, Proc.bind_apply, Proc.read, if_neg enough, Proc.raise_apply]
    rw [readString, flat, if_neg enough]

/-- What a string that was read says about the bytes: its length stands in front of it. -/
theorem readString_done {host : Host} {f f' : FlatBuffer} {v : List UInt8}
    (h : readString host f = .done v f') :
    4 ≤ f.unread.length ∧ v.length = beValue (f.unread.take 4) ∧
      f'.readPos = f.readPos + 4 + v.length := by
  rw [readString_eq] at h
  split at h
  · rename_i enough
    split at h
    · rename_i fits
      cases h
      have behind := length_unread_advance enough
      have length : ((f.advance 4).unread.take (beValue (f.unread.take 4))).length =
          beValue (f.unread.take 4) := by
        rw [List.length_take, behind]
        omega
      refine ⟨enough, length, ?_⟩
      rw [length]
      show f.readPos + min (4 + beValue (f.unread.take 4)) f.unread.length = _
      rw [Nat.min_eq_left fits, Nat.add_assoc]
    · cases h
  · cases h

end FlatBuffer

namespace ByteArray

/-- A typed read is all or nothing: when the unread bytes do not complete its item it throws
`out_of_range`, an `out_of_range` leaves the state as it was, and when the item is complete the reader
returns and moves the read position behind it. -/
structure AllOrNothing (host : Host) (reader : Reader) (s : ByteArray) : Prop where
  nothing : reader.itemSize s.unread = none → ∃ what, reader.call host s = .thrown (.outOfRange what) s
  unchanged : ∀ what s', reader.call host s = .thrown (.outOfRange what) s' → s' = s
  all : ∀ n, reader.itemSize s.unread = some n → ∃ v s', reader.call host s = .done v s' ∧
    s'.readPos = s.readPos + n ∧ n ≤ s.unread.length ∧ ReadFrame s s'

end ByteArray

namespace FlatBuffer

/-- A whole varint: every byte but the last has its high bit set, and the last has it clear. -/
def CompleteVarint (bytes : List UInt8) : Prop :=
  ∃ front last, bytes = front ++ [last] ∧ (∀ b ∈ front, 0x80 ≤ b.toNat) ∧ last.toNat < 0x80

/-- The exact sum of the groups from group `i` on. -/
def varSum : Nat → List UInt8 → Nat
  | _, [] => 0
  | i, b :: bs => b.toNat % 0x80 * 2 ^ (7 * i) + varSum (i + 1) bs

theorem varSum_append (a b : List UInt8) : ∀ i, varSum i (a ++ b) = varSum i a + varSum (i + a.length) b := by
  induction a with
  | nil => intro i; rw [List.nil_append, varSum, Nat.zero_add, List.length_nil, Nat.add_zero]
  | cons c cs ih =>
    intro i
    rw [List.cons_append, varSum, varSum, ih, List.length_cons, Nat.add_assoc, Nat.add_assoc,
      Nat.add_comm 1 cs.length]

theorem group_succ (i : Nat) : 2 ^ (7 * (i + 1)) = 0x80 * 2 ^ (7 * i) := by
  rw [show 7 * (i + 1) = 7 + 7 * i by omega, Nat.pow_add]

/-- `n` groups from group `i` on stay below group `i + n`. -/
theorem varSum_lt (bytes : List UInt8) : ∀ i,
    varSum i bytes + 2 ^ (7 * i) ≤ 2 ^ (7 * (i + bytes.length)) := by
  induction bytes with
  | nil => intro i; rw [varSum, Nat.zero_add, List.length_nil, Nat.add_zero]
  | cons b bs ih =>
    intro i
    have rest := ih (i + 1)
    have group : (b.toNat % 0x80 + 1) * 2 ^ (7 * i) ≤ 0x80 * 2 ^ (7 * i) :=
      Nat.mul_le_mul_right _ (Nat.mod_lt _ (by decide))
    rw [Nat.add_mul, Nat.one_mul] at group
    rw [group_succ, show i + 1 + bs.length = i + (b :: bs).length by rw [List.length_cons]; omega] at rest
    rw [varSum]
    omega

/-- The value the loop builds is the exact sum of the groups, cut to the width. -/
theorem toNat_varValue {w : Nat} (hw : 8 ≤ w) (bytes : List UInt8) : ∀ (i : Nat) (result : BitVec w),
    result.toNat < 2 ^ (7 * i) →
    (varValue i result bytes).toNat = (result.toNat + varSum i bytes) % 2 ^ w := by
  induction bytes with
  | nil =>
    intro i result _
    rw [varValue, varSum, Nat.add_zero, Nat.mod_eq_of_lt result.isLt]
  | cons b bs ih =>
    intro i result low
    have group := ByteArray.or_group_mod hw b i result low
    have small : (result.toNat + b.toNat % 0x80 * 2 ^ (7 * i)) % 2 ^ w < 2 ^ (7 * (i + 1)) := by
      have byte : (b.toNat % 0x80 + 1) * 2 ^ (7 * i) ≤ 0x80 * 2 ^ (7 * i) :=
        Nat.mul_le_mul_right _ (Nat.mod_lt _ (by decide))
      rw [Nat.add_mul, Nat.one_mul] at byte
      have cut := Nat.mod_le (result.toNat + b.toNat % 0x80 * 2 ^ (7 * i)) (2 ^ w)
      rw [group_succ]
      omega
    rw [varValue, ih (i + 1) _ (by rw [group]; exact small), group, varSum, Nat.mod_add_mod,
      Nat.add_assoc]

/-- What the reader of at most `n` bytes takes: a whole varint, or `n` bytes none of which ends one. -/
theorem varItem_cases (n : Nat) : ∀ {bytes item : List UInt8}, varItem n bytes = some item →
    (CompleteVarint item ∧ item.length ≤ n) ∨ (item.length = n ∧ ∀ b ∈ item, 0x80 ≤ b.toNat) := by
  induction n with
  | zero =>
    intro bytes item h
    cases h
    exact .inr ⟨rfl, nofun⟩
  | succ n ih =>
    intro bytes item h
    cases bytes with
    | nil => cases h
    | cons b bs =>
      rw [varItem] at h
      split at h
      · rename_i last
        cases h
        exact .inl ⟨⟨[], b, rfl, nofun, last⟩, by rw [List.length_singleton]; omega⟩
      · rename_i high
        obtain ⟨rest, inner, rfl⟩ := Option.map_eq_some_iff.mp h
        have cons : ∀ front : List UInt8, (∀ c ∈ front, 0x80 ≤ c.toNat) →
            ∀ c ∈ b :: front, 0x80 ≤ c.toNat := by
          intro front all c mem
          rcases List.mem_cons.mp mem with rfl | mem
          · exact Nat.le_of_not_lt high
          · exact all c mem
        obtain ⟨⟨front, last, rfl, all, low⟩, le⟩ | ⟨len, all⟩ := ih inner
        · exact .inl ⟨⟨b :: front, last, rfl, cons front all, low⟩, Nat.succ_le_succ le⟩
        · exact .inr ⟨by rw [List.length_cons, len], cons rest all⟩

/-- The reader throws only where there are fewer bytes than it may take. -/
theorem length_of_varItem_none (n : Nat) : ∀ {bytes : List UInt8}, varItem n bytes = none →
    bytes.length < n := by
  induction n with
  | zero => intro bytes h; cases h
  | succ n ih =>
    intro bytes h
    cases bytes with
    | nil => exact Nat.succ_pos n
    | cons b bs =>
      rw [varItem] at h
      split at h
      · cases h
      · exact Nat.succ_lt_succ (ih (Option.map_eq_none_iff.mp h))

/-- The byte behind `k` bytes with the high bit set, if there is one, fits what is left of `w` bits. -/
def LastGroupFits (w k : Nat) (bytes : List UInt8) : Prop :=
  ∀ front b rest, bytes = front ++ b :: rest → front.length = k → (∀ c ∈ front, 0x80 ≤ c.toNat) →
    b.toNat < 2 ^ (w - 7 * k)

/-- A whole varint of at most `k + 1` bytes is below `2 ^ w` exactly when its last group fits. -/
theorem varSum_lt_iff {w k : Nat} (low : 7 * k < w) {front rest : List UInt8} {last : UInt8}
    (all : ∀ b ∈ front, 0x80 ≤ b.toNat) (ends : last.toNat < 0x80) (le : front.length ≤ k) :
    varSum 0 (front ++ [last]) < 2 ^ w ↔ LastGroupFits w k (front ++ last :: rest) := by
  have sum : varSum 0 (front ++ [last]) = varSum 0 front + last.toNat * 2 ^ (7 * front.length) := by
    rw [varSum_append, varSum, varSum, Nat.zero_add, Nat.mod_eq_of_lt ends, Nat.add_zero]
  have below := varSum_lt front 0
  rw [Nat.zero_add, Nat.mul_zero, Nat.pow_zero] at below
  rcases Nat.lt_or_eq_of_le le with short | rfl
  · -- a shorter varint fits, and its last byte stands among the first `k`
    have whole := varSum_lt (front ++ [last]) 0
    rw [Nat.mul_zero, Nat.pow_zero, Nat.zero_add, List.length_append, List.length_singleton] at whole
    have width : 2 ^ (7 * (front.length + 1)) ≤ 2 ^ w := Nat.pow_le_pow_right (by decide) (by omega)
    refine ⟨fun _ front' b rest' same len high => ?_, fun _ => by omega⟩
    have inside : last ∈ front' := by
      have at_last : (front ++ last :: rest)[front.length]? = some last := by
        rw [List.getElem?_append_right (Nat.le_refl _), Nat.sub_self, List.getElem?_cons_zero]
      rw [same, List.getElem?_append_left (by omega)] at at_last
      exact List.mem_of_getElem? at_last
    have := high last inside
    omega
  · have width : 2 ^ w = 2 ^ (w - 7 * front.length) * 2 ^ (7 * front.length) := by
      rw [← Nat.pow_add, Nat.sub_add_cancel (Nat.le_of_lt low)]
    constructor
    · intro fits front' b rest' same len high
      obtain ⟨rfl, tail⟩ := List.append_inj same len.symm
      cases tail
      by_contra large
      have := Nat.mul_le_mul_right (2 ^ (7 * front.length)) (Nat.le_of_not_lt large)
      omega
    · intro fits
      have top := fits front last rest rfl rfl all
      have := Nat.mul_le_mul_right (2 ^ (7 * front.length)) (Nat.succ_le_of_lt top)
      rw [Nat.succ_mul] at this
      omega

end FlatBuffer

namespace ByteArray

open FlatBuffer

/-- What a varint reader of width `w` owes its caller: the bytes it consumed are one whole varint and
the value is the exact sum of the groups, below `2 ^ w`; or it throws and the read position stays. -/
def VarSound {w : Nat} (reader : M (BitVec w)) (s : ByteArray) : Prop :=
  (∃ v s', reader s = .done v s' ∧ s.readPos ≤ s'.readPos ∧
    CompleteVarint (s.unread.take (s'.readPos - s.readPos)) ∧
    v.toNat = varSum 0 (s.unread.take (s'.readPos - s.readPos)) ∧
    varSum 0 (s.unread.take (s'.readPos - s.readPos)) < 2 ^ w) ∨
  ∃ e s', reader s = .thrown e s' ∧ s'.readPos = s.readPos

/-- A reader of up to `k + 1` bytes, the last of them cut by the width, meets its contract exactly
where the group in that byte fits. -/
theorem var_sound_iff {w k : Nat} (hw : 8 ≤ w) (low : 7 * k < w) (cut : w < 7 * (k + 1)) (what : String)
    {s : ByteArray} {f : FlatBuffer} (r : Rep s f) :
    VarSound (readVarLoop what (k + 1) 0 0#w) s ↔ LastGroupFits w k s.unread := by
  have spec := readVarLoop_spec what (k + 1) 0 0#w s f r (Nat.zero_le _)
  rw [r.unread]
  cases item : varItem (k + 1) f.unread with
  | none =>
    rw [item] at spec
    obtain ⟨s', run, r'⟩ := spec
    have short := length_of_varItem_none (k + 1) item
    refine ⟨fun _ front b rest same len _ => ?_, fun _ => .inr ⟨_, s', run, ?_⟩⟩
    · rw [same, List.length_append, List.length_cons] at short
      omega
    · rw [r'.readPos, r.readPos, back_zero]
  | some bytes =>
    rw [item] at spec
    obtain ⟨s', run, r'⟩ := spec
    obtain ⟨rest, unread⟩ := varItem_prefix (k + 1) item
    have moved : s'.readPos = s.readPos + bytes.length := by
      rw [r'.readPos, r.readPos]
      show f.readPos + min bytes.length f.unread.length = _
      rw [unread, List.length_append, Nat.min_eq_left (Nat.le_add_right _ _)]
    have taken : s.unread.take (s'.readPos - s.readPos) = bytes := by
      rw [moved, Nat.add_sub_cancel_left, r.unread, unread, List.take_left]
    have value := toNat_varValue hw bytes 0 0#w
      (by rw [BitVec.toNat_zero]; exact Nat.pow_pos (by decide))
    rw [BitVec.toNat_zero, Nat.zero_add] at value
    -- the contract is about these bytes now, and asks for a whole varint below the width
    have contract : VarSound (readVarLoop what (k + 1) 0 0#w) s ↔
        CompleteVarint bytes ∧ varSum 0 bytes < 2 ^ w := by
      constructor
      · rintro (⟨v, s₁, run₁, _, complete, _, fits⟩ | ⟨e, s₁, run₁, _⟩)
        · rw [run] at run₁
          cases run₁
          rw [taken] at complete fits
          exact ⟨complete, fits⟩
        · rw [run] at run₁
          cases run₁
      · rintro ⟨complete, fits⟩
        refine .inl ⟨_, s', run, by omega, ?_, ?_, ?_⟩
        · rwa [taken]
        · rw [taken, value, Nat.mod_eq_of_lt fits]
        · rwa [taken]
    rw [contract, unread]
    obtain ⟨⟨front, last, rfl, all, ends⟩, le⟩ | ⟨len, all⟩ := varItem_cases (k + 1) item
    · rw [List.length_append, List.length_singleton] at le
      rw [List.append_assoc, List.singleton_append,
        ← varSum_lt_iff low all ends (Nat.le_of_succ_le_succ le)]
      exact ⟨And.right, fun fits => ⟨⟨front, last, rfl, all, ends⟩, fits⟩⟩
    · -- no byte ends the varint: it is not whole, and its last byte is too large for its group
      constructor
      · rintro ⟨⟨front, last, rfl, _, ends⟩, _⟩
        have := all last (List.mem_append_right _ List.mem_cons_self)
        omega
      · intro fits
        exfalso
        obtain ⟨front, last, rfl⟩ : ∃ front last, bytes = front ++ [last] := by
          have some_byte : bytes ≠ [] := List.ne_nil_of_length_eq_add_one len
          exact ⟨_, _, (List.dropLast_concat_getLast some_byte).symm⟩
        rw [List.length_append, List.length_singleton] at len
        have top := fits front last rest (by rw [List.append_assoc, List.singleton_append])
          (Nat.succ.inj len) fun c mem => all c (List.mem_append_left _ mem)
        have high := all last (List.mem_append_right _ List.mem_cons_self)
        have width : 2 ^ (w - 7 * k) ≤ 2 ^ 6 := Nat.pow_le_pow_right (by decide) (by omega)
        omega

/-- The varint readers against their contract. In every state that calls on a fresh array lead to,
`read_var_ul` takes whole varints below 2^32 only, and throws on everything else, exactly when a fifth
byte behind four with the high bit set is below 16; for `read_var_ull` it is a tenth byte behind nine,
below 2. -/
theorem readVar_sound_iff {host : Host} {blockSize : Nat} (hsize : 1 ≤ blockSize)
    {junk : Nat → Nat → UInt8} {s : ByteArray} (reached : Reached host blockSize junk s) :
    (VarSound readVarUL s ↔ ∀ front b rest, s.unread = front ++ b :: rest → front.length = 4 →
        (∀ c ∈ front, 0x80 ≤ c.toNat) → b.toNat < 16) ∧
      (VarSound readVarULL s ↔ ∀ front b rest, s.unread = front ++ b :: rest → front.length = 9 →
        (∀ c ∈ front, 0x80 ≤ c.toNat) → b.toNat < 2) := by
  obtain ⟨f, r⟩ := reached.rep hsize
  exact ⟨var_sound_iff (by decide) (by decide) (by decide) _ r,
    var_sound_iff (by decide) (by decide) (by decide) _ r⟩

/-- A fresh array of block size 16 after at most 15 bytes were written to it. -/
def justWritten (bytes : List UInt8) : ByteArray :=
  { blockSize := 16, capacity := 16, blocks := [bytes ++ List.replicate (16 - bytes.length) 0],
    readPos := 0, writePos := bytes.length, readCur := some 0, writeCur := some 0,
    junk := fun _ _ => 0, allocs := 1 }

/-- The largest 32-bit value: its fifth byte is 15, and the 32-bit reader keeps its contract. -/
theorem readVar_sound_iff_max :
    Reached .little 16 (fun _ _ => 0) (justWritten [0xFF, 0xFF, 0xFF, 0xFF, 0x0F]) ∧
      VarSound readVarUL (justWritten [0xFF, 0xFF, 0xFF, 0xFF, 0x0F]) := by
  have reached : Reached .little 16 (fun _ _ => 0) (justWritten [0xFF, 0xFF, 0xFF, 0xFF, 0x0F]) :=
    ⟨[.put (.varUL 0xFFFFFFFF#32)], .single (.inl ⟨.unit, rfl⟩)⟩
  refine ⟨reached, (readVar_sound_iff (by decide) reached).1.mpr ?_⟩
  intro front b rest same four _
  have split : [0xFF, 0xFF, 0xFF, 0xFF] ++ [0x0F] = front ++ b :: rest := same
  obtain ⟨rfl, tail⟩ := List.append_inj split four.symm
  cases tail
  decide

/-- The 64-bit writer's 2^32 in front of the 32-bit reader: five bytes, the last one 16. The reader
returns 0 for them. -/
theorem readVarUL_drops_high_bits :
    Reached .little 16 (fun _ _ => 0) (justWritten [0x80, 0x80, 0x80, 0x80, 0x10]) ∧
      ¬ VarSound readVarUL (justWritten [0x80, 0x80, 0x80, 0x80, 0x10]) := by
  refine ⟨⟨[.put (.varULL 0x100000000#64)], .single (.inl ⟨.unit, rfl⟩)⟩, ?_⟩
  have run : readVarUL (justWritten [0x80, 0x80, 0x80, 0x80, 0x10]) =
      .done 0#32 { justWritten [0x80, 0x80, 0x80, 0x80, 0x10] with readPos := 5 } := rfl
  rintro (⟨v, s', run', _, _, value, _⟩ | ⟨e, s', run', _⟩)
  · rw [run] at run'
    cases run'
    exact absurd value (by decide)
  · rw [run] at run'
    cases run'

/-! ## Strings with a length -/

/-- The bytes of a varint count its groups: `k` bytes are needed for numbers below `0x80 ^ k` only. -/
theorem lt_of_varDigits (fuel : Nat) : ∀ n, n < 0x80 ^ (fuel + 1) →
    n < 0x80 ^ (varDigits fuel n).length := by
  induction fuel with
  | zero => intro n small; exact small
  | succ fuel ih =>
    intro n small
    rw [varDigits]
    split
    · have top : n / 0x80 < 0x80 ^ (fuel + 1) := by
        rw [Nat.div_lt_iff_lt_mul (by decide)]
        rwa [Nat.pow_succ] at small
      have inner := ih (n / 0x80) top
      rw [List.length_cons, Nat.pow_succ]
      exact (Nat.div_lt_iff_lt_mul (by decide)).mp inner
    · rename_i less
      rw [List.length_singleton]
      omega

/-- A varint of more than one byte begins with the high bit set. -/
theorem varDigits_head {fuel n : Nat} (more : 1 < (varDigits fuel n).length) :
    ∃ b rest, varDigits fuel n = b :: rest ∧ 0x80 ≤ b.toNat := by
  cases fuel with
  | zero => exact absurd more (by rw [varDigits, List.length_singleton]; omega)
  | succ fuel =>
    rw [varDigits] at more ⊢
    split
    · refine ⟨_, _, rfl, ?_⟩
      rw [UInt8.toNat_ofNat']
      omega
    · rename_i less
      rw [if_neg less, List.length_singleton] at more
      omega

/-- `write_string_with_length(v)`, anything behind it, and `read_string()` at its start gives `v` and
ends where the write ended. -/
def StringRoundTrip (host : Host) (s : ByteArray) (v behind : List UInt8) : Prop :=
  ∃ s₁ s₂ s₃ s₄, writeStringWithLength v s = .done () s₁ ∧ write behind s₁ = .done () s₂ ∧
    setReadPosition s.writePos s₂ = .done () s₃ ∧ readString host s₃ = .done v s₄ ∧
    s₄.readPos = s₁.writePos

/-- Length-prefixed strings never round trip: the writer puts the length as a varint, the reader takes
four bytes of it. For the two to meet, the varint would have to be four bytes long, so the length
below 2^28, and then its first byte has the high bit set, which makes the length the reader sees at
least 2^31. -/
theorem string_never_round_trips {host : Host} {blockSize : Nat} (hsize : 1 ≤ blockSize)
    {junk : Nat → Nat → UInt8} {s : ByteArray} (reached : Reached host blockSize junk s)
    (v behind : List UInt8) (hv : v.length < 2 ^ 32) :
    (∃ s₁ s₂ s₃, writeStringWithLength v s = .done () s₁ ∧ write behind s₁ = .done () s₂ ∧
        setReadPosition s.writePos s₂ = .done () s₃) ∧
      ¬ StringRoundTrip host s v behind := by
  obtain ⟨f, r⟩ := reached.rep hsize
  have length : (BitVec.ofNat 32 v.length).toNat = v.length := by
    rw [BitVec.toNat_ofNat, Nat.mod_eq_of_lt hv]
  have digits : varBytes 32 (BitVec.ofNat 32 v.length) = varDigits 32 v.length := by
    rw [varBytes_eq (by decide), length]
  obtain ⟨s₁, wrote, r₁⟩ := (writer_refines host (.stringWithLength v)).done r rfl
  obtain ⟨s₂, more, r₂⟩ := (write_refines behind).done r₁ rfl
  have start : f.bytes.length ≤ (f.bytes ++ (varDigits 32 v.length ++ v) ++ behind).length := by
    rw [List.append_assoc, List.length_append]
    exact Nat.le_add_right _ _
  have stored : (Writer.stringWithLength v).bytes host = varDigits 32 v.length ++ v := by
    rw [Writer.bytes, digits]
  rw [stored] at r₁ r₂
  obtain ⟨s₃, moved, r₃⟩ := (setReadPosition_refines f.bytes.length).done r₂ (dif_pos start)
  rw [← r.writePos] at moved
  refine ⟨⟨s₁, s₂, s₃, wrote, more, moved⟩, ?_⟩
  rintro ⟨t₁, t₂, t₃, t₄, wrote', more', moved', got, ended⟩
  cases wrote.symm.trans wrote'
  cases more.symm.trans more'
  cases moved.symm.trans moved'
  have view := readString_refines host s₃ _ r₃
  rw [got] at view
  cases flat : FlatBuffer.readString host
      ⟨f.bytes ++ (varDigits 32 v.length ++ v) ++ behind, f.bytes.length, start⟩ with
  | thrown e f' => rw [flat] at view; exact view
  | stuck => rw [flat] at view; exact view
  | done v' f' =>
    rw [flat] at view
    obtain ⟨rfl, r₄⟩ := view
    obtain ⟨enough, prefixed, position⟩ := readString_done flat
    -- both ends are known: the varint takes the four bytes that the reader takes
    have four : (varDigits 32 v.length).length = 4 := by
      have last : s₁.writePos = f.bytes.length + ((varDigits 32 v.length).length + v.length) := by
        rw [r₁.writePos, List.length_append, List.length_append]
      rw [r₄.readPos, position, last] at ended
      change f.bytes.length + 4 + v.length = _ at ended
      omega
    have small := lt_of_varDigits 32 v.length (Nat.lt_trans hv (by decide))
    obtain ⟨b, rest, form, high⟩ := varDigits_head (by rw [four]; decide)
    have front : (FlatBuffer.unread ⟨f.bytes ++ (varDigits 32 v.length ++ v) ++ behind,
        f.bytes.length, start⟩).take 4 = b :: rest := by
      show ((f.bytes ++ (varDigits 32 v.length ++ v) ++ behind).drop f.bytes.length).take 4 = _
      rw [List.append_assoc, List.drop_left, List.append_assoc, ← four, List.take_left, form]
    have three : rest.length = 3 := by
      rw [form, List.length_cons] at four
      exact Nat.succ.inj four
    have large := Nat.mul_le_mul_right (256 ^ 3) high
    rw [front, beValue, three] at prefixed
    rw [four] at small
    omega

/-- Three zero bytes behind the empty string: the reader finds a string, but ends three bytes late. -/
theorem string_never_round_trips_empty :
    (∃ s₁ s₂ s₃, writeStringWithLength [] (init 4 fun _ _ => 0x55) = .done () s₁ ∧
        write [0, 0, 0] s₁ = .done () s₂ ∧ setReadPosition 0 s₂ = .done () s₃) ∧
      ¬ StringRoundTrip .little (init 4 fun _ _ => 0x55) [] [0, 0, 0] :=
  string_never_round_trips (by decide) ⟨[], .nil _⟩ [] [0, 0, 0] (by decide)

/-- One letter written with its length: two bytes, and the reader wants four for the length alone. -/
theorem string_of_one_letter_lost :
    ¬ StringRoundTrip .little (init 16 fun _ _ => 0) [0x41] [] := by
  rintro ⟨s₁, s₂, s₃, s₄, wrote, more, moved, got, _⟩
  have wrote' : writeStringWithLength [0x41] (init 16 fun _ _ => 0) =
      .done () (justWritten [1, 0x41]) := rfl
  cases wrote'.symm.trans wrote
  have more' : write [] (justWritten [1, 0x41]) = .done () (justWritten [1, 0x41]) := rfl
  cases more'.symm.trans more
  have moved' : setReadPosition 0 (justWritten [1, 0x41]) = .done () (justWritten [1, 0x41]) := rfl
  cases moved'.symm.trans moved
  have got' : readString .little (justWritten [1, 0x41]) =
      .thrown (.outOfRange "ByteArray::read_fix_ul out of range") (justWritten [1, 0x41]) := rfl
  cases got'.symm.trans got

end ByteArray

end Sylar
