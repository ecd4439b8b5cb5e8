import Sylar.ByteArray.Refine

/-!
# The typed codec round trip

A typed value written by its writer and read by the matching reader comes back unchanged, whatever
was written before and after it. The work is at the flat level, item by item: `Item.flat_read` says
that a reader facing the bytes of its writer returns the value and takes exactly these bytes. The
bit-level facts under it are two. The zigzag map is undone by its inverse, at the least integer too.
And a varint, read group by group, is the number it was written for (`varValue_varBytes`), because
the groups do not overlap and the top one, truncated or not, still fits the width.

The refinement of the block list by the flat buffer then carries the round trip to every block size.
-/

namespace Sylar

namespace ByteArray

open Lib Endian

/-! ## Zigzag -/

/-- The arithmetic shift by all but one bit spreads the sign. -/
theorem sshiftRight_last {w : Nat} (v : BitVec w) :
    v.sshiftRight (w - 1) = if v.msb then BitVec.allOnes w else 0#w := by
  ext i hi
  rw [BitVec.getElem_sshiftRight]
  split
  · rename_i lt
    obtain rfl : i = 0 := by omega
    cases h : v.msb <;> simp [BitVec.msb_eq_getLsbD_last] at h ⊢ <;> simp_all
  · cases v.msb <;> simp

/-- The lowest bit as a number. -/
theorem and_one {w : Nat} (x : BitVec w) : x &&& 1#w = if x.getLsbD 0 then 1#w else 0#w := by
  ext i hi
  by_cases first : i = 0
  · subst first
    cases hx : x.getLsbD 0 <;> simp_all
  · cases hx : x.getLsbD 0 <;> simp_all

theorem decodeZigzag_encodeZigzag {w : Nat} (hw : 1 < w) (v : BitVec w) :
    decodeZigzag (encodeZigzag v) = v := by
  have last : v.getLsbD (w - 1) = v.msb := (BitVec.msb_eq_getLsbD_last v).symm
  rw [decodeZigzag, encodeZigzag, sshiftRight_last, and_one]
  cases sign : v.msb with
  | false =>
    have bit : (v <<< 1).getLsbD 0 = false := by simp
    simp only [Bool.false_eq_true, if_false, BitVec.xor_zero, bit, BitVec.neg_zero]
    ext i hi
    rw [BitVec.getElem_ushiftRight, BitVec.getLsbD_shiftLeft]
    by_cases top : i = w - 1
    · subst top
      rw [sign, BitVec.getLsbD_eq_getElem hi] at last
      have outside : ¬ 1 + (w - 1) < w := by omega
      simp [last, outside]
    · have inside : 1 + i < w := by omega
      simp [inside, BitVec.getLsbD_eq_getElem hi]
  | true =>
    have bit : ((v <<< 1) ^^^ BitVec.allOnes w).getLsbD 0 = true := by
      simp
      omega
    simp only [if_true, bit, BitVec.neg_one_eq_allOnes]
    ext i hi
    rw [BitVec.getElem_xor, BitVec.getElem_ushiftRight, BitVec.getLsbD_xor, BitVec.getLsbD_shiftLeft,
      BitVec.getElem_allOnes, BitVec.getLsbD_allOnes]
    by_cases top : i = w - 1
    · subst top
      rw [sign, BitVec.getLsbD_eq_getElem hi] at last
      have outside : ¬ 1 + (w - 1) < w := by omega
      simp [last, outside]
    · have inside : 1 + i < w := by omega
      simp [inside, BitVec.getLsbD_eq_getElem hi]

/-! ## Varints, as numbers -/

/-- The bytes of a varint by division instead of shifts and masks. -/
def varDigits : Nat → Nat → List UInt8
  | 0, n => [UInt8.ofNat n]
  | fuel + 1, n =>
    if n ≥ 0x80 then UInt8.ofNat (n % 0x80 + 0x80) :: varDigits fuel (n / 0x80) else [UInt8.ofNat n]

theorem varBytes_eq {w : Nat} (hw : 8 ≤ w) (fuel : Nat) (value : BitVec w) :
    varBytes fuel value = varDigits fuel value.toNat := by
  induction fuel generalizing value with
  | zero => rfl
  | succ fuel ih =>
    have wide : 2 ^ 8 ≤ 2 ^ w := Nat.pow_le_pow_right (by decide) hw
    have shift : (value >>> 7).toNat = value.toNat / 0x80 := by
      rw [BitVec.toNat_ushiftRight, Nat.shiftRight_eq_div_pow]
    have low : (value &&& 0x7F#w).toNat = value.toNat % 0x80 := by
      rw [BitVec.toNat_and, BitVec.toNat_ofNat, Nat.mod_eq_of_lt (by omega),
        show (0x7F : Nat) = 2 ^ 7 - 1 by decide, Nat.and_two_pow_sub_one_eq_mod]
    have group : ((value &&& 0x7F#w) ||| 0x80#w).toNat = value.toNat % 0x80 + 0x80 := by
      have lt : value.toNat % 0x80 < 2 ^ 7 := Nat.mod_lt _ (by decide)
      rw [BitVec.toNat_or, low, BitVec.toNat_ofNat, Nat.mod_eq_of_lt (by omega : 0x80 < 2 ^ w),
        Nat.or_comm, Nat.add_comm]
      exact (Nat.shiftLeft_add_eq_or_of_lt lt 1).symm
    rw [varBytes, varDigits, ih, shift, group]

/-- A number of at most `k` groups has at most `k` bytes, and the flat reader sees them as one item,
whatever follows. -/
theorem varItem_varDigits (k : Nat) : ∀ (fuel n : Nat) (rest : List UInt8), 0 < k → n < 0x80 ^ k →
    k ≤ fuel + 1 →
    FlatBuffer.varItem k (varDigits fuel n ++ rest) = some (varDigits fuel n) ∧
      (varDigits fuel n).length ≤ k := by
  induction k with
  | zero => intro fuel n rest pos; exact absurd pos (Nat.lt_irrefl 0)
  | succ k ih =>
    intro fuel n rest _ small enough
    by_cases large : n ≥ 0x80
    · cases fuel with
      | zero =>
        obtain rfl : k = 0 := by omega
        omega
      | succ fuel =>
        have pos : 0 < k := by
          rcases Nat.eq_zero_or_pos k with rfl | h
          · omega
          · exact h
        have top : n / 0x80 < 0x80 ^ k := by
          rw [Nat.div_lt_iff_lt_mul (by decide)]
          rwa [Nat.pow_succ] at small
        obtain ⟨item, len⟩ := ih fuel (n / 0x80) rest pos top (by omega)
        have high : ¬ (UInt8.ofNat (n % 0x80 + 0x80)).toNat < 0x80 := by
          rw [UInt8.toNat_ofNat']
          omega
        rw [varDigits, if_pos large, List.cons_append, FlatBuffer.varItem, if_neg high, item]
        exact ⟨rfl, by rw [List.length_cons]; omega⟩
    · have low : (UInt8.ofNat n).toNat < 0x80 := by
        rw [UInt8.toNat_ofNat']
        omega
      have digits : varDigits fuel n = [UInt8.ofNat n] := by
        cases fuel with
        | zero => rfl
        | succ fuel => rw [varDigits, if_neg large]
      rw [digits, List.cons_append, FlatBuffer.varItem, if_pos low]
      exact ⟨rfl, by rw [List.length_singleton]; omega⟩

/-- A 7-bit group put over lower groups; what does not fit the width is lost. -/
theorem or_group_mod {w : Nat} (hw : 8 ≤ w) (b : UInt8) (i : Nat) (result : BitVec w)
    (low : result.toNat < 2 ^ (7 * i)) :
    (result ||| ((BitVec.ofNat w b.toNat &&& 0x7F#w) <<< (7 * i))).toNat =
      (result.toNat + b.toNat % 0x80 * 2 ^ (7 * i)) % 2 ^ w := by
  have wide : 2 ^ 8 ≤ 2 ^ w := Nat.pow_le_pow_right (by decide) hw
  have byte : b.toNat < 0x100 := b.toNat_lt
  have own : result.toNat % 2 ^ w = result.toNat := Nat.mod_eq_of_lt result.isLt
  have join : result.toNat ||| b.toNat % 0x80 * 2 ^ (7 * i) =
      result.toNat + b.toNat % 0x80 * 2 ^ (7 * i) := by
    rw [Nat.or_comm, ← Nat.shiftLeft_eq, ← Nat.shiftLeft_add_eq_or_of_lt low, Nat.add_comm]
  rw [BitVec.toNat_or, BitVec.toNat_shiftLeft, BitVec.toNat_and, BitVec.toNat_ofNat,
    BitVec.toNat_ofNat, Nat.mod_eq_of_lt (by omega : b.toNat < 2 ^ w),
    Nat.mod_eq_of_lt (by omega : 0x7F < 2 ^ w), show (0x7F : Nat) = 2 ^ 7 - 1 by decide,
    Nat.and_two_pow_sub_one_eq_mod, Nat.shiftLeft_eq, ← join, Nat.or_mod_two_pow, own]

/-- A 7-bit group that fits, put over lower groups. -/
theorem or_group {w : Nat} (hw : 8 ≤ w) (b : UInt8) (i : Nat) (result : BitVec w)
    (low : result.toNat < 2 ^ (7 * i)) (fits : result.toNat + b.toNat % 0x80 * 2 ^ (7 * i) < 2 ^ w) :
    (result ||| ((BitVec.ofNat w b.toNat &&& 0x7F#w) <<< (7 * i))).toNat =
      result.toNat + b.toNat % 0x80 * 2 ^ (7 * i) := by
  rw [or_group_mod hw b i result low, Nat.mod_eq_of_lt fits]

/-- The groups of a number put over lower groups are the number above them. -/
theorem varValue_varDigits {w : Nat} (hw : 8 ≤ w) (fuel : Nat) : ∀ (n i : Nat) (result : BitVec w),
    n < 0x80 ^ (fuel + 1) → result.toNat < 2 ^ (7 * i) → result.toNat + n * 2 ^ (7 * i) < 2 ^ w →
    (FlatBuffer.varValue i result (varDigits fuel n)).toNat = result.toNat + n * 2 ^ (7 * i) := by
  -- the last group: nothing above it
  have single : ∀ (n i : Nat) (result : BitVec w), n < 0x80 → result.toNat < 2 ^ (7 * i) →
      result.toNat + n * 2 ^ (7 * i) < 2 ^ w →
      (FlatBuffer.varValue i result [UInt8.ofNat n]).toNat = result.toNat + n * 2 ^ (7 * i) := by
    intro n i result small low fits
    have byte : (UInt8.ofNat n).toNat = n := by rw [UInt8.toNat_ofNat']; omega
    have group := or_group hw (UInt8.ofNat n) i result low
      (by rw [byte, Nat.mod_eq_of_lt small]; omega)
    rw [byte, Nat.mod_eq_of_lt small] at group
    rw [FlatBuffer.varValue, FlatBuffer.varValue, byte]
    exact group
  induction fuel with
  | zero =>
    intro n i result small low fits
    exact single n i result (by simpa using small) low fits
  | succ fuel ih =>
    intro n i result small low fits
    by_cases large : n ≥ 0x80
    · have byte : (UInt8.ofNat (n % 0x80 + 0x80)).toNat % 0x80 = n % 0x80 := by
        rw [UInt8.toNat_ofNat']; omega
      have power : 2 ^ (7 * (i + 1)) = 0x80 * 2 ^ (7 * i) := by
        rw [show 7 * (i + 1) = 7 + 7 * i by omega, Nat.pow_add]
      have parts : n % 0x80 * 2 ^ (7 * i) + n / 0x80 * 2 ^ (7 * (i + 1)) = n * 2 ^ (7 * i) := by
        rw [power, ← Nat.mul_assoc, ← Nat.add_mul, Nat.mul_comm (n / 0x80)]
        congr 1
        exact Nat.mod_add_div n 0x80
      have group := or_group hw (UInt8.ofNat (n % 0x80 + 0x80)) i result low (by rw [byte]; omega)
      rw [byte] at group
      have below : n % 0x80 * 2 ^ (7 * i) + 2 ^ (7 * i) ≤ 2 ^ (7 * (i + 1)) := by
        rw [power, ← Nat.succ_mul]
        exact Nat.mul_le_mul_right _ (Nat.mod_lt n (by decide))
      have top : n / 0x80 < 0x80 ^ (fuel + 1) := by
        rw [Nat.div_lt_iff_lt_mul (by decide)]
        rwa [Nat.pow_succ] at small
      rw [varDigits, if_pos large, FlatBuffer.varValue,
        ih (n / 0x80) (i + 1) _ top (by rw [group]; omega) (by rw [group]; omega), group]
      omega
    · rw [varDigits, if_neg large]
      exact single n i result (by omega) low fits

/-- Reading back what a varint writer emitted. -/
theorem varValue_varBytes {w : Nat} (hw : 8 ≤ w) (value : BitVec w) :
    FlatBuffer.varValue 0 0#w (varBytes w value) = value := by
  have small : value.toNat < 0x80 ^ (w + 1) := by
    have more : 2 ^ w ≤ 0x80 ^ (w + 1) :=
      Nat.le_trans (Nat.pow_le_pow_left (by decide) w)
        (Nat.pow_le_pow_right (by decide) (Nat.le_succ w))
    have := value.isLt
    omega
  apply BitVec.eq_of_toNat_eq
  have groups := varValue_varDigits hw w value.toNat 0 0#w small
    (by simp only [Nat.mul_zero, Nat.pow_zero, BitVec.toNat_ofNat, Nat.zero_mod, Nat.zero_lt_one])
    (by simp only [Nat.mul_zero, Nat.pow_zero, Nat.mul_one, BitVec.toNat_ofNat, Nat.zero_mod,
          Nat.zero_add, value.isLt])
  rw [varBytes_eq hw, groups]
  simp only [Nat.mul_zero, Nat.pow_zero, Nat.mul_one, BitVec.toNat_ofNat, Nat.zero_mod, Nat.zero_add]

/-- A 32-bit value is one item of at most 5 bytes: the writer's buffer is large enough. -/
theorem varItem_varBytes32 (value : BitVec 32) (rest : List UInt8) :
    FlatBuffer.varItem 5 (varBytes 32 value ++ rest) = some (varBytes 32 value) ∧
      (varBytes 32 value).length ≤ 5 := by
  have := value.isLt
  rw [varBytes_eq (by decide)]
  exact varItem_varDigits 5 32 value.toNat rest (by decide) (by omega) (by decide)

/-- A 64-bit value is one item of at most 10 bytes. -/
theorem varItem_varBytes64 (value : BitVec 64) (rest : List UInt8) :
    FlatBuffer.varItem 10 (varBytes 64 value ++ rest) = some (varBytes 64 value) ∧
      (varBytes 64 value).length ≤ 10 := by
  have := value.isLt
  rw [varBytes_eq (by decide)]
  exact varItem_varDigits 10 64 value.toNat rest (by decide) (by omega) (by decide)

end ByteArray

/-! ## Items -/

open Lib Endian

/-- A typed value with its writer and the reader that matches it. No string is longer than
`max_size()`. -/
inductive Item where
  | fixB (value : BitVec 8)
  | fixUB (value : BitVec 8)
  | fixS (value : BitVec 16)
  | fixUS (value : BitVec 16)
  | fixL (value : BitVec 32)
  | fixUL (value : BitVec 32)
  | fixLL (value : BitVec 64)
  | fixULL (value : BitVec 64)
  | varL (value : BitVec 32)
  | varUL (value : BitVec 32)
  | varLL (value : BitVec 64)
  | varULL (value : BitVec 64)
  | float (value : BitVec 32)
  | double (value : BitVec 64)
  | string (value : List UInt8) (room : value.length ≤ ByteArray.maxSize)
  deriving DecidableEq, Repr

namespace Item

def writer : Item → Writer
  | .fixB v => .fixB v
  | .fixUB v => .fixB v
  | .fixS v => .fixS v
  | .fixUS v => .fixS v
  | .fixL v => .fixL v
  | .fixUL v => .fixL v
  | .fixLL v => .fixLL v
  | .fixULL v => .fixLL v
  | .varL v => .varL v
  | .varUL v => .varUL v
  | .varLL v => .varLL v
  | .varULL v => .varULL v
  | .float v => .float v
  | .double v => .double v
  | .string v _ => .string v

def reader : Item → Reader
  | .fixB _ => .fixB
  | .fixUB _ => .fixUB
  | .fixS _ => .fixS
  | .fixUS _ => .fixUS
  | .fixL _ => .fixL
  | .fixUL _ => .fixUL
  | .fixLL _ => .fixLL
  | .fixULL _ => .fixULL
  | .varL _ => .varL
  | .varUL _ => .varUL
  | .varLL _ => .varLL
  | .varULL _ => .varULL
  | .float _ => .float
  | .double _ => .double
  | .string v _ => .stringWithLength v.length

def value : Item → Value
  | .fixB v => .bits 8 v
  | .fixUB v => .bits 8 v
  | .fixS v => .bits 16 v
  | .fixUS v => .bits 16 v
  | .fixL v => .bits 32 v
  | .fixUL v => .bits 32 v
  | .fixLL v => .bits 64 v
  | .fixULL v => .bits 64 v
  | .varL v => .bits 32 v
  | .varUL v => .bits 32 v
  | .varLL v => .bits 64 v
  | .varULL v => .bits 64 v
  | .float v => .bits 32 v
  | .double v => .bits 64 v
  | .string v _ => .bytes v

end Item

namespace FlatBuffer

variable {f : FlatBuffer} {bytes rest : List UInt8}

/-- The flat reader of a fixed-size scalar facing the scalar's image. -/
theorem readFix_image {w : Nat} (host : Host) (n : Nat) (convert : BitVec w → BitVec w) (what : String)
    (v : BitVec w) (unread : f.unread = bytes ++ rest) (size : bytes.length = n)
    (image : convert (BitVec.ofNat w (host.ofMemory bytes)) = v) :
    readFix host n convert what f = .done v (f.advance bytes.length) := by
  have enough : n ≤ f.unread.length := by rw [unread, List.length_append]; omega
  have taken : f.unread.take n = bytes := by rw [unread, ← size, List.take_left]
  simp only [readFix, readExact, Proc.bind_apply, Proc.read, if_pos enough, read, Proc.update_apply,
    Proc.pure_apply, taken, image, size]

/-- The image of a scalar, read back as a scalar. -/
theorem ofNat_image {w : Nat} (host : Host) (n : Nat) (hw : 256 ^ n = 2 ^ w) (v : BitVec w) :
    BitVec.ofNat w (host.ofMemory (host.toMemory n v.toNat)) = v := by
  apply BitVec.eq_of_toNat_eq
  have := v.isLt
  rw [host.ofMemory_toMemory, hw, BitVec.toNat_ofNat, Nat.mod_mod, Nat.mod_eq_of_lt this]

/-- A single byte is its own image on every host. -/
theorem byte_image (host : Host) (v : BitVec 8) : [UInt8.ofNat v.toNat] = host.toMemory 1 v.toNat := by
  cases host <;>
    simp only [Host.toMemory, beBytes, Nat.pow_zero, Nat.div_one, List.reverse_singleton]

/-- The flat varint reader facing the bytes of a varint writer. -/
theorem readVar_item {w : Nat} (n : Nat) (what : String) (v : BitVec w) (unread : f.unread = bytes ++ rest)
    (item : varItem n (bytes ++ rest) = some bytes) (groups : varValue 0 0#w bytes = v) :
    readVar w n what f = .done v (f.advance bytes.length) := by
  simp only [readVar, Proc.read_bind_apply, unread, item, Proc.update_bind_apply, Proc.pure_apply,
    groups]

end FlatBuffer

open FlatBuffer Sylar.ByteArray in
/-- A reader facing the bytes of the matching writer returns the value and takes these bytes. -/
theorem Item.flat_read (host : Host) (item : Item) {f : FlatBuffer} {rest : List UInt8}
    (unread : f.unread = item.writer.bytes host ++ rest) :
    item.reader.flat host f = .done item.value (f.advance (item.writer.bytes host).length) := by
  cases item with
  | fixB v | fixUB v =>
    have image : networkToHost8 (BitVec.ofNat 8 (host.ofMemory [UInt8.ofNat v.toNat])) = v := by
      rw [byte_image host]
      exact ofNat_image host 1 (by decide) v
    exact Proc.bind_done _ (readFix_image host 1 _ _ v unread rfl image)
  | fixS v | fixUS v =>
    have image := congrArg (networkToHost16 host) (ofNat_image host 2 (by decide) (hostToNetwork16 host v))
    rw [networkToHost16_hostToNetwork16] at image
    exact Proc.bind_done _ (readFix_image host 2 _ _ v unread (host.length_toMemory _ _) image)
  | fixL v | fixUL v =>
    have image := congrArg (networkToHost32 host) (ofNat_image host 4 (by decide) (hostToNetwork32 host v))
    rw [networkToHost32_hostToNetwork32] at image
    exact Proc.bind_done _ (readFix_image host 4 _ _ v unread (host.length_toMemory _ _) image)
  | fixLL v | fixULL v =>
    have image := congrArg (networkToHost64 host) (ofNat_image host 8 (by decide) (hostToNetwork64 host v))
    rw [networkToHost64_hostToNetwork64] at image
    exact Proc.bind_done _ (readFix_image host 8 _ _ v unread (host.length_toMemory _ _) image)
  | varL v =>
    have run := readVar_item 5 "ByteArray::read_var_ul out of range" _ unread
      (varItem_varBytes32 (encodeZigzag v) rest).1 (varValue_varBytes (by decide) _)
    refine (Proc.bind_done _ run).trans ?_
    rw [decodeZigzag_encodeZigzag (by decide)]
    rfl
  | varUL v =>
    exact Proc.bind_done _ (readVar_item 5 _ _ unread (varItem_varBytes32 v rest).1
      (varValue_varBytes (by decide) _))
  | varLL v =>
    have run := readVar_item 10 "ByteArray::read_var_ull out of range" _ unread
      (varItem_varBytes64 (encodeZigzag v) rest).1 (varValue_varBytes (by decide) _)
    refine (Proc.bind_done _ run).trans ?_
    rw [decodeZigzag_encodeZigzag (by decide)]
    rfl
  | varULL v =>
    exact Proc.bind_done _ (readVar_item 10 _ _ unread (varItem_varBytes64 v rest).1
      (varValue_varBytes (by decide) _))
  | float v =>
    exact Proc.bind_done _ (readFix_image host 4 id _ v unread (host.length_toMemory _ _)
      (ofNat_image host 4 (by decide) v))
  | double v =>
    exact Proc.bind_done _ (readFix_image host 8 id _ v unread (host.length_toMemory _ _)
      (ofNat_image host 8 (by decide) v))
  | string v room =>
    have bytes : f.unread = v ++ rest := unread
    have enough : v.length ≤ f.unread.length := by rw [bytes, List.length_append]; omega
    have taken : f.unread.take v.length = v := by rw [bytes, List.take_left]
    simp only [Item.reader, Reader.flat, FlatBuffer.readStringWithLength, if_neg (Nat.not_lt.mpr room),
      FlatBuffer.readExact, FlatBuffer.read, Proc.bind_apply, Proc.read, if_pos enough,
      Proc.update_apply, Proc.pure_apply, taken]
    rfl

/-! ## Whole lists of items -/

namespace ByteArray

/-- Write the items in order, each with its writer. -/
def writeItems (host : Host) : List Item → M Unit
  | [] => pure ()
  | item :: items => do
    item.writer.call host
    writeItems host items

/-- Read with the given readers in order. -/
def readItems (host : Host) : List Reader → M (List Value)
  | [] => pure []
  | reader :: readers => do
    let value ← reader.call host
    let values ← readItems host readers
    pure (value :: values)

/-- The items appended to a flat buffer. -/
theorem writeItems_refines (host : Host) (items : List Item) :
    Proc.Refines Rep (writeItems host items)
      (FlatBuffer.write (items.flatMap fun item => item.writer.bytes host)) := by
  induction items with
  | nil =>
    intro s f r
    simp only [writeItems, List.flatMap_nil, FlatBuffer.write, Proc.pure_apply, Proc.update_apply,
      List.append_nil]
    exact ⟨rfl, r⟩
  | cons item items ih =>
    rw [List.flatMap_cons, ← flat_write_write]
    exact (writer_refines host item.writer).bind fun _ => ih

/-- Matching readers facing the bytes of the items, and nothing after them. -/
theorem readItems_spec (host : Host) (items : List Item) : ∀ (s : ByteArray) (f : FlatBuffer), Rep s f →
    f.unread = (items.flatMap fun item => item.writer.bytes host) →
    ∃ s', readItems host (items.map Item.reader) s = .done (items.map Item.value) s' ∧
      s'.getUnreadSize = 0 := by
  induction items with
  | nil =>
    intro s f r unread
    refine ⟨s, rfl, ?_⟩
    rw [r.unreadSize, unread]
    rfl
  | cons item items ih =>
    intro s f r unread
    rw [List.flatMap_cons] at unread
    obtain ⟨s₁, run, r₁⟩ := (reader_refines host item.reader).done r (item.flat_read host unread)
    have behind : (f.advance (item.writer.bytes host).length).unread =
        (items.flatMap fun item => item.writer.bytes host) := by
      have all : min (item.writer.bytes host).length f.unread.length =
          (item.writer.bytes host).length := by
        rw [unread, List.length_append]; omega
      have moved : (f.advance (item.writer.bytes host).length).unread =
          f.unread.drop (min (item.writer.bytes host).length f.unread.length) := by
        simp only [FlatBuffer.advance, FlatBuffer.unread, List.drop_drop]
      rw [moved, all, unread, List.drop_left]
    obtain ⟨s', runs, done⟩ := ih s₁ _ r₁ behind
    refine ⟨s', ?_, done⟩
    rw [List.map_cons, readItems, Proc.bind_done _ run, Proc.bind_done _ runs]
    rfl

/-- The fixed-width integer writers, with the size of the integer in bytes and its value. -/
def fixedWidth : Writer → Option (Nat × Nat)
  | .fixB v => some (1, v.toNat)
  | .fixS v => some (2, v.toNat)
  | .fixL v => some (4, v.toNat)
  | .fixLL v => some (8, v.toNat)
  | _ => none

/-- On a little-endian host a fixed-width writer emits the most significant byte first. -/
theorem fixedWidth_bytes {writer : Writer} {n v : Nat} (h : fixedWidth writer = some (n, v)) :
    writer.bytes .little = beBytes n v := by
  cases writer <;> simp only [fixedWidth, reduceCtorEq, Option.some.injEq, Prod.mk.injEq] at h
  all_goals obtain ⟨rfl, rfl⟩ := h
  · simp only [Writer.bytes, beBytes, Nat.pow_zero, Nat.div_one]
  · exact toMemory_hostToNetwork16 .little _
  · exact toMemory_hostToNetwork32 .little _
  · exact hostToNetwork64_little _

/-- The typed codec round trip. For every host byte order, every block size and every list of typed
values, writing them in order on a fresh array and reading them in order with the matching readers
returns the values and leaves nothing unread. On a little-endian host the bytes a fixed-width writer
appends are those of its value, most significant first. -/
theorem codec_round_trip {blockSize : Nat} (hsize : 1 ≤ blockSize) (junk : Nat → Nat → UInt8)
    (items : List Item) :
    (∀ host : Host, ∃ s s', writeItems host items (init blockSize junk) = .done () s ∧
        readItems host (items.map Item.reader) s = .done (items.map Item.value) s' ∧
        s'.getUnreadSize = 0) ∧
      ∀ (s : ByteArray) (writer : Writer) (n v : Nat), s.Blank ∨ s.Placed →
        fixedWidth writer = some (n, v) →
        ∃ s', writer.call .little s = .done () s' ∧ s'.contents = s.contents ++ beBytes n v := by
  refine ⟨fun host => ?_, fun s writer n v layout fixed => ?_⟩
  · obtain ⟨s, written, r⟩ := (writeItems_refines host items).done (rep_init hsize junk) rfl
    obtain ⟨s', read, done⟩ := readItems_spec host items s _ r (by
      simp only [FlatBuffer.unread, FlatBuffer.empty, List.drop_zero, List.nil_append])
    exact ⟨s, s', written, read, done⟩
  · obtain ⟨f, r⟩ := rep_of_layout layout
    obtain ⟨s', written, r'⟩ := (writer_refines .little writer).done r rfl
    refine ⟨s', written, ?_⟩
    rw [r'.contents, r.contents, fixedWidth_bytes fixed]

theorem two_bytes_room : ([0, 255] : List UInt8).length ≤ maxSize := by decide

/-- The extreme values, in blocks of one byte, on both kinds of host. -/
theorem codec_round_trip_extremes :
    (∀ host : Host, ∃ s s', writeItems host
        [.varLL (BitVec.intMin 64), .varULL (BitVec.allOnes 64), .fixLL 1#64,
          .string [0, 255] two_bytes_room]
        (init 1 fun _ _ => 0x55) = .done () s ∧
      readItems host [.varLL, .varULL, .fixLL, .stringWithLength 2] s =
        .done [.bits 64 (BitVec.intMin 64), .bits 64 (BitVec.allOnes 64), .bits 64 1#64,
          .bytes [0, 255]] s' ∧
      s'.getUnreadSize = 0) ∧
    ∃ s', (Writer.fixL 0x01020304#32).call .little (init 1 fun _ _ => 0x55) = .done () s' ∧
      s'.contents = (init 1 fun _ _ => 0x55).contents ++ [1, 2, 3, 4] :=
  ⟨(codec_round_trip (Nat.le_refl 1) (fun _ _ => 0x55)
      [.varLL (BitVec.intMin 64), .varULL (BitVec.allOnes 64), .fixLL 1#64,
        .string [0, 255] two_bytes_room]).1,
    (codec_round_trip (Nat.le_refl 1) (fun _ _ => 0x55) []).2 _ (.fixL 0x01020304#32) 4 0x01020304
      (.inl (init_blank (Nat.le_refl 1) _)) rfl⟩

end ByteArray

end Sylar
