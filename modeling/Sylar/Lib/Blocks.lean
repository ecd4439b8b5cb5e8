import Mathlib

/-!
# Blocks — a long list kept in pieces of one size

A list of blocks of the same positive size stands for its concatenation. Position `p` of the
concatenation is offset `p % size` of block `p / size`, so a run of positions that stays inside one
block is a slice of that block (`slice_flatten`), and overwriting such a run inside its block is
overwriting it in the concatenation (`flatten_modify_splice`). `next_block` is the arithmetic of a
cursor that moves along: after at most the rest of the block, the block number goes up by one exactly
when the position has reached a multiple of the size.
-/

namespace Sylar.Lib

variable {α : Type}

/-- `data` written over `l` from position `pos` on. -/
def splice (l : List α) (pos : Nat) (data : List α) : List α :=
  l.take pos ++ data ++ l.drop (pos + data.length)

@[simp] theorem splice_nil (l : List α) (pos : Nat) : splice l pos [] = l := by
  simp only [splice, List.append_nil, List.length_nil, Nat.add_zero, List.take_append_drop]

theorem length_splice {l : List α} {pos : Nat} {data : List α} (fits : pos + data.length ≤ l.length) :
    (splice l pos data).length = l.length := by
  simp only [splice, List.length_append, List.length_take, List.length_drop]
  omega

/-- Two adjacent pieces written one after the other are one piece. -/
theorem splice_splice (l : List α) (pos : Nat) (a b : List α)
    (fits : pos + (a ++ b).length ≤ l.length) :
    splice (splice l pos a) (pos + a.length) b = splice l pos (a ++ b) := by
  simp only [List.length_append] at fits
  have front : (l.take pos ++ a).length = pos + a.length := by
    simp only [List.length_append, List.length_take]; omega
  simp only [splice, List.length_append]
  rw [List.take_append_of_le_length (Nat.le_of_eq front.symm), List.take_of_length_le (Nat.le_of_eq front),
    List.drop_append, List.drop_of_length_le (by omega : (l.take pos ++ a).length ≤ _), List.drop_drop]
  simp only [front, List.nil_append, List.append_assoc]
  congr 4
  omega

/-- What stands before the end of a piece written at `pos`: the old prefix, then the piece. -/
theorem take_splice {l : List α} {pos : Nat} {data : List α} (fits : pos + data.length ≤ l.length) :
    (splice l pos data).take (pos + data.length) = l.take pos ++ data := by
  have front : (l.take pos ++ data).length = pos + data.length := by
    simp only [List.length_append, List.length_take]; omega
  rw [splice, List.take_append_of_le_length (Nat.le_of_eq front.symm),
    List.take_of_length_le (Nat.le_of_eq front)]

/-! ## Cursor arithmetic -/

/-- A move by at most the rest of the block: the block number after it. -/
theorem next_block {size p n : Nat} (hsize : 0 < size) (hn : 0 < n) :
    (p + min (size - p % size) n) / size =
      if (p + min (size - p % size) n) % size = 0 then p / size + 1 else p / size := by
  have split := Nat.div_add_mod p size
  have small := Nat.mod_lt p hsize
  by_cases whole : size - p % size ≤ n
  · have step : p + min (size - p % size) n = size * (p / size + 1) := by
      rw [Nat.min_eq_left whole, Nat.mul_add, Nat.mul_one]; omega
    rw [step, Nat.mul_mod_right, if_pos rfl, Nat.mul_div_cancel_left _ hsize]
  · have step : p + min (size - p % size) n = size * (p / size) + (p % size + n) := by
      rw [Nat.min_eq_right (by omega)]; omega
    have inside : p % size + n < size := by omega
    rw [step, Nat.mul_add_mod, Nat.mod_eq_of_lt inside, if_neg (by omega),
      Nat.mul_add_div hsize, Nat.div_eq_of_lt inside, Nat.add_zero]

/-- A position below the end of the blocks has its block. -/
theorem block_lt {size p count : Nat} (hsize : 0 < size) (h : p < count * size) : p / size < count :=
  (Nat.div_lt_iff_lt_mul hsize).mpr h

/-! ## Slices and overwrites -/

/-- All blocks have the same size. -/
def Uniform (size : Nat) (blocks : List (List α)) : Prop := ∀ b ∈ blocks, b.length = size

theorem Uniform.length_flatten {size : Nat} {blocks : List (List α)} (u : Uniform size blocks) :
    blocks.flatten.length = blocks.length * size := by
  induction blocks with
  | nil => simp only [List.flatten_nil, List.length_nil, Nat.zero_mul]
  | cons b bs ih =>
    have hb : b.length = size := u b List.mem_cons_self
    simp only [List.flatten_cons, List.length_append, List.length_cons, hb,
      ih fun c hc => u c (List.mem_cons_of_mem _ hc)]
    ring

theorem Uniform.append {size : Nat} {first second : List (List α)} (u : Uniform size first)
    (v : Uniform size second) : Uniform size (first ++ second) := by
  intro b hb
  rcases List.mem_append.mp hb with h | h
  · exact u b h
  · exact v b h

/-- A run of positions inside one block is a slice of the block. -/
theorem slice_flatten {size : Nat} {blocks : List (List α)} (u : Uniform size blocks)
    {i off len : Nat} {block : List α} (hi : blocks[i]? = some block) (fits : off + len ≤ size) :
    (blocks.flatten.drop (i * size + off)).take len = (block.drop off).take len := by
  induction blocks generalizing i with
  | nil => simp only [List.getElem?_nil, reduceCtorEq] at hi
  | cons b bs ih =>
    have hb : b.length = size := u b List.mem_cons_self
    cases i with
    | zero =>
      obtain rfl : b = block := by simpa only [List.getElem?_cons_zero, Option.some.injEq] using hi
      rw [Nat.zero_mul, Nat.zero_add, List.flatten_cons, List.drop_append_of_le_length (by omega),
        List.take_append_of_le_length (by rw [List.length_drop]; omega)]
    | succ i =>
      have inner := ih (fun c hc => u c (List.mem_cons_of_mem _ hc)) (i := i)
        (by simpa only [List.getElem?_cons_succ] using hi)
      rw [List.flatten_cons, show (i + 1) * size + off = b.length + (i * size + off) by rw [hb]; ring,
        List.drop_append, List.drop_of_length_le (by omega), List.nil_append,
        Nat.add_sub_cancel_left]
      exact inner

/-- Overwriting inside a block is overwriting the same run of the concatenation. -/
theorem flatten_modify_splice {size : Nat} {blocks : List (List α)} (u : Uniform size blocks)
    (i off : Nat) (data : List α) (hi : i < blocks.length) (fits : off + data.length ≤ size) :
    (blocks.modify i (splice · off data)).flatten = splice blocks.flatten (i * size + off) data := by
  induction blocks generalizing i with
  | nil => simp only [List.length_nil, Nat.not_lt_zero] at hi
  | cons b bs ih =>
    have hb : b.length = size := u b List.mem_cons_self
    cases i with
    | zero =>
      simp only [List.modify_zero_cons, List.flatten_cons, splice, Nat.zero_mul, Nat.zero_add]
      rw [List.take_append_of_le_length (by omega), List.drop_append_of_le_length (by omega)]
      simp only [List.append_assoc]
    | succ i =>
      have inner := ih (fun c hc => u c (List.mem_cons_of_mem _ hc)) i
        (by simpa only [List.length_cons, Nat.add_lt_add_iff_right] using hi)
      rw [List.modify_succ_cons, List.flatten_cons, inner]
      simp only [splice, List.flatten_cons]
      rw [show (i + 1) * size + off = b.length + (i * size + off) by rw [hb]; ring,
        List.take_append, List.take_of_length_le (Nat.le_add_right b.length _),
        Nat.add_sub_cancel_left, Nat.add_assoc b.length, List.drop_append,
        List.drop_of_length_le (Nat.le_add_right b.length _), List.nil_append,
        Nat.add_sub_cancel_left]
      simp only [List.append_assoc]

theorem Uniform.modify_splice {size : Nat} {blocks : List (List α)} (u : Uniform size blocks)
    {i off : Nat} {data : List α} (fits : off + data.length ≤ size) :
    Uniform size (blocks.modify i (splice · off data)) := by
  induction blocks generalizing i with
  | nil => intro b hb; simp only [List.modify_nil, List.not_mem_nil] at hb
  | cons b bs ih =>
    have hb : b.length = size := u b List.mem_cons_self
    have tail : Uniform size bs := fun c hc => u c (List.mem_cons_of_mem _ hc)
    cases i with
    | zero =>
      intro c hc
      rw [List.modify_zero_cons] at hc
      rcases List.mem_cons.mp hc with rfl | hc
      · rw [length_splice (by omega), hb]
      · exact tail c hc
    | succ i =>
      intro c hc
      rw [List.modify_succ_cons] at hc
      rcases List.mem_cons.mp hc with rfl | hc
      · exact hb
      · exact ih tail c hc

end Sylar.Lib
