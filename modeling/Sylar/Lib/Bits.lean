import Mathlib.Data.BitVec
import Mathlib.Data.Nat.Count

/-!
# Words with a fixed first part

`Fills p rest x y` says that `y` has the first `p` bits of `x`, counted from the most significant one,
and `rest` in all the others. The word `y` is determined by this, filling twice is filling once, two
words fill alike exactly when they agree on the first `p` bits, and `x` lies between its two fillings.

A word whose set bits all stand in front (`Leading`) is given by their number (`ones`), which
`x & (x - 1)` makes one less.
-/

namespace Sylar

namespace Lib

variable {w : Nat}

def Fills (p : Nat) (rest : Bool) (x y : BitVec w) : Prop :=
  ∀ i < w, y.getMsbD i = if i < p then x.getMsbD i else rest

/-- The two words have the first `p` bits in common. -/
def Agree (p : Nat) (x y : BitVec w) : Prop := ∀ i < w, i < p → x.getMsbD i = y.getMsbD i

namespace Fills

variable {p : Nat} {rest : Bool} {x x' y y' z : BitVec w}

theorem eq_iff (left : Fills p rest x y) (right : Fills p rest x' y') : y = y' ↔ Agree p x x' := by
  constructor
  · rintro rfl i inside first
    have hl := left i inside
    rw [right i inside] at hl
    simpa only [if_pos first] using hl.symm
  · intro agree
    apply BitVec.eq_of_getMsbD_eq
    intro i inside
    rw [left i inside, right i inside]
    split
    · exact agree i inside ‹_›
    · rfl

theorem twice (once : Fills p rest x y) (again : Fills p rest y z) : z = y := by
  apply (again.eq_iff once).mpr
  intro i inside first
  rw [once i inside, if_pos first]

/-- Cleared bits make the word smaller. -/
theorem le (cleared : Fills p false x y) : y.toNat ≤ x.toNat := by
  have part : y = x &&& y := by
    apply BitVec.eq_of_getMsbD_eq
    intro i inside
    rw [BitVec.getMsbD_and, cleared i inside]
    split <;> simp
  rw [part, BitVec.toNat_and]
  exact Nat.and_le_left

/-- Set bits make the word greater. -/
theorem ge (set : Fills p true x y) : x.toNat ≤ y.toNat := by
  have part : y = x ||| y := by
    apply BitVec.eq_of_getMsbD_eq
    intro i inside
    rw [BitVec.getMsbD_or, set i inside]
    split <;> simp
  rw [part, BitVec.toNat_or]
  exact Nat.left_le_or

end Fills

/-- Masking the tail away. -/
theorem fills_and {p : Nat} {x mask : BitVec w} (bits : ∀ i < w, mask.getMsbD i = decide (i < p)) :
    Fills p false x (x &&& mask) := by
  intro i inside
  rw [BitVec.getMsbD_and, bits i inside]
  by_cases first : i < p <;> simp [first]

/-- Masking the tail in. -/
theorem fills_or {p : Nat} {x mask : BitVec w} (bits : ∀ i < w, mask.getMsbD i = decide (i < p)) :
    Fills p true x (x ||| ~~~mask) := by
  intro i inside
  rw [BitVec.getMsbD_or, BitVec.getMsbD_not, bits i inside]
  by_cases first : i < p <;> simp [first, inside]

/-- Past the width every word is its own filling. -/
theorem fills_self {p : Nat} (rest : Bool) (x : BitVec w) (wide : w ≤ p) : Fills p rest x x := by
  intro i inside
  rw [if_pos (by omega)]

/-! ## Counting bits -/

/-- How many bits of a word are set. -/
def ones (x : BitVec w) : Nat := Nat.count (fun i => x.getMsbD i = true) w

/-- The bits that are set stand in front. -/
def Leading (x : BitVec w) : Prop := ∀ i j, i < j → x.getMsbD j = true → x.getMsbD i = true

theorem ones_le (x : BitVec w) : ones x ≤ w := Nat.count_le _

theorem ones_eq_zero_iff {x : BitVec w} : ones x = 0 ↔ x = 0#w := by
  rw [ones, Nat.count_iff_forall_not]
  constructor
  · intro none
    apply BitVec.eq_of_getMsbD_eq
    intro i inside
    rw [BitVec.getMsbD_zero, Bool.eq_false_iff]
    exact none i inside
  · intro zero i inside
    rw [zero, BitVec.getMsbD_zero]
    exact Bool.false_ne_true

theorem count_congr {p q : Nat → Prop} [DecidablePred p] [DecidablePred q] {n : Nat} (same : ∀ i < n, p i ↔ q i) :
    Nat.count p n = Nat.count q n := by
  apply Nat.le_antisymm
  · exact Nat.count_mono_left fun i inside => (same i inside).mp
  · exact Nat.count_mono_left fun i inside => (same i inside).mpr

/-- Counting from either end is the same. -/
theorem count_reflect (p : Nat → Prop) [DecidablePred p] (w : Nat) :
    Nat.count (fun i => p (w - 1 - i)) w = Nat.count p w := by
  induction w with
  | zero => rfl
  | succ w ih =>
    simp only [Nat.sub_sub, Nat.add_comm 1] at ih
    rw [Nat.count_succ', Nat.count_succ]
    simp only [Nat.add_sub_cancel, Nat.sub_zero, ih]

theorem ones_eq_count (x : BitVec w) : ones x = Nat.count (fun i => x.toNat.testBit i = true) w := by
  rw [ones, ← count_reflect]
  apply count_congr
  intro i inside
  have back : w - 1 - (w - 1 - i) = i := by omega
  have within : w - 1 - i < w := by omega
  simp only [BitVec.getMsbD_eq_getLsbD, BitVec.testBit_toNat, back, within, decide_true, Bool.true_and]

/-- `n & (n - 1)` has one bit less. -/
theorem count_clear {w n : Nat} (pos : 0 < n) (small : n < 2 ^ w) :
    Nat.count (fun i => (n &&& (n - 1)).testBit i = true) w + 1 = Nat.count (fun i => n.testBit i = true) w := by
  induction w generalizing n with
  | zero => omega
  | succ w ih =>
    have low : (n &&& (n - 1)).testBit 0 = false := by
      rw [Nat.testBit_and, Nat.testBit_zero, Nat.testBit_zero, ← Bool.decide_and, decide_eq_false_iff_not]
      omega
    have lowest : n.testBit 0 = true ↔ n % 2 = 1 := by rw [Nat.testBit_zero, decide_eq_true_iff]
    rw [Nat.count_succ', Nat.count_succ', if_neg (by rw [low]; exact Bool.false_ne_true)]
    simp only [lowest, Nat.testBit_succ, Nat.and_div_two]
    have half : n / 2 < 2 ^ w := by
      rw [Nat.pow_succ] at small
      omega
    rcases Nat.mod_two_eq_zero_or_one n with even | odd
    · -- the lowest bit is clear: the change is in the upper half
      have upper : (n - 1) / 2 = n / 2 - 1 := by omega
      rw [upper, ← ih (by omega) half, if_neg (by omega)]
    · -- the lowest bit is the one that goes
      have upper : (n - 1) / 2 = n / 2 := by omega
      rw [upper, Nat.and_self, if_pos odd]

theorem ones_clear {x : BitVec w} (some : x ≠ 0#w) : ones (x &&& (x - 1#w)) + 1 = ones x := by
  have pos : 0 < x.toNat := by
    rw [Nat.pos_iff_ne_zero]
    intro zero
    exact some (BitVec.eq_of_toNat_eq zero)
  have below : (x - 1#w).toNat = x.toNat - 1 := by
    have lt := x.isLt
    have wide : 1 < 2 ^ w := by omega
    rw [BitVec.toNat_sub, BitVec.toNat_ofNat, Nat.mod_eq_of_lt wide]
    have sum : 2 ^ w - 1 + x.toNat = 2 ^ w + (x.toNat - 1) := by omega
    rw [sum, Nat.add_mod_left, Nat.mod_eq_of_lt (by omega)]
  rw [ones_eq_count, ones_eq_count, BitVec.toNat_and, below]
  exact count_clear pos x.isLt

/-- In front stand as many bits as there are. -/
theorem leading_iff {x : BitVec w} : Leading x ↔ ∀ i < w, x.getMsbD i = decide (i < ones x) := by
  constructor
  · intro leading i inside
    rw [Bool.eq_iff_iff, decide_eq_true_iff]
    constructor
    · intro set
      have all : Nat.count (fun j => x.getMsbD j = true) (i + 1) = i + 1 := by
        rw [Nat.count_iff_forall]
        intro j before
        rcases Nat.lt_or_eq_of_le (Nat.le_of_lt_succ before) with lt | rfl
        · exact leading j i lt set
        · exact set
      have mono : Nat.count (fun j => x.getMsbD j = true) (i + 1) ≤ ones x := Nat.count_monotone _ inside
      omega
    · intro front
      by_contra clear
      have rest : Nat.count (fun j => x.getMsbD (i + j) = true) (w - i) = 0 := by
        rw [Nat.count_iff_forall_not]
        intro j _ set
        rcases Nat.eq_zero_or_pos j with rfl | pos
        · exact clear set
        · exact clear (leading i (i + j) (by omega) set)
      have split : ones x = Nat.count (fun j => x.getMsbD j = true) i +
          Nat.count (fun j => x.getMsbD (i + j) = true) (w - i) := by
        rw [← Nat.count_add, Nat.add_sub_cancel' inside.le]
        rfl
      have bound : Nat.count (fun j => x.getMsbD j = true) i ≤ i := Nat.count_le _
      omega
  · intro front i j before set
    by_cases inside : j < w
    · rw [front j inside, decide_eq_true_iff] at set
      rw [front i (by omega), decide_eq_true_iff]
      omega
    · rw [BitVec.getMsbD_of_ge _ _ (by omega)] at set
      exact absurd set Bool.false_ne_true

end Lib

end Sylar
