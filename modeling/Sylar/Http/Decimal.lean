import Sylar.Lib.Paths
import Sylar.Http.Parser

/-!
# Numbers in decimal

A number that is printed in decimal is read back by the C library: its text is digits, not empty, and stands
for the number, whatever follows that is no part of a number (`strtol_toString`).
-/

namespace Sylar.Http

open Lib

/-- The bytes from `0` to `9`. -/
def IsDigits (s : Str) : Prop := ∀ c ∈ s, ∃ d < 10, c = UInt8.ofNat (48 + d)

theorem digit_facts : ∀ d < 10, digitValue (UInt8.ofNat (48 + d)) = some d ∧
    isspace (UInt8.ofNat (48 + d)) = false ∧ inNumber (UInt8.ofNat (48 + d)) = true ∧
    ByteSet.digit.mem (UInt8.ofNat (48 + d)) = true ∧
    UInt8.ofNat (48 + d) ≠ 0 ∧ UInt8.ofNat (48 + d) ≠ 0x2B ∧ UInt8.ofNat (48 + d) ≠ 0x2D := by
  decide

theorem bytes_toString (n : Nat) :
    bytes (toString n) = (Nat.toDigits 10 n).map fun c => UInt8.ofNat c.toNat :=
  congrArg (List.map _) Nat.toList_repr

theorem toNat_of_isDigit {c : Char} (digit : c.isDigit = true) : ∃ d < 10, c.toNat = 48 + d := by
  rw [Char.isDigit, Bool.and_eq_true, decide_eq_true_eq, decide_eq_true_eq] at digit
  have low : 48 ≤ c.toNat := digit.1
  have high : c.toNat ≤ 57 := digit.2
  exact ⟨c.toNat - 48, by omega, by omega⟩

theorem isDigits_toString (n : Nat) : IsDigits (bytes (toString n)) := by
  intro b mem
  rw [bytes_toString] at mem
  obtain ⟨c, inside, rfl⟩ := List.mem_map.mp mem
  obtain ⟨d, small, eq⟩ := toNat_of_isDigit (Nat.isDigit_of_mem_toDigits (by decide) (by decide) inside)
  exact ⟨d, small, by rw [eq]⟩

theorem bytes_toString_ne_nil (n : Nat) : bytes (toString n) ≠ [] := by
  rw [bytes_toString]
  exact fun none => Nat.toDigits_ne_nil (List.map_eq_nil_iff.mp none)

/-- Digits one after the other, as `numeral` reads them. -/
theorem numeral_eq_foldl {s : Str} (digits : IsDigits s) (n : Nat) :
    ((s.map digitValue).takeWhile fun d => d.any (· < 10)).foldl (fun n d => n * 10 + d.getD 0) n =
      s.foldl (fun n c => n * 10 + (c.toNat - 48)) n := by
  induction s generalizing n with
  | nil => rfl
  | cons c s ih =>
    obtain ⟨d, small, rfl⟩ := digits c List.mem_cons_self
    have value := (digit_facts d small).1
    have byte : (UInt8.ofNat (48 + d)).toNat = 48 + d := by
      rw [UInt8.toNat_ofNat']
      omega
    rw [List.map_cons, value, List.takeWhile_cons_of_pos (by simpa using small), List.foldl_cons, List.foldl_cons,
      ih fun c mem => digits c (List.mem_cons_of_mem _ mem), byte, Nat.add_sub_cancel_left]
    rfl

theorem numeral_toString (n : Nat) : numeral 10 (bytes (toString n)) = n := by
  have chars : ∀ (l : List Char) (k : Nat), (∀ c ∈ l, c.isDigit = true) →
      (l.map fun c => UInt8.ofNat c.toNat).foldl (fun n c => n * 10 + (c.toNat - 48)) k =
        Nat.ofDigitChars 10 l k := by
    intro l
    induction l with
    | nil => exact fun k _ => rfl
    | cons c l ih =>
      intro k all
      obtain ⟨d, small, eq⟩ := toNat_of_isDigit (all c List.mem_cons_self)
      have byte : (UInt8.ofNat c.toNat).toNat = c.toNat := by
        rw [UInt8.toNat_ofNat', eq]
        omega
      rw [List.map_cons, List.foldl_cons, byte, ih _ fun c mem => all c (List.mem_cons_of_mem _ mem),
        Nat.ofDigitChars_cons, Nat.mul_comm]
      rfl
  rw [numeral, numeral_eq_foldl (isDigits_toString n), bytes_toString,
    chars _ 0 fun c mem => Nat.isDigit_of_mem_toDigits (by decide) (by decide) mem]
  exact Nat.ofDigitChars_ten_toDigits

/-- What `strtol` looks at is the digits, where the next byte is no part of a number. -/
theorem subject_digits {s rest : Str} (digits : IsDigits s) (some : s ≠ [])
    (stop : ∀ c z, rest = c :: z → inNumber c = false) : subject (s ++ rest) = s := by
  obtain ⟨c, t, rfl⟩ := List.exists_cons_of_ne_nil some
  obtain ⟨d, small, first⟩ := digits c List.mem_cons_self
  have notSpace : isspace c = false := first ▸ (digit_facts d small).2.1
  have all : ∀ b ∈ c :: t, inNumber b = true := by
    intro b mem
    obtain ⟨d, small, rfl⟩ := digits b mem
    exact (digit_facts d small).2.2.1
  have ends : rest.takeWhile inNumber = [] := by
    cases rest with
    | nil => rfl
    | cons b z => rw [List.takeWhile_cons_of_neg (by rw [stop b z rfl]; decide)]
  rw [subject, List.cons_append, List.dropWhile_cons_of_neg (by rw [notSpace]; decide), ← List.cons_append,
    List.takeWhile_append_of_pos all, ends, List.append_nil]

theorem strtol_digits {s rest : Str} (digits : IsDigits s) (some : s ≠ [])
    (stop : ∀ c z, rest = c :: z → inNumber c = false) :
    strtol 10 (s ++ rest) = min (2 ^ 63 - 1) (numeral 10 s : Int) := by
  have cut := subject_digits digits some stop
  obtain ⟨c, t, rfl⟩ := List.exists_cons_of_ne_nil some
  obtain ⟨d, small, first⟩ := digits c List.mem_cons_self
  have facts := (digit_facts d small).2.2.2.2.2
  rw [← first] at facts
  unfold strtol
  rw [cut]
  split
  · rename_i eq
    exact absurd (List.cons.inj eq).1 facts.2
  · rename_i eq
    exact absurd (List.cons.inj eq).1 facts.1
  · rfl

theorem cStr_digits {s rest : Str} (digits : IsDigits s) : cStr (s ++ rest) = s ++ cStr rest := by
  refine List.takeWhile_append_of_pos fun c mem => ?_
  obtain ⟨d, small, rfl⟩ := digits c mem
  exact decide_eq_true (digit_facts d small).2.2.2.2.1

/-- `atoi` reads digits as `strtol` does, and converts what it returns. -/
theorem atoi_digits {s rest : Str} (digits : IsDigits s) (some : s ≠ [])
    (stop : ∀ c z, rest = c :: z → inNumber c = false) :
    atoi (s ++ rest) = toInt (min (2 ^ 63 - 1) (numeral 10 s : Int)) := by
  have stop' : ∀ c z, cStr rest = c :: z → inNumber c = false := by
    intro c z eq
    cases rest with
    | nil => cases eq
    | cons b y =>
      refine (congrArg inNumber ?_).trans (stop b y rfl)
      unfold cStr at eq
      rw [List.takeWhile_cons] at eq
      split at eq
      · exact (List.cons.inj eq).1.symm
      · cases eq
  rw [atoi, cStr_digits digits, strtol_digits digits some stop']

/-- A number below 2^31 is read back by `atoi`. -/
theorem atoi_toString {n : Nat} (small : n < 2 ^ 31) {rest : Str}
    (stop : ∀ c z, rest = c :: z → inNumber c = false) : atoi (bytes (toString n) ++ rest) = n := by
  rw [atoi_digits (isDigits_toString n) (bytes_toString_ne_nil n) stop, numeral_toString, toInt]
  rw [min_eq_right (by omega)]
  exact Int.bmod_eq_of_le (by omega) (by omega)

end Sylar.Http
