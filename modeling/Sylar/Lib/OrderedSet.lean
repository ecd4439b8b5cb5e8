import Mathlib

/-!
# Sets ordered by a key

An ordered set of elements compared by a key only, kept as the list of its elements in order. Two
elements with the same key are the same element to it: the second is not inserted, and a search for
either finds the one that is there. The operations search from the front, as a search tree does along
its order, and the specification lemmas hold of every strictly sorted list.
-/

namespace Sylar.Lib.OrderedSet

variable {α κ : Type*} [LinearOrder κ] (key : α → κ)

/-- Strictly increasing keys. -/
def Sorted (l : List α) : Prop :=
  l.Pairwise fun a b => key a < key b

/-- What an insertion answers: the set after it, the element at the position of the key, and whether
this is the new element. -/
structure Inserted (α : Type*) where
  elements : List α
  position : α
  fresh : Bool
  deriving DecidableEq, Repr

/-- Insert an element unless one with its key is present. -/
def insert (a : α) : List α → Inserted α
  | [] => ⟨[a], a, true⟩
  | b :: l =>
    if key b < key a then
      let below := insert a l
      ⟨b :: below.elements, below.position, below.fresh⟩
    else if key a < key b then ⟨a :: b :: l, a, true⟩
    else ⟨b :: l, b, false⟩

/-- The element with the given key. -/
def find (k : κ) : List α → Option α
  | [] => none
  | b :: l => if key b < k then find k l else if k < key b then none else some b

/-- The set without the element with the given key. -/
def erase (k : κ) : List α → List α
  | [] => []
  | b :: l => if key b < k then b :: erase k l else if k < key b then b :: l else l

/-- The elements up to and with the given key. -/
def upTo (k : κ) (l : List α) : List α :=
  l.takeWhile fun a => key a ≤ k

/-- The elements beyond the given key. -/
def beyond (k : κ) (l : List α) : List α :=
  l.dropWhile fun a => key a ≤ k

variable {key} {l : List α} {a x : α} {k : κ}

theorem Sorted.nil : Sorted key ([] : List α) :=
  List.Pairwise.nil

/-- Sortedness only looks at the keys of the elements. -/
theorem Sorted.congr {key' : α → κ} (h : Sorted key l) (same : ∀ b ∈ l, key' b = key b) :
    Sorted key' l := by
  refine List.Pairwise.imp_of_mem ?_ h
  intro b c memB memC lt
  rwa [same b memB, same c memC]

/-- A key has at most one element. -/
theorem Sorted.eq_of_key_eq (h : Sorted key l) {b c : α} (memB : b ∈ l) (memC : c ∈ l)
    (same : key b = key c) : b = c := by
  induction l with
  | nil => cases memB
  | cons d l ih =>
    obtain ⟨above, rest⟩ := List.pairwise_cons.mp h
    rcases List.mem_cons.mp memB with rfl | tailB
    · rcases List.mem_cons.mp memC with rfl | tailC
      · rfl
      · exact absurd same (ne_of_lt (above c tailC))
    · rcases List.mem_cons.mp memC with rfl | tailC
      · exact absurd same.symm (ne_of_lt (above b tailB))
      · exact ih rest tailB tailC

/-! ## Insertion -/

theorem mem_insert : x ∈ (insert key a l).elements ↔ x ∈ l ∨ ((insert key a l).fresh = true ∧ x = a) := by
  induction l with
  | nil => simp [insert]
  | cons b l ih =>
    rw [insert]
    split
    · simp only [List.mem_cons, ih, or_assoc]
    · split
      · simp only [List.mem_cons, true_and]
        exact or_comm
      · simp

theorem sorted_insert (h : Sorted key l) : Sorted key (insert key a l).elements := by
  induction l with
  | nil => exact List.pairwise_singleton _ _
  | cons b l ih =>
    obtain ⟨above, rest⟩ := List.pairwise_cons.mp h
    rw [insert]
    split
    · rename_i lt
      refine List.pairwise_cons.mpr ⟨fun c mem => ?_, ih rest⟩
      rcases mem_insert.mp mem with old | ⟨-, rfl⟩
      · exact above c old
      · exact lt
    · split
      · rename_i lt
        refine List.pairwise_cons.mpr ⟨fun c mem => ?_, h⟩
        rcases List.mem_cons.mp mem with rfl | mem
        · exact lt
        · exact lt_trans lt (above c mem)
      · exact h

/-- An element enters exactly when its key is free. -/
theorem insert_fresh_iff (h : Sorted key l) :
    (insert key a l).fresh = true ↔ ∀ b ∈ l, key b ≠ key a := by
  induction l with
  | nil => simp [insert]
  | cons b l ih =>
    obtain ⟨above, rest⟩ := List.pairwise_cons.mp h
    rw [insert]
    split
    · rename_i lt
      rw [ih rest, List.forall_mem_cons]
      exact ⟨fun free => ⟨ne_of_lt lt, free⟩, fun free => free.2⟩
    · split
      · rename_i lt
        refine iff_of_true rfl fun c mem => ?_
        rcases List.mem_cons.mp mem with rfl | mem
        · exact ne_of_gt lt
        · exact ne_of_gt (lt_trans lt (above c mem))
      · rename_i notBelow notAbove
        refine iff_of_false Bool.false_ne_true fun free => ?_
        exact free b List.mem_cons_self (le_antisymm (not_lt.mp notAbove) (not_lt.mp notBelow))

/-- An element that enters is found at its position. -/
theorem insert_position (fresh : (insert key a l).fresh = true) : (insert key a l).position = a := by
  induction l with
  | nil => rfl
  | cons b l ih =>
    rw [insert] at fresh ⊢
    split at fresh
    · rename_i lt
      rw [if_pos lt]
      exact ih fresh
    · rename_i notBelow
      rw [if_neg notBelow]
      split at fresh
      · rename_i lt
        rw [if_pos lt]
      · cases fresh

/-! ## Search and removal -/

theorem find_eq_some (h : Sorted key l) : find key k l = some a ↔ a ∈ l ∧ key a = k := by
  induction l with
  | nil => simp [find]
  | cons b l ih =>
    obtain ⟨above, rest⟩ := List.pairwise_cons.mp h
    rw [find]
    split
    · rename_i lt
      rw [ih rest, List.mem_cons]
      refine ⟨fun ⟨mem, eq⟩ => ⟨.inr mem, eq⟩, fun ⟨mem, eq⟩ => ⟨?_, eq⟩⟩
      rcases mem with rfl | mem
      · exact absurd eq (ne_of_lt lt)
      · exact mem
    · split
      · rename_i lt
        refine iff_of_false (by simp) fun ⟨mem, eq⟩ => ?_
        rcases List.mem_cons.mp mem with rfl | mem
        · exact ne_of_gt lt eq
        · exact ne_of_gt (lt_trans lt (above a mem)) eq
      · rename_i notBelow notAbove
        have here : key b = k := le_antisymm (not_lt.mp notAbove) (not_lt.mp notBelow)
        refine ⟨fun eq => ?_, fun ⟨mem, eq⟩ => ?_⟩
        · obtain rfl := Option.some.inj eq
          exact ⟨List.mem_cons_self, here⟩
        · rw [h.eq_of_key_eq mem List.mem_cons_self (eq.trans here.symm)]

theorem find_eq_none (h : Sorted key l) : find key k l = none ↔ ∀ b ∈ l, key b ≠ k := by
  rw [Option.eq_none_iff_forall_ne_some]
  exact ⟨fun none b mem eq => none b ((find_eq_some h).mpr ⟨mem, eq⟩),
    fun free b some => free b ((find_eq_some h).mp some).1 ((find_eq_some h).mp some).2⟩

theorem mem_erase (h : Sorted key l) : x ∈ erase key k l ↔ x ∈ l ∧ key x ≠ k := by
  induction l with
  | nil => simp [erase]
  | cons b l ih =>
    obtain ⟨above, rest⟩ := List.pairwise_cons.mp h
    rw [erase]
    split
    · rename_i lt
      rw [List.mem_cons, ih rest, List.mem_cons]
      refine ⟨?_, ?_⟩
      · rintro (rfl | ⟨mem, ne⟩)
        · exact ⟨.inl rfl, ne_of_lt lt⟩
        · exact ⟨.inr mem, ne⟩
      · rintro ⟨rfl | mem, ne⟩
        · exact .inl rfl
        · exact .inr ⟨mem, ne⟩
    · split
      · rename_i lt
        refine ⟨fun mem => ⟨mem, ?_⟩, And.left⟩
        rcases List.mem_cons.mp mem with rfl | mem
        · exact ne_of_gt lt
        · exact ne_of_gt (lt_trans lt (above x mem))
      · rename_i notBelow notAbove
        have here : key b = k := le_antisymm (not_lt.mp notAbove) (not_lt.mp notBelow)
        refine ⟨fun mem => ⟨List.mem_cons_of_mem _ mem, ?_⟩, fun ⟨mem, ne⟩ => ?_⟩
        · rw [← here]
          exact ne_of_gt (above x mem)
        · rcases List.mem_cons.mp mem with rfl | mem
          · exact absurd here ne
          · exact mem

theorem sorted_erase (h : Sorted key l) : Sorted key (erase key k l) := by
  refine List.Pairwise.sublist ?_ h
  clear h
  induction l with
  | nil => exact List.Sublist.refl _
  | cons b l ih =>
    rw [erase]
    split
    · exact ih.cons_cons b
    · split
      · exact List.Sublist.refl _
      · exact List.sublist_cons_self b l

/-! ## Ranges -/

theorem upTo_append_beyond : upTo key k l ++ beyond key k l = l :=
  List.takeWhile_append_dropWhile

theorem le_of_mem_upTo (mem : x ∈ upTo key k l) : key x ≤ k := by
  simpa using List.mem_takeWhile_imp mem

/-- The keys beyond a bound are above it. -/
theorem lt_of_mem_beyond (h : Sorted key l) (mem : x ∈ beyond key k l) : k < key x := by
  induction l with
  | nil => cases mem
  | cons b l ih =>
    obtain ⟨above, rest⟩ := List.pairwise_cons.mp h
    rw [beyond, List.dropWhile_cons] at mem
    split at mem
    · exact ih rest mem
    · rename_i notLe
      have lt : k < key b := by simpa using notLe
      rcases List.mem_cons.mp mem with rfl | mem
      · exact lt
      · exact lt_trans lt (above x mem)

theorem mem_upTo (h : Sorted key l) : x ∈ upTo key k l ↔ x ∈ l ∧ key x ≤ k := by
  refine ⟨fun mem => ⟨?_, le_of_mem_upTo mem⟩, fun ⟨mem, le⟩ => ?_⟩
  · exact (List.takeWhile_sublist _).subset mem
  · have split : upTo key k l ++ beyond key k l = l := upTo_append_beyond
    rw [← split, List.mem_append] at mem
    rcases mem with mem | mem
    · exact mem
    · exact absurd le (not_le.mpr (lt_of_mem_beyond h mem))

theorem mem_beyond (h : Sorted key l) : x ∈ beyond key k l ↔ x ∈ l ∧ k < key x := by
  refine ⟨fun mem => ⟨?_, lt_of_mem_beyond h mem⟩, fun ⟨mem, lt⟩ => ?_⟩
  · exact (List.dropWhile_sublist _).subset mem
  · have split : upTo key k l ++ beyond key k l = l := upTo_append_beyond
    rw [← split, List.mem_append] at mem
    rcases mem with mem | mem
    · exact absurd lt (not_lt.mpr (le_of_mem_upTo mem))
    · exact mem

theorem sorted_beyond (h : Sorted key l) : Sorted key (beyond key k l) :=
  List.Pairwise.sublist (List.dropWhile_sublist _) h

theorem sorted_upTo (h : Sorted key l) : Sorted key (upTo key k l) :=
  List.Pairwise.sublist (List.takeWhile_sublist _) h

end Sylar.Lib.OrderedSet
