import Mathlib

/-!
# Maps ordered by a key

A map as the list of its entries in the order of their keys, the way a search tree yields them. Names
are compared by a key only: two names with the same key are one place of the map, and the name that
was there first stays. An entry is looked up, replaced and erased by walking from the front; what a
walk finds is specified by `find_assign_self` and `find_assign_ne`, and by `find_erase_self` and
`find_erase_ne`, and a map is determined by its entries (`Sorted.ext`).
-/

namespace Sylar.Lib.OrderedMap

variable {α β κ : Type*} [LinearOrder κ] (key : α → κ)

/-- Strictly increasing keys. -/
def Sorted (m : List (α × β)) : Prop :=
  m.Pairwise fun x y => key x.1 < key y.1

/-- Put a value at the place of a name. -/
def assign (a : α) (b : β) : List (α × β) → List (α × β)
  | [] => [(a, b)]
  | x :: m =>
    if key x.1 < key a then x :: assign a b m
    else if key a < key x.1 then (a, b) :: x :: m
    else (x.1, b) :: m

/-- The entry at the place of a name. -/
def find (a : α) : List (α × β) → Option (α × β)
  | [] => none
  | x :: m => if key x.1 < key a then find a m else if key a < key x.1 then none else some x

/-- The map without the place of a name. -/
def erase (a : α) : List (α × β) → List (α × β)
  | [] => []
  | x :: m =>
    if key x.1 < key a then x :: erase a m else if key a < key x.1 then x :: m else m

variable {key} {m m' : List (α × β)} {a a' : α} {b : β} {x : α × β}

theorem Sorted.nil : Sorted key ([] : List (α × β)) :=
  List.Pairwise.nil

/-- The last value that is put at a place counts. -/
theorem assign_assign {b' : β} : assign key a b' (assign key a b m) = assign key a b' m := by
  induction m with
  | nil => simp only [assign, lt_irrefl, if_false]
  | cons x m ih =>
    rw [assign, assign]
    split
    · rename_i before
      rw [assign, if_pos before, ih]
    · rename_i notBefore
      split
      · rw [assign, if_neg (lt_irrefl _), if_neg (lt_irrefl _)]
      · rename_i notBehind
        rw [assign, if_neg notBefore, if_neg notBehind]

/-! ## What is in a map -/

/-- The name of an assigned entry is the one that was there, or the new one. -/
theorem mem_assign (mem : x ∈ assign key a b m) :
    x ∈ m ∨ (x.2 = b ∧ key x.1 = key a ∧ (x.1 = a ∨ ∃ y ∈ m, x.1 = y.1)) := by
  induction m with
  | nil =>
    obtain rfl := List.mem_singleton.mp mem
    exact .inr ⟨rfl, rfl, .inl rfl⟩
  | cons y m ih =>
    rw [assign] at mem
    split at mem
    · rcases List.mem_cons.mp mem with rfl | mem
      · exact .inl List.mem_cons_self
      · rcases ih mem with old | ⟨value, place, name⟩
        · exact .inl (List.mem_cons_of_mem _ old)
        · refine .inr ⟨value, place, name.imp id ?_⟩
          rintro ⟨z, mem, same⟩
          exact ⟨z, List.mem_cons_of_mem _ mem, same⟩
    · split at mem
      · rcases List.mem_cons.mp mem with rfl | mem
        · exact .inr ⟨rfl, rfl, .inl rfl⟩
        · exact .inl mem
      · rename_i notBelow notAbove
        rcases List.mem_cons.mp mem with rfl | mem
        · exact .inr ⟨rfl, le_antisymm (not_lt.mp notAbove) (not_lt.mp notBelow), .inr ⟨y, List.mem_cons_self, rfl⟩⟩
        · exact .inl (List.mem_cons_of_mem _ mem)

theorem sorted_assign (h : Sorted key m) : Sorted key (assign key a b m) := by
  induction m with
  | nil => exact List.pairwise_singleton _ _
  | cons y m ih =>
    obtain ⟨above, rest⟩ := List.pairwise_cons.mp h
    rw [assign]
    split
    · rename_i lt
      refine List.pairwise_cons.mpr ⟨fun z mem => ?_, ih rest⟩
      rcases mem_assign mem with old | ⟨-, place, -⟩
      · exact above z old
      · rw [place]
        exact lt
    · split
      · rename_i lt
        refine List.pairwise_cons.mpr ⟨fun z mem => ?_, h⟩
        rcases List.mem_cons.mp mem with rfl | mem
        · exact lt
        · exact lt_trans lt (above z mem)
      · exact List.pairwise_cons.mpr ⟨above, rest⟩

theorem erase_sublist : (erase key a m).Sublist m := by
  induction m with
  | nil => exact List.Sublist.refl _
  | cons y m ih =>
    rw [erase]
    split
    · exact ih.cons_cons y
    · split
      · exact List.Sublist.refl _
      · exact List.sublist_cons_self y m

theorem sorted_erase (h : Sorted key m) : Sorted key (erase key a m) :=
  List.Pairwise.sublist erase_sublist h

/-! ## Looking up -/

/-- A name is found by its key. -/
theorem find_congr (same : key a = key a') : find key a m = find key a' m := by
  induction m with
  | nil => rfl
  | cons y m ih => rw [find, find, same, ih]

theorem find_eq_some (h : Sorted key m) : find key a m = some x ↔ x ∈ m ∧ key x.1 = key a := by
  induction m with
  | nil => simp [find]
  | cons y m ih =>
    obtain ⟨above, rest⟩ := List.pairwise_cons.mp h
    rw [find]
    split
    · rename_i lt
      rw [ih rest, List.mem_cons]
      constructor
      · rintro ⟨mem, eq⟩
        exact ⟨.inr mem, eq⟩
      · rintro ⟨rfl | mem, eq⟩
        · exact absurd eq (ne_of_lt lt)
        · exact ⟨mem, eq⟩
    · split
      · rename_i lt
        refine iff_of_false (by simp) ?_
        rintro ⟨mem, eq⟩
        rcases List.mem_cons.mp mem with rfl | mem
        · exact ne_of_gt lt eq
        · exact ne_of_gt (lt_trans lt (above x mem)) eq
      · rename_i notBelow notAbove
        have here : key y.1 = key a := le_antisymm (not_lt.mp notAbove) (not_lt.mp notBelow)
        constructor
        · intro eq
          obtain rfl := Option.some.inj eq
          exact ⟨List.mem_cons_self, here⟩
        · rintro ⟨mem, eq⟩
          rcases List.mem_cons.mp mem with rfl | mem
          · rfl
          · exact absurd (here.trans eq.symm) (ne_of_lt (above x mem))

theorem find_eq_none (h : Sorted key m) : find key a m = none ↔ ∀ y ∈ m, key y.1 ≠ key a := by
  rw [Option.eq_none_iff_forall_ne_some]
  constructor
  · intro none y mem eq
    exact none y ((find_eq_some h).mpr ⟨mem, eq⟩)
  · intro free y some
    obtain ⟨mem, eq⟩ := (find_eq_some h).mp some
    exact free y mem eq

/-- The place that was assigned. -/
theorem find_assign_self (h : Sorted key m) :
    find key a (assign key a b m) = some (((find key a m).map Prod.fst).getD a, b) := by
  induction m with
  | nil => simp [find, assign]
  | cons y m ih =>
    obtain ⟨-, rest⟩ := List.pairwise_cons.mp h
    rw [assign, find]
    split
    · rename_i lt
      rw [find, if_pos lt, ih rest]
    · rename_i notBelow
      split
      · rw [find, if_neg (lt_irrefl _), if_neg (lt_irrefl _)]
        rfl
      · rename_i notAbove
        rw [find, if_neg notBelow, if_neg notAbove]
        rfl

/-- The other places. -/
theorem find_assign_ne (h : Sorted key m) (ne : key a' ≠ key a) :
    find key a' (assign key a b m) = find key a' m := by
  induction m with
  | nil =>
    rw [assign, find, find]
    rcases lt_or_gt_of_ne ne with lt | gt
    · rw [if_neg (lt_asymm lt), if_pos lt]
    · rw [if_pos gt, find]
  | cons y m ih =>
    obtain ⟨-, rest⟩ := List.pairwise_cons.mp h
    rw [assign]
    split
    · rw [find, find, ih rest]
    · rename_i notBelow
      split
      · rename_i lt
        rw [find]
        rcases lt_or_gt_of_ne ne with below | beyond
        · rw [if_neg (lt_asymm below), if_pos below, find, if_neg (lt_asymm (lt_trans below lt)),
            if_pos (lt_trans below lt)]
        · rw [if_pos beyond]
      · rename_i notAbove
        have here : key y.1 = key a := le_antisymm (not_lt.mp notAbove) (not_lt.mp notBelow)
        rw [find, find]
        dsimp only
        rw [here]
        rcases lt_or_gt_of_ne ne with below | beyond
        · rw [if_neg (lt_asymm below), if_neg (lt_asymm below), if_pos below, if_pos below]
        · rw [if_pos beyond, if_pos beyond]

theorem mem_erase (h : Sorted key m) : x ∈ erase key a m ↔ x ∈ m ∧ key x.1 ≠ key a := by
  induction m with
  | nil => simp [erase]
  | cons y m ih =>
    obtain ⟨above, rest⟩ := List.pairwise_cons.mp h
    rw [erase]
    split
    · rename_i lt
      rw [List.mem_cons, ih rest, List.mem_cons]
      constructor
      · rintro (rfl | ⟨mem, ne⟩)
        · exact ⟨.inl rfl, ne_of_lt lt⟩
        · exact ⟨.inr mem, ne⟩
      · rintro ⟨rfl | mem, ne⟩
        · exact .inl rfl
        · exact .inr ⟨mem, ne⟩
    · split
      · rename_i lt
        refine ⟨fun mem => ⟨mem, ?_⟩, And.left⟩
        rcases List.mem_cons.mp mem with rfl | mem
        · exact ne_of_gt lt
        · exact ne_of_gt (lt_trans lt (above x mem))
      · rename_i notBelow notAbove
        have here : key y.1 = key a := le_antisymm (not_lt.mp notAbove) (not_lt.mp notBelow)
        constructor
        · intro mem
          refine ⟨List.mem_cons_of_mem _ mem, ?_⟩
          rw [← here]
          exact ne_of_gt (above x mem)
        · rintro ⟨mem, ne⟩
          rcases List.mem_cons.mp mem with rfl | mem
          · exact absurd here ne
          · exact mem

theorem find_erase_self (h : Sorted key m) : find key a (erase key a m) = none := by
  rw [find_eq_none (sorted_erase h)]
  intro y mem
  exact ((mem_erase h).mp mem).2

theorem find_erase_ne (h : Sorted key m) (ne : key a' ≠ key a) :
    find key a' (erase key a m) = find key a' m := by
  ext x
  rw [find_eq_some (sorted_erase h), find_eq_some h, mem_erase h]
  constructor
  · rintro ⟨⟨mem, -⟩, eq⟩
    exact ⟨mem, eq⟩
  · rintro ⟨mem, eq⟩
    exact ⟨⟨mem, fun same => ne (eq.symm.trans same)⟩, eq⟩

/-! ## Equality -/

theorem Sorted.eq_of_mem (h : Sorted key m) (h' : Sorted key m') (mem : ∀ x, x ∈ m ↔ x ∈ m') : m = m' := by
  have nodup : ∀ {l : List (α × β)}, Sorted key l → l.Nodup := fun sorted =>
    List.Pairwise.imp (fun lt eq => ne_of_lt lt (congrArg (key ∘ Prod.fst) eq)) sorted
  have perm := (List.perm_ext_iff_of_nodup (nodup h) (nodup h')).mpr mem
  unfold Sorted at h h'
  exact List.Perm.eq_of_pairwise (fun _ _ _ _ lt gt => absurd gt (lt_asymm lt)) h h' perm

/-- A sorted map is determined by what is found in it. -/
theorem Sorted.ext (h : Sorted key m) (h' : Sorted key m')
    (same : ∀ a, find key a m = find key a m') : m = m' := by
  refine h.eq_of_mem h' fun x => ?_
  have found := same x.1
  constructor
  · intro mem
    rw [(find_eq_some h).mpr ⟨mem, rfl⟩] at found
    exact ((find_eq_some h').mp found.symm).1
  · intro mem
    rw [(find_eq_some h').mpr ⟨mem, rfl⟩] at found
    exact ((find_eq_some h).mp found).1

/-! ## Assigning many -/

/-- An assignment replaces what is at the place of its name, where the name that was there stays. -/
theorem mem_assign_iff (h : Sorted key m) : x ∈ assign key a b m ↔
    (x ∈ m ∧ key x.1 ≠ key a) ∨ x = (((find key a m).map Prod.fst).getD a, b) := by
  have self := find_assign_self (a := a) (b := b) h
  have place := ((find_eq_some (sorted_assign h)).mp self).2
  constructor
  · intro mem
    by_cases here : key x.1 = key a
    · have found := (find_eq_some (sorted_assign h)).mpr ⟨mem, here⟩
      rw [self] at found
      exact .inr (Option.some.inj found).symm
    · have found := (find_eq_some (sorted_assign h)).mpr ⟨mem, rfl⟩
      rw [find_assign_ne h here] at found
      exact .inl ⟨((find_eq_some h).mp found).1, here⟩
  · rintro (⟨mem, ne⟩ | rfl)
    · have found := (find_eq_some h).mpr ⟨mem, rfl⟩
      rw [← find_assign_ne (b := b) h ne] at found
      exact ((find_eq_some (sorted_assign h)).mp found).1
    · exact ((find_eq_some (sorted_assign h)).mp self).1

/-- Where the name that is there is the same, the entry is the one assigned. -/
theorem mem_assign_of_spelled (h : Sorted key m) (spelled : ∀ y ∈ m, key y.1 = key a → y.1 = a) :
    x ∈ assign key a b m ↔ (x ∈ m ∧ key x.1 ≠ key a) ∨ x = (a, b) := by
  have name : ((find key a m).map Prod.fst).getD a = a := by
    cases found : find key a m with
    | none => rfl
    | some y =>
      obtain ⟨mem, same⟩ := (find_eq_some h).mp found
      exact spelled y mem same
  rw [mem_assign_iff h, name]

/-! ## Entries assigned one after the other -/

theorem sorted_foldl_assign (l : List (α × β)) : ∀ {m : List (α × β)}, Sorted key m →
    Sorted key (l.foldl (fun m z => assign key z.1 z.2 m) m) := by
  induction l with
  | nil => exact id
  | cons z l ih => exact fun sorted => ih (sorted_assign sorted)

/-- The place of none of them. -/
theorem find_foldl_assign_ne {l : List (α × β)} (apart : ∀ z ∈ l, key a ≠ key z.1) : ∀ {m : List (α × β)},
    Sorted key m → find key a (l.foldl (fun m z => assign key z.1 z.2 m) m) = find key a m := by
  induction l with
  | nil => exact fun _ => rfl
  | cons z l ih =>
    intro m sorted
    rw [List.foldl_cons, ih (fun z' mem => apart z' (List.mem_cons_of_mem z mem)) (sorted_assign sorted),
      find_assign_ne sorted (apart z List.mem_cons_self)]

/-- The place of one of them, if their keys are different. -/
theorem find_foldl_assign {l : List (α × β)} (distinct : l.Pairwise fun y z => key y.1 ≠ key z.1) :
    ∀ {m : List (α × β)}, Sorted key m → ∀ z ∈ l,
      (find key z.1 (l.foldl (fun m z => assign key z.1 z.2 m) m)).map Prod.snd = some z.2 := by
  induction l with
  | nil => exact fun _ z mem => absurd mem List.not_mem_nil
  | cons y l ih =>
    intro m sorted z mem
    obtain ⟨apart, distinct⟩ := List.pairwise_cons.mp distinct
    rcases List.mem_cons.mp mem with rfl | mem
    · rw [List.foldl_cons, find_foldl_assign_ne apart (sorted_assign sorted), find_assign_self sorted]
      rfl
    · exact ih distinct (sorted_assign sorted) z mem

/-- Every place is that of one of them, or was there before. -/
theorem key_of_mem_foldl_assign {l : List (α × β)} : ∀ {m : List (α × β)},
    x ∈ l.foldl (fun m z => assign key z.1 z.2 m) m →
      (∃ y ∈ m, key x.1 = key y.1) ∨ ∃ z ∈ l, key x.1 = key z.1 := by
  induction l with
  | nil => exact fun {m} mem => .inl ⟨x, mem, rfl⟩
  | cons z l ih =>
    intro m mem
    rcases ih mem with ⟨y, inM, same⟩ | ⟨z', later, same⟩
    · rcases mem_assign inM with old | ⟨-, here, -⟩
      · exact .inl ⟨y, old, same⟩
      · exact .inr ⟨z, List.mem_cons_self, same.trans here⟩
    · exact .inr ⟨z', List.mem_cons_of_mem z later, same⟩

/-- Entries in their order. -/
theorem mem_foldl_assign {l : List (α × β)} (apart : Sorted key l) : ∀ {m : List (α × β)}, Sorted key m →
    (∀ y ∈ m, ∀ z ∈ l, key y.1 = key z.1 → y.1 = z.1) →
    Sorted key (l.foldl (fun m z => assign key z.1 z.2 m) m) ∧
      ∀ x, x ∈ l.foldl (fun m z => assign key z.1 z.2 m) m ↔ x ∈ l ∨ (x ∈ m ∧ ∀ z ∈ l, key x.1 ≠ key z.1) := by
  induction l with
  | nil => exact fun sorted _ => ⟨sorted, by simp⟩
  | cons z l ih =>
    intro m sorted spelled
    obtain ⟨above, rest⟩ := List.pairwise_cons.mp apart
    have first := fun x => mem_assign_of_spelled (x := x) (b := z.2) sorted fun y mem => spelled y mem z List.mem_cons_self
    have spelled' : ∀ y ∈ assign key z.1 z.2 m, ∀ z' ∈ l, key y.1 = key z'.1 → y.1 = z'.1 := by
      intro y mem z' mem' same
      rcases (first y).mp mem with ⟨old, -⟩ | rfl
      · exact spelled y old z' (List.mem_cons_of_mem z mem') same
      · exact absurd same (ne_of_lt (above z' mem'))
    obtain ⟨sorted', all⟩ := ih rest (sorted_assign sorted) spelled'
    refine ⟨sorted', fun x => (all x).trans ?_⟩
    rw [first x, List.mem_cons, List.forall_mem_cons]
    constructor
    · rintro (mem | ⟨⟨old, ne⟩ | rfl, apart'⟩)
      · exact .inl (.inr mem)
      · exact .inr ⟨old, ne, apart'⟩
      · exact .inl (.inl rfl)
    · rintro ((rfl | mem) | ⟨old, ne, apart'⟩)
      · exact .inr ⟨.inr rfl, fun z' mem' => ne_of_lt (above z' mem')⟩
      · exact .inl mem
      · exact .inr ⟨.inl ⟨old, ne⟩, apart'⟩

/-- A map is made again by assigning its entries to any part of its places. -/
theorem foldl_assign_eq {l : List (α × β)} (h : Sorted key m) (sorted : Sorted key l)
    (spelled : ∀ y ∈ m, ∃ z ∈ l, y.1 = z.1) : l.foldl (fun m z => assign key z.1 z.2 m) m = l := by
  have same : ∀ y ∈ m, ∀ z ∈ l, key y.1 = key z.1 → y.1 = z.1 := by
    intro y mem z mem' eq
    obtain ⟨z', mem'', name⟩ := spelled y mem
    have found := (find_eq_some sorted).mpr ⟨mem', eq.symm⟩
    rw [name, (find_eq_some sorted).mpr ⟨mem'', rfl⟩] at found
    rw [name, Option.some.inj found]
  obtain ⟨sorted', all⟩ := mem_foldl_assign sorted h same
  refine sorted'.eq_of_mem sorted fun x => (all x).trans ⟨?_, .inl⟩
  rintro (mem | ⟨old, apart⟩)
  · exact mem
  · obtain ⟨z, mem, name⟩ := spelled x old
    exact absurd (congrArg key name) (apart z mem)

end Sylar.Lib.OrderedMap
