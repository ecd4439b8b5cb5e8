import Sylar.Http.Message
import Sylar.Lib.OrderedMap

/-!
# Header maps

`HttpHeaders` is a map ordered by what `strcasecmp` compares, so the rules for ordered maps apply to it.
-/

namespace Sylar.Http

open Lib

/-- What orders the names of headers. -/
def nameKey (s : Str) : List Nat := (folded s).map UInt8.toNat

theorem nameKey_inj {a b : Str} : nameKey a = nameKey b ↔ folded a = folded b := by
  refine ⟨fun same => ?_, congrArg _⟩
  exact List.map_injective_iff.mpr (fun x y eq => UInt8.toNat_inj.mp eq) same

theorem sameNoCase_iff {a b : Str} : sameNoCase a b = true ↔ nameKey a = nameKey b := by
  rw [nameKey_inj, sameNoCase, beq_iff_eq]

theorem lexLess_iff (a : Str) : ∀ b : Str, lexLess a b = true ↔ a.map UInt8.toNat < b.map UInt8.toNat := by
  induction a with
  | nil =>
    intro b
    cases b with
    | nil => simp [lexLess]
    | cons y b => simp [lexLess]
  | cons x a ih =>
    intro b
    cases b with
    | nil => simp [lexLess]
    | cons y b =>
      rw [lexLess, List.map_cons, List.map_cons, List.cons_lt_cons_iff]
      split
      · rename_i eq
        rw [ih, eq]
        simp
      · rename_i ne
        have notSame : x.toNat ≠ y.toNat := fun eq => ne (UInt8.toNat_inj.mp eq)
        rw [decide_eq_true_iff, UInt8.lt_iff_toNat_lt]
        simp [notSame]

theorem caseInsensitiveLess_iff {a b : Str} : caseInsensitiveLess a b = true ↔ nameKey a < nameKey b :=
  lexLess_iff (folded a) (folded b)

namespace HttpHeaders

/-- The headers of a `std::map`: in the order of their names. -/
def Sorted (h : HttpHeaders) : Prop := OrderedMap.Sorted nameKey h

/-- `headers.erase(name)`. -/
def erase (name : Str) : HttpHeaders → HttpHeaders
  | [] => []
  | (k, v) :: rest =>
    if caseInsensitiveLess k name then (k, v) :: erase name rest
    else if caseInsensitiveLess name k then (k, v) :: rest
    else rest

theorem assign_eq (name value : Str) (h : HttpHeaders) :
    h.assign name value = OrderedMap.assign nameKey name value h := by
  induction h with
  | nil => rfl
  | cons x h ih =>
    simp only [assign, OrderedMap.assign, caseInsensitiveLess_iff, ih, Prod.mk.eta]
    split
    · rfl
    · split <;> rfl

theorem find_eq (name : Str) (h : HttpHeaders) :
    h.find name = (OrderedMap.find nameKey name h).map Prod.snd := by
  induction h with
  | nil => rfl
  | cons x h ih =>
    simp only [find, OrderedMap.find, caseInsensitiveLess_iff, ih]
    split
    · rfl
    · split <;> rfl

theorem erase_eq (name : Str) (h : HttpHeaders) : h.erase name = OrderedMap.erase nameKey name h := by
  induction h with
  | nil => rfl
  | cons x h ih =>
    simp only [erase, OrderedMap.erase, caseInsensitiveLess_iff, ih, Prod.mk.eta]
    split
    · rfl
    · split <;> rfl

variable {h : HttpHeaders} {name other value : Str}

theorem Sorted.assign (sorted : h.Sorted) : (h.assign name value).Sorted := by
  rw [assign_eq]
  exact OrderedMap.sorted_assign sorted

theorem Sorted.erase (sorted : h.Sorted) : (h.erase name).Sorted := by
  rw [erase_eq]
  exact OrderedMap.sorted_erase sorted

theorem Sorted.find_assign_self (sorted : h.Sorted) (same : nameKey other = nameKey name) :
    (h.assign name value).find other = some value := by
  rw [find_eq, assign_eq, OrderedMap.find_congr same, OrderedMap.find_assign_self sorted]
  rfl

theorem Sorted.find_assign_ne (sorted : h.Sorted) (ne : nameKey other ≠ nameKey name) :
    (h.assign name value).find other = h.find other := by
  rw [find_eq, find_eq, assign_eq, OrderedMap.find_assign_ne sorted ne]

theorem Sorted.find_erase_self (sorted : h.Sorted) (same : nameKey other = nameKey name) :
    (h.erase name).find other = none := by
  rw [find_eq, erase_eq, OrderedMap.find_congr same, OrderedMap.find_erase_self sorted]
  rfl

theorem Sorted.find_erase_ne (sorted : h.Sorted) (ne : nameKey other ≠ nameKey name) :
    (h.erase name).find other = h.find other := by
  rw [find_eq, find_eq, erase_eq, OrderedMap.find_erase_ne sorted ne]

theorem Sorted.mem_erase (sorted : h.Sorted) {x : Str × Str} :
    x ∈ h.erase name ↔ x ∈ h ∧ nameKey x.1 ≠ nameKey name := by
  rw [erase_eq, OrderedMap.mem_erase sorted]

/-! ## Names -/

/-- The names are among some. -/
def Named (names : Str → Prop) (h : HttpHeaders) : Prop := ∀ x ∈ h, names x.1

theorem Named.assign {names : Str → Prop} (named : h.Named names) (isName : names name) :
    (h.assign name value).Named names := by
  intro x mem
  rw [assign_eq] at mem
  rcases OrderedMap.mem_assign mem with old | ⟨-, -, rfl | ⟨y, mem', eq⟩⟩
  · exact named x old
  · exact isName
  · rw [eq]
    exact named y mem'

theorem Sorted.mem_of_find (sorted : h.Sorted) (found : h.find name = some value) :
    ∃ other, (other, value) ∈ h ∧ nameKey other = nameKey name := by
  rw [find_eq] at found
  obtain ⟨x, here, rfl⟩ := Option.map_eq_some_iff.mp found
  exact ⟨x.1, (OrderedMap.find_eq_some sorted).mp here⟩

theorem Sorted.find_of_mem (sorted : h.Sorted) (mem : (name, value) ∈ h) (same : nameKey name = nameKey other) :
    h.find other = some value := by
  rw [find_eq, (OrderedMap.find_eq_some sorted).mpr ⟨mem, same⟩]
  rfl

/-- Two entries with names that are the same but for their case are one. -/
theorem Sorted.eq_of_nameKey (sorted : h.Sorted) {x y : Str × Str} (mem : x ∈ h) (mem' : y ∈ h)
    (same : nameKey x.1 = nameKey y.1) : x = y := by
  have found := (OrderedMap.find_eq_some sorted).mpr ⟨mem, same⟩
  rw [(OrderedMap.find_eq_some sorted).mpr ⟨mem', rfl⟩] at found
  exact (Option.some.inj found).symm

/-- An entry that is there already. -/
theorem Sorted.assign_of_mem (sorted : h.Sorted) (mem : (name, value) ∈ h) : h.assign name value = h := by
  have all : ∀ x, x ∈ h.assign name value ↔ (x ∈ h ∧ nameKey x.1 ≠ nameKey name) ∨ x = (name, value) := by
    intro x
    rw [assign_eq]
    exact OrderedMap.mem_assign_of_spelled sorted fun y mem' same =>
      congrArg Prod.fst (sorted.eq_of_nameKey mem' mem same)
  refine OrderedMap.Sorted.eq_of_mem sorted.assign sorted fun x => (all x).trans ⟨?_, fun inH => ?_⟩
  · rintro (⟨inH, -⟩ | rfl)
    · exact inH
    · exact mem
  · by_cases same : nameKey x.1 = nameKey name
    · exact .inr (sorted.eq_of_nameKey inH mem same)
    · exact .inl ⟨inH, same⟩

/-- Headers with the same values under every name, and no names but those of the others, are the same. -/
theorem Sorted.eq_of_find {h' : HttpHeaders} (sorted : h.Sorted) (sorted' : h'.Sorted)
    (named : h.Named fun name => ∃ value, (name, value) ∈ h') (same : ∀ name, h.find name = h'.find name) : h = h' := by
  have forth : ∀ x ∈ h, x ∈ h' := by
    rintro ⟨name, value⟩ mem
    obtain ⟨value', mem'⟩ := named _ mem
    have found := same name
    rw [sorted.find_of_mem mem rfl, sorted'.find_of_mem mem' rfl] at found
    rwa [Option.some.inj found]
  refine OrderedMap.Sorted.eq_of_mem sorted sorted' fun x => ⟨forth x, fun mem => ?_⟩
  obtain ⟨name, value⟩ := x
  have found := same name
  rw [sorted'.find_of_mem mem rfl] at found
  obtain ⟨other, mem', key⟩ := sorted.mem_of_find found
  rwa [← sorted'.eq_of_nameKey (forth _ mem') mem key]

end HttpHeaders

end Sylar.Http
