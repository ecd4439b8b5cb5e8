import Sylar.Address.Basic

/-!
# The order of addresses

`operator<` compares the common part of two records and breaks a tie by the length of the right one;
`operator==` compares the lengths first. Read over the bytes that the stored length covers, `key`, the
first is the lexicographic order of byte strings and the second is equality (`lt_eq`, `eq_eq`). The
order properties are then those of that linear order, for kinds of any mixture, as long as no stored
length reaches past its record. An address that has such a length cannot even be compared with itself
(`strictlyOrdered_iff`).
-/

namespace Sylar

namespace Address

variable (host : Host) {a b c : Address}

/-- The bytes of an address that the comparisons look at. -/
def key (a : Address) : List UInt8 := (a.getAddr host).take a.getAddrLen

theorem length_key (inside : a.Inside) : (a.key host).length = a.getAddrLen := by
  rw [key, List.length_take, length_getAddr]
  exact Nat.min_eq_left inside

/-! ## `memcmp` over the bytes it is given -/

theorem memcmp_take (xs ys : List UInt8) (m n k : Nat) (hm : k ≤ m) (hn : k ≤ n) :
    memcmp (xs.take m) (ys.take n) k = memcmp xs ys k := by
  induction k generalizing xs ys m n with
  | zero => simp [memcmp]
  | succ k ih =>
    obtain ⟨m, rfl⟩ : ∃ m', m = m' + 1 := ⟨m - 1, by omega⟩
    obtain ⟨n, rfl⟩ : ∃ n', n = n' + 1 := ⟨n - 1, by omega⟩
    cases xs with
    | nil => simp [memcmp]
    | cons x xs =>
      cases ys with
      | nil => simp [memcmp]
      | cons y ys =>
        simp only [List.take_succ_cons, memcmp]
        rw [ih xs ys m n (by omega) (by omega)]

/-- A tie broken by the length of the right string is the lexicographic order. -/
theorem memcmp_lt_iff (xs ys : List UInt8) :
    (memcmp xs ys (min xs.length ys.length) = .lt ∨
      memcmp xs ys (min xs.length ys.length) = .eq ∧ ys.length > min xs.length ys.length) ↔
      xs < ys := by
  induction xs generalizing ys with
  | nil => cases ys <;> simp [memcmp]
  | cons x xs ih =>
    cases ys with
    | nil => simp [memcmp]
    | cons y ys =>
      have step : min (x :: xs).length (y :: ys).length = min xs.length ys.length + 1 := by
        simp only [List.length_cons]
        omega
      rw [step, memcmp, List.cons_lt_cons_iff, ← ih ys]
      simp only [List.length_cons, gt_iff_lt, Nat.add_lt_add_iff_right]
      rcases Std.lt_trichotomy x y with less | rfl | more
      · simp [Std.compare_eq_lt.mpr less, less]
      · simp
      · simp [Std.compare_eq_gt.mpr more, Std.Asymm.asymm _ _ more, (Std.ne_of_lt more).symm]

theorem memcmp_eq_iff (xs ys : List UInt8) (same : xs.length = ys.length) :
    memcmp xs ys xs.length = .eq ↔ xs = ys := by
  induction xs generalizing ys with
  | nil => simpa [memcmp] using (List.length_eq_zero_iff.mp same.symm).symm
  | cons x xs ih =>
    cases ys with
    | nil => simp at same
    | cons y ys =>
      have rest := ih ys (by simpa using same)
      simp [memcmp, Ordering.then_eq_eq, rest]

/-! ## The operators -/

theorem compareRecords_eq (ha : a.Inside) (hb : b.Inside) {n : Nat} (left : n ≤ a.getAddrLen)
    (right : n ≤ b.getAddrLen) :
    compareRecords host a b n = some (memcmp (a.key host) (b.key host) n) := by
  rw [compareRecords, if_pos ⟨left.trans ha, right.trans hb⟩, key, key, memcmp_take _ _ _ _ _ left right]

theorem lt_eq (ha : a.Inside) (hb : b.Inside) :
    a.lt host b = some (decide (a.key host < b.key host)) := by
  have bytes := memcmp_lt_iff (a.key host) (b.key host)
  rw [length_key host ha, length_key host hb] at bytes
  rw [lt, compareRecords_eq host ha hb (Nat.min_le_left ..) (Nat.min_le_right ..), Option.map_some,
    Option.some_inj, Bool.eq_iff_iff, decide_eq_true_eq, ← bytes]
  simp

theorem eq_eq (ha : a.Inside) (hb : b.Inside) :
    a.eq host b = some (decide (a.key host = b.key host)) := by
  by_cases same : a.getAddrLen = b.getAddrLen
  · have lengths : (a.key host).length = (b.key host).length := by
      rw [length_key host ha, length_key host hb, same]
    have bytes := memcmp_eq_iff (a.key host) (b.key host) lengths
    rw [length_key host ha] at bytes
    rw [eq, if_neg (not_not.mpr same), compareRecords_eq host ha hb (Nat.le_refl _) same.le,
      Option.map_some, Option.some_inj, Bool.eq_iff_iff, decide_eq_true_eq, ← bytes, beq_iff_eq]
  · have differ : a.key host ≠ b.key host := by
      intro keys
      apply same
      rw [← length_key host ha, keys, length_key host hb]
    rw [eq, if_pos same, decide_eq_false differ]

/-- Among some addresses, `<` is irreflexive and transitive, and of any two exactly one of `a < b`,
`b < a` and `a == b` holds. -/
structure StrictlyOrdered (addresses : Set Address) : Prop where
  irrefl : ∀ a ∈ addresses, a.lt host a = some false
  trans : ∀ a ∈ addresses, ∀ b ∈ addresses, ∀ c ∈ addresses,
    a.lt host b = some true → b.lt host c = some true → a.lt host c = some true
  exactly_one : ∀ a ∈ addresses, ∀ b ∈ addresses,
    (a.lt host b = some true ∧ b.lt host a = some false ∧ a.eq host b = some false) ∨
    (a.lt host b = some false ∧ b.lt host a = some true ∧ a.eq host b = some false) ∨
    (a.lt host b = some false ∧ b.lt host a = some false ∧ a.eq host b = some true)

/-- An address whose length reaches past its record is not comparable with itself. -/
theorem inside_of_lt_self {answer : Bool} (compared : a.lt host a = some answer) : a.Inside := by
  by_contra outside
  rw [lt, Nat.min_self, compareRecords, if_neg fun both => outside both.1] at compared
  cases compared

/-- The operators of `Address` are a strict total order and its equality, among any addresses, exactly if
none of their lengths reaches past its record. -/
theorem strictlyOrdered_iff (addresses : Set Address) :
    StrictlyOrdered host addresses ↔ ∀ a ∈ addresses, a.Inside := by
  constructor
  · intro ordered a mem
    exact inside_of_lt_self host (ordered.irrefl a mem)
  · intro inside
    refine ⟨?_, ?_, ?_⟩
    · intro a ha
      rw [lt_eq host (inside a ha) (inside a ha), decide_eq_false (List.lt_irrefl _)]
    · intro a ha b hb c hc
      rw [lt_eq host (inside a ha) (inside b hb), lt_eq host (inside b hb) (inside c hc),
        lt_eq host (inside a ha) (inside c hc)]
      simp only [Option.some_inj, decide_eq_true_eq]
      exact List.lt_trans
    · intro a ha b hb
      rw [lt_eq host (inside a ha) (inside b hb), lt_eq host (inside b hb) (inside a ha),
        eq_eq host (inside a ha) (inside b hb)]
      simp only [Option.some_inj, decide_eq_true_eq, decide_eq_false_iff_not]
      rcases Std.lt_trichotomy (a.key host) (b.key host) with less | same | more
      · exact .inl ⟨less, List.lt_asymm less, Std.ne_of_lt less⟩
      · rw [same]
        exact .inr (.inr ⟨List.lt_irrefl _, List.lt_irrefl _, rfl⟩)
      · exact .inr (.inl ⟨List.lt_asymm more, more, (Std.ne_of_lt more).symm⟩)

/-- An address with a length of 200, of which the record has 16: comparing it with itself reads past
it. -/
theorem not_strictlyOrdered_long :
    ¬ StrictlyOrdered .little {.unknown (.ofSockaddr ⟨0, Vector.replicate 14 0⟩ 200)} := by
  intro ordered
  have compared := ordered.irrefl _ (Set.mem_singleton _)
  cases compared

end Address

end Sylar
