import Sylar.Lib.Paths
import Sylar.Lib.Scan

/-!
# Actions that come before others

An action that reads what another one has stored is only in order if the other one comes first on every
way through the machine. `precedes` computes this from the expression: an expression that embeds the
later action in a place that is not reached before a part that executes the earlier one has been left.
A move keeps it, or executes the earlier action (`precedes_moves`), so that in the trace of a scan the
earlier action comes first (`Waits.scan`).
-/

namespace Sylar.Lib.Ragel

variable {A : Type} {e : Ragel A} {m : Move A}

/-! ## Moves of guarded concatenations -/

/-- A move of `a` inside `join`, or one of `b`, inside `close`, that leaves `a`. -/
def Joins (a b : Ragel A) (join close : Ragel A → Ragel A) (m : Move A) : Prop :=
  (∃ m' ∈ a.moves, m.actions = m'.actions ∧ m.rest = join m'.rest) ∨
    ∃ l, a.nullable = some l ∧ ∃ m' ∈ b.moves, m.actions = l ++ m'.actions ∧ m.rest = close m'.rest

theorem joins_seq {a b : Ragel A} (mem : m ∈ (seq a b).moves) : Joins a b (seq · b) id m := by
  rcases mem_moves_seq.mp mem with ⟨m', mem', rfl⟩ | ⟨l, ends, m', mem', rfl⟩
  · exact .inl ⟨m', mem', rfl, rfl⟩
  · exact .inr ⟨l, ends, m', mem', rfl, rfl⟩

theorem joins_guard {k : Nat} {a b : Ragel A} (mem : m ∈ (guard k a b).moves) :
    Joins a b (guard k · b) id m := by
  rw [moves] at mem
  rcases List.mem_append.mp mem with mem | mem
  · obtain ⟨m', mem', rfl⟩ := List.mem_map.mp mem
    exact .inl ⟨m', mem', rfl, rfl⟩
  · split at mem
    · rename_i l ends
      obtain ⟨m', mem', rfl⟩ := List.mem_map.mp mem
      exact .inr ⟨l, ends, m', mem', rfl, rfl⟩
    · cases mem

theorem joins_guardEnd {k : Nat} {a b : Ragel A} (mem : m ∈ (guardEnd k a b).moves) :
    Joins a b (guardEnd k · b) (ending k) m := by
  rw [moves] at mem
  rcases List.mem_append.mp mem with mem | mem
  · obtain ⟨m', mem', rfl⟩ := List.mem_map.mp mem
    exact .inl ⟨m', mem', rfl, rfl⟩
  · split at mem
    · rename_i l ends
      obtain ⟨m', mem', rfl⟩ := List.mem_map.mp mem
      refine .inr ⟨l, ends, m', mem', ?_, ?_⟩
      · split
        · rfl
        · rfl
      · split
        · rfl
        · rfl
    · cases mem

/-! ## Embedded actions -/

/-- The actions embedded in an expression, with their numbers. -/
def embedded : Ragel A → List (Nat × A)
  | eps | byte _ => []
  | seq a b | alt a b | guard _ a b | guardEnd _ a b => a.embedded ++ b.embedded
  | star a | ending _ a | onlyIf a => a.embedded
  | enter n x a | leave n x a | finish n x a => (n, x) :: a.embedded

theorem append_embedded {l l' l₁ l₂ : List (Nat × A)} (first : l ⊆ l₁) (second : l' ⊆ l₂) :
    l ++ l' ⊆ l₁ ++ l₂ :=
  List.append_subset.mpr ⟨List.subset_append_of_subset_left _ first, List.subset_append_of_subset_right _ second⟩

/-- What is executed on leaving is embedded. -/
theorem embedded_nullable {l : List (Nat × A)} (ends : e.nullable = some l) : l ⊆ e.embedded := by
  induction e generalizing l with
  | eps =>
    cases ends
    exact List.nil_subset _
  | byte s => cases ends
  | seq a b iha ihb | guard _ a b iha ihb | guardEnd _ a b iha ihb =>
    rw [Ragel.nullable] at ends
    split at ends
    · rename_i l₁ l₂ ends₁ ends₂
      obtain rfl := Option.some.inj ends
      exact append_embedded (iha ends₁) (ihb ends₂)
    · cases ends
  | alt a b iha ihb =>
    rw [Ragel.nullable] at ends
    split at ends
    · rename_i l₁ l₂ ends₁ ends₂
      obtain rfl := Option.some.inj ends
      exact append_embedded (iha ends₁) (ihb ends₂)
    · rename_i l₁ ends₁ _
      obtain rfl := Option.some.inj ends
      exact List.subset_append_of_subset_left _ (iha ends₁)
    · exact List.subset_append_of_subset_right _ (ihb ends)
  | star a iha =>
    rw [Ragel.nullable] at ends
    obtain rfl := Option.some.inj ends
    cases nothing : a.nullable with
    | none => exact List.nil_subset _
    | some l => exact iha nothing
  | enter n y a iha =>
    obtain ⟨l', ends', rfl⟩ := Option.map_eq_some_iff.mp ends
    exact List.cons_subset_cons _ (iha ends')
  | leave n y a iha =>
    obtain ⟨l', ends', rfl⟩ := Option.map_eq_some_iff.mp ends
    intro x mem
    rcases List.mem_append.mp mem with mem | mem
    · exact List.mem_cons_of_mem _ (iha ends' mem)
    · rw [List.mem_singleton.mp mem]
      exact List.mem_cons_self
  | finish n y a iha => exact List.subset_cons_of_subset _ (iha ends)
  | ending k a iha | onlyIf a iha => exact iha ends

theorem embedded_joins {a b : Ragel A} {join close : Ragel A → Ragel A} (joins : Joins a b join close m)
    (iha : ∀ {m}, m ∈ a.moves → m.actions ⊆ a.embedded ∧ m.rest.embedded ⊆ a.embedded)
    (ihb : ∀ {m}, m ∈ b.moves → m.actions ⊆ b.embedded ∧ m.rest.embedded ⊆ b.embedded)
    (joined : ∀ r, (join r).embedded = r.embedded ++ b.embedded) (closed : ∀ r, (close r).embedded = r.embedded) :
    m.actions ⊆ a.embedded ++ b.embedded ∧ m.rest.embedded ⊆ a.embedded ++ b.embedded := by
  rcases joins with ⟨m', mem, acts, rest⟩ | ⟨l, ends, m', mem, acts, rest⟩
  · obtain ⟨inner, after⟩ := iha mem
    rw [acts, rest, joined]
    exact ⟨List.subset_append_of_subset_left _ inner, append_embedded after (List.Subset.refl _)⟩
  · obtain ⟨inner, after⟩ := ihb mem
    rw [acts, rest, closed]
    exact ⟨append_embedded (embedded_nullable ends) inner, List.subset_append_of_subset_right _ after⟩

/-- What is executed on a move is embedded, and a move embeds nothing new. -/
theorem embedded_moves (mem : m ∈ e.moves) : m.actions ⊆ e.embedded ∧ m.rest.embedded ⊆ e.embedded := by
  induction e generalizing m with
  | eps => cases mem
  | byte s =>
    obtain rfl := List.mem_singleton.mp mem
    exact ⟨List.nil_subset _, List.nil_subset _⟩
  | seq a b iha ihb => exact embedded_joins (joins_seq mem) iha ihb (fun _ => rfl) fun _ => rfl
  | alt a b iha ihb =>
    rcases List.mem_append.mp mem with mem' | mem'
    · obtain ⟨acts, rest⟩ := iha mem'
      exact ⟨List.subset_append_of_subset_left _ acts, List.subset_append_of_subset_left _ rest⟩
    · obtain ⟨acts, rest⟩ := ihb mem'
      exact ⟨List.subset_append_of_subset_right _ acts, List.subset_append_of_subset_right _ rest⟩
  | star a iha =>
    obtain ⟨m', mem', rfl⟩ := List.mem_map.mp mem
    obtain ⟨acts, rest⟩ := iha mem'
    exact ⟨acts, List.append_subset.mpr ⟨rest, List.Subset.refl _⟩⟩
  | enter n y a iha =>
    obtain ⟨m', mem', rfl⟩ := List.mem_map.mp mem
    obtain ⟨acts, rest⟩ := iha mem'
    exact ⟨List.cons_subset_cons _ acts, List.subset_cons_of_subset _ rest⟩
  | leave n y a iha =>
    obtain ⟨m', mem', rfl⟩ := List.mem_map.mp mem
    obtain ⟨acts, rest⟩ := iha mem'
    exact ⟨List.subset_cons_of_subset _ acts, List.cons_subset_cons _ rest⟩
  | finish n y a iha =>
    obtain ⟨m', mem', rfl⟩ := List.mem_map.mp mem
    obtain ⟨acts, rest⟩ := iha mem'
    split
    · refine ⟨List.append_subset.mpr ⟨List.subset_cons_of_subset _ acts, ?_⟩, List.cons_subset_cons _ rest⟩
      exact List.cons_subset.mpr ⟨List.mem_cons_self, List.nil_subset _⟩
    · exact ⟨List.subset_cons_of_subset _ acts, List.cons_subset_cons _ rest⟩
  | guard k a b iha ihb => exact embedded_joins (joins_guard mem) iha ihb (fun _ => rfl) fun _ => rfl
  | guardEnd k a b iha ihb => exact embedded_joins (joins_guardEnd mem) iha ihb (fun _ => rfl) fun _ => rfl
  | ending k a iha =>
    obtain ⟨m', mem', rfl⟩ := List.mem_map.mp mem
    obtain ⟨acts, rest⟩ := iha mem'
    split
    · exact ⟨acts, rest⟩
    · exact ⟨acts, rest⟩
  | onlyIf a iha =>
    obtain ⟨m', mem', rfl⟩ := List.mem_map.mp mem
    obtain ⟨acts, rest⟩ := iha mem'
    exact ⟨acts, rest⟩

theorem embedded_reaches {ok : Bool} {w : List UInt8} {r : Ragel A} (path : Reaches ok e w r) :
    r.embedded ⊆ e.embedded := by
  induction path with
  | nil e => exact List.Subset.refl _
  | cons mem _ _ ih => exact List.Subset.trans ih (embedded_moves mem).2

/-! ## Finishing alone -/

variable [DecidableEq A] {x y : A}

/-- Every way of reading the input is inside the same `@`, whose action is embedded nowhere else. -/
def FinishingAlone (n : Nat) (x : A) (st : State A) : Prop :=
  ∀ e ∈ st, ∃ a, e = finish n x a ∧ ∀ k, (k, x) ∉ a.embedded

/-- Only a byte that leads to a final state executes the finishing action. -/
theorem FinishingAlone.step {n : Nat} {condition : Bool} {st st' : State A} {c : UInt8} {as : List A}
    (alone : FinishingAlone n x st) (next : Ragel.step condition st c = some (st', as)) :
    FinishingAlone n x st' ∧ (x ∈ as → final st' = true) := by
  obtain ⟨targets, rfl⟩ := step_spec next
  have inner : ∀ m ∈ taken condition st c, ∃ a, m.rest = finish n x a ∧ (∀ k, (k, x) ∉ a.embedded) ∧
      ∀ k, (k, x) ∈ m.actions → m.rest.nullable.isSome = true := by
    intro m took
    obtain ⟨⟨e, mem, moved⟩, -⟩ := mem_taken took
    obtain ⟨a, rfl, nowhere⟩ := alone e mem
    obtain ⟨m', mem', rfl⟩ := List.mem_map.mp moved
    obtain ⟨acts, rest⟩ := embedded_moves mem'
    by_cases ends : m'.rest.nullable.isSome = true
    · rw [if_pos ends]
      exact ⟨m'.rest, rfl, fun k here => nowhere k (rest here), fun _ _ => ends⟩
    · rw [if_neg ends]
      exact ⟨m'.rest, rfl, fun k here => nowhere k (rest here), fun k act => absurd (acts act) (nowhere k)⟩
  refine ⟨fun e mem => ?_, fun act => ?_⟩
  · obtain ⟨m, took, rfl⟩ := targets e mem
    obtain ⟨a, eq, nowhere, -⟩ := inner m took
    exact ⟨a, eq, nowhere⟩
  · obtain ⟨m, took, k, act⟩ := mem_actionsOf.mp act
    obtain ⟨-, -, -, ends⟩ := inner m took
    exact List.any_eq_true.mpr ⟨m.rest, rest_mem_of_step next took, ends k act⟩

/-! ## Parts that execute an action -/

/-- Whoever leaves the expression has executed `x`, under a number below `n`. -/
def sets (x : A) (n : Nat) : Ragel A → Bool
  | eps | byte _ | star _ => false
  | seq a b | guard _ a b | guardEnd _ a b => a.sets x n || b.sets x n
  | alt a b => a.sets x n && b.sets x n
  | leave k z a => (decide (z = x) && decide (k < n)) || a.sets x n
  | enter _ _ a | finish _ _ a | ending _ a | onlyIf a => a.sets x n

/-- `x` is executed under a number below `n`. -/
def Lower (x : A) (n : Nat) (l : List (Nat × A)) : Prop := ∃ j < n, (j, x) ∈ l

omit [DecidableEq A] in
theorem Lower.mono {n : Nat} {l l' : List (Nat × A)} (h : Lower x n l) (sub : l ⊆ l') : Lower x n l' := by
  obtain ⟨j, lt, mem⟩ := h
  exact ⟨j, lt, sub mem⟩

theorem sets_nullable {n : Nat} {l : List (Nat × A)} (h : e.sets x n = true) (ends : e.nullable = some l) :
    Lower x n l := by
  induction e generalizing l with
  | eps | byte _ | star _ => cases h
  | seq a b iha ihb | guard _ a b iha ihb | guardEnd _ a b iha ihb =>
    rw [Ragel.nullable] at ends
    split at ends
    · rename_i l₁ l₂ ends₁ ends₂
      obtain rfl := Option.some.inj ends
      rcases Bool.or_eq_true_iff.mp h with h | h
      · exact (iha h ends₁).mono (List.subset_append_left ..)
      · exact (ihb h ends₂).mono (List.subset_append_right ..)
    · cases ends
  | alt a b iha ihb =>
    obtain ⟨ha, hb⟩ := Bool.and_eq_true_iff.mp h
    rw [Ragel.nullable] at ends
    split at ends
    · rename_i l₁ l₂ ends₁ ends₂
      obtain rfl := Option.some.inj ends
      exact (iha ha ends₁).mono (List.subset_append_left ..)
    · rename_i l₁ ends₁ _
      obtain rfl := Option.some.inj ends
      exact iha ha ends₁
    · exact ihb hb ends
  | enter k z a iha =>
    obtain ⟨l', ends', rfl⟩ := Option.map_eq_some_iff.mp ends
    exact (iha h ends').mono (List.subset_cons_self ..)
  | leave k z a iha =>
    obtain ⟨l', ends', rfl⟩ := Option.map_eq_some_iff.mp ends
    rcases Bool.or_eq_true_iff.mp h with h | h
    · obtain ⟨same, lt⟩ := Bool.and_eq_true_iff.mp h
      refine ⟨k, of_decide_eq_true lt, List.mem_append_right _ ?_⟩
      rw [of_decide_eq_true same]
      exact List.mem_singleton_self _
    · exact (iha h ends').mono (List.subset_append_left ..)
  | finish _ _ a iha | ending _ a iha | onlyIf a iha => exact iha h ends

theorem sets_joins {a b : Ragel A} {join close : Ragel A → Ragel A} {n : Nat} (joins : Joins a b join close m)
    (h : (a.sets x n || b.sets x n) = true)
    (iha : ∀ {m}, a.sets x n = true → m ∈ a.moves → Lower x n m.actions ∨ m.rest.sets x n = true)
    (ihb : ∀ {m}, b.sets x n = true → m ∈ b.moves → Lower x n m.actions ∨ m.rest.sets x n = true)
    (joined : ∀ r, (join r).sets x n = (r.sets x n || b.sets x n))
    (closed : ∀ r, (close r).sets x n = r.sets x n) : Lower x n m.actions ∨ m.rest.sets x n = true := by
  rcases joins with ⟨m', mem, acts, rest⟩ | ⟨l, ends, m', mem, acts, rest⟩
  · rw [acts, rest, joined, Bool.or_eq_true_iff]
    rcases Bool.or_eq_true_iff.mp h with h | h
    · exact (iha h mem).imp_right .inl
    · exact .inr (.inr h)
  · rw [acts, rest, closed]
    rcases Bool.or_eq_true_iff.mp h with h | h
    · exact .inl ((sets_nullable h ends).mono (List.subset_append_left ..))
    · exact (ihb h mem).imp_left fun fired => fired.mono (List.subset_append_right ..)

/-- A move executes `x`, or is still in a part that will have. -/
theorem sets_moves {n : Nat} (h : e.sets x n = true) (mem : m ∈ e.moves) :
    Lower x n m.actions ∨ m.rest.sets x n = true := by
  induction e generalizing m with
  | eps | byte _ | star _ => cases h
  | seq a b iha ihb => exact sets_joins (joins_seq mem) h iha ihb (fun _ => rfl) fun _ => rfl
  | guard k a b iha ihb => exact sets_joins (joins_guard mem) h iha ihb (fun _ => rfl) fun _ => rfl
  | guardEnd k a b iha ihb => exact sets_joins (joins_guardEnd mem) h iha ihb (fun _ => rfl) fun _ => rfl
  | alt a b iha ihb =>
    obtain ⟨ha, hb⟩ := Bool.and_eq_true_iff.mp h
    rcases List.mem_append.mp mem with mem' | mem'
    · exact iha ha mem'
    · exact ihb hb mem'
  | enter k z a iha =>
    obtain ⟨m', mem', rfl⟩ := List.mem_map.mp mem
    exact (iha h mem').imp_left fun fired => fired.mono (List.subset_cons_self ..)
  | leave k z a iha =>
    obtain ⟨m', mem', rfl⟩ := List.mem_map.mp mem
    rcases Bool.or_eq_true_iff.mp h with h | h
    · exact .inr (Bool.or_eq_true_iff.mpr (.inl h))
    · exact (iha h mem').imp_right fun still => Bool.or_eq_true_iff.mpr (.inr still)
  | finish k z a iha =>
    obtain ⟨m', mem', rfl⟩ := List.mem_map.mp mem
    have inner := iha h mem'
    split
    · exact inner.imp_left fun fired => fired.mono (List.subset_append_left ..)
    · exact inner
  | ending k a iha =>
    obtain ⟨m', mem', rfl⟩ := List.mem_map.mp mem
    have inner := iha h mem'
    split
    · exact inner
    · exact inner
  | onlyIf a iha =>
    obtain ⟨m', mem', rfl⟩ := List.mem_map.mp mem
    have inner := iha h mem'
    exact inner

/-! ## Coming first -/

/-- `y` is not executed before `x` has been: where `y` is embedded, it is behind a part that executes
`x`, under a lower number. -/
def precedes (x y : A) : Ragel A → Bool
  | eps | byte _ => true
  | seq a b | guard _ a b | guardEnd _ a b =>
    a.precedes x y && (b.precedes x y || (b.embedded.any fun t => decide (t.2 = y)) &&
      b.embedded.all fun t => !decide (t.2 = y) || a.sets x t.1)
  | alt a b => a.precedes x y && b.precedes x y
  | star a | ending _ a | onlyIf a => a.precedes x y
  | enter _ z a | leave _ z a | finish _ z a => !decide (z = y) && a.precedes x y

/-- Every `y` in the list has an `x` with a lower number. -/
def Ranked (x y : A) (l : List (Nat × A)) : Prop := ∀ k, (k, y) ∈ l → Lower x k l

omit [DecidableEq A] in
theorem Ranked.append {l l' : List (Nat × A)} (h : Ranked x y l)
    (h' : ∀ k, (k, y) ∈ l' → Lower x k l ∨ Lower x k l') : Ranked x y (l ++ l') := by
  intro k mem
  rcases List.mem_append.mp mem with mem | mem
  · exact (h k mem).mono (List.subset_append_left ..)
  · rcases h' k mem with fired | fired
    · exact fired.mono (List.subset_append_left ..)
    · exact fired.mono (List.subset_append_right ..)

theorem ranked_cons {k : Nat} {z : A} {l : List (Nat × A)} (other : (!decide (z = y)) = true)
    (h : Ranked x y l) : Ranked x y ((k, z) :: l) := by
  have ne : z ≠ y := by simpa using other
  intro k' mem
  rcases List.mem_cons.mp mem with same | mem
  · exact absurd (Prod.mk.inj same).2.symm ne
  · exact (h k' mem).mono (List.subset_cons_self ..)

theorem ranked_snoc {k : Nat} {z : A} {l : List (Nat × A)} (other : (!decide (z = y)) = true)
    (h : Ranked x y l) : Ranked x y (l ++ [(k, z)]) := by
  have ne : z ≠ y := by simpa using other
  refine h.append fun k' mem => ?_
  exact absurd (Prod.mk.inj (List.mem_singleton.mp mem)).2.symm ne

/-- What stands behind a part of an expression: `y` is in order there by itself, or behind the part. -/
theorem precedes_join {a b : Ragel A} : (seq a b).precedes x y = true ↔ a.precedes x y = true ∧
    (b.precedes x y = true ∨ (∃ k, (k, y) ∈ b.embedded) ∧ ∀ k, (k, y) ∈ b.embedded → a.sets x k = true) := by
  simp only [precedes, Bool.and_eq_true, Bool.or_eq_true, List.any_eq_true, List.all_eq_true,
    Bool.not_eq_true', decide_eq_true_eq, decide_eq_false_iff_not, Prod.exists, Prod.forall, exists_eq_right]
  refine and_congr_right fun _ => or_congr_right (and_congr_right fun _ => forall_congr' fun k => ?_)
  constructor
  · intro all mem
    exact (all y mem).resolve_left fun ne => ne rfl
  · intro all z mem
    by_cases same : z = y
    · exact .inr (all (same ▸ mem))
    · exact .inl same

theorem precedes_nullable {l : List (Nat × A)} (h : e.precedes x y = true) (ends : e.nullable = some l) :
    Ranked x y l := by
  induction e generalizing l with
  | eps =>
    cases ends
    exact fun k mem => absurd mem List.not_mem_nil
  | byte s => cases ends
  | seq a b iha ihb | guard _ a b iha ihb | guardEnd _ a b iha ihb =>
    obtain ⟨ha, hb⟩ := precedes_join.mp h
    rw [Ragel.nullable] at ends
    split at ends
    · rename_i l₁ l₂ ends₁ ends₂
      obtain rfl := Option.some.inj ends
      refine (iha ha ends₁).append fun k mem => ?_
      rcases hb with hb | ⟨-, hb⟩
      · exact .inr (ihb hb ends₂ k mem)
      · exact .inl (sets_nullable (hb k (embedded_nullable ends₂ mem)) ends₁)
    · cases ends
  | alt a b iha ihb =>
    obtain ⟨ha, hb⟩ := Bool.and_eq_true_iff.mp h
    rw [Ragel.nullable] at ends
    split at ends
    · rename_i l₁ l₂ ends₁ ends₂
      obtain rfl := Option.some.inj ends
      exact (iha ha ends₁).append fun k mem => .inr (ihb hb ends₂ k mem)
    · rename_i l₁ ends₁ _
      obtain rfl := Option.some.inj ends
      exact iha ha ends₁
    · exact ihb hb ends
  | star a iha =>
    rw [Ragel.nullable] at ends
    obtain rfl := Option.some.inj ends
    cases nothing : a.nullable with
    | none => exact fun k mem => absurd mem List.not_mem_nil
    | some l => exact iha h nothing
  | enter n z a iha =>
    obtain ⟨other, ha⟩ := Bool.and_eq_true_iff.mp h
    obtain ⟨l', ends', rfl⟩ := Option.map_eq_some_iff.mp ends
    exact ranked_cons other (iha ha ends')
  | leave n z a iha =>
    obtain ⟨other, ha⟩ := Bool.and_eq_true_iff.mp h
    obtain ⟨l', ends', rfl⟩ := Option.map_eq_some_iff.mp ends
    exact ranked_snoc other (iha ha ends')
  | finish n z a iha => exact iha (Bool.and_eq_true_iff.mp h).2 ends
  | ending k a iha | onlyIf a iha => exact iha h ends

/-- A move executes `x` before `y`, and leaves an expression that does, unless it executes `x`. -/
def InTurn (x y : A) (m : Move A) : Prop :=
  Ranked x y m.actions ∧ ((∃ j, (j, x) ∈ m.actions) ∨ m.rest.precedes x y = true)

theorem precedes_joins {a b : Ragel A} {join close : Ragel A → Ragel A} (joins : Joins a b join close m)
    (ha : a.precedes x y = true) (hb : b.precedes x y = true ∨ (∃ k, (k, y) ∈ b.embedded) ∧
      ∀ k, (k, y) ∈ b.embedded → a.sets x k = true)
    (iha : ∀ {m}, a.precedes x y = true → m ∈ a.moves → InTurn x y m)
    (ihb : ∀ {m}, b.precedes x y = true → m ∈ b.moves → InTurn x y m)
    (joined : ∀ r, (join r).precedes x y = (seq r b).precedes x y)
    (closed : ∀ r, (close r).precedes x y = r.precedes x y) : InTurn x y m := by
  unfold InTurn
  rcases joins with ⟨m', mem, acts, rest⟩ | ⟨l, ends, m', mem, acts, rest⟩
  · obtain ⟨ranked, later⟩ := iha ha mem
    rw [acts, rest, joined]
    refine ⟨ranked, later.elim .inl fun still => ?_⟩
    rcases hb with hb | ⟨⟨k, mem'⟩, hb⟩
    · exact .inr (Bool.and_eq_true_iff.mpr ⟨still, Bool.or_eq_true_iff.mpr (.inl hb)⟩)
    · -- the move may have executed `x` for some of the numbers of `y` behind it
      by_cases fired : ∃ j, (j, x) ∈ m'.actions
      · exact .inl fired
      · refine .inr (precedes_join.mpr ⟨still, .inr ⟨⟨k, mem'⟩, fun k' mem'' => ?_⟩⟩)
        refine (sets_moves (hb k' mem'') mem).resolve_left fun lower => fired ?_
        obtain ⟨j, -, act⟩ := lower
        exact ⟨j, act⟩
  · rw [acts, rest, closed]
    have left := precedes_nullable ha ends
    rcases hb with hb | ⟨⟨k, mem'⟩, hb⟩
    · obtain ⟨ranked, later⟩ := ihb hb mem
      refine ⟨left.append fun k' act => .inr (ranked k' act), ?_⟩
      exact later.imp_left fun ⟨j, act⟩ => ⟨j, List.mem_append_right _ act⟩
    · obtain ⟨j, -, act⟩ := sets_nullable (hb k mem') ends
      refine ⟨left.append fun k' act' => .inl ?_, .inl ⟨j, List.mem_append_left _ act⟩⟩
      exact sets_nullable (hb k' ((embedded_moves mem).1 act')) ends

theorem precedes_moves (h : e.precedes x y = true) (mem : m ∈ e.moves) : InTurn x y m := by
  induction e generalizing m with
  | eps => cases mem
  | byte s =>
    obtain rfl := List.mem_singleton.mp mem
    exact ⟨fun k mem => absurd mem List.not_mem_nil, .inr rfl⟩
  | seq a b iha ihb =>
    obtain ⟨ha, hb⟩ := precedes_join.mp h
    exact precedes_joins (joins_seq mem) ha hb iha ihb (fun _ => rfl) fun _ => rfl
  | guard k a b iha ihb =>
    obtain ⟨ha, hb⟩ := precedes_join.mp h
    exact precedes_joins (joins_guard mem) ha hb iha ihb (fun _ => rfl) fun _ => rfl
  | guardEnd k a b iha ihb =>
    obtain ⟨ha, hb⟩ := precedes_join.mp h
    exact precedes_joins (joins_guardEnd mem) ha hb iha ihb (fun _ => rfl) fun _ => rfl
  | alt a b iha ihb =>
    obtain ⟨ha, hb⟩ := Bool.and_eq_true_iff.mp h
    rcases List.mem_append.mp mem with mem' | mem'
    · exact iha ha mem'
    · exact ihb hb mem'
  | star a iha =>
    obtain ⟨m', mem', rfl⟩ := List.mem_map.mp mem
    obtain ⟨ranked, later⟩ := iha h mem'
    refine ⟨ranked, later.imp_right fun still => ?_⟩
    exact Bool.and_eq_true_iff.mpr ⟨still, Bool.or_eq_true_iff.mpr (.inl h)⟩
  | enter n z a iha =>
    obtain ⟨other, ha⟩ := Bool.and_eq_true_iff.mp h
    obtain ⟨m', mem', rfl⟩ := List.mem_map.mp mem
    obtain ⟨ranked, later⟩ := iha ha mem'
    exact ⟨ranked_cons other ranked, later.imp_left fun ⟨j, act⟩ => ⟨j, List.mem_cons_of_mem _ act⟩⟩
  | leave n z a iha =>
    obtain ⟨other, ha⟩ := Bool.and_eq_true_iff.mp h
    obtain ⟨m', mem', rfl⟩ := List.mem_map.mp mem
    obtain ⟨ranked, later⟩ := iha ha mem'
    exact ⟨ranked, later.imp_right fun still => Bool.and_eq_true_iff.mpr ⟨other, still⟩⟩
  | finish n z a iha =>
    obtain ⟨other, ha⟩ := Bool.and_eq_true_iff.mp h
    obtain ⟨m', mem', rfl⟩ := List.mem_map.mp mem
    obtain ⟨ranked, later⟩ := iha ha mem'
    have still : m'.rest.precedes x y = true → (finish n z m'.rest).precedes x y = true :=
      fun still => Bool.and_eq_true_iff.mpr ⟨other, still⟩
    split
    · refine ⟨ranked_snoc other ranked, ?_⟩
      exact later.imp (fun ⟨j, act⟩ => ⟨j, List.mem_append_left _ act⟩) still
    · exact ⟨ranked, later.imp_right still⟩
  | ending k a iha =>
    obtain ⟨m', mem', rfl⟩ := List.mem_map.mp mem
    have inner := iha h mem'
    split
    · exact inner
    · exact inner
  | onlyIf a iha =>
    obtain ⟨m', mem', rfl⟩ := List.mem_map.mp mem
    have inner := iha h mem'
    exact inner

/-! ## Lists of actions -/

/-- Where `y` is in the list, `x` is in front of it. -/
def First (x y : A) : List A → Prop
  | [] => True
  | a :: l => a = x ∨ a ≠ y ∧ First x y l

omit [DecidableEq A] in
theorem First.append {l l' : List A} (h : First x y l) (h' : x ∈ l ∨ First x y l') : First x y (l ++ l') := by
  induction l with
  | nil => exact h'.resolve_left List.not_mem_nil
  | cons a l ih =>
    rcases h with rfl | ⟨other, h⟩
    · exact .inl rfl
    · by_cases same : a = x
      · exact .inl same
      · refine .inr ⟨other, ih h (h'.imp_left fun mem => ?_)⟩
        exact (List.mem_cons.mp mem).resolve_left fun eq => same eq.symm

omit [DecidableEq A] in
theorem First.filter {p : A → Bool} {l : List A} (h : First x y l) (keeps : p x = true) :
    First x y (l.filter p) := by
  induction l with
  | nil => exact h
  | cons a l ih =>
    rw [List.filter_cons]
    split
    · exact h.imp_right fun ⟨other, h⟩ => ⟨other, ih h⟩
    · rename_i dropped
      rcases h with rfl | ⟨-, h⟩
      · exact absurd keeps dropped
      · exact ih h

theorem First.eraseDups {l : List A} (h : First x y l) : First x y l.eraseDups := by
  -- by the length, since the tail is filtered before its duplicates are erased
  induction len : l.length using Nat.strong_induction_on generalizing l with
  | _ n ih =>
    cases l with
    | nil => exact h
    | cons a l =>
      rw [List.eraseDups_cons]
      by_cases same : a = x
      · exact .inl same
      · obtain ⟨other, h⟩ := h.resolve_left same
        refine .inr ⟨other, ih _ ?_ (h.filter (by simpa using fun eq => same eq.symm)) rfl⟩
        have shorter := List.length_filter_le (fun b => !b == a) l
        rw [List.length_cons] at len
        omega

omit [DecidableEq A] in
/-- Sorted by their numbers, ranked actions are in order. -/
theorem Ranked.first {l : List (Nat × A)} (h : Ranked x y l) (sorted : l.Pairwise fun s t => s.1 ≤ t.1) :
    First x y (l.map Prod.snd) := by
  induction l with
  | nil => trivial
  | cons t l ih =>
    obtain ⟨least, sorted⟩ := List.pairwise_cons.mp sorted
    by_cases same : t.2 = x
    · exact .inl same
    · refine .inr ⟨?_, ih (fun k mem => ?_) sorted⟩
      · rintro rfl
        obtain ⟨j, lt, mem⟩ := h t.1 List.mem_cons_self
        rcases List.mem_cons.mp mem with rfl | mem
        · exact absurd lt (Nat.lt_irrefl _)
        · exact absurd (least _ mem) (Nat.not_le.mpr lt)
      · obtain ⟨j, lt, mem'⟩ := h k (List.mem_cons_of_mem _ mem)
        refine ⟨j, lt, (List.mem_cons.mp mem').resolve_left fun eq => same ?_⟩
        rw [← eq]

/-- Nothing is behind `z` but itself. -/
def Last (z : A) : List A → Prop
  | [] => True
  | a :: l => (a = z → ∀ b ∈ l, b = z) ∧ Last z l

omit [DecidableEq A] in
theorem Last.filter {z : A} {p : A → Bool} {l : List A} (h : Last z l) : Last z (l.filter p) := by
  induction l with
  | nil => exact h
  | cons a l ih =>
    rw [List.filter_cons]
    split
    · exact ⟨fun same b mem => h.1 same b (List.mem_filter.mp mem).1, ih h.2⟩
    · exact ih h.2

/-- Without duplicates, nothing is cut off behind `z`. -/
theorem Last.upTo {z : A} {l : List A} (h : Last z l) :
    Scan.upTo (fun a => a == z) l.eraseDups = l.eraseDups := by
  induction len : l.length using Nat.strong_induction_on generalizing l with
  | _ n ih =>
    cases l with
    | nil => rfl
    | cons a l =>
      rw [List.eraseDups_cons, Scan.upTo]
      split
      · rename_i same
        have none : l.filter (fun b => !b == a) = [] := by
          refine List.filter_eq_nil_iff.mpr fun b mem => ?_
          simp [h.1 (beq_iff_eq.mp same) b mem, beq_iff_eq.mp same]
        rw [none]
        rfl
      · rw [ih _ ?_ h.2.filter rfl]
        have shorter := List.length_filter_le (fun b => !b == a) l
        rw [List.length_cons] at len
        omega

omit [DecidableEq A] in
theorem last_of_sorted {n : Nat} {z : A} {l : List (Nat × A)}
    (all : ∀ t ∈ l, t.1 < n ∧ t.2 ≠ z ∨ t = (n, z)) (sorted : l.Pairwise fun s t => s.1 ≤ t.1) :
    Last z (l.map Prod.snd) := by
  induction l with
  | nil => trivial
  | cons t l ih =>
    obtain ⟨least, sorted⟩ := List.pairwise_cons.mp sorted
    refine ⟨fun same b mem => ?_, ih (fun s mem => all s (List.mem_cons_of_mem _ mem)) sorted⟩
    obtain ⟨s, mem', rfl⟩ := List.mem_map.mp mem
    have top : t = (n, z) := (all t List.mem_cons_self).resolve_left fun both => both.2 same
    refine (all s (List.mem_cons_of_mem _ mem')).elim (fun both => ?_) fun eq => by rw [eq]
    have le := least s mem'
    rw [top] at le
    exact absurd both.1 (Nat.not_lt.mpr le)

/-! ## Steps and scans -/

section Steps

variable {n : Nat} {z : A} {condition : Bool} {st st' : State A} {c : UInt8} {as : List A}

/-- Every way of reading the input is inside the `@` of the action `z`, whose number is the highest. -/
def Closes (n : Nat) (z : A) (st : State A) : Prop :=
  ∀ e ∈ st, ∃ a, e = finish n z a ∧ ∀ t ∈ a.embedded, t.1 < n ∧ t.2 ≠ z

/-- `y` waits for `x` on every way of reading the input. -/
def Waits (x y : A) (st : State A) : Prop := ∀ e ∈ st, e.precedes x y = true

omit [DecidableEq A] in
theorem Closes.moves (closes : Closes n z st) (took : m ∈ taken condition st c) :
    (∀ t ∈ m.actions, t.1 < n ∧ t.2 ≠ z ∨ t = (n, z)) ∧
      ∃ a, m.rest = finish n z a ∧ ∀ t ∈ a.embedded, t.1 < n ∧ t.2 ≠ z := by
  obtain ⟨⟨e, mem, moved⟩, -⟩ := mem_taken took
  obtain ⟨a, rfl, below⟩ := closes e mem
  obtain ⟨m', mem', rfl⟩ := List.mem_map.mp moved
  obtain ⟨acts, rest⟩ := embedded_moves mem'
  have inner : ∀ t ∈ m'.actions, t.1 < n ∧ t.2 ≠ z ∨ t = (n, z) := fun t act => .inl (below t (acts act))
  refine ⟨?_, m'.rest, ?_, fun t mem => below t (rest mem)⟩
  · split
    · intro t act
      rcases List.mem_append.mp act with act | act
      · exact inner t act
      · exact .inr (List.mem_singleton.mp act)
    · exact inner
  · split
    · rfl
    · rfl

/-- The actions of a byte are all executed, up to one that breaks. -/
theorem Closes.step (closes : Closes n z st) (next : Ragel.step condition st c = some (st', as)) :
    Closes n z st' ∧ Scan.upTo (fun a => a == z) as = as := by
  obtain ⟨targets, rfl⟩ := step_spec next
  constructor
  · intro e mem
    obtain ⟨m, took, rfl⟩ := targets e mem
    exact (closes.moves took).2
  · refine Last.upTo (last_of_sorted (n := n) (fun t mem => ?_) (List.pairwise_insertionSort ..))
    obtain ⟨m, took, act⟩ := List.mem_flatMap.mp (List.mem_insertionSort _ |>.mp mem)
    exact (closes.moves took).1 t act

/-- A byte executes `x` before `y`, and `y` goes on waiting unless `x` is executed. -/
theorem Waits.step (waits : Waits x y st) (next : Ragel.step condition st c = some (st', as)) :
    First x y as ∧ (x ∈ as ∨ Waits x y st') := by
  obtain ⟨targets, rfl⟩ := step_spec next
  have turn : ∀ m ∈ taken condition st c, InTurn x y m := by
    intro m took
    obtain ⟨⟨e, mem, moved⟩, -⟩ := mem_taken took
    exact precedes_moves (waits e mem) moved
  constructor
  · refine First.eraseDups (Ranked.first (fun k mem => ?_) (List.pairwise_insertionSort ..))
    obtain ⟨m, took, act⟩ := List.mem_flatMap.mp (List.mem_insertionSort _ |>.mp mem)
    refine ((turn m took).1 k act).mono fun t act' => ?_
    exact (List.mem_insertionSort _).mpr (List.mem_flatMap.mpr ⟨m, took, act'⟩)
  · by_cases fired : x ∈ actionsOf (taken condition st c)
    · exact .inl fired
    · refine .inr fun e mem => ?_
      obtain ⟨m, took, rfl⟩ := targets e mem
      refine (turn m took).2.resolve_left fun ⟨j, act⟩ => fired ?_
      exact mem_actionsOf.mpr ⟨m, took, j, act⟩

/-- The scan of a machine that breaks at `z`. -/
def scanTo (condition : Bool) (z : A) (st : State A) (p : Nat) (w : List UInt8) : Scan (State A) A :=
  Scan.scan (Ragel.step condition) (fun a => a == z) st p w

theorem Closes.scan (w : List UInt8) : ∀ {st : State A} {p : Nat}, Closes n z st →
    ∀ st', (scanTo condition z st p w).state = some st' → Closes n z st' := by
  unfold scanTo
  induction w with
  | nil =>
    intro st p closes st' same
    obtain rfl := Option.some.inj same
    exact closes
  | cons c w ih =>
    intro st p closes st' same
    cases next : Ragel.step condition st c with
    | none =>
      rw [Scan.scan_cons_none next] at same
      cases same
    | some target =>
      obtain ⟨st₁, as⟩ := target
      have closes₁ := (closes.step next).1
      cases breaking : as.any (fun a => a == z) with
      | true =>
        rw [Scan.scan_cons_break next breaking] at same
        obtain rfl := Option.some.inj same
        exact closes₁
      | false =>
        rw [Scan.scan_cons_next next breaking] at same
        exact ih closes₁ st' same

/-- In the trace of a scan `x` is in front of `y`, and `y` goes on waiting unless `x` is there. -/
theorem Waits.scan (ok : Bool) (w : List UInt8) : ∀ {st : State A} {p : Nat}, Closes n z st → Waits x y st →
    First x y ((scanTo ok z st p w).trace.map Prod.fst) ∧
      ∀ st', (scanTo ok z st p w).state = some st' →
        x ∈ (scanTo ok z st p w).trace.map Prod.fst ∨ Waits x y st' := by
  unfold scanTo
  induction w with
  | nil =>
    intro st p closes waits
    refine ⟨trivial, fun st' same => ?_⟩
    obtain rfl := Option.some.inj same
    exact .inr waits
  | cons c w ih =>
    intro st p closes waits
    cases next : Ragel.step ok st c with
    | none =>
      rw [Scan.scan_cons_none next]
      refine ⟨trivial, fun st' same => ?_⟩
      cases same
    | some target =>
      obtain ⟨st₁, as⟩ := target
      obtain ⟨closes₁, whole⟩ := closes.step next
      obtain ⟨first, later⟩ := waits.step next
      have acts : (as.map (·, p)).map Prod.fst = as := by simp [Function.comp_def]
      cases breaking : as.any (fun a => a == z) with
      | true =>
        rw [Scan.scan_cons_break next breaking]
        dsimp only
        rw [whole, acts]
        refine ⟨first, fun st' same => ?_⟩
        obtain rfl := Option.some.inj same
        exact later
      | false =>
        rw [Scan.scan_cons_next next breaking]
        simp only [Scan.after, List.map_append, acts]
        rcases later with fired | waits₁
        · exact ⟨first.append (.inl fired), fun _ _ => .inl (List.mem_append_left _ fired)⟩
        · obtain ⟨rest, last⟩ := ih (p := p + 1) closes₁ waits₁
          refine ⟨first.append (.inr rest), fun st' same => ?_⟩
          exact (last st' same).imp_left fun mem => List.mem_append_right _ mem

end Steps

end Sylar.Lib.Ragel
