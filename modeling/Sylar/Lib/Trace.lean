import Sylar.Lib.Precedes

/-!
# Traces

What a machine executes on a word: events, each with its position, the number of its action, and the
action. The event at the end of the word is what the machine executes when it is left there.

`Trace n e w l` says that `l` lists the events of `e` on `w`, in the order in which they happen, when the
actions of `e` are numbered from `n` on. The rules give the trace of a composed expression from those of
its parts: a concatenation whose parts can be told apart by their bytes has the trace of the first part
followed by that of the second. `scan_of_trace` says that a run of the machine executes the trace, each
action once at a position.
-/

namespace Sylar.Lib

/-! ## Lists without repetitions -/

section Dups

variable {α β : Type} [BEq α] [LawfulBEq α] [BEq β] [LawfulBEq β]

theorem eraseDups_filter (p : α → Bool) (l : List α) : (l.filter p).eraseDups = l.eraseDups.filter p := by
  induction length : l.length using Nat.strong_induction_on generalizing l with
  | h k ih =>
    cases l with
    | nil => rfl
    | cons a l =>
      have shorter : (l.filter fun b => !b == a).length < k := by
        rw [← length]
        exact Nat.lt_succ_of_le (List.length_filter_le ..)
      rw [List.eraseDups_cons]
      cases here : p a with
      | true =>
        rw [List.filter_cons_of_pos here, List.filter_cons_of_pos here, List.eraseDups_cons, ← ih _ shorter _ rfl,
          List.filter_comm]
      | false =>
        have notHere : ¬ p a = true := by rw [here]; exact Bool.false_ne_true
        rw [List.filter_cons_of_neg notHere, List.filter_cons_of_neg notHere, ← ih _ shorter _ rfl,
          List.filter_filter]
        congr 1
        refine List.filter_congr fun b _ => ?_
        by_cases same : b = a
        · rw [same, here]
          rfl
        · simp [same]

theorem eraseDups_map (f : α → β) (l : List α) : (l.map f).eraseDups = (l.eraseDups.map f).eraseDups := by
  induction length : l.length using Nat.strong_induction_on generalizing l with
  | h k ih =>
    cases l with
    | nil => rfl
    | cons a l =>
      have shorter : (l.filter fun b => !f b == f a).length < k := by
        rw [← length]
        exact Nat.lt_succ_of_le (List.length_filter_le ..)
      have both : ((l.filter fun b => !b == a).filter fun b => !f b == f a) = l.filter fun b => !f b == f a := by
        rw [List.filter_filter]
        refine List.filter_congr fun b _ => ?_
        by_cases same : b = a
        · simp [same]
        · simp [same]
      rw [List.map_cons, List.eraseDups_cons, List.eraseDups_cons, List.map_cons, List.eraseDups_cons,
        List.filter_map, List.filter_map]
      simp only [Function.comp_def]
      rw [← eraseDups_filter, both, ih _ shorter _ rfl]

theorem eraseDups_map_injective {f : α → β} (injective : Function.Injective f) (l : List α) :
    (l.map f).eraseDups = l.eraseDups.map f := by
  induction length : l.length using Nat.strong_induction_on generalizing l with
  | h k ih =>
    cases l with
    | nil => rfl
    | cons a l =>
      have shorter : (l.filter fun b => !b == a).length < k := by
        rw [← length]
        exact Nat.lt_succ_of_le (List.length_filter_le ..)
      rw [List.map_cons, List.eraseDups_cons, List.eraseDups_cons, List.map_cons, List.filter_map,
        ← ih _ shorter _ rfl]
      congr 3
      refine List.filter_congr fun b _ => ?_
      simp [injective.eq_iff]

theorem nodup_eraseDups (l : List α) : l.eraseDups.Nodup := by
  induction length : l.length using Nat.strong_induction_on generalizing l with
  | h k ih =>
    cases l with
    | nil => exact List.nodup_nil
    | cons a l =>
      have shorter : (l.filter fun b => !b == a).length < k := by
        rw [← length]
        exact Nat.lt_succ_of_le (List.length_filter_le ..)
      rw [List.eraseDups_cons]
      refine List.nodup_cons.mpr ⟨fun mem => ?_, ih _ shorter _ rfl⟩
      simp [List.mem_eraseDups, List.mem_filter] at mem

omit [LawfulBEq α] in
theorem eraseDups_sublist (l : List α) : List.Sublist l.eraseDups l := by
  induction length : l.length using Nat.strong_induction_on generalizing l with
  | h k ih =>
    cases l with
    | nil => exact List.Sublist.refl _
    | cons a l =>
      rw [List.eraseDups_cons]
      have shorter : (l.filter fun b => !b == a).length < k := by
        rw [← length, List.length_cons]
        exact Nat.lt_succ_of_le (List.length_filter_le ..)
      exact ((ih _ shorter _ rfl).trans List.filter_sublist).cons_cons a

theorem eraseDups_append_of_disjoint {l l' : List α} (apart : ∀ x ∈ l', x ∉ l) :
    (l ++ l').eraseDups = l.eraseDups ++ l'.eraseDups := by
  rw [List.eraseDups_append]
  congr 2
  refine List.filter_eq_self.mpr fun x mem => ?_
  simp [apart x mem]

/-- A list in the order of its keys, without its repetitions, is the list in their strict order with the
same members. -/
theorem eraseDups_eq_of_sorted {key : α → Nat} {l' : List α} (strict : l'.Pairwise fun x y => key x < key y) :
    ∀ {l : List α}, l.Pairwise (fun x y => key x ≤ key y) → (∀ x, x ∈ l ↔ x ∈ l') → l.eraseDups = l' := by
  induction l' with
  | nil =>
    intro l _ same
    rw [List.eq_nil_iff_forall_not_mem.mpr fun x mem => List.not_mem_nil ((same x).mp mem)]
    rfl
  | cons x l' ih =>
    intro l sorted same
    obtain ⟨first, rest⟩ := List.pairwise_cons.mp strict
    have mem : x ∈ l := (same x).mpr List.mem_cons_self
    cases l with
    | nil => cases mem
    | cons z l =>
      obtain ⟨least, sorted⟩ := List.pairwise_cons.mp sorted
      obtain rfl : z = x := by
        rcases List.mem_cons.mp ((same z).mp List.mem_cons_self) with eq | later
        · exact eq
        · rcases List.mem_cons.mp mem with eq | behind
          · exact eq.symm
          · exact absurd (first z later) (Nat.not_lt.mpr (least x behind))
      rw [List.eraseDups_cons, ih rest (sorted.filter _)]
      intro y
      rw [List.mem_filter]
      constructor
      · rintro ⟨mem, ne⟩
        rcases List.mem_cons.mp ((same y).mp (List.mem_cons_of_mem z mem)) with rfl | mem
        · simp at ne
        · exact mem
      · intro later
        have ne : y ≠ z := fun eq => Nat.lt_irrefl _ (eq ▸ first y later)
        refine ⟨?_, by simpa using ne⟩
        rcases List.mem_cons.mp ((same y).mpr (List.mem_cons_of_mem z later)) with eq | mem
        · exact absurd eq ne
        · exact mem

end Dups

/-- A list cut behind the elements with a property, before none or one without it. -/
theorem takeWhile_dropWhile_append {α : Type} {p : α → Bool} {l l' : List α} (all : ∀ x ∈ l, p x = true)
    (stop : ∀ x z, l' = x :: z → p x = false) :
    (l ++ l').takeWhile p = l ∧ (l ++ l').dropWhile p = l' := by
  rw [List.takeWhile_append_of_pos all, List.dropWhile_append_of_pos all]
  cases l' with
  | nil => exact ⟨List.append_nil l, rfl⟩
  | cons x z =>
    have fails : ¬ p x = true := by rw [stop x z rfl]; exact Bool.false_ne_true
    rw [List.takeWhile_cons_of_neg fails, List.dropWhile_cons_of_neg fails, List.append_nil]
    exact ⟨rfl, rfl⟩

namespace Ragel

/-- An action executed on the byte at a position, or at the end. -/
@[ext]
structure Event (A : Type) where
  pos : Nat
  order : Nat
  action : A
  deriving DecidableEq, Repr

namespace Event

variable {A : Type}

def Before (t t' : Event A) : Prop := t.pos < t'.pos ∨ t.pos = t'.pos ∧ t.order < t'.order

/-- The event behind a word of length `k`. -/
def shift (k : Nat) (t : Event A) : Event A := { t with pos := k + t.pos }

theorem shift_before {k : Nat} {t t' : Event A} (before : t.Before t') : (t.shift k).Before (t'.shift k) := by
  rcases before with lt | ⟨eq, lt⟩
  · exact .inl (Nat.add_lt_add_left lt k)
  · exact .inr ⟨congrArg (k + ·) eq, lt⟩

theorem eq_shift {k j : Nat} {t : Event A} (pos : t.pos = k + j) : t = shift k ⟨j, t.order, t.action⟩ := by
  rw [shift, ← pos]

end Event

theorem map_shift_shift (j k : Nat) (l : List (Event A)) :
    (l.map (Event.shift j)).map (Event.shift k) = l.map (Event.shift (k + j)) := by
  rw [List.map_map]
  refine List.map_congr_left fun e _ => ?_
  simp [Event.shift, Nat.add_assoc]

variable {A : Type} {ok : Bool} {a b e : Ragel A} {n k : Nat} {y : A} {w u v : List UInt8} {c : UInt8}
  {t : Event A} {l la lb : List (Event A)}

attribute [local simp] numbered size

/-! ## Numbering -/

theorem nullable_numbered (e : Ragel A) : ∀ n : Nat, (e.numbered n).nullable.isSome = e.nullable.isSome := by
  induction e with
  | eps | byte _ => exact fun _ => rfl
  | seq a b iha ihb =>
    intro n
    rw [Bool.eq_iff_iff, numbered, nullable_seq, nullable_seq, iha, ihb]
  | alt a b iha ihb =>
    intro n
    rw [Bool.eq_iff_iff, numbered, nullable_alt, nullable_alt, iha, ihb]
  | star a => exact fun _ => rfl
  | enter _ _ a iha =>
    intro n
    rw [numbered, nullable_enter, nullable_enter, iha]
  | leave _ _ a iha =>
    intro n
    rw [numbered, nullable_leave, nullable_leave, iha]
  | finish _ _ a iha | ending _ a iha | onlyIf a iha => exact fun n => iha _
  | guard k a b iha ihb | guardEnd k a b iha ihb =>
    intro n
    have same := iha n
    have same' := ihb (n + a.size)
    simp only [numbered, nullable]
    revert same same'
    cases (a.numbered n).nullable <;> cases (b.numbered (n + a.size)).nullable <;> cases a.nullable <;>
      cases b.nullable <;> simp

theorem plain_numbered (e : Ragel A) : ∀ n : Nat, (e.numbered n).plain = e.plain := by
  induction e with
  | eps | byte _ | guard _ _ _ | guardEnd _ _ _ | ending _ _ => exact fun _ => rfl
  | seq a b iha ihb | alt a b iha ihb =>
    intro n
    rw [numbered, plain, plain, iha, ihb]
  | star a iha | enter _ _ a iha | leave _ _ a iha | finish _ _ a iha | onlyIf a iha => exact fun n => iha _

theorem uses_numbered (e : Ragel A) : ∀ n : Nat, (e.numbered n).uses = e.uses := by
  induction e with
  | eps | byte _ => exact fun _ => rfl
  | seq a b iha ihb | alt a b iha ihb | guard _ a b iha ihb | guardEnd _ a b iha ihb =>
    intro n
    rw [numbered, uses, uses, iha, ihb]
  | star a iha | enter _ _ a iha | leave _ _ a iha | finish _ _ a iha | ending _ a iha | onlyIf a iha =>
    exact fun n => iha _

theorem startSet_numbered (e : Ragel A) : ∀ n : Nat, (e.numbered n).startSet = e.startSet := by
  induction e with
  | eps | byte _ => exact fun _ => rfl
  | seq a b iha ihb | guard _ a b iha ihb | guardEnd _ a b iha ihb =>
    intro n
    rw [numbered, startSet, startSet, iha, ihb, nullable_numbered]
  | alt a b iha ihb =>
    intro n
    rw [numbered, startSet, startSet, iha, ihb]
  | star a iha | enter _ _ a iha | leave _ _ a iha | finish _ _ a iha | ending _ a iha | onlyIf a iha =>
    exact fun n => iha _

theorem lang_numbered (isPlain : e.plain = true) : ∀ n : Nat, lang ok (e.numbered n) = lang ok e := by
  induction e with
  | eps | byte _ => exact fun _ => rfl
  | seq a b iha ihb =>
    obtain ⟨plainA, plainB⟩ := Bool.and_eq_true_iff.mp isPlain
    intro n
    rw [numbered, lang_seq, lang_seq, iha plainA, ihb plainB]
  | alt a b iha ihb =>
    obtain ⟨plainA, plainB⟩ := Bool.and_eq_true_iff.mp isPlain
    intro n
    rw [numbered, lang_alt, lang_alt, iha plainA, ihb plainB]
  | star a iha =>
    intro n
    rw [numbered, lang_star, lang_star, iha isPlain]
  | enter _ _ a iha =>
    intro n
    rw [numbered, lang_enter, lang_enter, iha isPlain]
  | leave _ _ a iha =>
    intro n
    rw [numbered, lang_leave, lang_leave, iha isPlain]
  | finish _ _ a iha =>
    intro n
    rw [numbered, lang_finish, lang_finish, iha isPlain]
  | guard _ _ _ | guardEnd _ _ _ | ending _ _ => cases isPlain
  | onlyIf a iha =>
    intro n
    ext w
    rw [numbered, mem_lang_onlyIf, mem_lang_onlyIf, iha isPlain]

theorem size_numbered (e : Ragel A) : ∀ n : Nat, (e.numbered n).size = e.size := by
  induction e with
  | eps | byte _ => exact fun _ => rfl
  | seq a b iha ihb | alt a b iha ihb | guard _ a b iha ihb | guardEnd _ a b iha ihb =>
    intro n
    rw [numbered, size, size, iha, ihb]
  | star a iha | ending _ a iha | onlyIf a iha => exact fun n => iha _
  | enter _ _ a iha | leave _ _ a iha | finish _ _ a iha =>
    intro n
    rw [numbered, size, size, iha]

theorem numbered_of_quiet (quiet : e.size = 0) : ∀ n : Nat, e.numbered n = e := by
  induction e with
  | eps | byte _ => exact fun _ => rfl
  | seq a b iha ihb | alt a b iha ihb | guard _ a b iha ihb | guardEnd _ a b iha ihb =>
    obtain ⟨quietA, quietB⟩ := Nat.add_eq_zero_iff.mp quiet
    intro n
    rw [numbered, iha quietA, ihb quietB]
  | star a iha | ending _ a iha | onlyIf a iha =>
    intro n
    rw [numbered, iha quiet]
  | enter _ _ a | leave _ _ a | finish _ _ a => cases quiet

/-- The numbers of the actions are in a range. -/
def Bounded (lo hi : Nat) : Ragel A → Prop
  | eps | byte _ => True
  | seq a b | alt a b | guard _ a b | guardEnd _ a b => a.Bounded lo hi ∧ b.Bounded lo hi
  | star a | ending _ a | onlyIf a => a.Bounded lo hi
  | enter n _ a | leave n _ a | finish n _ a => (lo ≤ n ∧ n < hi) ∧ a.Bounded lo hi

theorem Bounded.mono {lo lo' hi hi' : Nat} (le : lo' ≤ lo) (le' : hi ≤ hi') (h : e.Bounded lo hi) :
    e.Bounded lo' hi' := by
  induction e with
  | eps | byte _ => trivial
  | seq a b iha ihb | alt a b iha ihb | guard _ a b iha ihb | guardEnd _ a b iha ihb =>
    exact ⟨iha h.1, ihb h.2⟩
  | star a iha | ending _ a iha | onlyIf a iha => exact iha h
  | enter n _ a iha | leave n _ a iha | finish n _ a iha =>
    exact ⟨⟨le.trans h.1.1, h.1.2.trans_le le'⟩, iha h.2⟩

theorem bounded_numbered (e : Ragel A) : ∀ n : Nat, (e.numbered n).Bounded n (n + e.size) := by
  induction e with
  | eps | byte _ => exact fun _ => trivial
  | seq a b iha ihb | alt a b iha ihb | guard _ a b iha ihb | guardEnd _ a b iha ihb =>
    intro n
    refine ⟨(iha n).mono (Nat.le_refl n) ?_, (ihb (n + a.size)).mono (Nat.le_add_right ..) ?_⟩
    · rw [size]
      omega
    · rw [size]
      omega
  | star a iha | ending _ a iha | onlyIf a iha => exact fun n => iha n
  | enter _ _ a iha =>
    intro n
    refine ⟨⟨Nat.le_refl n, ?_⟩, (iha (n + 1)).mono (Nat.le_succ n) ?_⟩
    · rw [size]
      omega
    · rw [size]
      omega
  | leave _ _ a iha | finish _ _ a iha =>
    intro n
    refine ⟨⟨Nat.le_add_right .., ?_⟩, (iha n).mono (Nat.le_refl n) ?_⟩
    · rw [size]
      omega
    · rw [size]
      omega

theorem Bounded.embedded {lo hi : Nat} (h : e.Bounded lo hi) {x : Nat × A} (mem : x ∈ e.embedded) :
    lo ≤ x.1 ∧ x.1 < hi := by
  induction e with
  | eps | byte _ => cases mem
  | seq a b iha ihb | alt a b iha ihb | guard _ a b iha ihb | guardEnd _ a b iha ihb =>
    exact (List.mem_append.mp mem).elim (iha h.1) (ihb h.2)
  | star a iha | ending _ a iha | onlyIf a iha => exact iha h mem
  | enter n _ a iha | leave n _ a iha | finish n _ a iha =>
    rcases List.mem_cons.mp mem with rfl | mem
    · exact h.1
    · exact iha h.2 mem

theorem embedded_numbered_range (e : Ragel A) {n : Nat} {x : Nat × A} (mem : x ∈ (e.numbered n).embedded) :
    n ≤ x.1 ∧ x.1 < n + e.size :=
  (bounded_numbered e n).embedded mem

/-! ## Events -/

/-- An event of an expression on a word. -/
def Does (ok : Bool) (e : Ragel A) (w : List UInt8) (t : Event A) : Prop :=
  (∃ u c v, w = u ++ c :: v ∧ t.pos = u.length ∧ Fires ok e u c (t.order, t.action)) ∨
    t.pos = w.length ∧ Exits ok e w (t.order, t.action)

theorem Does.pos_le (does : Does ok e w t) : t.pos ≤ w.length := by
  rcases does with ⟨u, c, v, rfl, pos, -⟩ | ⟨pos, -⟩
  · rw [pos, List.length_append]
    exact Nat.le_add_right ..
  · exact Nat.le_of_eq pos

theorem Does.embedded (does : Does ok e w t) : (t.order, t.action) ∈ e.embedded := by
  rcases does with ⟨u, c, v, -, -, r, path, m, mem, -, act⟩ | ⟨-, r, path, l, ends, left⟩
  · exact embedded_reaches path ((embedded_moves mem).1 act)
  · exact embedded_reaches path (embedded_nullable ends left)

theorem Does.order (does : Does ok (e.numbered n) w t) : n ≤ t.order ∧ t.order < n + e.size :=
  embedded_numbered_range e does.embedded

/-- The events of an expression on a word, in their order. -/
structure Trace (ok : Bool) (n : Nat) (e : Ragel A) (w : List UInt8) (l : List (Event A)) : Prop where
  sorted : l.Pairwise Event.Before
  mem : ∀ t, t ∈ l ↔ Does ok (e.numbered n) w t

/-- The events fired while a word is read behind another, in their order. -/
structure Fired (ok : Bool) (e : Ragel A) (u v : List UInt8) (l : List (Event A)) : Prop where
  sorted : l.Pairwise Event.Before
  mem : ∀ t, t ∈ l ↔ ∃ v₁ c v₂, v = v₁ ++ c :: v₂ ∧ t.pos = u.length + v₁.length ∧
    Fires ok e (u ++ v₁) c (t.order, t.action)

namespace Trace

/-! ## Rules -/

theorem none (nothing : ∀ t, ¬ Does ok (e.numbered n) w t) : Trace ok n e w [] :=
  ⟨.nil, fun t => iff_of_false List.not_mem_nil (nothing t)⟩

theorem quiet (isPlain : e.plain = true) (quiet : e.size = 0) : Trace ok n e w [] := by
  have plain : (e.numbered n).plain = true := (plain_numbered e n).trans isPlain
  have silent : (e.numbered n).size = 0 := (size_numbered e n).trans quiet
  refine none fun t does => ?_
  rcases does with ⟨u, c, v, -, -, fires⟩ | ⟨-, exits⟩
  · exact not_fires_of_quiet plain silent fires
  · exact not_exits_of_quiet plain silent exits

/-- Nothing happens on no byte in an expression that needs one. -/
theorem empty (isPlain : e.plain = true) (some : [] ∉ lang ok e) : Trace ok n e [] [] := by
  refine none fun t does => ?_
  rcases does with ⟨u, c, v, eq, -, -⟩ | ⟨-, exits⟩
  · exact List.append_ne_nil_of_right_ne_nil u (List.cons_ne_nil c v) eq.symm
  · rw [← lang_numbered isPlain n] at some
    exact some (mem_lang_of_exits exits)

theorem enter (isPlain : a.plain = true) (inside : w ∈ lang ok a) (ta : Trace ok (n + 1) a w la) :
    Trace ok n (enter k y a) w (⟨0, n, y⟩ :: la) := by
  rw [← lang_numbered isPlain (n + 1)] at inside
  refine ⟨List.pairwise_cons.mpr ⟨fun t mem => ?_, ta.sorted⟩, fun t => ?_⟩
  · have later := ((ta.mem t).mp mem).order
    by_cases zero : t.pos = 0
    · exact .inr ⟨zero.symm, later.1⟩
    · exact .inl (Nat.pos_of_ne_zero zero)
  · rw [List.mem_cons, ta.mem]
    constructor
    · rintro (rfl | ⟨u, c, v, rfl, pos, fires⟩ | ⟨pos, exits⟩)
      · cases w with
        | nil => exact .inr ⟨rfl, exits_enter.mpr (.inr ⟨rfl, rfl, inside⟩)⟩
        | cons c w =>
          exact .inl ⟨[], c, w, rfl, rfl, fires_enter.mpr (.inr ⟨rfl, rfl, starts_of_mem_lang inside⟩)⟩
      · exact .inl ⟨u, c, v, rfl, pos, fires_enter.mpr (.inl fires)⟩
      · exact .inr ⟨pos, exits_enter.mpr (.inl exits)⟩
    · rintro (⟨u, c, v, rfl, pos, fires⟩ | ⟨pos, exits⟩)
      · rcases fires_enter.mp fires with fires | ⟨rfl, eq, -⟩
        · exact .inr (.inl ⟨u, c, v, rfl, pos, fires⟩)
        · obtain ⟨order, action⟩ := Prod.mk.inj eq
          exact .inl (by cases t; simp_all)
      · rcases exits_enter.mp exits with exits | ⟨rfl, eq, -⟩
        · exact .inr (.inr ⟨pos, exits⟩)
        · obtain ⟨order, action⟩ := Prod.mk.inj eq
          exact .inl (by cases t; simp_all)

theorem leave (isPlain : a.plain = true) (inside : w ∈ lang ok a) (ta : Trace ok n a w la) :
    Trace ok n (leave k y a) w (la ++ [⟨w.length, n + a.size, y⟩]) := by
  rw [← lang_numbered isPlain n] at inside
  refine ⟨List.pairwise_append.mpr ⟨ta.sorted, List.pairwise_singleton .., fun t mem t' mem' => ?_⟩,
    fun t => ?_⟩
  · have does := (ta.mem t).mp mem
    rw [List.mem_singleton.mp mem']
    rcases Nat.lt_or_eq_of_le does.pos_le with lt | eq
    · exact .inl lt
    · exact .inr ⟨eq, does.order.2⟩
  · rw [List.mem_append, ta.mem, List.mem_singleton]
    constructor
    · rintro ((⟨u, c, v, rfl, pos, fires⟩ | ⟨pos, exits⟩) | rfl)
      · exact .inl ⟨u, c, v, rfl, pos, fires_leave.mpr fires⟩
      · exact .inr ⟨pos, exits_leave.mpr (.inl exits)⟩
      · exact .inr ⟨rfl, exits_leave.mpr (.inr ⟨rfl, inside⟩)⟩
    · rintro (⟨u, c, v, rfl, pos, fires⟩ | ⟨pos, exits⟩)
      · exact .inl (.inl ⟨u, c, v, rfl, pos, fires_leave.mp fires⟩)
      · rcases exits_leave.mp exits with exits | ⟨eq, -⟩
        · exact .inl (.inr ⟨pos, exits⟩)
        · obtain ⟨order, action⟩ := Prod.mk.inj eq
          exact .inr (by cases t; simp_all)

/-- Alternatives, whose events are put in their order. -/
theorem alt_of (ta : Trace ok n a w la) (tb : Trace ok (n + a.size) b w lb) (sorted : l.Pairwise Event.Before)
    (mem : ∀ t, t ∈ l ↔ t ∈ la ∨ t ∈ lb) : Trace ok n (alt a b) w l := by
  refine ⟨sorted, fun t => ?_⟩
  rw [mem, ta.mem, tb.mem]
  constructor
  · rintro ((⟨u, c, v, rfl, pos, fires⟩ | ⟨pos, exits⟩) | (⟨u, c, v, rfl, pos, fires⟩ | ⟨pos, exits⟩))
    · exact .inl ⟨u, c, v, rfl, pos, fires_alt.mpr (.inl fires)⟩
    · exact .inr ⟨pos, exits_alt.mpr (.inl exits)⟩
    · exact .inl ⟨u, c, v, rfl, pos, fires_alt.mpr (.inr fires)⟩
    · exact .inr ⟨pos, exits_alt.mpr (.inr exits)⟩
  · rintro (⟨u, c, v, rfl, pos, fires⟩ | ⟨pos, exits⟩)
    · rcases fires_alt.mp fires with fires | fires
      · exact .inl (.inl ⟨u, c, v, rfl, pos, fires⟩)
      · exact .inr (.inl ⟨u, c, v, rfl, pos, fires⟩)
    · rcases exits_alt.mp exits with exits | exits
      · exact .inl (.inr ⟨pos, exits⟩)
      · exact .inr (.inr ⟨pos, exits⟩)

theorem alt (ta : Trace ok n a w la) (tb : Trace ok (n + a.size) b w lb)
    (before : ∀ t ∈ la, ∀ t' ∈ lb, t.Before t') : Trace ok n (alt a b) w (la ++ lb) :=
  alt_of ta tb (List.pairwise_append.mpr ⟨ta.sorted, tb.sorted, before⟩) fun _ => List.mem_append

/-- An optional part that is there. -/
theorem optional (ta : Trace ok n a w la) : Trace ok n (opt a) w la := by
  rw [← List.append_nil la]
  exact alt ta (quiet rfl rfl) (by simp)

/-- `a > z % y`, where nothing is embedded inside. -/
theorem marked {k' : Nat} {z : A} (isPlain : a.plain = true) (silent : a.size = 0) (inside : w ∈ lang ok a) :
    Trace ok n (Ragel.leave k y (Ragel.enter k' z a)) w [⟨0, n, z⟩, ⟨w.length, n + 1, y⟩] := by
  have inner : Trace ok n (Ragel.enter k' z a) w [⟨0, n, z⟩] := enter isPlain inside (quiet isPlain silent)
  have inside' : w ∈ lang ok (Ragel.enter k' z a) := by
    rw [lang_enter]
    exact inside
  have size : (Ragel.enter k' z a).size = 1 := congrArg (· + 1) silent
  have plain : (Ragel.enter k' z a).plain = true := isPlain
  have whole := leave (k := k) (y := y) plain inside' inner
  rw [size] at whole
  exact whole

/-- Two cuts of a word, each behind bytes of a set and before none or a byte that is not in it, are the
same. -/
theorem cut_unique {set : ByteSet} {u' v' : List UInt8} (eq : u ++ v = u' ++ v')
    (first : ∀ c ∈ u, set.mem c = true) (second : ∀ c z, v = c :: z → set.mem c = false)
    (first' : ∀ c ∈ u', set.mem c = true) (second' : ∀ c z, v' = c :: z → set.mem c = false) :
    u = u' ∧ v = v' := by
  have cut := (takeWhile_dropWhile_append first second).1
  have cut' := (takeWhile_dropWhile_append first' second').1
  have same : u = u' := by rw [← cut, eq, cut']
  exact ⟨same, List.append_cancel_left (same ▸ eq)⟩

/-- The second part begins with a byte that the first cannot read. -/
theorem apart_head (plainB : b.plain = true) {set : ByteSet} (apart : set.disjoint b.startSet = true)
    (starts : Starts ok b c) : set.mem c = false := by
  cases here : set.mem c with
  | false => rfl
  | true =>
    have not := ByteSet.not_mem_of_disjoint apart here
    rw [mem_startSet_of_starts plainB starts] at not
    cases not

/-- What ends here or can begin with the byte that comes next. -/
def Follows (ok : Bool) (b : Ragel A) (v : List UInt8) : Prop := v = [] ∨ ∃ c z, v = c :: z ∧ Starts ok b c

/-- What an expression has read and reads on begins with a byte it can begin with. -/
theorem Fires.begins {x : Nat × A} (fires : Fires ok b w c x) (z : List UInt8) :
    ∃ d y, w ++ c :: z = d :: y ∧ Starts ok b d := by
  obtain ⟨d, y, eq⟩ := List.exists_cons_of_ne_nil (List.append_ne_nil_of_right_ne_nil w (List.cons_ne_nil c z))
  exact ⟨d, y, eq, fires.starts eq⟩

theorem follows_of_mem_lang (inside : v ∈ lang ok b) : Follows ok b v := by
  cases v with
  | nil => exact .inl rfl
  | cons c z => exact .inr ⟨c, z, rfl, starts_of_mem_lang inside⟩

/-- A concatenation where the words of its parts can be told apart: every event is one of the first part on
its word or one of the second on its own. -/
theorem does_seq (insideA : u ∈ lang ok a) (insideB : v ∈ lang ok b)
    (early : ∀ w c z x, Fires ok a w c x → u ++ v = w ++ c :: z → ∃ rest, u = w ++ c :: rest)
    (cut : ∀ u' v', u' ∈ lang ok a → Follows ok b v' → u ++ v = u' ++ v' → u = u') :
    Does ok (seq a b) (u ++ v) t ↔ Does ok a u t ∨ ∃ t', Does ok b v t' ∧ t = t'.shift u.length := by
  constructor
  · rintro (⟨w, c, z, eq, pos, fires⟩ | ⟨pos, exits⟩)
    · rcases fires_seq.mp fires with first | ⟨u', v', rfl, inside, second⟩
      · -- the first part has read this far, so its word goes on behind here
        obtain ⟨rest, eq'⟩ := early w c z _ first eq
        exact .inl (.inl ⟨w, c, rest, eq', pos, first⟩)
      · -- the second part has begun: behind the first part's word
        rw [List.append_assoc] at eq
        have follows : Follows ok b (v' ++ c :: z) := by
          rcases second with second | ⟨rfl, -, starts⟩
          · exact .inr (Fires.begins second z)
          · exact .inr ⟨c, z, rfl, starts⟩
        obtain rfl := cut u' _ inside follows eq
        obtain rfl := List.append_cancel_left eq
        rw [List.length_append] at pos
        rcases second with second | ⟨rfl, exits, -⟩
        · exact .inr ⟨⟨v'.length, t.order, t.action⟩, .inl ⟨v', c, z, rfl, rfl, second⟩, Event.eq_shift pos⟩
        · exact .inl (.inr ⟨pos, exits⟩)
    · obtain ⟨u', v', eq, inside, inside', ends⟩ := exits_seq.mp exits
      obtain rfl := cut u' v' inside (follows_of_mem_lang inside') eq
      obtain rfl := List.append_cancel_left eq
      rw [List.length_append] at pos
      rcases ends with ends | ⟨rfl, ends⟩
      · exact .inr ⟨⟨v.length, t.order, t.action⟩, .inr ⟨rfl, ends⟩, Event.eq_shift pos⟩
      · exact .inl (.inr ⟨pos, ends⟩)
  · rintro ((⟨w, c, z, rfl, pos, fires⟩ | ⟨pos, exits⟩) | ⟨t', (⟨w, c, z, rfl, pos, fires⟩ | ⟨pos, exits⟩), rfl⟩)
    · exact .inl ⟨w, c, z ++ v, by rw [List.append_assoc]; rfl, pos, fires_seq.mpr (.inl fires)⟩
    · cases v with
      | nil =>
        rw [List.append_nil]
        exact .inr ⟨pos, exits_seq.mpr ⟨u, [], (List.append_nil u).symm, insideA, insideB, .inr ⟨rfl, exits⟩⟩⟩
      | cons c v =>
        exact .inl ⟨u, c, v, rfl, pos, fires_seq.mpr (.inr ⟨u, [], (List.append_nil u).symm, insideA,
          .inr ⟨rfl, exits, starts_of_mem_lang insideB⟩⟩)⟩
    · refine .inl ⟨u ++ w, c, z, by rw [List.append_assoc], ?_,
        fires_seq.mpr (.inr ⟨u, w, rfl, insideA, .inl fires⟩)⟩
      rw [List.length_append, ← pos]
      rfl
    · refine .inr ⟨?_, exits_seq.mpr ⟨u, v, rfl, insideA, insideB, .inl exits⟩⟩
      rw [List.length_append, ← pos]
      rfl

theorem seq_of_cut (plainA : a.plain = true) (plainB : b.plain = true) (insideA : u ∈ lang ok a)
    (insideB : v ∈ lang ok b)
    (early : ∀ w c z x, Fires ok (a.numbered n) w c x → u ++ v = w ++ c :: z → ∃ rest, u = w ++ c :: rest)
    (cut : ∀ u' v', u' ∈ lang ok a → Follows ok (b.numbered (n + a.size)) v' → u ++ v = u' ++ v' → u = u')
    (ta : Trace ok n a u la) (tb : Trace ok (n + a.size) b v lb) :
    Trace ok n (seq a b) (u ++ v) (la ++ lb.map (Event.shift u.length)) := by
  have languageA : lang ok (a.numbered n) = lang ok a := lang_numbered plainA n
  have languageB : lang ok (b.numbered (n + a.size)) = lang ok b := lang_numbered plainB _
  refine ⟨List.pairwise_append.mpr ⟨ta.sorted, ?_, fun t mem t' mem' => ?_⟩, fun t => ?_⟩
  · exact List.pairwise_map.mpr (tb.sorted.imp Event.shift_before)
  · obtain ⟨t', later, rfl⟩ := List.mem_map.mp mem'
    have does := (ta.mem t).mp mem
    have first := does.pos_le
    have order := does.order.2
    have order' := ((tb.mem t').mp later).order.1
    rcases Nat.lt_or_eq_of_le (first.trans (Nat.le_add_right u.length t'.pos)) with lt | eq
    · exact .inl lt
    · exact .inr ⟨eq, order.trans_le order'⟩
  · rw [List.mem_append, ta.mem, List.mem_map]
    simp only [tb.mem]
    rw [numbered, does_seq (languageA ▸ insideA) (languageB ▸ insideB) early fun u' v' inside =>
      cut u' v' (languageA ▸ inside)]
    exact or_congr Iff.rfl (exists_congr fun t' => and_congr_right fun _ => eq_comm)

/-- A concatenation whose second part begins with a byte that the first cannot read. -/
theorem seq (plainA : a.plain = true) (plainB : b.plain = true) (apart : a.uses.disjoint b.startSet = true)
    (insideA : u ∈ lang ok a) (insideB : v ∈ lang ok b) (ta : Trace ok n a u la)
    (tb : Trace ok (n + a.size) b v lb) :
    Trace ok n (seq a b) (u ++ v) (la ++ lb.map (Event.shift u.length)) := by
  have readA : ∀ c ∈ u, a.uses.mem c = true := mem_uses_of_mem_lang plainA insideA
  have headB : ∀ c z, v = c :: z → a.uses.mem c = false := by
    rintro c z rfl
    exact apart_head plainB apart (starts_of_mem_lang insideB)
  refine seq_of_cut plainA plainB insideA insideB (fun w c z x fires eq => ?_) (fun u' v' inside follows eq => ?_) ta tb
  · obtain ⟨read, reads⟩ := mem_uses_of_fires ((plain_numbered a n).trans plainA) fires
    rw [uses_numbered] at read reads
    rcases List.append_eq_append_iff.mp eq with ⟨u', rfl, eq'⟩ | ⟨u', rfl, eq'⟩
    · -- the second part's first byte would be read by the first part
      have head : ∃ d z', v = d :: z' ∧ a.uses.mem d = true := by
        cases u' with
        | nil => exact ⟨c, z, eq', reads⟩
        | cons d u' => exact ⟨d, _, eq', read d (by simp)⟩
      obtain ⟨d, z', eq'', used⟩ := head
      rw [headB d z' eq''] at used
      cases used
    · cases u' with
      | nil =>
        rw [headB c z eq'.symm] at reads
        cases reads
      | cons d u' =>
        obtain ⟨rfl, -⟩ := List.cons.inj eq'
        exact ⟨u', rfl⟩
  · refine (cut_unique eq readA headB (mem_uses_of_mem_lang plainA inside) fun c z eq' => ?_).1
    rcases follows with rfl | ⟨c', z', rfl, starts⟩
    · cases eq'
    · obtain ⟨rfl, -⟩ := List.cons.inj eq'
      refine apart_head ((plain_numbered b _).trans plainB) ?_ starts
      rw [startSet_numbered]
      exact apart

/-- A concatenation whose first part does nothing and has words of one length only. -/
theorem seq_fixed (plainA : a.plain = true) (quietA : a.size = 0) (insideA : u ∈ lang ok a)
    (fixed : ∀ u' ∈ lang ok a, u'.length = u.length) (tb : Trace ok n b v lb) :
    Trace ok n (Ragel.seq a b) (u ++ v) (lb.map (Event.shift u.length)) := by
  have plain : (a.numbered n).plain = true := (plain_numbered a n).trans plainA
  have silent : (a.numbered n).size = 0 := (size_numbered a n).trans quietA
  have language : lang ok (a.numbered n) = lang ok a := lang_numbered plainA n
  have cut : ∀ {u' v' : List UInt8}, u' ∈ lang ok (a.numbered n) → u ++ v = u' ++ v' → u = u' ∧ v = v' := by
    intro u' v' inside eq
    rw [language] at inside
    exact List.append_inj eq (fixed u' inside).symm
  refine ⟨List.pairwise_map.mpr (tb.sorted.imp Event.shift_before), fun t => ?_⟩
  rw [List.mem_map, numbered, quietA]
  simp only [tb.mem]
  constructor
  · rintro ⟨t', ⟨w, c, z, rfl, pos, fires⟩ | ⟨pos, exits⟩, rfl⟩
    · refine .inl ⟨u ++ w, c, z, by rw [List.append_assoc], ?_,
        fires_seq.mpr (.inr ⟨u, w, rfl, language ▸ insideA, .inl fires⟩)⟩
      rw [List.length_append, ← pos]
      rfl
    · refine .inr ⟨?_, exits_seq.mpr ⟨u, v, rfl, language ▸ insideA, mem_lang_of_exits exits, .inl exits⟩⟩
      rw [List.length_append, ← pos]
      rfl
  · rintro (⟨w, c, z, eq, pos, fires⟩ | ⟨pos, exits⟩)
    · rcases fires_seq.mp fires with first | ⟨u', v', rfl, inside, second | ⟨-, left, -⟩⟩
      · exact absurd first (not_fires_of_quiet plain silent)
      · obtain ⟨rfl, rfl⟩ := cut inside (eq.trans (List.append_assoc ..))
        rw [List.length_append] at pos
        exact ⟨⟨v'.length, t.order, t.action⟩, .inl ⟨v', c, z, rfl, rfl, second⟩, (Event.eq_shift pos).symm⟩
      · exact absurd left (not_exits_of_quiet plain silent)
    · obtain ⟨u', v', eq, inside, -, second | ⟨-, left⟩⟩ := exits_seq.mp exits
      · obtain ⟨rfl, rfl⟩ := cut inside eq
        rw [List.length_append] at pos
        exact ⟨⟨v.length, t.order, t.action⟩, .inr ⟨rfl, second⟩, (Event.eq_shift pos).symm⟩
      · exact absurd left (not_exits_of_quiet plain silent)

/-- What is fired where nothing happens. -/
theorem fired_nil (ta : Trace ok n a w []) : Fired ok (a.numbered n) [] w [] := by
  refine ⟨.nil, fun t => iff_of_false List.not_mem_nil ?_⟩
  rintro ⟨v₁, c, v₂, eq, pos, fires⟩
  rw [List.length_nil, Nat.zero_add] at pos
  exact absurd ((ta.mem t).mpr (.inl ⟨v₁, c, v₂, eq, pos, fires⟩)) List.not_mem_nil

/-- A concatenation on a word where the second part never follows the first. -/
theorem seq_away (plainA : a.plain = true) (plainB : b.plain = true) (fired : Fired ok (a.numbered n) [] w la)
    (away : ∀ u v, w = u ++ v → u ∈ lang ok a →
      (v = [] → [] ∉ lang ok b) ∧ ∀ c z, v = c :: z → b.startSet.mem c = false) :
    Trace ok n (Ragel.seq a b) w la := by
  have noStart : ∀ {c : UInt8}, b.startSet.mem c = false → ¬ Starts ok (b.numbered (n + a.size)) c := by
    intro c not starts
    have start := mem_startSet_of_starts ((plain_numbered b _).trans plainB) starts
    rw [startSet_numbered, not] at start
    cases start
  refine ⟨fired.sorted, fun t => (fired.mem t).trans ?_⟩
  rw [numbered]
  constructor
  · rintro ⟨v₁, c, v₂, eq, pos, fires⟩
    exact .inl ⟨v₁, c, v₂, eq, by simpa using pos, fires_seq.mpr (.inl fires)⟩
  · rintro (⟨u, c, v, eq, pos, fires⟩ | ⟨-, exits⟩)
    · rcases fires_seq.mp fires with first | ⟨u', v', rfl, inside, second⟩
      · exact ⟨u, c, v, eq, by simpa using pos, first⟩
      · rw [lang_numbered plainA] at inside
        have never := (away u' (v' ++ c :: v) (eq.trans (List.append_assoc ..)) inside).2
        rcases second with second | ⟨rfl, -, starts⟩
        · obtain ⟨d, y, eq', starts⟩ := Fires.begins second v
          exact absurd starts (noStart (never d y eq'))
        · exact absurd starts (noStart (never c v rfl))
    · obtain ⟨u', v', eq, inside, inside', -⟩ := exits_seq.mp exits
      rw [lang_numbered plainA] at inside
      obtain ⟨notNil, never⟩ := away u' v' eq inside
      rw [lang_numbered plainB] at inside'
      cases v' with
      | nil => exact absurd inside' (notNil rfl)
      | cons d z =>
        have start := mem_startSet_of_mem_lang plainB inside'
        rw [never d z rfl] at start
        cases start

/-- A concatenation whose first part does nothing, on a word that does not begin with a word of it. -/
theorem seq_none (plainA : a.plain = true) (quietA : a.size = 0) (away : ∀ u v, w = u ++ v → u ∉ lang ok a) :
    Trace ok n (Ragel.seq a b) w [] := by
  have plain : (a.numbered n).plain = true := (plain_numbered a n).trans plainA
  have silent : (a.numbered n).size = 0 := (size_numbered a n).trans quietA
  refine none fun t does => ?_
  rw [numbered] at does
  rcases does with ⟨u, c, v, rfl, -, fires⟩ | ⟨-, exits⟩
  · rcases fires_seq.mp fires with fires | ⟨u', v', rfl, inside, -⟩
    · exact not_fires_of_quiet plain silent fires
    · rw [lang_numbered plainA] at inside
      exact away u' (v' ++ c :: v) (List.append_assoc ..) inside
  · obtain ⟨u', v', rfl, inside, -⟩ := exits_seq.mp exits
    rw [lang_numbered plainA] at inside
    exact away u' v' rfl inside

end Trace

/-! ## An optional part before its delimiter -/

section Optional

variable {d : UInt8} {m : Nat} {x : Nat × A} {lf : List (Event A)}

theorem mem_lang_optional : w ∈ lang ok (opt (seq a (char d))) ↔ w = [] ∨ ∃ u ∈ lang ok a, w = u ++ [d] := by
  rw [mem_lang_opt, mem_lang_seq]
  simp only [mem_lang_char, exists_eq_left]

theorem starts_char : Starts ok (char d : Ragel A) c ↔ c = d := by
  rw [← ByteSet.mem_single d c]
  constructor
  · rintro ⟨m, mem, takes⟩
    obtain rfl := List.mem_singleton.mp mem
    exact takes.1
  · exact fun on => ⟨_, List.mem_singleton.mpr rfl, on, fun conditional => by cases conditional⟩

theorem not_exits_optional : ¬ Exits ok (opt (seq (leave m y a) (char d))) w x := by
  rw [opt, exits_alt, exits_seq]
  rintro (⟨u, v, -, -, inside, last | ⟨rfl, -⟩⟩ | last)
  · exact not_exits_of_quiet rfl rfl last
  · cases mem_lang_char.mp inside
  · exact not_exits_of_quiet rfl rfl last

theorem fires_optional (isPlain : a.plain = true) (quiet : a.size = 0) :
    Fires ok (seq (opt (seq (leave m y a) (char d))) b) w c x ↔
      (c = d ∧ w ∈ lang ok a ∧ x = (m, y)) ∨ Fires ok b w c x ∨
        ∃ u ∈ lang ok a, ∃ v, w = u ++ d :: v ∧ Fires ok b v c x := by
  have firstPart : Fires ok (opt (seq (leave m y a) (char d))) w c x ↔ c = d ∧ w ∈ lang ok a ∧ x = (m, y) := by
    rw [opt, fires_alt, fires_seq, fires_leave]
    constructor
    · rintro ((first | ⟨u, v, rfl, inside, last | ⟨rfl, exits, starts⟩⟩) | last)
      · exact absurd first (not_fires_of_quiet isPlain quiet)
      · exact absurd last (not_fires_of_quiet rfl rfl)
      · rcases exits_leave.mp exits with exits | ⟨eq, inside⟩
        · exact absurd exits (not_exits_of_quiet isPlain quiet)
        · rw [List.append_nil]
          exact ⟨starts_char.mp starts, inside, eq⟩
      · exact absurd last (not_fires_of_quiet rfl rfl)
    · rintro ⟨rfl, inside, rfl⟩
      refine .inl (.inr ⟨w, [], (List.append_nil w).symm, ?_, .inr ⟨rfl, ?_, starts_char.mpr rfl⟩⟩)
      · rw [lang_leave]
        exact inside
      · exact exits_leave.mpr (.inr ⟨rfl, inside⟩)
  rw [fires_seq, firstPart]
  simp only [mem_lang_optional, lang_leave]
  constructor
  · rintro (first | ⟨u, v, rfl, rfl | ⟨u, inside, rfl⟩, fires | ⟨-, left, -⟩⟩)
    · exact .inl first
    · exact .inr (.inl fires)
    · exact absurd left not_exits_optional
    · exact .inr (.inr ⟨u, inside, v, List.append_assoc .., fires⟩)
    · exact absurd left not_exits_optional
  · rintro (first | fires | ⟨u, inside, v, rfl, fires⟩)
    · exact .inl first
    · exact .inr ⟨[], w, rfl, .inl rfl, .inl fires⟩
    · exact .inr ⟨u ++ [d], v, by simp, .inr ⟨u, inside, rfl⟩, .inl fires⟩

theorem exits_optional :
    Exits ok (seq (opt (seq (leave m y a) (char d))) b) w x ↔
      Exits ok b w x ∨ ∃ u ∈ lang ok a, ∃ v, w = u ++ d :: v ∧ Exits ok b v x := by
  rw [exits_seq]
  simp only [mem_lang_optional, lang_leave]
  constructor
  · rintro ⟨u, v, rfl, rfl | ⟨u, inside, rfl⟩, -, left | ⟨-, left⟩⟩
    · exact .inl left
    · exact absurd left not_exits_optional
    · exact .inr ⟨u, inside, v, List.append_assoc .., left⟩
    · exact absurd left not_exits_optional
  · rintro (left | ⟨u, inside, v, rfl, left⟩)
    · exact ⟨[], w, rfl, .inl rfl, mem_lang_of_exits left, .inl left⟩
    · exact ⟨u ++ [d], v, by simp, .inr ⟨u, inside, rfl⟩, mem_lang_of_exits left, .inl left⟩

/-- Without the delimiter there is only the second part. -/
theorem Trace.optional_absent (plainA : a.plain = true) (quietA : a.size = 0) (absent : d ∉ w)
    (tb : Trace ok (n + 1) b w lb) : Trace ok n (Ragel.seq (opt (Ragel.seq (Ragel.leave k y a) (char d))) b) w lb := by
  have plain : (a.numbered n).plain = true := (plain_numbered a n).trans plainA
  have silent : (a.numbered n).size = 0 := (size_numbered a n).trans quietA
  have number : (Ragel.seq (opt (Ragel.seq (Ragel.leave k y a) (char d))) b).numbered n =
      Ragel.seq (opt (Ragel.seq (Ragel.leave n y (a.numbered n)) (char d))) (b.numbered (n + 1)) := by
    simp [opt, char, numbered, size, quietA]
  refine ⟨tb.sorted, fun t => (tb.mem t).trans ?_⟩
  rw [number]
  constructor
  · rintro (⟨u, c, v, eq, pos, fires⟩ | ⟨pos, exits⟩)
    · exact .inl ⟨u, c, v, eq, pos, (fires_optional plain silent).mpr (.inr (.inl fires))⟩
    · exact .inr ⟨pos, exits_optional.mpr (.inl exits)⟩
  · rintro (⟨u, c, v, rfl, pos, fires⟩ | ⟨pos, exits⟩)
    · rcases (fires_optional plain silent).mp fires with ⟨rfl, -⟩ | fires | ⟨u, -, v, rfl, -⟩
      · exact absurd (List.mem_append_right u List.mem_cons_self) absent
      · exact .inl ⟨u, c, v, rfl, pos, fires⟩
      · exact absurd (by simp) absent
    · rcases exits_optional.mp exits with exits | ⟨u, -, v, rfl, -⟩
      · exact .inr ⟨pos, exits⟩
      · exact absurd (by simp) absent

/-- The first of a byte cuts a word in one way. -/
theorem cut_at {u' v' : List UInt8} (first : d ∉ u) (first' : d ∉ u') (eq : u ++ d :: v = u' ++ d :: v') :
    u = u' ∧ v = v' := by
  have all : ∀ {l : List UInt8}, d ∉ l → ∀ c ∈ l, (c != d) = true := fun not c mem =>
    bne_iff_ne.mpr fun eq => not (eq ▸ mem)
  have stop : ∀ {l : List UInt8} (c : UInt8) (z : List UInt8), d :: l = c :: z → (c != d) = false := by
    intro l c z eq
    obtain ⟨rfl, -⟩ := List.cons.inj eq
    exact bne_self_eq_false d
  have cut := (takeWhile_dropWhile_append (all first) (stop (l := v))).1
  have cut' := (takeWhile_dropWhile_append (all first') (stop (l := v'))).1
  obtain rfl : u = u' := by rw [← cut, eq, cut']
  exact ⟨rfl, (List.cons.inj (List.append_cancel_left eq)).2⟩

/-- With the delimiter, the second part has begun on the first part's word too: what it fires there comes
first. -/
theorem Trace.optional_present (plainA : a.plain = true) (quietA : a.size = 0) (unreadA : a.uses.mem d = false)
    (plainB : b.plain = true) (unreadB : b.uses.mem d = false) (insideA : u ∈ lang ok a)
    (fired : Fired ok (b.numbered (n + 1)) [] u lf) (tb : Trace ok (n + 1) b v lb) :
    Trace ok n (Ragel.seq (opt (Ragel.seq (Ragel.leave k y a) (char d))) b) (u ++ d :: v)
      (lf ++ ⟨u.length, n, y⟩ :: lb.map (Event.shift (u.length + 1))) := by
  have plain : (a.numbered n).plain = true := (plain_numbered a n).trans plainA
  have silent : (a.numbered n).size = 0 := (size_numbered a n).trans quietA
  have number : (Ragel.seq (opt (Ragel.seq (Ragel.leave k y a) (char d))) b).numbered n =
      Ragel.seq (opt (Ragel.seq (Ragel.leave n y (a.numbered n)) (char d))) (b.numbered (n + 1)) := by
    simp [opt, char, numbered, size, quietA]
  have language : lang ok (a.numbered n) = lang ok a := lang_numbered plainA n
  have notA : ∀ {w}, w ∈ lang ok a → d ∉ w := not_mem_of_mem_lang plainA unreadA
  have plainB' : (b.numbered (n + 1)).plain = true := (plain_numbered b _).trans plainB
  have unreadB' : (b.numbered (n + 1)).uses.mem d = false := by rw [uses_numbered, unreadB]
  have before : ∀ t ∈ lf, t.pos < u.length := by
    intro t mem
    obtain ⟨v₁, c, v₂, rfl, pos, -⟩ := (fired.mem t).mp mem
    rw [pos, List.length_nil, List.length_append, List.length_cons]
    omega
  refine ⟨?_, fun t => ?_⟩
  · refine List.pairwise_append.mpr ⟨fired.sorted, List.pairwise_cons.mpr ⟨fun t mem => ?_, ?_⟩, ?_⟩
    · obtain ⟨t', -, rfl⟩ := List.mem_map.mp mem
      refine .inl ?_
      change u.length < u.length + 1 + t'.pos
      omega
    · exact List.pairwise_map.mpr (tb.sorted.imp Event.shift_before)
    · intro t mem t' mem'
      have lt := before t mem
      rcases List.mem_cons.mp mem' with rfl | mem'
      · exact .inl lt
      · obtain ⟨t', -, rfl⟩ := List.mem_map.mp mem'
        refine .inl (lt.trans ?_)
        change u.length < u.length + 1 + t'.pos
        omega
  · rw [number, List.mem_append, List.mem_cons, List.mem_map, fired.mem]
    simp only [tb.mem]
    constructor
    · rintro (⟨v₁, c, v₂, rfl, pos, fires⟩ | rfl | ⟨t', ⟨w, c, z, rfl, pos, fires⟩ | ⟨pos, exits⟩, rfl⟩)
      · refine .inl ⟨v₁, c, v₂ ++ d :: v, by simp, by simpa using pos, ?_⟩
        exact (fires_optional plain silent).mpr (.inr (.inl fires))
      · exact .inl ⟨u, d, v, rfl, rfl, (fires_optional plain silent).mpr (.inl ⟨rfl, language ▸ insideA, rfl⟩)⟩
      · refine .inl ⟨u ++ d :: w, c, z, by simp, ?_,
          (fires_optional plain silent).mpr (.inr (.inr ⟨u, language ▸ insideA, w, rfl, fires⟩))⟩
        simp only [Event.shift, pos, List.length_append, List.length_cons]
        omega
      · refine .inr ⟨?_, exits_optional.mpr (.inr ⟨u, language ▸ insideA, v, rfl, exits⟩)⟩
        simp only [Event.shift, pos, List.length_append, List.length_cons]
        omega
    · rintro (⟨w, c, z, eq, pos, fires⟩ | ⟨pos, exits⟩)
      · rcases (fires_optional plain silent).mp fires with ⟨rfl, inside, same⟩ | fires | ⟨u', inside, v', rfl, second⟩
        · -- the delimiter itself
          rw [language] at inside
          obtain ⟨rfl, -⟩ := cut_at (notA insideA) (notA inside) eq
          obtain ⟨order, action⟩ := Prod.mk.inj same
          refine .inr (.inl ?_)
          rw [← pos, ← order, ← action]
        · -- the second part cannot read the delimiter, so this is before it
          obtain ⟨read, reads⟩ := mem_uses_of_fires plainB' fires
          refine .inl ⟨w, c, ?_⟩
          rcases List.append_eq_append_iff.mp eq with ⟨u', rfl, eq'⟩ | ⟨u', rfl, eq'⟩
          · cases u' with
            | nil =>
              obtain ⟨rfl, -⟩ := List.cons.inj eq'
              rw [reads] at unreadB'
              cases unreadB'
            | cons e u' =>
              obtain ⟨rfl, -⟩ := List.cons.inj eq'
              rw [read d (by simp)] at unreadB'
              cases unreadB'
          · cases u' with
            | nil =>
              obtain ⟨rfl, -⟩ := List.cons.inj eq'
              rw [reads] at unreadB'
              cases unreadB'
            | cons e u' =>
              obtain ⟨rfl, -⟩ := List.cons.inj eq'
              exact ⟨u', rfl, by simpa using pos, fires⟩
        · rw [language] at inside
          rw [List.append_assoc] at eq
          obtain ⟨rfl, rfl⟩ := cut_at (notA insideA) (notA inside) eq
          refine .inr (.inr ⟨⟨v'.length, t.order, t.action⟩, .inl ⟨v', c, z, rfl, rfl, second⟩, ?_⟩)
          refine (Event.eq_shift ?_).symm
          rw [pos, List.length_append, List.length_cons]
          omega
      · rcases exits_optional.mp exits with exits | ⟨u', inside, v', eq, exits⟩
        · exact absurd (by simp) (not_mem_of_mem_lang plainB' unreadB' (mem_lang_of_exits exits))
        · rw [language] at inside
          obtain ⟨rfl, rfl⟩ := cut_at (notA insideA) (notA inside) eq
          refine .inr (.inr ⟨⟨v.length, t.order, t.action⟩, .inr ⟨rfl, exits⟩, ?_⟩)
          refine (Event.eq_shift ?_).symm
          rw [pos, List.length_append, List.length_cons]
          omega

end Optional

/-! ## Runs -/

section Runs

variable [DecidableEq A] {st st' : State A}

/-- The actions of pairs with their numbers, each once, in their order. -/
def inOrder (xs : List (Nat × A)) : List A := ((xs.insertionSort fun x y => x.1 ≤ y.1).map Prod.snd).eraseDups

/-- The actions executed when the input ends in a state. -/
def leftActions (st : State A) : List A := inOrder (st.flatMap fun e => e.nullable.getD [])

/-- The actions of a trace, each once at a position. -/
def executed (l : List (Event A)) : List (A × Nat) := (l.map fun t => (t.action, t.pos)).eraseDups

theorem inOrder_eq {xs xs' : List (Nat × A)} (strict : xs'.Pairwise fun x y => x.1 < y.1)
    (same : ∀ x, x ∈ xs ↔ x ∈ xs') : inOrder xs = (xs'.map Prod.snd).eraseDups := by
  have sorted : (xs.insertionSort fun x y => x.1 ≤ y.1).Pairwise fun x y => x.1 ≤ y.1 := by
    have : IsTrans (Nat × A) fun x y => x.1 ≤ y.1 := ⟨fun _ _ _ => Nat.le_trans⟩
    have : Std.Total fun x y : Nat × A => x.1 ≤ y.1 := ⟨fun x y => Nat.le_total x.1 y.1⟩
    exact List.pairwise_insertionSort ..
  rw [inOrder, eraseDups_map, eraseDups_eq_of_sorted strict sorted]
  intro x
  rw [List.mem_insertionSort, same]

/-- A state holds what can be left of an expression behind a word. -/
def Holds (ok : Bool) (e : Ragel A) (u : List UInt8) (st : State A) : Prop := ∀ r, r ∈ st ↔ Reaches ok e u r

omit [DecidableEq A] in
theorem holds_start : Holds ok (e.numbered 0) [] (start e) := by
  intro r
  rw [reaches_nil]
  exact List.mem_singleton

omit [DecidableEq A] in
theorem reaches_snoc {r : Ragel A} (u : List UInt8) : ∀ {e : Ragel A}, Reaches ok e (u ++ [c]) r ↔
    ∃ r', Reaches ok e u r' ∧ ∃ m ∈ r'.moves, m.Takes ok c ∧ m.rest = r := by
  induction u with
  | nil =>
    intro e
    simp only [List.nil_append, reaches_cons, reaches_nil, exists_eq_left]
    refine exists_congr fun m => and_congr_right fun _ => and_congr_right fun _ => eq_comm
  | cons d u ih =>
    intro e
    rw [List.cons_append, reaches_cons]
    simp only [reaches_cons]
    constructor
    · rintro ⟨m, mem, takes, path⟩
      obtain ⟨r', path', last⟩ := ih.mp path
      exact ⟨r', ⟨m, mem, takes, path'⟩, last⟩
    · rintro ⟨r', ⟨m, mem, takes, path⟩, last⟩
      exact ⟨m, mem, takes, ih.mpr ⟨r', path, last⟩⟩

omit [DecidableEq A] in
theorem reaches_append {r : Ragel A} (u : List UInt8) : ∀ {e : Ragel A}, Reaches ok e (u ++ v) r ↔
    ∃ r', Reaches ok e u r' ∧ Reaches ok r' v r := by
  induction u with
  | nil =>
    intro e
    simp [reaches_nil]
  | cons d u ih =>
    intro e
    rw [List.cons_append, reaches_cons]
    simp only [reaches_cons]
    constructor
    · rintro ⟨m, mem, takes, path⟩
      obtain ⟨r', first, second⟩ := ih.mp path
      exact ⟨r', ⟨m, mem, takes, first⟩, second⟩
    · rintro ⟨r', ⟨m, mem, takes, first⟩, second⟩
      exact ⟨m, mem, takes, ih.mpr ⟨r', first, second⟩⟩

omit [DecidableEq A] in
theorem Holds.mem_taken (isPlain : e.plain = true) (holds : Holds ok e u st) {m : Move A} :
    m ∈ taken ok st c ↔ ∃ r, Reaches ok e u r ∧ m ∈ r.moves ∧ m.Takes ok c := by
  have noPriority : ∀ m ∈ st.flatMap moves, m.priorities = [] := by
    intro m mem
    obtain ⟨r, inState, moved⟩ := List.mem_flatMap.mp mem
    exact (moves_within (reaches_within isPlain ((holds r).mp inState)).1 moved).priorities
  unfold taken
  dsimp only
  rw [List.filter_eq_self.mpr, List.mem_filter, List.mem_flatMap]
  · constructor
    · rintro ⟨⟨r, inState, moved⟩, fits⟩
      obtain ⟨on, open'⟩ := Bool.and_eq_true_iff.mp fits
      refine ⟨r, (holds r).mp inState, moved, on, fun conditional => ?_⟩
      rw [conditional] at open'
      exact open'
    · rintro ⟨r, path, moved, on, open'⟩
      refine ⟨⟨r, (holds r).mpr path, moved⟩, Bool.and_eq_true_iff.mpr ⟨on, ?_⟩⟩
      cases conditional : m.conditional with
      | false => rfl
      | true =>
        rw [open' conditional]
        rfl
  · intro m mem
    have none := noPriority m (List.mem_filter.mp mem).1
    simp [Move.beaten, none]

theorem Holds.next (isPlain : e.plain = true) (holds : Holds ok e u st) {as : List A}
    (next : step ok st c = some (st', as)) : Holds ok e (u ++ [c]) st' := by
  have rests : st' = ((taken ok st c).map Move.rest).eraseDups := by
    unfold step at next
    split at next
    · cases next
    · rename_i m ms eq
      rw [eq]
      exact (Prod.mk.inj (Option.some.inj next)).1.symm
  intro r
  rw [rests, List.mem_eraseDups, List.mem_map, reaches_snoc]
  constructor
  · rintro ⟨m, took, rfl⟩
    obtain ⟨r', path, mem, takes⟩ := (holds.mem_taken isPlain).mp took
    exact ⟨r', path, m, mem, takes, rfl⟩
  · rintro ⟨r', path, m, mem, takes, rfl⟩
    exact ⟨m, (holds.mem_taken isPlain).mpr ⟨r', path, mem, takes⟩, rfl⟩

/-- One byte of a word that can go on: the next state holds what is left, and the actions are those fired. -/
theorem Holds.step (isPlain : e.plain = true) (holds : Holds ok e u st) {r : Ragel A}
    (goesOn : Reaches ok e (u ++ [c]) r) {xs : List (Nat × A)} (strict : xs.Pairwise fun x y => x.1 < y.1)
    (fires : ∀ x, x ∈ xs ↔ Fires ok e u c x) :
    ∃ st', step ok st c = some (st', (xs.map Prod.snd).eraseDups) ∧ Holds ok e (u ++ [c]) st' := by
  obtain ⟨r', path, m, mem, takes, -⟩ := (reaches_snoc u).mp goesOn
  have possible : m ∈ taken ok st c := (holds.mem_taken isPlain).mpr ⟨r', path, mem, takes⟩
  have acts : actionsOf (taken ok st c) = (xs.map Prod.snd).eraseDups := by
    refine inOrder_eq strict fun x => ?_
    rw [fires, List.mem_flatMap]
    constructor
    · rintro ⟨m, took, act⟩
      obtain ⟨r, path, mem, takes⟩ := (holds.mem_taken isPlain).mp took
      exact ⟨r, path, m, mem, takes, act⟩
    · rintro ⟨r, path, m, mem, takes, act⟩
      exact ⟨m, (holds.mem_taken isPlain).mpr ⟨r, path, mem, takes⟩, act⟩
  have next : Ragel.step ok st c =
      some (((taken ok st c).map Move.rest).eraseDups, (xs.map Prod.snd).eraseDups) := by
    rw [← acts]
    unfold Ragel.step
    split
    · rename_i none
      rw [none] at possible
      cases possible
    · rename_i m' ms eq
      rw [eq]
  exact ⟨_, next, holds.next isPlain next⟩

omit [DecidableEq A] in
/-- The events of a sorted list before a position, and those from it on. -/
theorem split_before (sorted : l.Pairwise Event.Before) (k : Nat) :
    l = (l.filter fun t => t.pos < k) ++ l.filter fun t => k ≤ t.pos := by
  induction l with
  | nil => rfl
  | cons t l ih =>
    obtain ⟨before, rest⟩ := List.pairwise_cons.mp sorted
    by_cases first : t.pos < k
    · rw [List.filter_cons_of_pos (by simpa using first), List.filter_cons_of_neg (by simpa using first),
        List.cons_append, ← ih rest]
    · have later : ∀ t' ∈ t :: l, k ≤ t'.pos := by
        intro t' mem
        rcases List.mem_cons.mp mem with rfl | mem
        · exact Nat.not_lt.mp first
        · rcases before t' mem with lt | ⟨eq, -⟩
          · exact (Nat.not_lt.mp first).trans (Nat.le_of_lt lt)
          · exact eq ▸ Nat.not_lt.mp first
      rw [List.filter_eq_nil_iff.mpr fun t' mem => by simpa using later t' mem,
        List.filter_eq_self.mpr fun t' mem => by simpa using later t' mem, List.nil_append]

omit [DecidableEq A] in
/-- The events at one position, as the pairs of their numbers and actions, are in the order of the numbers. -/
theorem pairwise_at {l : List (Event A)} (sorted : l.Pairwise Event.Before) (here : ∀ t ∈ l, t.pos = k) :
    (l.map fun t => (t.order, t.action)).Pairwise fun x y => x.1 < y.1 := by
  refine List.pairwise_map.mpr (List.Pairwise.imp_of_mem (fun mem mem' before => ?_) sorted)
  rcases before with lt | ⟨-, lt⟩
  · rw [here _ mem, here _ mem'] at lt
    exact absurd lt (Nat.lt_irrefl k)
  · exact lt

theorem executed_at {l : List (Event A)} (here : ∀ t ∈ l, t.pos = k) :
    executed l = ((l.map fun t => (t.order, t.action)).map Prod.snd).eraseDups.map (·, k) := by
  have injective : Function.Injective fun x : A => (x, k) := fun x y eq => (Prod.mk.inj eq).1
  rw [executed, ← eraseDups_map_injective injective, List.map_map, List.map_map]
  congr 1
  refine List.map_congr_left fun t mem => ?_
  simp [here t mem]

theorem executed_append {l l' : List (Event A)} (apart : ∀ t ∈ l, ∀ t' ∈ l', t.pos < t'.pos) :
    executed (l ++ l') = executed l ++ executed l' := by
  rw [executed, List.map_append, eraseDups_append_of_disjoint, ← executed, ← executed]
  intro x mem mem'
  obtain ⟨t', later, rfl⟩ := List.mem_map.mp mem
  obtain ⟨t, first, eq⟩ := List.mem_map.mp mem'
  exact absurd (apart t first t' later) (by rw [(Prod.mk.inj eq).2]; exact Nat.lt_irrefl _)

/-- A run executes what is fired. -/
theorem Holds.scan (isPlain : e.plain = true) (breaks : A → Bool) (v : List UInt8) :
    ∀ {u : List UInt8} {st : State A} {r : Ragel A} {l : List (Event A)}, Holds ok e u st →
      Reaches ok e (u ++ v) r → Fired ok e u v l → (∀ t ∈ l, breaks t.action = false) →
      ∃ st', Scan.scan (Ragel.step ok) breaks st u.length v = ⟨some st', u.length + v.length, false, executed l⟩ ∧
        Holds ok e (u ++ v) st' := by
  induction v with
  | nil =>
    intro u st r l holds _ fired _
    have none : l = [] := by
      refine List.eq_nil_iff_forall_not_mem.mpr fun t mem => ?_
      obtain ⟨v₁, c, v₂, eq, -⟩ := (fired.mem t).mp mem
      exact List.append_ne_nil_of_right_ne_nil v₁ (List.cons_ne_nil c v₂) eq.symm
    rw [none, List.append_nil]
    exact ⟨st, rfl, holds⟩
  | cons c v ih =>
    intro u st r l holds goesOn fired running
    have from' : ∀ t ∈ l, u.length ≤ t.pos := by
      intro t mem
      obtain ⟨v₁, -, -, -, pos, -⟩ := (fired.mem t).mp mem
      rw [pos]
      exact Nat.le_add_right ..
    let now := l.filter fun t => t.pos = u.length
    let later := l.filter fun t => u.length < t.pos
    have nowHere : ∀ t ∈ now, t.pos = u.length := fun t mem => of_decide_eq_true (List.mem_filter.mp mem).2
    have laterThere : ∀ t ∈ later, u.length < t.pos := fun t mem => of_decide_eq_true (List.mem_filter.mp mem).2
    have fires : ∀ x, x ∈ now.map (fun t => (t.order, t.action)) ↔ Fires ok e u c x := by
      intro x
      rw [List.mem_map]
      constructor
      · rintro ⟨t, mem, rfl⟩
        obtain ⟨v₁, c', v₂, eq, pos, fires⟩ := (fired.mem t).mp (List.mem_filter.mp mem).1
        rw [nowHere t mem] at pos
        obtain rfl := List.length_eq_zero_iff.mp (by omega : v₁.length = 0)
        obtain ⟨rfl, -⟩ := List.cons.inj eq
        rw [List.append_nil] at fires
        exact fires
      · intro fires
        refine ⟨⟨u.length, x.1, x.2⟩, List.mem_filter.mpr ⟨(fired.mem _).mpr ?_, decide_eq_true rfl⟩, rfl⟩
        exact ⟨[], c, v, rfl, rfl, by rw [List.append_nil]; exact fires⟩
    have goesOn' : ∃ r', Reaches ok e (u ++ [c]) r' ∧ Reaches ok e ((u ++ [c]) ++ v) r := by
      rw [List.append_assoc, List.singleton_append]
      obtain ⟨r', first, -⟩ := (reaches_append (u ++ [c])).mp
        (by rw [List.append_assoc]; exact goesOn : Reaches ok e ((u ++ [c]) ++ v) r)
      exact ⟨r', first, goesOn⟩
    obtain ⟨r', first, rest⟩ := goesOn'
    obtain ⟨st₁, next, holds₁⟩ := holds.step isPlain first
      (pairwise_at (fired.sorted.filter _) nowHere) fires
    have length : (u ++ [c]).length = u.length + 1 := by rw [List.length_append]; rfl
    have firedLater : Fired ok e (u ++ [c]) v later := by
      refine ⟨fired.sorted.filter _, fun t => ?_⟩
      rw [List.mem_filter, fired.mem]
      constructor
      · rintro ⟨⟨v₁, c', v₂, eq, pos, fires⟩, lt⟩
        cases v₁ with
        | nil => exact absurd (of_decide_eq_true lt) (by rw [pos]; exact Nat.lt_irrefl _)
        | cons d v₁ =>
          obtain ⟨rfl, rfl⟩ := List.cons.inj eq
          refine ⟨v₁, c', v₂, rfl, ?_, by rw [List.append_assoc]; exact fires⟩
          rw [pos, length, List.length_cons]
          omega
      · rintro ⟨v₁, c', v₂, rfl, pos, fires⟩
        refine ⟨⟨c :: v₁, c', v₂, rfl, ?_, by rw [List.append_assoc] at fires; exact fires⟩, ?_⟩
        · rw [pos, length, List.length_cons]
          omega
        · rw [pos, length]
          exact decide_eq_true (by omega)
    obtain ⟨st', run, holds'⟩ := ih holds₁ rest firedLater
      fun t mem => running t (List.mem_filter.mp mem).1
    refine ⟨st', ?_, by rw [List.append_assoc] at holds'; exact holds'⟩
    have quiet : (((now.map fun t => (t.order, t.action)).map Prod.snd).eraseDups).any breaks = false := by
      rw [List.any_eq_false]
      intro x mem
      rw [List.mem_eraseDups, List.map_map] at mem
      obtain ⟨t, inNow, rfl⟩ := List.mem_map.mp mem
      rw [Function.comp_apply, running t (List.mem_filter.mp inNow).1]
      exact Bool.false_ne_true
    have parts : l = now ++ later := by
      refine (split_before fired.sorted (u.length + 1)).trans (congrArg (· ++ later) ?_)
      refine List.filter_congr fun t mem => decide_eq_decide.mpr ?_
      have le := from' t mem
      omega
    have runs : executed l = executed now ++ executed later := by
      rw [← executed_append fun t mem t' mem' => nowHere t mem ▸ laterThere t' mem', ← parts]
    rw [length] at run
    rw [Scan.scan_cons_next next quiet, run, runs, executed_at nowHere, Scan.after]
    rw [List.length_cons, Nat.add_right_comm]
    rfl

omit [DecidableEq A] in
theorem Holds.final (holds : Holds ok e u st) : Ragel.final st = true ↔ u ∈ lang ok e := by
  rw [Ragel.final, List.any_eq_true]
  exact exists_congr fun r => and_congr_left fun _ => holds r

theorem Holds.leftActions (holds : Holds ok e u st) {xs : List (Nat × A)}
    (strict : xs.Pairwise fun x y => x.1 < y.1) (exits : ∀ x, x ∈ xs ↔ Exits ok e u x) :
    Ragel.leftActions st = (xs.map Prod.snd).eraseDups := by
  refine inOrder_eq strict fun x => ?_
  rw [exits, List.mem_flatMap]
  refine exists_congr fun r => and_congr (holds r) ?_
  cases r.nullable with
  | none => simp
  | some l => simp

/-- A machine that has read all of a word is in a state that holds what is left behind it. -/
theorem holds_of_scan (isPlain : e.plain = true) {breaks : A → Bool} (v : List UInt8) :
    ∀ {u : List UInt8} {st st' : State A} {p : Nat}, Holds ok e u st →
      (Scan.scan (step ok) breaks st p v).state = some st' → (Scan.scan (step ok) breaks st p v).broke = false →
      Holds ok e (u ++ v) st' := by
  induction v with
  | nil =>
    intro u st st' p holds state _
    obtain rfl := Option.some.inj state
    rw [List.append_nil]
    exact holds
  | cons c v ih =>
    intro u st st' p holds state running
    cases next : step ok st c with
    | none =>
      rw [Scan.scan_cons_none next] at state
      cases state
    | some target =>
      obtain ⟨st₁, as⟩ := target
      cases breaking : as.any breaks with
      | true =>
        rw [Scan.scan_cons_break next breaking] at running
        cases running
      | false =>
        rw [Scan.scan_cons_next next breaking] at state running
        have rest := ih (holds.next isPlain next) state running
        rw [List.append_assoc] at rest
        exact rest

/-- A machine without a break that ends in a final state has read a word that it matches. -/
theorem mem_lang_of_scan (isPlain : e.plain = true) {breaks : A → Bool} (never : ∀ x, breaks x = false)
    (state : (Scan.scan (step ok) breaks (start e) 0 w).state = some st) (isFinal : final st = true) :
    w ∈ lang ok e := by
  have holds := holds_of_scan (u := []) ((plain_numbered e 0).trans isPlain) w holds_start state
    (Scan.not_broke never w)
  rw [← lang_numbered isPlain 0]
  exact holds.final.mp isFinal

/-- A word that the machine of an expression reads. -/
theorem mem_lang_of_reads (isPlain : e.plain = true)
    (reads : ((Scan.scan (step ok) (fun _ => false) (start e) 0 w).state.any final) = true) : w ∈ lang ok e := by
  obtain ⟨st, state, isFinal⟩ := (Option.any_eq_true ..).mp reads
  exact mem_lang_of_scan isPlain (fun _ => rfl) state isFinal

/-- All that a state holds is left behind a word, whatever the priorities have taken away. -/
def Within (ok : Bool) (e : Ragel A) (u : List UInt8) (st : State A) : Prop := ∀ r ∈ st, Reaches ok e u r

theorem Within.next (within : Within ok e u st) {as : List A} (next : step ok st c = some (st', as)) :
    Within ok e (u ++ [c]) st' := by
  intro r mem
  obtain ⟨m, took, rfl⟩ := (step_spec next).1 r mem
  obtain ⟨⟨r', mem', moved⟩, on⟩ := mem_taken took
  have fits := (List.mem_filter.mp (List.mem_filter.mp took).1).2
  refine (reaches_snoc u).mpr ⟨r', within r' mem', m, moved, ⟨on, fun conditional => ?_⟩, rfl⟩
  rw [on, conditional] at fits
  exact fits

/-- A scan that does not fail has read some word up to where it is. -/
theorem within_of_scan {breaks : A → Bool} (v : List UInt8) :
    ∀ {u : List UInt8} {st st' : State A} {p : Nat}, Within ok e u st →
      (Scan.scan (step ok) breaks st p v).state = some st' → ∃ v₁ v₂, v = v₁ ++ v₂ ∧ Within ok e (u ++ v₁) st' := by
  induction v with
  | nil =>
    intro u st st' p within state
    obtain rfl := Option.some.inj state
    exact ⟨[], [], rfl, by rw [List.append_nil]; exact within⟩
  | cons c v ih =>
    intro u st st' p within state
    cases next : step ok st c with
    | none =>
      rw [Scan.scan_cons_none next] at state
      cases state
    | some target =>
      obtain ⟨st₁, as⟩ := target
      cases breaking : as.any breaks with
      | true =>
        rw [Scan.scan_cons_break next breaking] at state
        obtain rfl := Option.some.inj state
        exact ⟨[c], v, rfl, within.next next⟩
      | false =>
        rw [Scan.scan_cons_next next breaking] at state
        obtain ⟨v₁, v₂, rfl, within'⟩ := ih (within.next next) state
        rw [List.append_assoc] at within'
        exact ⟨c :: v₁, v₂, rfl, within'⟩

/-- A machine that ends in a final state has read a word that it matches, and perhaps not looked at the rest. -/
theorem exists_mem_lang_of_scan {breaks : A → Bool}
    (state : (Scan.scan (step ok) breaks (start e) 0 w).state = some st) (isFinal : final st = true) :
    ∃ u v, w = u ++ v ∧ u ∈ lang ok (e.numbered 0) := by
  have begun : Within ok (e.numbered 0) [] (start e) := fun r mem =>
    reaches_nil.mpr (List.mem_singleton.mp mem)
  obtain ⟨u, v, eq, within⟩ := within_of_scan w begun state
  obtain ⟨r, mem, ends⟩ := List.any_eq_true.mp isFinal
  exact ⟨u, v, eq, r, within r mem, ends⟩

/-- A run of a machine on a word that it matches executes the trace. -/
theorem scan_of_trace (isPlain : e.plain = true) (inside : w ∈ lang ok e) (trace : Trace ok 0 e w l) :
    ∃ st acts, Scan.scan (step ok) (fun _ => false) (start e) 0 w = ⟨some st, w.length, false, acts⟩ ∧
      final st = true ∧ acts ++ (leftActions st).map (·, w.length) = executed l := by
  have plain : (e.numbered 0).plain = true := (plain_numbered e 0).trans isPlain
  rw [← lang_numbered isPlain 0] at inside
  obtain ⟨r, path, ends⟩ := inside
  let now := l.filter fun t => t.pos < w.length
  let last := l.filter fun t => t.pos = w.length
  have atEnd : ∀ t ∈ last, t.pos = w.length := fun t mem => of_decide_eq_true (List.mem_filter.mp mem).2
  have parts : l = now ++ last := by
    refine (split_before trace.sorted w.length).trans (congrArg (now ++ ·) ?_)
    refine List.filter_congr fun t mem => decide_eq_decide.mpr ?_
    have le := ((trace.mem t).mp mem).pos_le
    omega
  have fired : Fired ok (e.numbered 0) [] w now := by
    refine ⟨trace.sorted.filter _, fun t => ?_⟩
    rw [List.mem_filter, trace.mem, decide_eq_true_iff]
    constructor
    · rintro ⟨⟨u, c, v, eq, pos, fires⟩ | ⟨pos, -⟩, lt⟩
      · exact ⟨u, c, v, eq, by rw [pos, List.length_nil, Nat.zero_add], fires⟩
      · exact absurd pos (Nat.ne_of_lt lt)
    · rintro ⟨u, c, v, eq, pos, fires⟩
      rw [List.length_nil, Nat.zero_add] at pos
      refine ⟨.inl ⟨u, c, v, eq, pos, fires⟩, ?_⟩
      rw [pos, eq, List.length_append, List.length_cons]
      omega
  obtain ⟨st, run, holds⟩ := Holds.scan plain (fun _ => false) w holds_start path fired fun _ _ => rfl
  have exits : ∀ x, x ∈ last.map (fun t => (t.order, t.action)) ↔ Exits ok (e.numbered 0) w x := by
    intro x
    rw [List.mem_map]
    constructor
    · rintro ⟨t, mem, rfl⟩
      rcases (trace.mem t).mp (List.mem_filter.mp mem).1 with ⟨u, c, v, eq, pos, -⟩ | ⟨-, exits⟩
      · rw [atEnd t mem, eq, List.length_append, List.length_cons] at pos
        omega
      · exact exits
    · intro exits
      exact ⟨⟨w.length, x.1, x.2⟩, List.mem_filter.mpr ⟨(trace.mem _).mpr (.inr ⟨rfl, exits⟩), decide_eq_true rfl⟩,
        rfl⟩
  rw [List.length_nil, Nat.zero_add] at run
  refine ⟨st, executed now, run, holds.final.mpr ⟨r, path, ends⟩, ?_⟩
  rw [holds.leftActions (pairwise_at (trace.sorted.filter _) atEnd) exits, ← executed_at atEnd,
    ← executed_append fun t mem t' mem' => ?_, ← parts]
  rw [atEnd t' mem']
  exact of_decide_eq_true (List.mem_filter.mp mem).2

end Runs

end Ragel

end Sylar.Lib
