import Sylar.Lib.Ragel

/-!
# Ways of reading

A run of a machine follows all ways of reading its input at once. Here one way is a path from
expression to expression along the moves (`Reaches`), and an expression is known by three things: the
words it matches (`lang`), the actions its paths execute on a byte behind a word (`Fires`), and those it
executes when it is left behind a word (`Exits`). Each operator has its equation for each of them, so that
nothing about a composed expression needs its moves.

A path that leads nowhere in the end still executes its actions. So `Fires` is about prefixes of words,
not about matches.
-/

namespace Sylar.Lib

namespace ByteSet

theorem mem_union (a b : ByteSet) (c : UInt8) : (a.union b).mem c = (a.mem c || b.mem c) :=
  Nat.testBit_or ..

theorem mem_diff (a b : ByteSet) (c : UInt8) : (a.diff b).mem c = (a.mem c && !b.mem c) := by
  rw [mem, diff, Nat.testBit_xor, Nat.testBit_and, mem, mem]
  cases a.mask.testBit c.toNat <;> cases b.mask.testBit c.toNat <;> rfl

theorem mem_any (c : UInt8) : any.mem c = true := by
  have mask : any.mask = 2 ^ 256 - 1 := rfl
  rw [mem, mask, Nat.testBit_two_pow_sub_one]
  exact decide_eq_true c.toNat_lt

theorem not_mem_empty (c : UInt8) : (⟨0⟩ : ByteSet).mem c = false :=
  Nat.zero_testBit _

theorem mem_single (c d : UInt8) : (single c).mem d = true ↔ d = c := by
  have mask : (single c).mask = 2 ^ c.toNat := by
    change 2 ^ (c.toNat + 1) - 2 ^ c.toNat = 2 ^ c.toNat
    rw [Nat.pow_succ]
    omega
  rw [mem, mask, Nat.testBit_two_pow, decide_eq_true_iff, UInt8.toNat_inj, eq_comm]

/-- No byte is in both. -/
def disjoint (a b : ByteSet) : Bool := a.mask &&& b.mask == 0

theorem not_mem_of_disjoint {a b : ByteSet} (apart : a.disjoint b = true) {c : UInt8} (here : a.mem c = true) :
    b.mem c = false := by
  have both : (a.mask &&& b.mask).testBit c.toNat = false := by
    rw [beq_iff_eq.mp apart]
    exact Nat.zero_testBit _
  rw [Nat.testBit_and] at both
  have ours : a.mask.testBit c.toNat = true := here
  rw [ours, Bool.true_and] at both
  exact both

/-- Every byte of the first is in the second. -/
def subset (a b : ByteSet) : Bool := a.mask &&& b.mask == a.mask

theorem mem_of_subset {a b : ByteSet} (le : a.subset b = true) {c : UInt8} (here : a.mem c = true) :
    b.mem c = true := by
  have both : (a.mask &&& b.mask).testBit c.toNat = true := by
    rw [beq_iff_eq.mp le]
    exact here
  rw [Nat.testBit_and] at both
  exact (Bool.and_eq_true_iff.mp both).2

end ByteSet

namespace Ragel

variable {A : Type} {ok : Bool}

/-- A move is possible on a byte, given the condition of `when`. -/
def Move.Takes (ok : Bool) (m : Move A) (c : UInt8) : Prop :=
  m.on.mem c = true ∧ (m.conditional = true → ok = true)

/-- What can be left of an expression behind a word. -/
inductive Reaches (ok : Bool) : Ragel A → List UInt8 → Ragel A → Prop where
  | nil (e : Ragel A) : Reaches ok e [] e
  | cons {e r : Ragel A} {m : Move A} {c : UInt8} {w : List UInt8} : m ∈ e.moves → m.Takes ok c →
      Reaches ok m.rest w r → Reaches ok e (c :: w) r

/-- The words an expression matches. -/
def lang (ok : Bool) (e : Ragel A) : Language UInt8 :=
  {w | ∃ r, Reaches ok e w r ∧ r.nullable.isSome = true}

/-- A path can begin with a byte. -/
def Starts (ok : Bool) (e : Ragel A) (c : UInt8) : Prop := ∃ m ∈ e.moves, m.Takes ok c

/-- A path executes an action on a byte behind a word. -/
def Fires (ok : Bool) (e : Ragel A) (w : List UInt8) (c : UInt8) (x : Nat × A) : Prop :=
  ∃ r, Reaches ok e w r ∧ ∃ m ∈ r.moves, m.Takes ok c ∧ x ∈ m.actions

/-- A path executes an action when the expression is left behind a word. -/
def Exits (ok : Bool) (e : Ragel A) (w : List UInt8) (x : Nat × A) : Prop :=
  ∃ r, Reaches ok e w r ∧ ∃ l, r.nullable = some l ∧ x ∈ l

variable {a b e r : Ragel A} {c : UInt8} {w u v : List UInt8} {x : Nat × A} {n : Nat} {y : A}

attribute [local simp] moves nullable

theorem reaches_nil : Reaches ok e [] r ↔ r = e := by
  constructor
  · intro path
    cases path
    rfl
  · rintro rfl
    exact .nil r

theorem reaches_cons : Reaches ok e (c :: w) r ↔ ∃ m ∈ e.moves, m.Takes ok c ∧ Reaches ok m.rest w r := by
  constructor
  · intro path
    cases path with
    | cons mem takes rest => exact ⟨_, mem, takes, rest⟩
  · rintro ⟨m, mem, takes, rest⟩
    exact .cons mem takes rest

theorem nil_mem_lang : [] ∈ lang ok e ↔ e.nullable.isSome = true := by
  constructor
  · rintro ⟨r, path, ends⟩
    rw [← reaches_nil.mp path]
    exact ends
  · exact fun ends => ⟨e, .nil e, ends⟩

theorem mem_lang_of_exits (exits : Exits ok e w x) : w ∈ lang ok e := by
  obtain ⟨r, path, l, ends, -⟩ := exits
  exact ⟨r, path, by rw [ends]; rfl⟩

/-! ## Concatenation -/

theorem nullable_seq : (seq a b).nullable.isSome = true ↔ a.nullable.isSome = true ∧ b.nullable.isSome = true := by
  rw [nullable]
  cases a.nullable <;> cases b.nullable <;> simp

theorem mem_moves_seq {m : Move A} : m ∈ (seq a b).moves ↔ (∃ m' ∈ a.moves, m = m'.goTo (seq · b)) ∨
    ∃ l, a.nullable = some l ∧ ∃ m' ∈ b.moves, m = m'.execute l := by
  rw [moves, List.mem_append, List.mem_map]
  refine or_congr (exists_congr fun m' => and_congr_right fun _ => eq_comm) ?_
  cases a.nullable with
  | none => simp
  | some l => simp [eq_comm]

/-- A path through a concatenation is still in the first part, or has read a word of it and some of the
second. -/
theorem reaches_seq (w : List UInt8) : ∀ {a : Ragel A}, Reaches ok (seq a b) w r ↔
    (∃ r', Reaches ok a w r' ∧ r = seq r' b) ∨
      ∃ u v, w = u ++ v ∧ v ≠ [] ∧ u ∈ lang ok a ∧ Reaches ok b v r := by
  induction w with
  | nil =>
    intro a
    rw [reaches_nil]
    constructor
    · exact fun eq => .inl ⟨a, .nil a, eq⟩
    · rintro (⟨r', path, eq⟩ | ⟨u, v, eq, some, -⟩)
      · rw [eq, reaches_nil.mp path]
      · exact absurd (List.append_eq_nil_iff.mp eq.symm).2 some
  | cons c w ih =>
    intro a
    rw [reaches_cons]
    constructor
    · rintro ⟨m, mem, takes, path⟩
      rcases mem_moves_seq.mp mem with ⟨m', mem', rfl⟩ | ⟨l, ends, m', mem', rfl⟩
      · rcases ih.mp path with ⟨r', path', eq⟩ | ⟨u, v, rfl, some, ⟨r', first, ends⟩, second⟩
        · exact .inl ⟨r', .cons mem' takes path', eq⟩
        · exact .inr ⟨c :: u, v, rfl, some, ⟨r', .cons mem' takes first, ends⟩, second⟩
      · refine .inr ⟨[], c :: w, rfl, List.cons_ne_nil c w, nil_mem_lang.mpr ?_, .cons mem' takes path⟩
        rw [ends]
        rfl
    · rintro (⟨r', path, eq⟩ | ⟨u, v, eq, some, inside, path⟩)
      · obtain ⟨m', mem', takes, rest⟩ := reaches_cons.mp path
        exact ⟨_, mem_moves_seq.mpr (.inl ⟨m', mem', rfl⟩), takes, ih.mpr (.inl ⟨r', rest, eq⟩)⟩
      · cases u with
        | nil =>
          obtain rfl : c :: w = v := eq
          obtain ⟨m', mem', takes, rest⟩ := reaches_cons.mp path
          obtain ⟨l, ends⟩ := Option.isSome_iff_exists.mp (nil_mem_lang.mp inside)
          exact ⟨_, mem_moves_seq.mpr (.inr ⟨l, ends, m', mem', rfl⟩), takes, rest⟩
        | cons c' u =>
          obtain ⟨rfl, rfl⟩ := List.cons.inj eq
          obtain ⟨r', first, ends⟩ := inside
          obtain ⟨m', mem', takes, rest⟩ := reaches_cons.mp first
          exact ⟨_, mem_moves_seq.mpr (.inl ⟨m', mem', rfl⟩), takes,
            ih.mpr (.inr ⟨u, v, rfl, some, ⟨r', rest, ends⟩, path⟩)⟩

theorem lang_seq (ok : Bool) (a b : Ragel A) : lang ok (seq a b) = lang ok a * lang ok b := by
  ext w
  rw [Language.mem_mul]
  constructor
  · rintro ⟨r, path, ends⟩
    rcases (reaches_seq w).mp path with ⟨r', first, rfl⟩ | ⟨u, v, rfl, -, inside, second⟩
    · obtain ⟨here, there⟩ := nullable_seq.mp ends
      exact ⟨w, ⟨r', first, here⟩, [], nil_mem_lang.mpr there, List.append_nil w⟩
    · exact ⟨u, inside, v, ⟨r, second, ends⟩, rfl⟩
  · rintro ⟨u, ⟨r', first, ends⟩, v, ⟨r, second, ends'⟩, rfl⟩
    cases v with
    | nil =>
      rw [reaches_nil.mp second] at ends'
      rw [List.append_nil]
      exact ⟨seq r' b, (reaches_seq u).mpr (.inl ⟨r', first, rfl⟩), nullable_seq.mpr ⟨ends, ends'⟩⟩
    | cons c v =>
      exact ⟨r, (reaches_seq _).mpr (.inr ⟨u, c :: v, rfl, List.cons_ne_nil c v, ⟨r', first, ends⟩, second⟩),
        ends'⟩

/-- On a byte a concatenation does what its first part does, and what its second part does behind a word of
the first; on the byte between them the first part is left. -/
theorem fires_seq : Fires ok (seq a b) w c x ↔ Fires ok a w c x ∨
    ∃ u v, w = u ++ v ∧ u ∈ lang ok a ∧ (Fires ok b v c x ∨ v = [] ∧ Exits ok a u x ∧ Starts ok b c) := by
  constructor
  · rintro ⟨r, path, m, mem, takes, act⟩
    rcases (reaches_seq w).mp path with ⟨r', first, rfl⟩ | ⟨u, v, rfl, -, inside, second⟩
    · rcases mem_moves_seq.mp mem with ⟨m', mem', rfl⟩ | ⟨l, ends, m', mem', rfl⟩
      · exact .inl ⟨r', first, m', mem', takes, act⟩
      · refine .inr ⟨w, [], (List.append_nil w).symm, ⟨r', first, by rw [ends]; rfl⟩, ?_⟩
        rcases List.mem_append.mp act with left | act
        · exact .inr ⟨rfl, ⟨r', first, l, ends, left⟩, m', mem', takes⟩
        · exact .inl ⟨b, .nil b, m', mem', takes, act⟩
    · exact .inr ⟨u, v, rfl, inside, .inl ⟨r, second, m, mem, takes, act⟩⟩
  · rintro (⟨r', first, m', mem', takes, act⟩ | ⟨u, v, rfl, inside, fires⟩)
    · exact ⟨seq r' b, (reaches_seq w).mpr (.inl ⟨r', first, rfl⟩), _, mem_moves_seq.mpr (.inl ⟨m', mem', rfl⟩),
        takes, act⟩
    · rcases fires with ⟨r, second, m, mem, takes, act⟩ | ⟨rfl, ⟨r', first, l, ends, left⟩, m', mem', takes⟩
      · cases v with
        | nil =>
          obtain rfl := reaches_nil.mp second
          obtain ⟨r', first, ends⟩ := inside
          obtain ⟨l, ends⟩ := Option.isSome_iff_exists.mp ends
          rw [List.append_nil]
          exact ⟨seq r' r, (reaches_seq u).mpr (.inl ⟨r', first, rfl⟩), _,
            mem_moves_seq.mpr (.inr ⟨l, ends, m, mem, rfl⟩), takes, List.mem_append_right l act⟩
        | cons c' v =>
          exact ⟨r, (reaches_seq _).mpr (.inr ⟨u, c' :: v, rfl, List.cons_ne_nil c' v, inside, second⟩), m, mem,
            takes, act⟩
      · rw [List.append_nil]
        exact ⟨seq r' b, (reaches_seq u).mpr (.inl ⟨r', first, rfl⟩), _,
          mem_moves_seq.mpr (.inr ⟨l, ends, m', mem', rfl⟩), takes, List.mem_append_left _ left⟩

theorem exits_seq : Exits ok (seq a b) w x ↔ ∃ u v, w = u ++ v ∧ u ∈ lang ok a ∧ v ∈ lang ok b ∧
    (Exits ok b v x ∨ v = [] ∧ Exits ok a u x) := by
  have both : ∀ {r' : Ragel A} {l l' : List (Nat × A)}, r'.nullable = some l → b.nullable = some l' →
      (seq r' b).nullable = some (l ++ l') := by
    intro r' l l' first second
    rw [nullable, first, second]
  constructor
  · rintro ⟨r, path, l, ends, left⟩
    rcases (reaches_seq w).mp path with ⟨r', first, rfl⟩ | ⟨u, v, rfl, -, inside, second⟩
    · obtain ⟨here, there⟩ := nullable_seq.mp (by rw [ends]; rfl)
      obtain ⟨l₁, ends₁⟩ := Option.isSome_iff_exists.mp here
      obtain ⟨l₂, ends₂⟩ := Option.isSome_iff_exists.mp there
      rw [both ends₁ ends₂] at ends
      obtain rfl := Option.some.inj ends
      refine ⟨w, [], (List.append_nil w).symm, ⟨r', first, here⟩, nil_mem_lang.mpr there, ?_⟩
      rcases List.mem_append.mp left with left | left
      · exact .inr ⟨rfl, r', first, l₁, ends₁, left⟩
      · exact .inl ⟨b, .nil b, l₂, ends₂, left⟩
    · exact ⟨u, v, rfl, inside, ⟨r, second, by rw [ends]; rfl⟩, .inl ⟨r, second, l, ends, left⟩⟩
  · rintro ⟨u, v, rfl, inside, inside', exits⟩
    cases v with
    | nil =>
      rw [List.append_nil]
      obtain ⟨l₂, ends₂⟩ := Option.isSome_iff_exists.mp (nil_mem_lang.mp inside')
      rcases exits with ⟨r, second, l, ends, left⟩ | ⟨-, r', first, l, ends, left⟩
      · obtain rfl := reaches_nil.mp second
        obtain ⟨r', first, here⟩ := inside
        obtain ⟨l₁, ends₁⟩ := Option.isSome_iff_exists.mp here
        exact ⟨seq r' r, (reaches_seq u).mpr (.inl ⟨r', first, rfl⟩), _, both ends₁ ends,
          List.mem_append_right l₁ left⟩
      · exact ⟨seq r' b, (reaches_seq u).mpr (.inl ⟨r', first, rfl⟩), _, both ends ends₂,
          List.mem_append_left l₂ left⟩
    | cons c v =>
      rcases exits with ⟨r, second, l, ends, left⟩ | ⟨none, -⟩
      · exact ⟨r, (reaches_seq _).mpr (.inr ⟨u, c :: v, rfl, List.cons_ne_nil c v, inside, second⟩), l, ends,
          left⟩
      · cases none

/-! ## Alternatives -/

theorem nullable_alt : (alt a b).nullable.isSome = true ↔ a.nullable.isSome = true ∨ b.nullable.isSome = true := by
  rw [nullable]
  cases a.nullable <;> cases b.nullable <;> simp

theorem mem_nullable_alt : (∃ l, (alt a b).nullable = some l ∧ x ∈ l) ↔
    (∃ l, a.nullable = some l ∧ x ∈ l) ∨ ∃ l, b.nullable = some l ∧ x ∈ l := by
  rw [nullable]
  cases a.nullable <;> cases b.nullable <;> simp

theorem reaches_alt : Reaches ok (alt a b) w r ↔
    w = [] ∧ r = alt a b ∨ w ≠ [] ∧ (Reaches ok a w r ∨ Reaches ok b w r) := by
  cases w with
  | nil => simp [reaches_nil]
  | cons c w =>
    simp only [reaches_cons, moves, List.mem_append, List.cons_ne_nil, false_and, false_or, ne_eq,
      not_false_eq_true, true_and]
    constructor
    · rintro ⟨m, mem | mem, takes, path⟩
      · exact .inl ⟨m, mem, takes, path⟩
      · exact .inr ⟨m, mem, takes, path⟩
    · rintro (⟨m, mem, takes, path⟩ | ⟨m, mem, takes, path⟩)
      · exact ⟨m, .inl mem, takes, path⟩
      · exact ⟨m, .inr mem, takes, path⟩

theorem lang_alt (ok : Bool) (a b : Ragel A) : lang ok (alt a b) = lang ok a + lang ok b := by
  ext w
  rw [Language.mem_add]
  cases w with
  | nil => rw [nil_mem_lang, nil_mem_lang, nil_mem_lang, nullable_alt]
  | cons c w =>
    constructor
    · rintro ⟨r, path, ends⟩
      rcases reaches_alt.mp path with ⟨none, -⟩ | ⟨-, path | path⟩
      · cases none
      · exact .inl ⟨r, path, ends⟩
      · exact .inr ⟨r, path, ends⟩
    · rintro (⟨r, path, ends⟩ | ⟨r, path, ends⟩)
      · exact ⟨r, reaches_alt.mpr (.inr ⟨List.cons_ne_nil c w, .inl path⟩), ends⟩
      · exact ⟨r, reaches_alt.mpr (.inr ⟨List.cons_ne_nil c w, .inr path⟩), ends⟩

theorem fires_alt : Fires ok (alt a b) w c x ↔ Fires ok a w c x ∨ Fires ok b w c x := by
  cases w with
  | nil =>
    simp only [Fires, reaches_nil, exists_eq_left, moves, List.mem_append]
    constructor
    · rintro ⟨m, mem | mem, fires⟩
      · exact .inl ⟨m, mem, fires⟩
      · exact .inr ⟨m, mem, fires⟩
    · rintro (⟨m, mem, fires⟩ | ⟨m, mem, fires⟩)
      · exact ⟨m, .inl mem, fires⟩
      · exact ⟨m, .inr mem, fires⟩
  | cons c' w =>
    simp only [Fires, reaches_alt, List.cons_ne_nil, false_and, false_or, ne_eq, not_false_eq_true, true_and,
      or_and_right, exists_or]

theorem exits_alt : Exits ok (alt a b) w x ↔ Exits ok a w x ∨ Exits ok b w x := by
  cases w with
  | nil =>
    simp only [Exits, reaches_nil, exists_eq_left]
    exact mem_nullable_alt
  | cons c w =>
    simp only [Exits, reaches_alt, List.cons_ne_nil, false_and, false_or, ne_eq, not_false_eq_true, true_and,
      or_and_right, exists_or]

/-! ## Bytes and repetition -/

theorem lang_eps (ok : Bool) : lang ok (eps : Ragel A) = 1 := by
  ext w
  rw [Language.mem_one]
  constructor
  · rintro ⟨r, path, -⟩
    cases path with
    | nil => rfl
    | cons mem _ _ => cases mem
  · rintro rfl
    exact ⟨eps, .nil eps, rfl⟩

theorem mem_lang_byte {s : ByteSet} : w ∈ lang ok (byte s : Ragel A) ↔ ∃ c, w = [c] ∧ s.mem c = true := by
  constructor
  · rintro ⟨r, path, ends⟩
    cases path with
    | nil => cases ends
    | cons mem takes rest =>
      obtain rfl := List.mem_singleton.mp mem
      cases rest with
      | nil => exact ⟨_, rfl, takes.1⟩
      | cons mem _ _ => cases mem
  · rintro ⟨c, rfl, mem⟩
    exact ⟨eps, .cons List.mem_cons_self ⟨mem, fun conditional => by cases conditional⟩ (.nil eps), rfl⟩

theorem reaches_star_cons : Reaches ok (star a) (c :: w) r ↔
    ∃ m ∈ a.moves, m.Takes ok c ∧ Reaches ok (seq m.rest (star a)) w r := by
  rw [reaches_cons, moves]
  constructor
  · rintro ⟨m, mem, takes, path⟩
    obtain ⟨m', mem', rfl⟩ := List.mem_map.mp mem
    exact ⟨m', mem', takes, path⟩
  · rintro ⟨m, mem, takes, path⟩
    exact ⟨_, List.mem_map_of_mem mem, takes, path⟩

theorem lang_star (ok : Bool) (a : Ragel A) : lang ok (star a) = KStar.kstar (lang ok a) := by
  ext w
  constructor
  · induction length : w.length using Nat.strong_induction_on generalizing w with
    | h k ih =>
      cases w with
      | nil => exact fun _ => Language.nil_mem_kstar _
      | cons c w =>
        rintro ⟨r, path, ends⟩
        obtain ⟨m, mem, takes, path⟩ := reaches_star_cons.mp path
        have rest : w ∈ lang ok (seq m.rest (star a)) := ⟨r, path, ends⟩
        rw [lang_seq] at rest
        obtain ⟨u, ⟨r', first, ends'⟩, v, inside, rfl⟩ := Language.mem_mul.mp rest
        have later : v ∈ KStar.kstar (lang ok a) := by
          refine ih v.length ?_ v rfl inside
          rw [← length, List.length_cons, List.length_append]
          omega
        have now : c :: u ∈ lang ok a := ⟨r', .cons mem takes first, ends'⟩
        rw [← Language.one_add_self_mul_kstar_eq_kstar]
        exact Or.inr (Language.append_mem_mul now later)
  · rw [Language.mem_kstar_iff_exists_nonempty]
    rintro ⟨words, rfl, all⟩
    induction words with
    | nil => exact nil_mem_lang.mpr rfl
    | cons y words ih =>
      obtain ⟨⟨r', path, ends⟩, some⟩ := all y List.mem_cons_self
      have later := ih fun y mem => all y (List.mem_cons_of_mem _ mem)
      cases y with
      | nil => exact absurd rfl some
      | cons c y =>
        obtain ⟨m, mem, takes, first⟩ := reaches_cons.mp path
        have rest : y ++ words.flatten ∈ lang ok (seq m.rest (star a)) := by
          rw [lang_seq]
          exact Language.append_mem_mul ⟨r', first, ends⟩ later
        obtain ⟨r, path, ends⟩ := rest
        exact ⟨r, reaches_star_cons.mpr ⟨m, mem, takes, path⟩, ends⟩

/-- Bytes that are words of their own, one after the other. -/
theorem mem_lang_star_of_bytes (all : ∀ c ∈ w, [c] ∈ lang ok a) : w ∈ lang ok (star a) := by
  rw [lang_star]
  induction w with
  | nil => exact Language.nil_mem_kstar _
  | cons c w ih =>
    rw [← Language.one_add_self_mul_kstar_eq_kstar]
    have later := ih fun d mem => all d (List.mem_cons_of_mem c mem)
    exact Or.inr (Language.append_mem_mul (all c List.mem_cons_self) later)

theorem mem_lang_seq : w ∈ lang ok (seq a b) ↔ ∃ u ∈ lang ok a, ∃ v ∈ lang ok b, w = u ++ v := by
  rw [lang_seq, Language.mem_mul]
  simp only [eq_comm]

theorem mem_lang_alt : w ∈ lang ok (alt a b) ↔ w ∈ lang ok a ∨ w ∈ lang ok b := by
  rw [lang_alt, Language.mem_add]

theorem mem_lang_opt : w ∈ lang ok (opt a) ↔ w = [] ∨ w ∈ lang ok a := by
  rw [opt, mem_lang_alt, lang_eps, Language.mem_one, or_comm]

theorem lang_cat (ok : Bool) (l : List (Ragel A)) : lang ok (cat l) = (l.map (lang ok)).prod := by
  induction l with
  | nil => exact lang_eps ok
  | cons a l ih =>
    cases l with
    | nil => rw [cat, List.map_cons, List.map_nil, List.prod_cons, List.prod_nil, mul_one]
    | cons b l =>
      rw [cat, lang_seq, ih]
      rfl

theorem lang_times (ok : Bool) (n : Nat) (a : Ragel A) : lang ok (times n a) = lang ok a ^ n := by
  rw [times, lang_cat, List.map_replicate, List.prod_replicate]

theorem mem_lang_atMost (n : Nat) : ∀ {w : List UInt8}, w ∈ lang ok (atMost n a) ↔ ∃ k ≤ n, w ∈ lang ok a ^ k := by
  induction n with
  | zero =>
    intro w
    rw [atMost, lang_eps]
    simp
  | succ n ih =>
    intro w
    rw [atMost, opt, lang_alt, lang_seq, lang_eps, Language.mem_add, Language.mem_mul]
    constructor
    · rintro (⟨u, inU, v, inV, rfl⟩ | none)
      · obtain ⟨k, le, inV⟩ := ih.mp inV
        refine ⟨k + 1, Nat.succ_le_succ le, ?_⟩
        rw [pow_succ']
        exact Language.append_mem_mul inU inV
      · refine ⟨0, Nat.zero_le _, ?_⟩
        rw [pow_zero]
        exact none
    · rintro ⟨k, le, inside⟩
      cases k with
      | zero =>
        rw [pow_zero] at inside
        exact .inr inside
      | succ k =>
        rw [pow_succ'] at inside
        obtain ⟨u, inU, v, inV, rfl⟩ := Language.mem_mul.mp inside
        exact .inl ⟨u, inU, v, ih.mpr ⟨k, Nat.le_of_succ_le_succ le, inV⟩, rfl⟩

theorem mem_lang_byte_pow {s : ByteSet} (all : ∀ c ∈ w, s.mem c = true) : w ∈ lang ok (byte s : Ragel A) ^ w.length := by
  induction w with
  | nil => exact Language.mem_one _ |>.mpr rfl
  | cons c w ih =>
    rw [List.length_cons, pow_succ', Language.mem_mul]
    exact ⟨[c], mem_lang_byte.mpr ⟨c, rfl, all c List.mem_cons_self⟩, w,
      ih fun d mem => all d (List.mem_cons_of_mem c mem), rfl⟩

/-- A word of bytes of a set, whose length is between two bounds. -/
theorem mem_lang_between {s : ByteSet} {n m : Nat} (all : ∀ c ∈ w, s.mem c = true) (least : n ≤ w.length)
    (most : w.length ≤ m) : w ∈ lang ok (between n m (byte s) : Ragel A) := by
  have first : w.take n ∈ lang ok (times n (byte s) : Ragel A) := by
    have inside : w.take n ∈ lang ok (byte s : Ragel A) ^ (w.take n).length :=
      mem_lang_byte_pow fun c mem => all c (List.mem_of_mem_take mem)
    rw [lang_times]
    rwa [List.length_take_of_le least] at inside
  refine mem_lang_seq.mpr ⟨w.take n, first, w.drop n, (mem_lang_atMost _).mpr ⟨(w.drop n).length, ?_, ?_⟩,
    (List.take_append_drop n w).symm⟩
  · rw [List.length_drop]
    omega
  · exact mem_lang_byte_pow fun c mem => all c (List.mem_of_mem_drop mem)

theorem mem_lang_char : w ∈ lang ok (char c : Ragel A) ↔ w = [c] := by
  simp [char, mem_lang_byte, ByteSet.mem_single]

theorem mem_lang_lit (s : String) : w ∈ lang ok (lit s : Ragel A) ↔ w = s.toList.map fun c => UInt8.ofNat c.toNat := by
  have chars : ∀ (l : List Char) (w : List UInt8),
      w ∈ lang ok (cat (l.map fun c => char (UInt8.ofNat c.toNat)) : Ragel A) ↔
        w = l.map fun c => UInt8.ofNat c.toNat := by
    intro l
    induction l with
    | nil =>
      intro w
      rw [List.map_nil, List.map_nil, cat, lang_eps, Language.mem_one]
    | cons c l ih =>
      intro w
      cases l with
      | nil => exact mem_lang_char
      | cons d l =>
        rw [List.map_cons, List.map_cons, cat, mem_lang_seq]
        rw [List.map_cons] at ih
        simp only [mem_lang_char, ih, exists_eq_left, List.map_cons, List.cons_append, List.nil_append]
  exact chars s.toList w

theorem reaches_onlyIf (w : List UInt8) : ∀ {a : Ragel A}, Reaches ok (onlyIf a) w r ↔
    ∃ r', Reaches ok a w r' ∧ r = onlyIf r' ∧ (w ≠ [] → ok = true) := by
  induction w with
  | nil =>
    intro a
    simp [reaches_nil]
  | cons c w ih =>
    intro a
    simp only [reaches_cons, moves, List.mem_map]
    constructor
    · rintro ⟨m, ⟨m', mem, rfl⟩, ⟨on, holds⟩, path⟩
      obtain ⟨r', path', eq, -⟩ := ih.mp path
      exact ⟨r', ⟨m', mem, ⟨on, fun _ => holds rfl⟩, path'⟩, eq, fun _ => holds rfl⟩
    · rintro ⟨r', ⟨m, mem, takes, path⟩, eq, holds⟩
      have isOk := holds (List.cons_ne_nil c w)
      exact ⟨_, ⟨m, mem, rfl⟩, ⟨takes.1, fun _ => isOk⟩, ih.mpr ⟨r', path, eq, fun _ => isOk⟩⟩

theorem mem_lang_onlyIf : w ∈ lang ok (onlyIf a) ↔ w ∈ lang ok a ∧ (w ≠ [] → ok = true) := by
  constructor
  · rintro ⟨r, path, ends⟩
    obtain ⟨r', path', rfl, holds⟩ := (reaches_onlyIf w).mp path
    exact ⟨⟨r', path', ends⟩, holds⟩
  · rintro ⟨⟨r, path, ends⟩, holds⟩
    exact ⟨onlyIf r, (reaches_onlyIf w).mpr ⟨r, path, rfl, holds⟩, ends⟩

/-! ## Actions -/

theorem reaches_enter : Reaches ok (enter n y a) w r ↔
    w = [] ∧ r = enter n y a ∨ w ≠ [] ∧ Reaches ok a w r := by
  cases w with
  | nil => simp [reaches_nil]
  | cons c w =>
    simp only [reaches_cons, moves, List.mem_map, List.cons_ne_nil, false_and, false_or, ne_eq,
      not_false_eq_true, true_and]
    constructor
    · rintro ⟨m, ⟨m', mem, rfl⟩, takes, path⟩
      exact ⟨m', mem, takes, path⟩
    · rintro ⟨m, mem, takes, path⟩
      exact ⟨_, ⟨m, mem, rfl⟩, takes, path⟩

theorem nullable_enter : (enter n y a).nullable.isSome = a.nullable.isSome := by
  rw [nullable, Option.isSome_map]

theorem lang_enter (ok : Bool) (n : Nat) (y : A) (a : Ragel A) : lang ok (enter n y a) = lang ok a := by
  ext w
  cases w with
  | nil => rw [nil_mem_lang, nil_mem_lang, nullable_enter]
  | cons c w =>
    refine exists_congr fun r => and_congr_left fun _ => ?_
    rw [reaches_enter]
    simp

theorem fires_enter : Fires ok (enter n y a) w c x ↔
    Fires ok a w c x ∨ w = [] ∧ x = (n, y) ∧ Starts ok a c := by
  cases w with
  | nil =>
    simp only [Fires, reaches_nil, exists_eq_left, true_and, moves, List.mem_map]
    constructor
    · rintro ⟨m, ⟨m', mem, rfl⟩, takes, act⟩
      rcases List.mem_cons.mp act with rfl | act
      · exact .inr ⟨rfl, m', mem, takes⟩
      · exact .inl ⟨m', mem, takes, act⟩
    · rintro (⟨m, mem, takes, act⟩ | ⟨rfl, m, mem, takes⟩)
      · exact ⟨_, ⟨m, mem, rfl⟩, takes, List.mem_cons_of_mem _ act⟩
      · exact ⟨_, ⟨m, mem, rfl⟩, takes, List.mem_cons_self⟩
  | cons c' w => simp [Fires, reaches_enter]

theorem exits_enter : Exits ok (enter n y a) w x ↔
    Exits ok a w x ∨ w = [] ∧ x = (n, y) ∧ [] ∈ lang ok a := by
  cases w with
  | nil =>
    simp only [Exits, reaches_nil, exists_eq_left, true_and, nil_mem_lang, nullable]
    cases a.nullable with
    | none => simp
    | some l => simp [or_comm]
  | cons c w => simp [Exits, reaches_enter]

theorem nullable_leave : (leave n y a).nullable.isSome = a.nullable.isSome := by
  rw [nullable, Option.isSome_map]

theorem reaches_leave (w : List UInt8) : ∀ {a : Ragel A}, Reaches ok (leave n y a) w r ↔
    ∃ r', Reaches ok a w r' ∧ r = leave n y r' := by
  induction w with
  | nil =>
    intro a
    simp [reaches_nil]
  | cons c w ih =>
    intro a
    simp only [reaches_cons, moves, List.mem_map]
    constructor
    · rintro ⟨m, ⟨m', mem, rfl⟩, takes, path⟩
      obtain ⟨r', path', eq⟩ := ih.mp path
      exact ⟨r', ⟨m', mem, takes, path'⟩, eq⟩
    · rintro ⟨r', ⟨m, mem, takes, path⟩, eq⟩
      exact ⟨_, ⟨m, mem, rfl⟩, takes, ih.mpr ⟨r', path, eq⟩⟩

theorem lang_leave (ok : Bool) (n : Nat) (y : A) (a : Ragel A) : lang ok (leave n y a) = lang ok a := by
  ext w
  constructor
  · rintro ⟨r, path, ends⟩
    obtain ⟨r', path', rfl⟩ := (reaches_leave w).mp path
    exact ⟨r', path', nullable_leave ▸ ends⟩
  · rintro ⟨r, path, ends⟩
    refine ⟨leave n y r, (reaches_leave w).mpr ⟨r, path, rfl⟩, ?_⟩
    rw [nullable_leave]
    exact ends

theorem fires_leave : Fires ok (leave n y a) w c x ↔ Fires ok a w c x := by
  constructor
  · rintro ⟨r, path, m, mem, takes, act⟩
    obtain ⟨r', path', rfl⟩ := (reaches_leave w).mp path
    obtain ⟨m', mem', rfl⟩ := List.mem_map.mp mem
    exact ⟨r', path', m', mem', takes, act⟩
  · rintro ⟨r, path, m, mem, takes, act⟩
    exact ⟨leave n y r, (reaches_leave w).mpr ⟨r, path, rfl⟩, _, List.mem_map_of_mem mem, takes, act⟩

theorem exits_leave : Exits ok (leave n y a) w x ↔ Exits ok a w x ∨ x = (n, y) ∧ w ∈ lang ok a := by
  constructor
  · rintro ⟨r, path, l, ends, left⟩
    obtain ⟨r', path', rfl⟩ := (reaches_leave w).mp path
    obtain ⟨l', ends', rfl⟩ := Option.map_eq_some_iff.mp ends
    rcases List.mem_append.mp left with left | left
    · exact .inl ⟨r', path', l', ends', left⟩
    · exact .inr ⟨List.mem_singleton.mp left, r', path', by rw [ends']; rfl⟩
  · rintro (⟨r, path, l, ends, left⟩ | ⟨rfl, r, path, ends⟩)
    · exact ⟨leave n y r, (reaches_leave w).mpr ⟨r, path, rfl⟩, l ++ [(n, y)],
        Option.map_eq_some_iff.mpr ⟨l, ends, rfl⟩, List.mem_append_left _ left⟩
    · obtain ⟨l, ends⟩ := Option.isSome_iff_exists.mp ends
      exact ⟨leave n y r, (reaches_leave w).mpr ⟨r, path, rfl⟩, l ++ [(n, y)],
        Option.map_eq_some_iff.mpr ⟨l, ends, rfl⟩, List.mem_append_right l List.mem_cons_self⟩

theorem reaches_finish (w : List UInt8) : ∀ {a : Ragel A}, Reaches ok (finish n y a) w r ↔
    ∃ r', Reaches ok a w r' ∧ r = finish n y r' := by
  induction w with
  | nil =>
    intro a
    simp [reaches_nil]
  | cons c w ih =>
    intro a
    simp only [reaches_cons, moves, List.mem_map]
    constructor
    · rintro ⟨m, ⟨m', mem, rfl⟩, takes, path⟩
      split at takes
      · rename_i ends
        rw [if_pos ends] at path
        obtain ⟨r', path', eq⟩ := ih.mp path
        exact ⟨r', ⟨m', mem, takes, path'⟩, eq⟩
      · rename_i goesOn
        rw [if_neg goesOn] at path
        obtain ⟨r', path', eq⟩ := ih.mp path
        exact ⟨r', ⟨m', mem, takes, path'⟩, eq⟩
    · rintro ⟨r', ⟨m, mem, takes, path⟩, eq⟩
      refine ⟨_, ⟨m, mem, rfl⟩, ?_, ?_⟩
      · split <;> exact takes
      · split <;> exact ih.mpr ⟨r', path, eq⟩

theorem lang_finish (ok : Bool) (n : Nat) (y : A) (a : Ragel A) : lang ok (finish n y a) = lang ok a := by
  ext w
  constructor
  · rintro ⟨r, path, ends⟩
    obtain ⟨r', path', rfl⟩ := (reaches_finish w).mp path
    exact ⟨r', path', ends⟩
  · rintro ⟨r, path, ends⟩
    exact ⟨finish n y r, (reaches_finish w).mpr ⟨r, path, rfl⟩, ends⟩

/-! ## Alphabets -/

/-- The bytes an expression can read. -/
def uses : Ragel A → ByteSet
  | eps => ⟨0⟩
  | byte s => s
  | seq a b | alt a b | guard _ a b | guardEnd _ a b => a.uses.union b.uses
  | star a | enter _ _ a | leave _ _ a | finish _ _ a | ending _ a | onlyIf a => a.uses

/-- The bytes an expression can begin with. -/
def startSet : Ragel A → ByteSet
  | eps => ⟨0⟩
  | byte s => s
  | seq a b | guard _ a b | guardEnd _ a b =>
    if a.nullable.isSome then a.startSet.union b.startSet else a.startSet
  | alt a b => a.startSet.union b.startSet
  | star a | enter _ _ a | leave _ _ a | finish _ _ a | ending _ a | onlyIf a => a.startSet

/-- No guards: every way of reading is followed to its end. -/
def plain : Ragel A → Bool
  | eps | byte _ => true
  | seq a b | alt a b => a.plain && b.plain
  | guard .. | guardEnd .. | ending .. => false
  | star a | enter _ _ a | leave _ _ a | finish _ _ a | onlyIf a => a.plain

/-- What a move of an expression keeps: no guards, no new bytes, and no actions where there are none. -/
structure Move.Within (e : Ragel A) (m : Move A) : Prop where
  plain : m.rest.plain = true
  priorities : m.priorities = []
  start : ∀ c, m.on.mem c = true → e.startSet.mem c = true
  on : ∀ c, m.on.mem c = true → e.uses.mem c = true
  uses : ∀ c, m.rest.uses.mem c = true → e.uses.mem c = true
  quiet : e.size = 0 → m.actions = [] ∧ m.rest.size = 0

theorem nullable_of_quiet (quiet : e.size = 0) {l : List (Nat × A)} (ends : e.nullable = some l) : l = [] := by
  induction e generalizing l with
  | eps =>
    cases ends
    rfl
  | byte s => cases ends
  | seq a b iha ihb | guard _ a b iha ihb | guardEnd _ a b iha ihb =>
    have sizes : a.size = 0 ∧ b.size = 0 := Nat.add_eq_zero_iff.mp quiet
    rw [nullable] at ends
    split at ends
    · rename_i l₁ l₂ ends₁ ends₂
      obtain rfl := Option.some.inj ends
      rw [iha sizes.1 ends₁, ihb sizes.2 ends₂]
      rfl
    · cases ends
  | alt a b iha ihb =>
    have sizes : a.size = 0 ∧ b.size = 0 := Nat.add_eq_zero_iff.mp quiet
    rw [nullable] at ends
    split at ends
    · rename_i l₁ l₂ ends₁ ends₂
      obtain rfl := Option.some.inj ends
      rw [iha sizes.1 ends₁, ihb sizes.2 ends₂]
      rfl
    · rename_i l₁ ends₁ _
      obtain rfl := Option.some.inj ends
      exact iha sizes.1 ends₁
    · exact ihb sizes.2 ends
  | star a iha =>
    rw [nullable] at ends
    obtain rfl := Option.some.inj ends
    cases nothing : a.nullable with
    | none => rfl
    | some l => exact iha quiet nothing
  | enter n y a => cases quiet
  | leave n y a => cases quiet
  | finish n y a => cases quiet
  | ending k a iha | onlyIf a iha => exact iha quiet ends

theorem moves_within (isPlain : e.plain = true) {m : Move A} (mem : m ∈ e.moves) : m.Within e := by
  induction e generalizing m with
  | eps => cases mem
  | byte s =>
    obtain rfl := List.mem_singleton.mp mem
    exact ⟨rfl, rfl, fun _ on => on, fun _ on => on, fun c on => absurd on (by
      rw [uses, ByteSet.not_mem_empty]; exact Bool.false_ne_true), fun _ => ⟨rfl, rfl⟩⟩
  | seq a b iha ihb =>
    obtain ⟨plainA, plainB⟩ := Bool.and_eq_true_iff.mp isPlain
    have left : ∀ c, a.uses.mem c = true → (seq a b).uses.mem c = true := fun c on => by
      rw [uses, ByteSet.mem_union, on, Bool.true_or]
    have right : ∀ c, b.uses.mem c = true → (seq a b).uses.mem c = true := fun c on => by
      rw [uses, ByteSet.mem_union, on, Bool.or_true]
    have sizes : (seq a b).size = 0 → a.size = 0 ∧ b.size = 0 := fun quiet => Nat.add_eq_zero_iff.mp quiet
    rcases mem_moves_seq.mp mem with ⟨m', mem', rfl⟩ | ⟨l, ends, m', mem', rfl⟩
    · have h := iha plainA mem'
      refine ⟨Bool.and_eq_true_iff.mpr ⟨h.plain, plainB⟩, h.priorities, fun c on => ?_,
        fun c on => left c (h.on c on), fun c on => ?_, fun quiet => ?_⟩
      · rw [startSet]
        split
        · rw [ByteSet.mem_union, h.start c on, Bool.true_or]
        · exact h.start c on
      · have either : (m'.rest.uses.mem c || b.uses.mem c) = true := (ByteSet.mem_union ..).symm.trans on
        rcases Bool.or_eq_true_iff.mp either with on | on
        · exact left c (h.uses c on)
        · exact right c on
      · obtain ⟨none, rest⟩ := h.quiet (sizes quiet).1
        exact ⟨none, Nat.add_eq_zero_iff.mpr ⟨rest, (sizes quiet).2⟩⟩
    · have h := ihb plainB mem'
      refine ⟨h.plain, h.priorities, fun c on => ?_, fun c on => right c (h.on c on),
        fun c on => right c (h.uses c on), fun quiet => ?_⟩
      · rw [startSet, ends]
        exact (ByteSet.mem_union ..).trans (by rw [h.start c on, Bool.or_true])
      · obtain ⟨none, rest⟩ := h.quiet (sizes quiet).2
        refine ⟨?_, rest⟩
        rw [nullable_of_quiet (sizes quiet).1 ends]
        exact none
  | alt a b iha ihb =>
    obtain ⟨plainA, plainB⟩ := Bool.and_eq_true_iff.mp isPlain
    have sizes : (alt a b).size = 0 → a.size = 0 ∧ b.size = 0 := fun quiet => Nat.add_eq_zero_iff.mp quiet
    rcases List.mem_append.mp mem with mem' | mem'
    · have h := iha plainA mem'
      refine ⟨h.plain, h.priorities, fun c on => ?_, fun c on => ?_, fun c on => ?_,
        fun quiet => h.quiet (sizes quiet).1⟩
      · rw [startSet, ByteSet.mem_union, h.start c on, Bool.true_or]
      · rw [uses, ByteSet.mem_union, h.on c on, Bool.true_or]
      · rw [uses, ByteSet.mem_union, h.uses c on, Bool.true_or]
    · have h := ihb plainB mem'
      refine ⟨h.plain, h.priorities, fun c on => ?_, fun c on => ?_, fun c on => ?_,
        fun quiet => h.quiet (sizes quiet).2⟩
      · rw [startSet, ByteSet.mem_union, h.start c on, Bool.or_true]
      · rw [uses, ByteSet.mem_union, h.on c on, Bool.or_true]
      · rw [uses, ByteSet.mem_union, h.uses c on, Bool.or_true]
  | star a iha =>
    obtain ⟨m', mem', rfl⟩ := List.mem_map.mp mem
    have h := iha isPlain mem'
    refine ⟨Bool.and_eq_true_iff.mpr ⟨h.plain, isPlain⟩, h.priorities, h.start, h.on, fun c on => ?_,
      fun quiet => ⟨(h.quiet quiet).1, Nat.add_eq_zero_iff.mpr ⟨(h.quiet quiet).2, quiet⟩⟩⟩
    have either : (m'.rest.uses.mem c || a.uses.mem c) = true := (ByteSet.mem_union ..).symm.trans on
    rcases Bool.or_eq_true_iff.mp either with on | on
    · exact h.uses c on
    · exact on
  | enter n y a iha =>
    obtain ⟨m', mem', rfl⟩ := List.mem_map.mp mem
    have h := iha isPlain mem'
    exact ⟨h.plain, h.priorities, h.start, h.on, h.uses, fun quiet => by cases quiet⟩
  | leave n y a iha =>
    obtain ⟨m', mem', rfl⟩ := List.mem_map.mp mem
    have h := iha isPlain mem'
    exact ⟨h.plain, h.priorities, h.start, h.on, h.uses, fun quiet => by cases quiet⟩
  | finish n y a iha =>
    obtain ⟨m', mem', rfl⟩ := List.mem_map.mp mem
    have h := iha isPlain mem'
    split
    · exact ⟨h.plain, h.priorities, h.start, h.on, h.uses, fun quiet => by cases quiet⟩
    · exact ⟨h.plain, h.priorities, h.start, h.on, h.uses, fun quiet => by cases quiet⟩
  | guard _ a b | guardEnd _ a b | ending _ a => cases isPlain
  | onlyIf a iha =>
    obtain ⟨m', mem', rfl⟩ := List.mem_map.mp mem
    have h := iha isPlain mem'
    exact ⟨h.plain, h.priorities, h.start, h.on, h.uses, h.quiet⟩

/-- What a path keeps. -/
theorem reaches_within (isPlain : e.plain = true) (path : Reaches ok e w r) :
    r.plain = true ∧ (∀ c, r.uses.mem c = true → e.uses.mem c = true) ∧
      (∀ c ∈ w, e.uses.mem c = true) ∧ (e.size = 0 → r.size = 0) := by
  induction path with
  | nil e => exact ⟨isPlain, fun _ on => on, fun c mem => absurd mem List.not_mem_nil, id⟩
  | cons mem takes _ ih =>
    have h := moves_within isPlain mem
    obtain ⟨plain, uses, bytes, quiet⟩ := ih h.plain
    refine ⟨plain, fun c on => h.uses c (uses c on), fun c mem => ?_, fun none => quiet (h.quiet none).2⟩
    rcases List.mem_cons.mp mem with rfl | mem
    · exact h.on c takes.1
    · exact h.uses c (bytes c mem)

theorem mem_uses_of_mem_lang (isPlain : e.plain = true) (inside : w ∈ lang ok e) :
    ∀ c ∈ w, e.uses.mem c = true := by
  obtain ⟨r, path, -⟩ := inside
  exact (reaches_within isPlain path).2.2.1

theorem not_mem_of_mem_lang (isPlain : e.plain = true) (unread : e.uses.mem c = false) (inside : w ∈ lang ok e) :
    c ∉ w := by
  intro mem
  rw [mem_uses_of_mem_lang isPlain inside c mem] at unread
  cases unread

theorem mem_uses_of_fires (isPlain : e.plain = true) (fires : Fires ok e w c x) :
    (∀ c' ∈ w, e.uses.mem c' = true) ∧ e.uses.mem c = true := by
  obtain ⟨r, path, m, mem, takes, -⟩ := fires
  obtain ⟨plain, uses, bytes, -⟩ := reaches_within isPlain path
  exact ⟨bytes, uses c ((moves_within plain mem).on c takes.1)⟩

theorem mem_startSet_of_starts (isPlain : e.plain = true) (starts : Starts ok e c) : e.startSet.mem c = true := by
  obtain ⟨m, mem, takes⟩ := starts
  exact (moves_within isPlain mem).start c takes.1

theorem starts_of_mem_lang (inside : c :: w ∈ lang ok e) : Starts ok e c := by
  obtain ⟨r, path, -⟩ := inside
  obtain ⟨m, mem, takes, -⟩ := reaches_cons.mp path
  exact ⟨m, mem, takes⟩

theorem mem_startSet_of_mem_lang (isPlain : e.plain = true) (inside : c :: w ∈ lang ok e) :
    e.startSet.mem c = true :=
  mem_startSet_of_starts isPlain (starts_of_mem_lang inside)

/-- What executes something on its way has begun with the first byte. -/
theorem Fires.starts {d : UInt8} {z y : List UInt8} (fires : Fires ok e w c x) (eq : w ++ c :: z = d :: y) :
    Starts ok e d := by
  obtain ⟨r, path, m, mem, takes, -⟩ := fires
  cases path with
  | nil =>
    obtain ⟨rfl, -⟩ := List.cons.inj eq
    exact ⟨m, mem, takes⟩
  | cons mem' takes' _ =>
    obtain ⟨rfl, -⟩ := List.cons.inj eq
    exact ⟨_, mem', takes'⟩

theorem not_fires_of_quiet (isPlain : e.plain = true) (quiet : e.size = 0) : ¬ Fires ok e w c x := by
  rintro ⟨r, path, m, mem, -, act⟩
  obtain ⟨plain, -, -, rest⟩ := reaches_within isPlain path
  rw [((moves_within plain mem).quiet (rest quiet)).1] at act
  cases act

theorem not_exits_of_quiet (isPlain : e.plain = true) (quiet : e.size = 0) : ¬ Exits ok e w x := by
  rintro ⟨r, path, l, ends, left⟩
  rw [nullable_of_quiet ((reaches_within isPlain path).2.2.2 quiet) ends] at left
  cases left

end Ragel

end Sylar.Lib
