import Sylar.Lib.Trace

/-!
# Reading in stages

Where a machine has guards its paths are not all followed to their ends, and the rules for traces do not
apply. Its run is then followed stage by stage: `Reads` is a run on a word that does not finish before its
end. A stage that takes any byte of a set does not depend on which one it is (`goes_of_tries`), so that the
bytes of a stage are tried on one of them; and an expression in a context that goes on behind it is read as it
is alone (`Reads.context`).
-/

namespace Sylar.Lib.Ragel

variable {A : Type} {ok : Bool} {st st' st₁ : State A} {c : UInt8} {as : List A} {s : ByteSet}

/-! ## Sets of bytes -/

/-- No move of a state tells the bytes of a set apart. -/
def alike (s : ByteSet) (st : State A) : Bool :=
  (st.flatMap moves).all fun m => s.subset m.on || s.disjoint m.on

theorem taken_of_alike {d : UInt8} (same : alike s st = true) (here : s.mem c = true) (there : s.mem d = true) :
    taken ok st c = taken ok st d := by
  have on : ∀ m ∈ st.flatMap moves, m.on.mem c = m.on.mem d := by
    intro m mem
    rcases Bool.or_eq_true_iff.mp (List.all_eq_true.mp same m mem) with le | apart
    · rw [ByteSet.mem_of_subset le here, ByteSet.mem_of_subset le there]
    · rw [ByteSet.not_mem_of_disjoint apart here, ByteSet.not_mem_of_disjoint apart there]
  have possible : ((st.flatMap moves).filter fun m => m.on.mem c && (!m.conditional || ok)) =
      (st.flatMap moves).filter fun m => m.on.mem d && (!m.conditional || ok) :=
    List.filter_congr fun m mem => by rw [on m mem]
  rw [taken, taken, possible]

variable [DecidableEq A]

theorem step_congr {d : UInt8} (same : taken ok st c = taken ok st' d) : step ok st c = step ok st' d := by
  rw [step, step, same]

/-- On every byte of a set a state goes to the same state, with the same actions. -/
def Goes (ok : Bool) (st : State A) (s : ByteSet) (st' : State A) (as : List A) : Prop :=
  ∀ c, s.mem c = true → step ok st c = some (st', as)

/-- One of the bytes of a set, tried for all of them. -/
def tries (ok : Bool) (st : State A) (s : ByteSet) (c : UInt8) : Option (State A × List A) :=
  if alike s st && s.mem c then step ok st c else none

theorem goes_of_tries (c : UInt8) (tried : tries ok st s c = some (st', as)) : Goes ok st s st' as := by
  rw [tries] at tried
  split at tried
  · rename_i both
    obtain ⟨same, there⟩ := Bool.and_eq_true_iff.mp both
    intro d here
    rw [← tried]
    exact step_congr (taken_of_alike same here there)
  · cases tried

/-- The moves that a byte is not on do not matter. -/
theorem step_of_moves {l : List (Move A)} (parts : st.flatMap moves = st₁.flatMap moves ++ l)
    (away : ∀ m ∈ l, m.on.mem c = false) : step ok st c = step ok st₁ c := by
  have none : (l.filter fun m => m.on.mem c && (!m.conditional || ok)) = [] := by
    rw [List.filter_eq_nil_iff]
    intro m mem
    rw [away m mem]
    exact Bool.false_ne_true
  refine step_congr ?_
  rw [taken, taken, parts, List.filter_append, none, List.append_nil]

theorem step_nodup (next : step ok st c = some (st', as)) : st'.Nodup := by
  unfold step at next
  split at next
  · cases next
  · obtain ⟨rfl, -⟩ := Prod.mk.inj (Option.some.inj next)
    exact nodup_eraseDups _

/-- Where one way of reading alone can go on with a byte, the others do not matter. -/
theorem step_of_only {e : Ragel A} (nodup : st.Nodup) (mem : e ∈ st)
    (others : ∀ r ∈ st, r ≠ e → ∀ m ∈ r.moves, m.on.mem c = false) : step ok st c = step ok [e] c := by
  have none : ∀ r ∈ st, r ≠ e → (r.moves.filter fun m => m.on.mem c && (!m.conditional || ok)) = [] := by
    intro r mem ne
    rw [List.filter_eq_nil_iff]
    intro m moved
    rw [others r mem ne m moved]
    exact Bool.false_ne_true
  have possible : ((st.flatMap moves).filter fun m => m.on.mem c && (!m.conditional || ok)) =
      ([e].flatMap moves).filter fun m => m.on.mem c && (!m.conditional || ok) := by
    rw [List.flatMap_singleton, List.filter_flatMap]
    clear others
    induction st with
    | nil => cases mem
    | cons r st ih =>
      obtain ⟨first, rest⟩ := List.nodup_cons.mp nodup
      rw [List.flatMap_cons]
      by_cases here : r = e
      · subst here
        rw [List.flatMap_eq_nil_iff.mpr, List.append_nil]
        intro r' mem'
        exact none r' (List.mem_cons_of_mem r mem') fun same => first (same ▸ mem')
      · rw [none r List.mem_cons_self here, List.nil_append]
        exact ih rest ((List.mem_cons.mp mem).resolve_left fun same => here same.symm) fun r' mem' =>
          none r' (List.mem_cons_of_mem r mem')
  refine step_congr ?_
  rw [taken, taken, possible]

/-- On a byte whose moves have no condition, execute nothing and do not beat each other, all of them are taken. -/
theorem step_of_quiet {m₀ : Move A} (first : m₀ ∈ st.flatMap moves) (on : m₀.on.mem c = true)
    (quiet : ∀ m ∈ st.flatMap moves, m.on.mem c = true →
      m.conditional = false ∧ m.actions = [] ∧ ∀ x ∈ m.priorities, x.2 = 0) :
    ∃ st', step ok st c = some (st', []) ∧ st'.Nodup ∧
      ∀ r, r ∈ st' ↔ ∃ m ∈ st.flatMap moves, m.on.mem c = true ∧ m.rest = r := by
  have mem : ∀ m, m ∈ taken ok st c ↔ m ∈ st.flatMap moves ∧ m.on.mem c = true := by
    intro m
    rw [taken, List.mem_filter, List.mem_filter]
    constructor
    · rintro ⟨⟨moved, fits⟩, -⟩
      exact ⟨moved, (Bool.and_eq_true_iff.mp fits).1⟩
    · rintro ⟨moved, on⟩
      refine ⟨⟨moved, by rw [on, (quiet m moved on).1]; rfl⟩, ?_⟩
      rw [Bool.not_eq_true', Move.beaten, List.any_eq_false]
      intro m' possible beats
      obtain ⟨moved', fits'⟩ := List.mem_filter.mp possible
      obtain ⟨high, inHigh, beats⟩ := List.any_eq_true.mp beats
      obtain ⟨low, -, beats⟩ := List.any_eq_true.mp beats
      have level := (quiet m' moved' (Bool.and_eq_true_iff.mp fits').1).2.2 high inHigh
      have lt := of_decide_eq_true (Bool.and_eq_true_iff.mp beats).2
      omega
  have acts : actionsOf (taken ok st c) = [] := by
    refine List.eq_nil_iff_forall_not_mem.mpr fun a inside => ?_
    obtain ⟨m, took, k, act⟩ := mem_actionsOf.mp inside
    obtain ⟨moved, on⟩ := (mem m).mp took
    rw [(quiet m moved on).2.1] at act
    cases act
  have took := (mem m₀).mpr ⟨first, on⟩
  cases eq : taken ok st c with
  | nil =>
    rw [eq] at took
    cases took
  | cons m ms =>
    have next : step ok st c = some (((taken ok st c).map Move.rest).eraseDups, []) := by
      rw [← acts, step, eq]
    refine ⟨_, next, nodup_eraseDups _, fun r => ?_⟩
    rw [List.mem_eraseDups, List.mem_map]
    constructor
    · rintro ⟨m, took, rest⟩
      obtain ⟨moved, on⟩ := (mem m).mp took
      exact ⟨m, moved, on, rest⟩
    · rintro ⟨m, moved, on, rest⟩
      exact ⟨m, (mem m).mpr ⟨moved, on⟩, rest⟩

/-! ## Stages -/

/-- A run on a word from a position on, which is not finished before the end of the word. -/
inductive Reads (ok : Bool) : State A → Nat → List UInt8 → State A → List (A × Nat) → Prop where
  | nil (st : State A) (p : Nat) : Reads ok st p [] st []
  | cons {st st' st₁ : State A} {p : Nat} {c : UInt8} {w : List UInt8} {as : List A} {trace : List (A × Nat)} :
      final st = false → step ok st c = some (st₁, as) → Reads ok st₁ (p + 1) w st' trace →
      Reads ok st p (c :: w) st' (as.map (·, p) ++ trace)

namespace Reads

variable {st₂ : State A} {p : Nat} {w v : List UInt8} {trace trace' : List (A × Nat)} {breaks : A → Bool}

theorem one (running : final st = false) (next : step ok st c = some (st', as)) :
    Reads ok st p [c] st' (as.map (·, p)) := by
  rw [← List.append_nil (as.map _)]
  exact .cons running next (.nil st' (p + 1))

theorem append (first : Reads ok st p w st₁ trace) (second : Reads ok st₁ (p + w.length) v st₂ trace') :
    Reads ok st p (w ++ v) st₂ (trace ++ trace') := by
  induction first with
  | nil st p => exact second
  | cons running next _ ih =>
    rw [List.length_cons, Nat.add_comm _ 1, ← Nat.add_assoc] at second
    rw [List.append_assoc]
    exact .cons running next (ih second)

/-- Bytes on which a machine stays in some states and executes nothing. -/
theorem loop {Stays : State A → Prop} (running : ∀ st, Stays st → final st = false)
    (stays : ∀ st, Stays st → ∀ c ∈ w, ∃ st', Stays st' ∧ step ok st c = some (st', [])) :
    ∀ {st : State A} {p : Nat}, Stays st → ∃ st', Stays st' ∧ Reads ok st p w st' [] := by
  induction w with
  | nil => exact fun {st} {p} here => ⟨st, here, .nil st p⟩
  | cons c w ih =>
    intro st p here
    obtain ⟨st₁, here₁, next⟩ := stays st here c List.mem_cons_self
    obtain ⟨st', here', rest⟩ := ih (fun st here d mem => stays st here d (List.mem_cons_of_mem c mem)) here₁
    exact ⟨st', here', .cons (running st here) next rest⟩

theorem nodup (reads : Reads ok st p w st' trace) (start : st.Nodup) : st'.Nodup := by
  induction reads with
  | nil st p => exact start
  | cons _ next _ ih => exact ih (step_nodup next)

/-- A scan of a word that is read executes its trace. -/
theorem scan (reads : Reads ok st p w st' trace) (quiet : ∀ x ∈ trace, breaks x.1 = false) :
    Scan.scan (step ok) breaks st p w = ⟨some st', p + w.length, false, trace⟩ := by
  induction reads with
  | nil st p => rfl
  | @cons st st' st₁ p c w as trace _ next _ ih =>
    have running : as.any breaks = false := by
      rw [List.any_eq_false]
      intro a mem
      rw [quiet (a, p) (List.mem_append_left _ (List.mem_map_of_mem mem))]
      exact Bool.false_ne_true
    rw [Scan.scan_cons_next next running, ih fun x mem => quiet x (List.mem_append_right _ mem), List.length_cons,
      Nat.add_comm w.length, ← Nat.add_assoc]
    rfl

end Reads

/-- A scan that neither fails nor is in a final state before the end reads the word. -/
theorem reads_of_scan (w : List UInt8) : ∀ {st : State A} {p stop : Nat} {trace : List (A × Nat)},
    Scan.scan (step ok) (fun _ => false) st p w = ⟨some st', stop, false, trace⟩ →
    (∀ u v st₁, w = u ++ v → v ≠ [] → (Scan.scan (step ok) (fun _ => false) st p u).state = some st₁ →
      final st₁ = false) → Reads ok st p w st' trace := by
  induction w with
  | nil =>
    intro st p stop trace scan _
    obtain ⟨state, -, -, none⟩ := Scan.mk.inj scan
    obtain rfl := Option.some.inj state
    rw [← none]
    exact .nil st p
  | cons c w ih =>
    intro st p stop trace scan running
    cases next : step ok st c with
    | none =>
      rw [Scan.scan_cons_none next] at scan
      cases (Scan.mk.inj scan).1
    | some target =>
      obtain ⟨st₁, as⟩ := target
      have quiet : as.any (fun _ => false) = false := by simp
      rw [Scan.scan_cons_next next quiet] at scan
      obtain ⟨state, stop', broke, all⟩ := Scan.mk.inj scan
      have rest : Scan.scan (step ok) (fun _ => false) st₁ (p + 1) w =
          ⟨some st', stop, false, (Scan.scan (step ok) (fun _ => false) st₁ (p + 1) w).trace⟩ := by
        rw [Scan.mk.injEq]
        exact ⟨state, stop', broke, rfl⟩
      rw [← all]
      refine .cons (running [] (c :: w) st rfl (List.cons_ne_nil c w) rfl) next (ih rest ?_)
      · rintro u v st₂ rfl more reached
        refine running (c :: u) v st₂ rfl more ?_
        rw [Scan.scan_cons_next next quiet]
        exact reached

/-! ## Contexts -/

/-- What is put around an expression and goes on behind it. -/
structure IsContext (context : Ragel A → Ragel A) : Prop where
  injective : Function.Injective context
  nullable : ∀ e : Ragel A, e.nullable = none → (context e).nullable = none
  moves : ∀ e : Ragel A, e.nullable = none → (context e).moves = e.moves.map (Move.goTo context)

omit [DecidableEq A] in
/-- The finishing action of a concatenation waits for its second part. -/
theorem isContext_finish (n : Nat) (x : A) {b : Ragel A} (more : b.nullable = none) :
    IsContext fun e => finish n x (seq e b) where
  injective a a' eq := (seq.inj (finish.inj eq).2.2).1
  nullable e none := by rw [Ragel.nullable, Ragel.nullable, none]
  moves e none := by
    rw [Ragel.moves, Ragel.moves, none, List.append_nil, List.map_map]
    refine List.map_congr_left fun m _ => ?_
    have open' : (Move.goTo (seq · b) m).rest.nullable = Option.none := by
      change (seq m.rest b).nullable = Option.none
      rw [Ragel.nullable, more]
      cases m.rest.nullable <;> rfl
    rw [Function.comp_apply, open', Option.isSome_none, if_neg Bool.false_ne_true]
    rfl

section Context

variable {around : Ragel A → Ragel A} {p : Nat} {w : List UInt8} {trace : List (A × Nat)}

omit [DecidableEq A] in
theorem nullable_of_final {e : Ragel A} (running : final st = false) (mem : e ∈ st) : e.nullable = none := by
  rw [final, List.any_eq_false] at running
  simpa using running e mem

omit [DecidableEq A] in
theorem IsContext.taken (isContext : IsContext around) (running : final st = false) :
    taken ok (st.map around) c = (Ragel.taken ok st c).map (Move.goTo around) := by
  have all : (st.map around).flatMap Ragel.moves = (st.flatMap Ragel.moves).map (Move.goTo around) := by
    rw [List.flatMap_map, List.map_flatMap]
    refine List.flatMap_congr fun e mem => ?_
    exact isContext.moves e (nullable_of_final running mem)
  have beaten : ∀ (ms : List (Move A)) (m : Move A),
      Move.beaten (ms.map (Move.goTo around)) (m.goTo around) = m.beaten ms := by
    intro ms m
    rw [Move.beaten, Move.beaten, List.any_map]
    rfl
  rw [Ragel.taken, Ragel.taken, all, List.filter_map, List.filter_map]
  congr 1
  refine List.filter_congr fun m _ => ?_
  rw [Function.comp_apply, beaten]
  rfl

theorem IsContext.step (isContext : IsContext around) (running : final st = false)
    (next : step ok st c = some (st', as)) : Ragel.step ok (st.map around) c = some (st'.map around, as) := by
  have actions : ∀ ms : List (Move A), actionsOf (ms.map (Move.goTo around)) = actionsOf ms := by
    intro ms
    rw [actionsOf, actionsOf, List.flatMap_map]
    rfl
  unfold Ragel.step at next ⊢
  rw [isContext.taken running]
  split at next
  · cases next
  · rename_i m ms eq
    obtain ⟨rfl, rfl⟩ := Prod.mk.inj (Option.some.inj next)
    rw [eq, List.map_cons]
    dsimp only
    rw [← List.map_cons, actions, ← eraseDups_map_injective isContext.injective, List.map_map, List.map_map]
    rfl

omit [DecidableEq A] in
theorem IsContext.final (isContext : IsContext around) (running : final st = false) :
    final (st.map around) = false := by
  rw [Ragel.final, List.any_map, List.any_eq_false]
  intro e mem
  rw [Function.comp_apply, isContext.nullable e (nullable_of_final running mem)]
  exact Bool.false_ne_true

/-- In a context, an expression is read as it is alone. -/
theorem Reads.context (isContext : IsContext around) (reads : Reads ok st p w st' trace) :
    Reads ok (st.map around) p w (st'.map around) trace := by
  induction reads with
  | nil st p => exact .nil _ p
  | cons running next _ ih => exact .cons (isContext.final running) (isContext.step running next) ih

end Context

/-- A word that a machine without guards matches, and none of whose beginnings it matches, is read. -/
theorem reads_of_trace {e : Ragel A} {w : List UInt8} {l : List (Event A)} (isPlain : e.plain = true)
    (inside : w ∈ lang ok e) (first : ∀ u v, w = u ++ v → v ≠ [] → u ∉ lang ok e) (trace : Trace ok 0 e w l)
    (before : ∀ t ∈ l, t.pos < w.length) :
    ∃ st, Reads ok (start e) 0 w st (executed l) ∧ Holds ok (e.numbered 0) w st := by
  have plain : (e.numbered 0).plain = true := (plain_numbered e 0).trans isPlain
  rw [← lang_numbered isPlain 0] at inside
  obtain ⟨r, path, -⟩ := inside
  have fired : Fired ok (e.numbered 0) [] w l := by
    refine ⟨trace.sorted, fun t => (trace.mem t).trans ⟨?_, ?_⟩⟩
    · rintro (⟨u, c, v, eq, pos, fires⟩ | ⟨pos, exits⟩)
      · exact ⟨u, c, v, eq, by rw [pos, List.length_nil, Nat.zero_add], fires⟩
      · exact absurd pos (Nat.ne_of_lt (before t ((trace.mem t).mpr (.inr ⟨pos, exits⟩))))
    · rintro ⟨u, c, v, eq, pos, fires⟩
      rw [List.length_nil, Nat.zero_add] at pos
      exact .inl ⟨u, c, v, eq, pos, fires⟩
  obtain ⟨st, scan, holds⟩ := Holds.scan plain (fun _ => false) w holds_start path fired fun _ _ => rfl
  refine ⟨st, reads_of_scan w scan fun u v st₁ eq more reached => ?_, holds⟩
  rw [Bool.eq_false_iff]
  intro isFinal
  exact first u v eq more (mem_lang_of_scan isPlain (fun _ => rfl) reached isFinal)

section Traces

variable {e a b r : Ragel A} {w : List UInt8}

/-! ## The trace of a word -/

omit [DecidableEq A] in
/-- No two actions have one number. -/
theorem embedded_numbered_unique (e : Ragel A) : ∀ {n k : Nat} {x y : A}, (k, x) ∈ (e.numbered n).embedded →
    (k, y) ∈ (e.numbered n).embedded → x = y := by
  induction e with
  | eps | byte _ => exact fun mem => absurd mem List.not_mem_nil
  | seq a b iha ihb | alt a b iha ihb | guard _ a b iha ihb | guardEnd _ a b iha ihb =>
    intro n k x y mem mem'
    rcases List.mem_append.mp mem with mem | mem <;> rcases List.mem_append.mp mem' with mem' | mem'
    · exact iha mem mem'
    · have first := embedded_numbered_range a mem
      have second := embedded_numbered_range b mem'
      omega
    · have first := embedded_numbered_range b mem
      have second := embedded_numbered_range a mem'
      omega
    · exact ihb mem mem'
  | star a iha | ending _ a iha | onlyIf a iha => exact fun mem mem' => iha mem mem'
  | enter _ z a iha | leave _ z a iha | finish _ z a iha =>
    intro n k x y mem mem'
    rcases List.mem_cons.mp mem with eq | mem <;> rcases List.mem_cons.mp mem' with eq' | mem'
    · rw [(Prod.mk.inj eq).2, (Prod.mk.inj eq').2]
    · have inside := embedded_numbered_range a mem'
      have := (Prod.mk.inj eq).1
      omega
    · have inside := embedded_numbered_range a mem
      have := (Prod.mk.inj eq').1
      omega
    · exact iha mem mem'

omit [DecidableEq A] in
open Classical in
/-- The events of an expression on any word can be listed: their positions and their numbers are bounded. -/
theorem exists_trace (ok : Bool) (n : Nat) (e : Ragel A) (w : List UInt8) : ∃ l, Trace ok n e w l := by
  let event (p k : Nat) : Option (Event A) :=
    if does : ∃ x, Does ok (e.numbered n) w ⟨p, k, x⟩ then some ⟨p, k, does.choose⟩ else none
  have spec : ∀ {p k : Nat} {t : Event A}, event p k = some t →
      Does ok (e.numbered n) w t ∧ t.pos = p ∧ t.order = k := by
    intro p k t eq
    unfold event at eq
    split at eq
    · rename_i does
      obtain rfl := Option.some.inj eq
      exact ⟨does.choose_spec, rfl, rfl⟩
    · cases eq
  refine ⟨(List.range (w.length + 1)).flatMap fun p => (List.range' n e.size).filterMap (event p), ?_, fun t => ?_⟩
  · rw [List.pairwise_flatMap]
    constructor
    · intro p _
      refine List.Pairwise.filterMap (event p) (fun k k' lt t eq t' eq' => ?_) List.pairwise_lt_range'
      obtain ⟨-, pos, order⟩ := spec eq
      obtain ⟨-, pos', order'⟩ := spec eq'
      exact .inr ⟨pos.trans pos'.symm, by omega⟩
    · refine List.Pairwise.imp (fun {p p'} lt t mem t' mem' => ?_) List.pairwise_lt_range
      obtain ⟨k, -, eq⟩ := List.mem_filterMap.mp mem
      obtain ⟨k', -, eq'⟩ := List.mem_filterMap.mp mem'
      exact .inl (by rw [(spec eq).2.1, (spec eq').2.1]; exact lt)
  · rw [List.mem_flatMap]
    constructor
    · rintro ⟨p, -, mem⟩
      obtain ⟨k, -, eq⟩ := List.mem_filterMap.mp mem
      exact (spec eq).1
    · intro does
      have range := embedded_numbered_range e does.embedded
      refine ⟨t.pos, List.mem_range.mpr (Nat.lt_succ_of_le does.pos_le), List.mem_filterMap.mpr ⟨t.order, ?_, ?_⟩⟩
      · exact List.mem_range'_1.mpr range
      · have some : ∃ x, Does ok (e.numbered n) w ⟨t.pos, t.order, x⟩ := ⟨t.action, does⟩
        have same : some.choose = t.action := embedded_numbered_unique e some.choose_spec.embedded does.embedded
        unfold event
        rw [dif_pos some, same]

/-! ## Expressions that end with a byte -/

/-- Every word of an expression ends with a byte that is nowhere else in it, and nothing can follow the byte. -/
structure EndsWith (ok : Bool) (c : UInt8) (e : Ragel A) : Prop where
  last : ∀ w ∈ lang ok e, ∃ u, w = u ++ [c] ∧ c ∉ u
  rest : ∀ w r, Reaches ok e (w ++ [c]) r → r = eps

namespace EndsWith

omit [DecidableEq A] in
theorem char (ok : Bool) (c : UInt8) : EndsWith ok c (char c : Ragel A) where
  last w inside := ⟨[], mem_lang_char.mp inside, List.not_mem_nil⟩
  rest w r path := by
    have done : ∀ {w : List UInt8} {r : Ragel A}, Reaches ok eps w r → r = eps := by
      intro w r path
      cases path with
      | nil => rfl
      | cons mem _ _ => cases mem
    cases w with
    | nil =>
      obtain ⟨m, mem, -, rest⟩ := reaches_cons.mp path
      obtain rfl := List.mem_singleton.mp mem
      exact done rest
    | cons d w =>
      obtain ⟨m, mem, -, rest⟩ := reaches_cons.mp path
      obtain rfl := List.mem_singleton.mp mem
      exact done rest

omit [DecidableEq A] in
theorem seq (plainA : a.plain = true) (unread : a.uses.mem c = false) (ends : EndsWith ok c b) :
    EndsWith ok c (seq a b) where
  last w inside := by
    obtain ⟨u, insideA, v, insideB, rfl⟩ := mem_lang_seq.mp inside
    obtain ⟨v, rfl, not⟩ := ends.last v insideB
    refine ⟨u ++ v, (List.append_assoc ..).symm, fun mem => ?_⟩
    rcases List.mem_append.mp mem with mem | mem
    · exact not_mem_of_mem_lang plainA unread insideA mem
    · exact not mem
  rest w r path := by
    rcases (reaches_seq _).mp path with ⟨r', path', -⟩ | ⟨u, v, eq, some, -, path'⟩
    · have used := (reaches_within plainA path').2.2.1 c (List.mem_append_right _ List.mem_cons_self)
      rw [unread] at used
      cases used
    · obtain ⟨v, d, rfl⟩ := List.eq_nil_or_concat' v |>.resolve_left some
      rw [← List.append_assoc] at eq
      obtain ⟨-, same⟩ := List.append_inj' eq rfl
      obtain rfl := (List.cons.inj same).1
      exact ends.rest v r path'

omit [DecidableEq A] in
theorem alt (endsA : EndsWith ok c a) (endsB : EndsWith ok c b) : EndsWith ok c (alt a b) where
  last w inside := (mem_lang_alt.mp inside).elim (endsA.last w) (endsB.last w)
  rest w r path := by
    rcases reaches_alt.mp path with ⟨nothing, -⟩ | ⟨-, path' | path'⟩
    · exact absurd nothing (List.append_ne_nil_of_right_ne_nil w (List.cons_ne_nil c []))
    · exact endsA.rest w r path'
    · exact endsB.rest w r path'

/-- A word of an expression that ends with a byte is read, and all of the expression with it. -/
theorem reads {l : List (Event A)} (ends : EndsWith ok c (e.numbered 0)) (isPlain : e.plain = true)
    (inside : w ∈ lang ok e) (trace : Trace ok 0 e w l) (before : ∀ t ∈ l, t.pos < w.length) :
    Reads ok (start e) 0 w [eps] (executed l) := by
  have last : ∀ w ∈ lang ok e, ∃ u, w = u ++ [c] ∧ c ∉ u := by
    rw [← lang_numbered isPlain 0]
    exact ends.last
  obtain ⟨u, rfl, only⟩ := last w inside
  have first : ∀ u' v, u ++ [c] = u' ++ v → v ≠ [] → u' ∉ lang ok e := by
    intro u' v eq some inside'
    obtain ⟨u₁, rfl, -⟩ := last u' inside'
    obtain ⟨v, d, rfl⟩ := List.eq_nil_or_concat' v |>.resolve_left some
    rw [← List.append_assoc] at eq
    obtain ⟨rfl, -⟩ := List.append_inj' eq rfl
    exact only (List.mem_append_left _ (List.mem_append_right _ List.mem_cons_self))
  obtain ⟨st, reads, holds⟩ := reads_of_trace isPlain inside first trace before
  have all : ∀ r ∈ st, r = eps := fun r mem => ends.rest u r ((holds r).mp mem)
  have whole : st = [eps] := by
    rw [← lang_numbered isPlain 0] at inside
    obtain ⟨r, path, -⟩ := inside
    have nodup := reads.nodup (List.nodup_singleton _)
    have mem := (holds r).mpr path
    rcases st with - | ⟨r₁, - | ⟨r₂, st⟩⟩
    · cases mem
    · rw [all r₁ List.mem_cons_self]
    · have same : r₁ = r₂ := (all r₁ List.mem_cons_self).trans
        (all r₂ (List.mem_cons_of_mem _ List.mem_cons_self)).symm
      exact absurd (same ▸ List.mem_cons_self) (List.nodup_cons.mp nodup).1
  rw [whole] at reads
  exact reads

end EndsWith

end Traces

end Sylar.Lib.Ragel
