import Sylar.IOManager.Delivery

/-!
# Waiting fibers

Each `add_event` call gives its fiber a registration of its own, so that a fiber that waits again and
again can be followed one call at a time. A registration ends in one of two ways: `trigger` hands the
fiber to its scheduler, or `del_event` throws it away. Until then the context of its direction holds it.

The sections are those of deliveries and registrations that interleave. `add_event` writes a context
without looking at it, although `del_event` and `cancel_event` look at `events_` first. A fiber that is
waiting there is overwritten. `Free` says of an `add_event` that the contexts it writes hold no fiber and
are not between the two sections of a delivery, and that the calling thread has a scheduler.
-/

namespace Sylar

open Lib

/-- A fiber given to an `add_event` call, and the call's number. -/
structure Registration (S F : Type) where
  number : Nat
  fd : Fd
  direction : Direction
  scheduler : Option S
  fiber : F
  deriving DecidableEq, Repr

/-- The directions of a mask. -/
def Events.directions (e : Events) : List Direction :=
  [Direction.read, .write].filter e.has

theorem Events.mem_directions {e : Events} {d : Direction} : d ∈ e.directions ↔ e.has d = true := by
  cases d <;> simp [Events.directions]

/-! ## Contexts -/

section Contexts

variable {K S F : Type} {ctl : EpollCtl K}

namespace IOEvent

theorem addEvent_context (k : K) (e : IOEvent S F) (event : Events) (scheduler : Option S)
    (fiber : Direction → F) (d : Direction) :
    (e.addEvent ctl k event scheduler fiber).2.1.context d =
      if event.has d then .set scheduler (fiber d) else e.context d := by
  refine (congrArg Prod.snd (e.addEvent_slot k event scheduler fiber d)).trans ?_
  rw [apply_ite Prod.snd]
  rfl

theorem delEvent_context (k : K) (e : IOEvent S F) (event : Events) (d : Direction) :
    (e.delEvent ctl k event).2.1.context d =
      if event.has d = true ∧ e.events.inter event ≠ .none then .reset else e.context d := by
  unfold delEvent
  by_cases apart : e.events.inter event = .none
  · rw [if_pos apart, if_neg fun h => h.2 apart]
  · rw [if_neg apart]
    cases d with
    | read => simp only [context, Events.has, apart, ne_eq, not_false_eq_true, and_true]
    | write => simp only [context, Events.has, apart, ne_eq, not_false_eq_true, and_true]

/-- The `add_fiber` calls of a mask. -/
def fired (e : IOEvent S F) (event : Events) : List (S × F) :=
  event.directions.flatMap fun d => (e.context d).trigger.1

theorem cancelTrigger_eq {e : IOEvent S F} {event : Events} (meets : e.events.inter event ≠ .none) :
    ∃ e', e.cancelTrigger event = some (e.fired event, e') ∧
      ∀ d, e'.context d = if event.has d then (e.context d).trigger.2 else e.context d := by
  unfold cancelTrigger
  rw [if_neg meets]
  obtain ⟨i, o⟩ := event
  refine ⟨_, congrArg some (Prod.ext ?_ rfl), fun d => ?_⟩
  · cases i <;> cases o <;> simp [fired, Events.directions, Events.has, context, List.filter]
  · cases d with
    | read => exact apply_ite Prod.snd ..
    | write => exact apply_ite Prod.snd ..

end IOEvent

namespace IOManager

variable {m : IOManager K S F} {fd : Fd} {event : Events}

/-- A direction of the mask is registered. -/
def Meets (m : IOManager K S F) (fd : Fd) (event : Events) : Prop :=
  (m.events fd).inter event ≠ .none

instance (m : IOManager K S F) (fd : Fd) (event : Events) : Decidable (m.Meets fd event) :=
  inferInstanceAs (Decidable (_ ≠ _))

theorem meets_iff : m.Meets fd event ↔ (m.entry fd).events.inter event ≠ .none := by
  rw [Meets, events_eq_entry]

theorem not_meets_of_absent (absent : m.fdEventMap.lookup fd = none) : ¬ m.Meets fd event := by
  rw [Meets, events, absent]
  exact fun meets => meets (by cases event; rfl)

/-- The context of a direction after the event of an fd was written. -/
theorem context_insert (m : IOManager K S F) (fd : Fd) (e : IOEvent S F) (c : UInt64) (k : K)
    (handed : List (S × F)) (fd' : Fd) (d : Direction) :
    (⟨m.fdEventMap.insert fd e, c, k, handed⟩ : IOManager K S F).context fd' d =
      if fd' = fd then e.context d else m.context fd' d := by
  unfold context
  split
  · rename_i same
    rw [same, entry_insert_self]
  · rename_i ne
    rw [entry_insert_ne m ne]

theorem entry_of_lookup {e : IOEvent S F} (found : m.fdEventMap.lookup fd = some e) : m.entry fd = e := by
  rw [entry, found]
  rfl

theorem addEvent_context (m : IOManager K S F) (fd : Fd) (event : Events) (scheduler : Option S)
    (fiber : Direction → F) (fd' : Fd) (d : Direction) :
    (m.addEvent ctl fd event scheduler fiber).2.context fd' d =
      if fd' = fd ∧ event.has d = true then .set scheduler (fiber d) else m.context fd' d := by
  have written := context_insert m fd ((m.entry fd).addEvent ctl m.kernel event scheduler fiber).2.1
    m.pendingEventCount m.kernel m.handed fd' d
  rw [IOEvent.addEvent_context] at written
  have eq : (m.addEvent ctl fd event scheduler fiber).2.context fd' d =
      if fd' = fd then if event.has d then .set scheduler (fiber d) else (m.entry fd).context d
      else m.context fd' d := by
    rw [← written]
    unfold addEvent
    dsimp only
    split <;> rfl
  rw [eq]
  by_cases same : fd' = fd
  · rw [if_pos same, same]
    simp only [true_and]
    rfl
  · rw [if_neg same, if_neg fun h => same h.1]

theorem addEvent_handed (m : IOManager K S F) (fd : Fd) (event : Events) (scheduler : Option S)
    (fiber : Direction → F) : (m.addEvent ctl fd event scheduler fiber).2.handed = m.handed := by
  unfold addEvent
  dsimp only
  split <;> rfl

theorem deleteIn_context (m : IOManager K S F) (fd : Fd) (event : Events) (fd' : Fd) (d : Direction) :
    (m.deleteIn ctl fd event).2.context fd' d =
      if fd' = fd ∧ event.has d = true ∧ m.Meets fd event then .reset else m.context fd' d := by
  unfold deleteIn
  cases found : m.fdEventMap.lookup fd with
  | none =>
    rw [if_neg fun h => not_meets_of_absent found h.2.2]
  | some e =>
    have here := entry_of_lookup found
    dsimp only
    rw [context_insert, IOEvent.delEvent_context]
    by_cases same : fd' = fd
    · rw [if_pos same, same, context, here]
      refine if_congr ?_ rfl rfl
      rw [meets_iff, here]
      exact ⟨fun h => ⟨rfl, h⟩, And.right⟩
    · rw [if_neg same, if_neg fun h => same h.1]

theorem deleteIn_handed (m : IOManager K S F) (fd : Fd) (event : Events) :
    (m.deleteIn ctl fd event).2.handed = m.handed := by
  unfold deleteIn
  cases m.fdEventMap.lookup fd <;> rfl

theorem delEvent_context (m : IOManager K S F) (fd : Fd) (event : Events) (fd' : Fd) (d : Direction) :
    (m.delEvent ctl fd event).2.context fd' d =
      if fd' = fd ∧ event.has d = true ∧ m.Meets fd event then .reset else m.context fd' d := by
  have same : (m.delEvent ctl fd event).2.context fd' d = (m.deleteIn ctl fd event).2.context fd' d := by
    unfold delEvent
    dsimp only
    split <;> rfl
  exact same.trans (m.deleteIn_context fd event fd' d)

theorem delEvent_handed (m : IOManager K S F) (fd : Fd) (event : Events) :
    (m.delEvent ctl fd event).2.handed = m.handed := by
  have same : (m.delEvent ctl fd event).2.handed = (m.deleteIn ctl fd event).2.handed := by
    unfold delEvent
    dsimp only
    split <;> rfl
  exact same.trans (m.deleteIn_handed fd event)

/-- The first section of a cancel fires the contexts of its mask, if one of them is registered. -/
theorem triggerIn_eq (m : IOManager K S F) (fd : Fd) (event : Events) :
    ((m.triggerIn fd event).1 = true ↔ m.Meets fd event) ∧
      (m.triggerIn fd event).2.handed =
        m.handed ++ (if m.Meets fd event then (m.entry fd).fired event else []) ∧
      ∀ fd' d, (m.triggerIn fd event).2.context fd' d =
        if fd' = fd ∧ event.has d = true ∧ m.Meets fd event then (m.context fd d).trigger.2
        else m.context fd' d := by
  unfold triggerIn
  cases found : m.fdEventMap.lookup fd with
  | none =>
    have apart : ¬ m.Meets fd event := not_meets_of_absent found
    refine ⟨iff_of_false Bool.false_ne_true apart, ?_, fun fd' d => ?_⟩
    · rw [if_neg apart, List.append_nil]
    · rw [if_neg fun h => apart h.2.2]
  | some e =>
    have here := entry_of_lookup found
    by_cases meets : m.Meets fd event
    · have some : e.events.inter event ≠ .none := by
        rw [← here]
        exact meets_iff.mp meets
      obtain ⟨e', run, contexts⟩ := IOEvent.cancelTrigger_eq some
      dsimp only
      rw [run]
      refine ⟨iff_of_true rfl meets, ?_, fun fd' d => ?_⟩
      · rw [if_pos meets, here]
      · refine (context_insert ..).trans ?_
        rw [contexts d]
        by_cases same : fd' = fd
        · rw [if_pos same, same, context, here]
          simp only [meets, true_and, and_true]
        · rw [if_neg same, if_neg fun h => same h.1]
    · have none : e.cancelTrigger event = none := by
        refine if_pos ?_
        rw [← here]
        exact not_not.mp fun some => meets (meets_iff.mpr some)
      dsimp only
      rw [none]
      refine ⟨iff_of_false Bool.false_ne_true meets, ?_, fun fd' d => ?_⟩
      · rw [if_neg meets, List.append_nil]
      · rw [if_neg fun h => meets h.2.2]

end IOManager

end Contexts

/-! ## Where a registration is -/

section Accounts

variable {K S F : Type} [DecidableEq S] [DecidableEq F] {ctl : EpollCtl K}

namespace IOManager

/-- The context of its direction holds the fiber. -/
def Holds (m : IOManager K S (Registration S F)) (r : Registration S F) : Prop :=
  (m.context r.fd r.direction).fiber = some r

instance (m : IOManager K S (Registration S F)) (r : Registration S F) : Decidable (m.Holds r) :=
  inferInstanceAs (Decidable (_ = _))

/-- The schedulers in a list of `add_fiber` calls that were given the fiber, one for each call. -/
def givenTo (r : Registration S F) (handed : List (S × Registration S F)) : List S :=
  (handed.filter fun x => x.2 = r).map Prod.fst

/-- The schedulers that `trigger` handed the fiber to, one for each time. -/
def handings (m : IOManager K S (Registration S F)) (r : Registration S F) : List S :=
  givenTo r m.handed

/-- A registration is exactly one of: held by its context, handed to its scheduler exactly once, or
discarded. -/
inductive Accounted (m : IOManager K S (Registration S F)) (discarded : List (Registration S F))
    (r : Registration S F) : Prop where
  | held : m.Holds r → m.handings r = [] → r ∉ discarded → Accounted m discarded r
  | handed : ¬ m.Holds r → (m.handings r).map some = [r.scheduler] → r ∉ discarded →
      Accounted m discarded r
  | discarded : ¬ m.Holds r → m.handings r = [] → r ∈ discarded → Accounted m discarded r

/-- Contexts hold the fibers of earlier calls, at the places these calls named, with their schedulers;
and `trigger` was given no others. -/
structure Placed (m : IOManager K S (Registration S F)) (next : Nat) : Prop where
  holds : ∀ fd d r, (m.context fd d).fiber = some r → r.fd = fd ∧ r.direction = d
  scheduler : ∀ fd d r, (m.context fd d).fiber = some r →
    r.scheduler.isSome = true ∧ (m.context fd d).scheduler = r.scheduler
  number : ∀ fd d r, (m.context fd d).fiber = some r → r.number < next
  handed : ∀ x ∈ m.handed, x.2.number < next

omit [DecidableEq S] [DecidableEq F] in
theorem Placed.mono {m : IOManager K S (Registration S F)} {next next' : Nat} (h : m.Placed next)
    (le : next ≤ next') : m.Placed next' :=
  ⟨h.holds, h.scheduler, fun fd d r some => (h.number fd d r some).trans_le le,
    fun x mem => (h.handed x mem).trans_le le⟩

/-- What a `del_event` call discards. -/
def discards (m : IOManager K S F) (fd : Fd) (event : Events) : List F :=
  if m.Meets fd event then event.directions.filterMap fun d => (m.context fd d).fiber else []

variable {m m' : IOManager K S (Registration S F)} {discarded : List (Registration S F)}
  {r : Registration S F} {next : Nat} {fd : Fd} {event : Events}

omit [DecidableEq S] [DecidableEq F] in
theorem Placed.holds_iff (h : m.Placed next) {d : Direction} :
    (m.context fd d).fiber = some r ↔ m.Holds r ∧ r.fd = fd ∧ r.direction = d := by
  constructor
  · intro here
    obtain ⟨rfl, rfl⟩ := h.holds fd d r here
    exact ⟨here, rfl, rfl⟩
  · rintro ⟨here, rfl, rfl⟩
    exact here

theorem Accounted.congr (h : m.Accounted discarded r) (holds : m'.Holds r ↔ m.Holds r)
    (handed : m'.handings r = m.handings r) : m'.Accounted discarded r := by
  cases h with
  | held here none kept => exact .held (holds.mpr here) (handed.trans none) kept
  | handed gone once kept => exact .handed (fun h => gone (holds.mp h)) (handed ▸ once) kept
  | discarded gone none thrown => exact .discarded (fun h => gone (holds.mp h)) (handed.trans none) thrown

omit [DecidableEq S] [DecidableEq F] in
/-- The count is no part of where the fibers are. -/
theorem Placed.countDown (h : m.Placed next) : (Workers.countDown m).Placed next :=
  ⟨h.holds, h.scheduler, h.number, h.handed⟩

theorem Accounted.countDown (h : m.Accounted discarded r) : (Workers.countDown m).Accounted discarded r :=
  h.congr Iff.rfl rfl

/-! ### `trigger` -/

/-- What the contexts of a mask fire: the fiber, if one of them holds it. -/
theorem givenTo_fired (h : m.Placed next) (r : Registration S F) :
    givenTo r ((m.entry fd).fired event) =
      if m.Holds r ∧ r.fd = fd ∧ event.has r.direction = true then r.scheduler.toList else [] := by
  have one : ∀ d, givenTo r ((m.entry fd).context d).trigger.1 =
      if m.Holds r ∧ r.fd = fd ∧ r.direction = d then r.scheduler.toList else [] := by
    intro d
    have here : (m.context fd d).fiber = some r ↔ m.Holds r ∧ r.fd = fd ∧ r.direction = d := h.holds_iff
    have armed := h.scheduler fd d
    change givenTo r (m.context fd d).trigger.1 = _
    generalize m.context fd d = context at here armed
    obtain ⟨scheduler, fiber⟩ := context
    cases fiber with
    | none =>
      rw [if_neg (mt here.mpr (by simp))]
      cases scheduler <;> rfl
    | some r' =>
      obtain ⟨isSome, same⟩ := armed r' rfl
      obtain ⟨s, eq⟩ := Option.isSome_iff_exists.mp isSome
      dsimp only at same
      rw [same, eq]
      by_cases this : r' = r
      · rw [if_pos (here.mp (by rw [this])), ← this, eq]
        simp [EventContext.trigger, givenTo]
      · rw [if_neg (mt here.mpr (by simpa using this))]
        simp [EventContext.trigger, givenTo, this]
  have append : ∀ a b : List (S × Registration S F), givenTo r (a ++ b) = givenTo r a ++ givenTo r b := by
    intro a b
    simp [givenTo]
  obtain ⟨i, o⟩ := event
  have nothing : givenTo r [] = [] := rfl
  cases place : r.direction <;> cases i <;> cases o <;>
    simp [IOEvent.fired, Events.directions, Events.has, List.filter, append, one, place, nothing]

omit [DecidableEq S] [DecidableEq F] in
theorem trigger_fiber (c : EventContext S F) (armed : c.fiber.isSome = true → c.scheduler.isSome = true) :
    c.trigger.2.fiber = none := by
  obtain ⟨scheduler, fiber⟩ := c
  cases fiber with
  | none => cases scheduler <;> rfl
  | some f =>
    obtain ⟨s, rfl⟩ := Option.isSome_iff_exists.mp (armed rfl)
    rfl

omit [DecidableEq S] [DecidableEq F] in
/-- After the first section of a cancel the contexts of its mask hold no fiber. -/
theorem Placed.triggerIn_fiber (h : m.Placed next) (fd : Fd) (event : Events) (fd' : Fd) (d : Direction) :
    ((m.triggerIn fd event).2.context fd' d).fiber =
      if fd' = fd ∧ event.has d = true ∧ m.Meets fd event then none else (m.context fd' d).fiber := by
  rw [(m.triggerIn_eq fd event).2.2, apply_ite EventContext.fiber]
  refine if_congr Iff.rfl (trigger_fiber _ fun isSome => ?_) rfl
  obtain ⟨r, some⟩ := Option.isSome_iff_exists.mp isSome
  obtain ⟨armed, same⟩ := h.scheduler fd d r some
  rw [same]
  exact armed

theorem Placed.triggerIn (h : m.Placed next) (fd : Fd) (event : Events) :
    (m.triggerIn fd event).2.Placed next := by
  have context : ∀ fd' d r, ((m.triggerIn fd event).2.context fd' d).fiber = some r →
      (m.triggerIn fd event).2.context fd' d = m.context fd' d := by
    intro fd' d r some
    rw [h.triggerIn_fiber] at some
    rw [(m.triggerIn_eq fd event).2.2]
    split at some
    · cases some
    · rename_i away
      exact if_neg away
  refine ⟨fun fd' d r some => ?_, fun fd' d r some => ?_, fun fd' d r some => ?_, fun x mem => ?_⟩
  · exact h.holds fd' d r (context fd' d r some ▸ some)
  · have same := context fd' d r some
    rw [same] at some ⊢
    exact h.scheduler fd' d r some
  · exact h.number fd' d r (context fd' d r some ▸ some)
  · rw [(m.triggerIn_eq fd event).2.1] at mem
    rcases List.mem_append.mp mem with old | fired
    · exact h.handed x old
    · have given : givenTo x.2 ((m.entry fd).fired event) ≠ [] := by
        split at fired
        · refine List.ne_nil_of_mem (a := x.1) (List.mem_map_of_mem (List.mem_filter.mpr ⟨fired, ?_⟩))
          exact decide_eq_true rfl
        · cases fired
      rw [givenTo_fired h] at given
      split at given
      · rename_i held
        exact h.number _ _ _ held.1
      · exact absurd rfl given

theorem Accounted.triggerIn (h : m.Accounted discarded r) (placed : m.Placed next) (fd : Fd)
    (event : Events) : (m.triggerIn fd event).2.Accounted discarded r := by
  have handings : (m.triggerIn fd event).2.handings r = m.handings r ++
      if m.Meets fd event ∧ m.Holds r ∧ r.fd = fd ∧ event.has r.direction = true then r.scheduler.toList
      else [] := by
    rw [IOManager.handings, (m.triggerIn_eq fd event).2.1, givenTo, List.filter_append, List.map_append]
    congr 1
    by_cases meets : m.Meets fd event
    · simp only [meets, if_true, true_and]
      exact givenTo_fired placed r
    · simp [meets]
  have holds : (m.triggerIn fd event).2.Holds r ↔
      m.Holds r ∧ ¬ (r.fd = fd ∧ event.has r.direction = true ∧ m.Meets fd event) := by
    rw [Holds, placed.triggerIn_fiber]
    split
    · rename_i touched
      simp [touched]
    · rename_i away
      exact ⟨fun here => ⟨here, away⟩, And.left⟩
  cases h with
  | held here none kept =>
    by_cases touched : r.fd = fd ∧ event.has r.direction = true ∧ m.Meets fd event
    · refine .handed (fun still => (holds.mp still).2 touched) ?_ kept
      rw [handings, none, if_pos ⟨touched.2.2, here, touched.1, touched.2.1⟩, List.nil_append]
      obtain ⟨s, eq⟩ := Option.isSome_iff_exists.mp (placed.scheduler _ _ _ here).1
      rw [eq]
      rfl
    · refine .held (holds.mpr ⟨here, touched⟩) ?_ kept
      rw [handings, none, if_neg fun h => touched ⟨h.2.2.1, h.2.2.2, h.1⟩]
      rfl
  | handed gone once kept =>
    refine .handed (fun still => gone (holds.mp still).1) ?_ kept
    rw [handings, if_neg fun h => gone h.2.1, List.append_nil]
    exact once
  | discarded gone none thrown =>
    refine .discarded (fun still => gone (holds.mp still).1) ?_ thrown
    rw [handings, if_neg fun h => gone h.2.1, List.append_nil]
    exact none

/-! ### `del_event` -/

omit [DecidableEq S] [DecidableEq F] in
theorem Placed.of_cleared (h : m.Placed next) (handed : m'.handed = m.handed)
    (contexts : ∀ fd d, m'.context fd d = .reset ∨ m'.context fd d = m.context fd d) : m'.Placed next := by
  have same : ∀ fd d r, (m'.context fd d).fiber = some r → m'.context fd d = m.context fd d := by
    intro fd d r some
    rcases contexts fd d with cleared | same
    · rw [cleared] at some
      cases some
    · exact same
  refine ⟨fun fd d r some => ?_, fun fd d r some => ?_, fun fd d r some => ?_, fun x mem => ?_⟩
  · exact h.holds fd d r (same fd d r some ▸ some)
  · have eq := same fd d r some
    rw [eq] at some ⊢
    exact h.scheduler fd d r some
  · exact h.number fd d r (same fd d r some ▸ some)
  · exact h.handed x (handed ▸ mem)

omit [DecidableEq S] [DecidableEq F] in
theorem Placed.deleteIn (h : m.Placed next) (fd : Fd) (event : Events) :
    (m.deleteIn ctl fd event).2.Placed next := by
  refine h.of_cleared (m.deleteIn_handed fd event) fun fd' d => ?_
  rw [m.deleteIn_context]
  exact (ite_eq_or_eq _ _ _)

omit [DecidableEq S] [DecidableEq F] in
theorem Placed.delEvent (h : m.Placed next) (fd : Fd) (event : Events) :
    (m.delEvent ctl fd event).2.Placed next := by
  refine h.of_cleared (m.delEvent_handed fd event) fun fd' d => ?_
  rw [m.delEvent_context]
  exact (ite_eq_or_eq _ _ _)

omit [DecidableEq S] [DecidableEq F] in
/-- The second section of a cancel clears contexts that hold no fiber. -/
theorem deleteIn_fiber (empty : ∀ d, event.has d = true → (m.context fd d).fiber = none) (fd' : Fd)
    (d : Direction) : ((m.deleteIn ctl fd event).2.context fd' d).fiber = (m.context fd' d).fiber := by
  rw [m.deleteIn_context]
  split
  · rename_i touched
    rw [touched.1, empty d touched.2.1]
    rfl
  · rfl

theorem Accounted.deleteIn (h : m.Accounted discarded r)
    (empty : ∀ d, event.has d = true → (m.context fd d).fiber = none) :
    (m.deleteIn ctl fd event).2.Accounted discarded r := by
  refine h.congr ?_ (congrArg (givenTo r) (m.deleteIn_handed fd event))
  rw [Holds, deleteIn_fiber empty, Holds]

omit [DecidableEq S] [DecidableEq F] in
theorem Placed.mem_discards (h : m.Placed next) :
    r ∈ m.discards fd event ↔ m.Holds r ∧ r.fd = fd ∧ event.has r.direction = true ∧ m.Meets fd event := by
  unfold discards
  split
  · rename_i meets
    rw [List.mem_filterMap]
    constructor
    · rintro ⟨d, inside, some⟩
      obtain ⟨here, place, rfl⟩ := h.holds_iff.mp some
      exact ⟨here, place, Events.mem_directions.mp inside, meets⟩
    · rintro ⟨here, place, inside, -⟩
      exact ⟨r.direction, Events.mem_directions.mpr inside, h.holds_iff.mpr ⟨here, place, rfl⟩⟩
  · rename_i apart
    exact ⟨fun none => absurd none List.not_mem_nil, fun touched => absurd touched.2.2.2 apart⟩

/-- `del_event` discards what it clears. -/
theorem Accounted.delEvent (h : m.Accounted discarded r) (placed : m.Placed next) (fd : Fd)
    (event : Events) :
    (m.delEvent ctl fd event).2.Accounted (discarded ++ m.discards fd event) r := by
  have handings : (m.delEvent ctl fd event).2.handings r = m.handings r :=
    congrArg (givenTo r) (m.delEvent_handed fd event)
  have thrown : r ∈ discarded ++ m.discards fd event ↔ r ∈ discarded ∨
      m.Holds r ∧ r.fd = fd ∧ event.has r.direction = true ∧ m.Meets fd event := by
    rw [List.mem_append, placed.mem_discards]
  have holds : (m.delEvent ctl fd event).2.Holds r ↔
      m.Holds r ∧ ¬ (r.fd = fd ∧ event.has r.direction = true ∧ m.Meets fd event) := by
    rw [Holds, m.delEvent_context]
    split
    · rename_i touched
      simp [touched, EventContext.reset]
    · rename_i away
      exact ⟨fun here => ⟨here, away⟩, And.left⟩
  cases h with
  | held here none kept =>
    by_cases touched : r.fd = fd ∧ event.has r.direction = true ∧ m.Meets fd event
    · exact .discarded (fun still => (holds.mp still).2 touched) (handings.trans none)
        (thrown.mpr (.inr ⟨here, touched⟩))
    · refine .held (holds.mpr ⟨here, touched⟩) (handings.trans none) fun gone => ?_
      rcases thrown.mp gone with old | ⟨-, now⟩
      · exact kept old
      · exact touched now
  | handed gone once kept =>
    refine .handed (fun still => gone (holds.mp still).1) (handings ▸ once) fun now => ?_
    rcases thrown.mp now with old | ⟨here, -⟩
    · exact kept old
    · exact gone here
  | discarded gone none old =>
    exact .discarded (fun still => gone (holds.mp still).1) (handings.trans none) (thrown.mpr (.inl old))

/-! ### `add_event` -/

/-- The registration of a direction by the call of a number. -/
def register (number : Nat) (fd : Fd) (scheduler : Option S) (fiber : Direction → F) (d : Direction) :
    Registration S F :=
  ⟨number, fd, d, scheduler, fiber d⟩

variable {scheduler : Option S} {fiber : Direction → F}

omit [DecidableEq S] [DecidableEq F] in
theorem addEvent_fiber (fd' : Fd) (d : Direction) :
    ((m.addEvent ctl fd event scheduler (register next fd scheduler fiber)).2.context fd' d).fiber =
      if fd' = fd ∧ event.has d = true then some (register next fd scheduler fiber d)
      else (m.context fd' d).fiber := by
  rw [m.addEvent_context, apply_ite EventContext.fiber]
  rfl

omit [DecidableEq S] [DecidableEq F] in
theorem Placed.addEvent (h : m.Placed next) (armed : scheduler.isSome = true) (fd : Fd) (event : Events)
    (fiber : Direction → F) :
    (m.addEvent ctl fd event scheduler (register next fd scheduler fiber)).2.Placed (next + 1) := by
  refine ⟨fun fd' d r some => ?_, fun fd' d r some => ?_, fun fd' d r some => ?_, fun x mem => ?_⟩
  · rw [addEvent_fiber] at some
    split at some
    · rename_i touched
      cases some
      exact ⟨touched.1.symm, rfl⟩
    · exact h.holds fd' d r some
  · rw [addEvent_fiber] at some
    rw [m.addEvent_context]
    split at some
    · rename_i touched
      cases some
      rw [if_pos touched]
      exact ⟨armed, rfl⟩
    · rename_i away
      rw [if_neg away]
      exact h.scheduler fd' d r some
  · rw [addEvent_fiber] at some
    split at some
    · cases some
      exact Nat.lt_succ_self next
    · exact Nat.lt_succ_of_lt (h.number fd' d r some)
  · rw [addEvent_handed] at mem
    exact Nat.lt_succ_of_lt (h.handed x mem)

/-- `add_event` on contexts that hold no fiber leaves every earlier registration alone. -/
theorem Accounted.addEvent (h : m.Accounted discarded r) (old : r.number < next)
    (free : ∀ d, event.has d = true → (m.context fd d).fiber = none) :
    (m.addEvent ctl fd event scheduler (register next fd scheduler fiber)).2.Accounted discarded r := by
  refine h.congr ?_ (congrArg (givenTo r) (m.addEvent_handed fd event scheduler _))
  rw [Holds, addEvent_fiber]
  split
  · rename_i touched
    have empty := free r.direction touched.2
    rw [← touched.1] at empty
    refine iff_of_false (fun same => ?_) fun here => ?_
    · rw [← Option.some.inj same] at old
      exact Nat.lt_irrefl next old
    · rw [Holds, empty] at here
      cases here
  · rfl

/-- The new registration is held. -/
theorem accounted_register (placed : m.Placed next) (fresh : ∀ r ∈ discarded, r.number < next)
    {d : Direction} (inside : event.has d = true) :
    (m.addEvent ctl fd event scheduler (register next fd scheduler fiber)).2.Accounted discarded
      (register next fd scheduler fiber d) := by
  refine .held ?_ ?_ fun mem => Nat.lt_irrefl next (fresh _ mem)
  · exact (addEvent_fiber _ _).trans (if_pos ⟨rfl, inside⟩)
  · rw [handings, addEvent_handed, givenTo, List.map_eq_nil_iff, List.filter_eq_nil_iff]
    intro x mem same
    have old := placed.handed x mem
    rw [of_decide_eq_true same] at old
    exact Nat.lt_irrefl next old

end IOManager

end Accounts

/-! ## Runs -/

namespace Section

variable {S F : Type}

/-- The section with its fibers under the registrations of the call of a number. -/
def tag (number : Nat) : Section S F → Section S (Registration S F)
  | .addEvent fd event scheduler fiber =>
    .addEvent fd event scheduler (IOManager.register number fd scheduler fiber)
  | .delEvent fd event => .delEvent fd event
  | .cancelEvent fd event => .cancelEvent fd event
  | .cancelAll fd => .cancelAll fd
  | .cancelNext fd d => .cancelNext fd d
  | .finishCancel => .finishCancel
  | .deliver fd d => .deliver fd d
  | .finishDelivery fd d => .finishDelivery fd d

/-- What an `add_event` registers, one for each direction of its mask. -/
def registers (number : Nat) : Section S F → List (Registration S F)
  | .addEvent fd event scheduler fiber =>
    event.directions.map (IOManager.register number fd scheduler fiber)
  | _ => []

end Section

/-- The workers, with the fibers given to the `add_event` calls that returned true, those discarded by
`del_event` calls, and the number of the next call. -/
structure Waiting (K S F : Type) where
  workers : Workers K S (Registration S F)
  registered : List (Registration S F)
  discarded : List (Registration S F)
  next : Nat

namespace Waiting

variable {K S F : Type}

def init (k : K) : Waiting K S F := ⟨.init k, [], [], 0⟩

/-- What a section discards: only a `del_event` does. -/
def discards (w : Waiting K S F) : Section S F → List (Registration S F)
  | .delEvent fd event => w.workers.manager.discards fd event
  | _ => []

/-- Run one section, as `Workers.exec` does. -/
def exec (ctl : EpollCtl K) (w : Waiting K S F) (sec : Section S F) : Option (Bool × Waiting K S F) :=
  (w.workers.exec ctl (sec.tag w.next)).map fun answer =>
    (answer.1,
      { workers := answer.2
        registered := w.registered ++ if answer.1 then sec.registers w.next else []
        discarded := w.discarded ++ w.discards sec
        next := w.next + 1 })

/-- A section with what it returned, as a step. -/
def Step (ctl : EpollCtl K) (w : Waiting K S F) (event : Section S F × Bool) (w' : Waiting K S F) : Prop :=
  w.exec ctl event.1 = some (event.2, w')

/-- A registration by a thread with a scheduler, in contexts that hold no fiber and that no delivery is
about to clear. -/
def Free (w : Waiting K S F) : Section S F → Prop
  | .addEvent fd event scheduler _ => scheduler.isSome = true ∧ ∀ d, event.has d = true →
      (w.workers.manager.context fd d).fiber = none ∧ (fd, d) ∉ w.workers.delivering
  | _ => True

variable [DecidableEq S] [DecidableEq F]

/-- In the runs whose sections meet `cond` no waiting fiber is dropped: every one given to an `add_event`
call that returned true is exactly one of held, handed over once, or discarded. -/
def NoneDropped (ctl : EpollCtl K) (cond : Waiting K S F → Section S F → Prop) : Prop :=
  ∀ (k : K) (events : List (Section S F × Bool)) (w : Waiting K S F),
    Run (Guarded (Step ctl) fun w e => cond w e.1) (init k) events w →
    ∀ r ∈ w.registered, w.workers.manager.Accounted w.discarded r

/-- Every registration is accounted for, and the contexts that a second section is still to clear hold
no fiber. -/
structure Sound (w : Waiting K S F) : Prop where
  placed : w.workers.manager.Placed w.next
  accounted : ∀ r ∈ w.registered, w.workers.manager.Accounted w.discarded r
  registered : ∀ r ∈ w.registered, r.number < w.next
  discarded : ∀ r ∈ w.discarded, r.number < w.next
  delivering : ∀ fd d, (fd, d) ∈ w.workers.delivering → (w.workers.manager.context fd d).fiber = none
  deleting : ∀ fd event left, w.workers.holder = some ⟨fd, some event, left⟩ →
    ∀ d, event.has d = true → (w.workers.manager.context fd d).fiber = none

theorem sound_init (k : K) : (init k : Waiting K S F).Sound where
  placed := by
    have empty : ∀ (fd : Fd) (d : Direction),
        ((IOManager.init k : IOManager K S (Registration S F)).context fd d).fiber = none := by
      intro fd d
      cases d <;> rfl
    refine ⟨fun fd d r some => ?_, fun fd d r some => ?_, fun fd d r some => ?_, fun x mem => ?_⟩
    · cases (empty fd d).symm.trans some
    · cases (empty fd d).symm.trans some
    · cases (empty fd d).symm.trans some
    · cases mem
  accounted _ mem := by cases mem
  registered _ mem := by cases mem
  discarded _ mem := by cases mem
  delivering _ _ mem := by cases mem
  deleting _ _ _ held := by cases held

/-- A section that registers and discards nothing. -/
theorem Sound.same {w : Waiting K S F} (h : w.Sound) {workers : Workers K S (Registration S F)}
    (placed : workers.manager.Placed w.next)
    (accounted : ∀ r, w.workers.manager.Accounted w.discarded r → workers.manager.Accounted w.discarded r)
    (delivering : ∀ fd d, (fd, d) ∈ workers.delivering → (workers.manager.context fd d).fiber = none)
    (deleting : ∀ fd event left, workers.holder = some ⟨fd, some event, left⟩ →
      ∀ d, event.has d = true → (workers.manager.context fd d).fiber = none) :
    Sound ⟨workers, w.registered ++ [], w.discarded ++ [], w.next + 1⟩ := by
  rw [List.append_nil, List.append_nil]
  refine ⟨placed.mono (Nat.le_succ _), fun r mem => accounted r (h.accounted r mem), fun r mem => ?_,
    fun r mem => ?_, delivering, deleting⟩
  · exact Nat.lt_succ_of_lt (h.registered r mem)
  · exact Nat.lt_succ_of_lt (h.discarded r mem)

omit [DecidableEq S] [DecidableEq F] in
theorem deleting_release {manager : IOManager K S (Registration S F)} {fd : Fd} {deleting : Option Events}
    {left : List Direction}
    (empty : ∀ event, deleting = some event → ∀ d, event.has d = true → (manager.context fd d).fiber = none) :
    ∀ fd' event left', Holder.release ⟨fd, deleting, left⟩ = some ⟨fd', some event, left'⟩ →
      ∀ d, event.has d = true → (manager.context fd' d).fiber = none := by
  intro fd' event left' held
  unfold Holder.release at held
  split at held
  · cases held
  · obtain ⟨rfl, rfl, -⟩ := Holder.mk.inj (Option.some.inj held)
    exact empty event rfl

/-- The contexts a cancel goes on to clear are empty after its first section. -/
theorem Sound.triggered {w : Waiting K S F} (h : w.Sound) {fd : Fd} {event : Events}
    (goesOn : (w.workers.manager.triggerIn fd event).1 = true) {d : Direction} (inside : event.has d = true) :
    ((w.workers.manager.triggerIn fd event).2.context fd d).fiber = none := by
  rw [h.placed.triggerIn_fiber]
  exact if_pos ⟨rfl, inside, (w.workers.manager.triggerIn_eq fd event).1.mp goesOn⟩

theorem Sound.triggerIn_empty {w : Waiting K S F} (h : w.Sound) (fd : Fd) (event : Events) {fd' : Fd}
    {d : Direction} (empty : (w.workers.manager.context fd' d).fiber = none) :
    ((w.workers.manager.triggerIn fd event).2.context fd' d).fiber = none := by
  rw [h.placed.triggerIn_fiber, empty]
  exact ite_self none

theorem Sound.step {ctl : EpollCtl K} {w w' : Waiting K S F} {e : Section S F × Bool} (h : w.Sound)
    (step : Step ctl w e w') (free : w.Free e.1) : w'.Sound := by
  obtain ⟨sec, ret⟩ := e
  unfold Step exec at step
  obtain ⟨⟨ret', workers⟩, run, eq⟩ := Option.map_eq_some_iff.mp step
  obtain ⟨rfl, rfl⟩ := Prod.mk.inj eq
  clear step eq
  cases sec with
  | addEvent fd event scheduler fiber =>
    simp only [Section.tag, Workers.exec] at run
    split at run
    · cases run
    · rename_i unlocked
      obtain ⟨rfl, rfl⟩ := Prod.mk.inj (Option.some.inj run)
      have empty : ∀ d, event.has d = true → (w.workers.manager.context fd d).fiber = none :=
        fun d inside => (free.2 d inside).1
      simp only [discards, List.append_nil]
      refine ⟨h.placed.addEvent free.1 fd event fiber, fun r mem => ?_, fun r mem => ?_, fun r mem => ?_,
        fun fd' d mem => ?_, fun fd' event' left held => ?_⟩
      · rcases List.mem_append.mp mem with old | new
        · exact (h.accounted r old).addEvent (h.registered r old) empty
        · split at new
          · obtain ⟨d, inside, rfl⟩ := List.mem_map.mp new
            exact IOManager.accounted_register h.placed h.discarded (Events.mem_directions.mp inside)
          · cases new
      · rcases List.mem_append.mp mem with old | new
        · exact Nat.lt_succ_of_lt (h.registered r old)
        · split at new
          · obtain ⟨d, -, rfl⟩ := List.mem_map.mp new
            exact Nat.lt_succ_self w.next
          · cases new
      · exact Nat.lt_succ_of_lt (h.discarded r mem)
      · rw [IOManager.addEvent_fiber]
        split
        · rename_i touched
          rw [touched.1] at mem
          exact absurd mem (free.2 d touched.2).2
        · exact h.delivering fd' d mem
      · exact absurd (by rw [held]; rfl) unlocked
  | delEvent fd event =>
    simp only [Section.tag, Workers.exec] at run
    split at run
    · cases run
    · rename_i unlocked
      obtain ⟨rfl, rfl⟩ := Prod.mk.inj (Option.some.inj run)
      simp only [Section.registers, ite_self, List.append_nil]
      refine ⟨(h.placed.delEvent fd event).mono (Nat.le_succ _), fun r mem => ?_, fun r mem => ?_,
        fun r mem => ?_, fun fd' d mem => ?_, fun fd' event' left held => ?_⟩
      · exact (h.accounted r mem).delEvent h.placed fd event
      · exact Nat.lt_succ_of_lt (h.registered r mem)
      · rcases List.mem_append.mp mem with old | new
        · exact Nat.lt_succ_of_lt (h.discarded r old)
        · have here := (h.placed.mem_discards.mp new).1
          exact Nat.lt_succ_of_lt (h.placed.number _ _ _ here)
      · rw [IOManager.delEvent_context]
        split
        · rfl
        · exact h.delivering fd' d mem
      · exact absurd (by rw [held]; rfl) unlocked
  | cancelEvent fd event =>
    simp only [Section.tag, Workers.exec] at run
    split at run
    · cases run
    · obtain ⟨rfl, rfl⟩ := Prod.mk.inj (Option.some.inj run)
      simp only [Section.registers, discards, ite_self]
      refine h.same (h.placed.triggerIn fd event) (fun r acc => acc.triggerIn h.placed fd event)
        (fun fd' d mem => h.triggerIn_empty fd event (h.delivering fd' d mem)) fun fd' event' left held => ?_
      dsimp only at held
      split at held
      · rename_i goesOn
        obtain ⟨rfl, same, -⟩ := Holder.mk.inj (Option.some.inj held)
        obtain rfl := Option.some.inj same
        exact fun d inside => h.triggered goesOn inside
      · cases held
  | cancelAll fd =>
    simp only [Section.tag, Workers.exec] at run
    split at run
    · cases run
    · obtain ⟨rfl, rfl⟩ := Prod.mk.inj (Option.some.inj run)
      simp only [Section.registers, discards, ite_self]
      exact h.same h.placed (fun r acc => acc) h.delivering (deleting_release fun _ none => by cases none)
  | cancelNext fd d =>
    simp only [Section.tag, Workers.exec] at run
    split at run
    · split at run
      · obtain ⟨rfl, rfl⟩ := Prod.mk.inj (Option.some.inj run)
        simp only [Section.registers, discards, ite_self]
        refine h.same (h.placed.triggerIn fd (.only d)) (fun r acc => acc.triggerIn h.placed fd (.only d))
          (fun fd' d' mem => h.triggerIn_empty fd (.only d) (h.delivering fd' d' mem))
          (deleting_release fun event deleting d' inside => ?_)
        split at deleting
        · rename_i goesOn
          obtain rfl := Option.some.inj deleting
          exact h.triggered goesOn inside
        · cases deleting
      · cases run
    · cases run
  | finishCancel =>
    simp only [Section.tag, Workers.exec] at run
    split at run
    · rename_i fd event left held
      obtain ⟨rfl, rfl⟩ := Prod.mk.inj (Option.some.inj run)
      have empty := h.deleting fd event left held
      simp only [Section.registers, discards, ite_self]
      refine Sound.same h ?_ (fun r acc => ?_) (fun fd' d mem => ?_)
        (deleting_release fun _ none => by cases none)
      · dsimp only
        split
        · exact (h.placed.deleteIn fd event).countDown
        · exact h.placed.deleteIn fd event
      · dsimp only
        split
        · exact (acc.deleteIn empty).countDown
        · exact acc.deleteIn empty
      · have fiber : ((w.workers.manager.deleteIn ctl fd event).2.context fd' d).fiber = none :=
          (IOManager.deleteIn_fiber empty fd' d).trans (h.delivering fd' d mem)
        dsimp only
        split <;> exact fiber
    · cases run
  | deliver fd d =>
    simp only [Section.tag, Workers.exec] at run
    obtain ⟨rfl, rfl⟩ := Prod.mk.inj (Option.some.inj run)
    simp only [Section.registers, discards, ite_self]
    have placed := h.placed.triggerIn fd (.only d)
    have accounted := fun r (acc : w.workers.manager.Accounted w.discarded r) =>
      acc.triggerIn h.placed fd (.only d)
    have deleting := fun fd' event left held d' inside =>
      h.triggerIn_empty fd (.only d) (h.deleting fd' event left held d' inside)
    split
    · rename_i goesOn
      refine h.same placed accounted (fun fd' d' mem => ?_) deleting
      rcases List.mem_cons.mp mem with same | mem
      · obtain ⟨rfl, rfl⟩ := Prod.mk.inj same
        exact h.triggered goesOn (by cases d' <;> rfl)
      · exact h.triggerIn_empty fd (.only d) (h.delivering fd' d' mem)
    · exact h.same placed.countDown (fun r acc => (accounted r acc).countDown)
        (fun fd' d' mem => h.triggerIn_empty fd (.only d) (h.delivering fd' d' mem)) deleting
  | finishDelivery fd d =>
    simp only [Section.tag, Workers.exec] at run
    split at run
    · rename_i mem
      obtain ⟨rfl, rfl⟩ := Prod.mk.inj (Option.some.inj run)
      have empty : ∀ d', (Events.only d).has d' = true → (w.workers.manager.context fd d').fiber = none := by
        intro d' inside
        have same : d' = d := by
          revert inside
          cases d <;> cases d' <;> decide
        rw [same]
        exact h.delivering fd d mem
      simp only [Section.registers, discards, ite_self]
      refine h.same (h.placed.deleteIn fd (.only d)).countDown (fun r acc => (acc.deleteIn empty).countDown)
        (fun fd' d' mem => ?_) fun fd' event left held d' inside => ?_
      · exact (IOManager.deleteIn_fiber empty fd' d').trans (h.delivering fd' d' (List.mem_of_mem_erase mem))
      · exact (IOManager.deleteIn_fiber empty fd' d').trans (h.deleting fd' event left held d' inside)
    · cases run

/-- In every run whose registrations find their contexts free no waiting fiber is dropped. -/
theorem noneDropped_free (ctl : EpollCtl K) : NoneDropped ctl (Free : Waiting K S F → Section S F → Prop) := by
  intro k events w run
  have h : w.Sound := run.invariant (I := Sound) (fun _ _ _ h step => h.step step.1 step.2) (sound_init k)
  exact h.accounted

/-- A fiber waits for input on fd 5 and is handed over, and its successor waits in the same context. -/
theorem noneDropped_free_again : ∃ w : Waiting Unit Unit Nat,
    Run (Guarded (Step fun k _ => (true, k)) fun w e => Free w e.1) (init ())
      [(.addEvent 5 (.only .read) (some ()) fun _ => 0, true), (.deliver 5 .read, true),
        (.finishDelivery 5 .read, true), (.addEvent 5 (.only .read) (some ()) fun _ => 1, true)] w ∧
    w.registered.map (·.fiber) = [0, 1] ∧
    ∀ r ∈ w.registered, w.workers.manager.Accounted w.discarded r := by
  obtain ⟨w, run, registered⟩ : ∃ w : Waiting Unit Unit Nat,
      Run (Guarded (Step fun k _ => (true, k)) fun w e => Free w e.1) (init ())
        [(.addEvent 5 (.only .read) (some ()) fun _ => 0, true), (.deliver 5 .read, true),
          (.finishDelivery 5 .read, true), (.addEvent 5 (.only .read) (some ()) fun _ => 1, true)] w ∧
      w.registered.map (·.fiber) = [0, 1] := by
    refine ⟨_, .cons ⟨rfl, rfl, fun d inside => ?_⟩ (.cons ⟨rfl, trivial⟩ (.cons ⟨rfl, trivial⟩
      (.single ⟨rfl, rfl, fun d inside => ?_⟩))), rfl⟩
    · cases d with
      | read => exact ⟨rfl, List.not_mem_nil⟩
      | write => cases inside
    · cases d with
      | read => exact ⟨rfl, List.not_mem_nil⟩
      | write => cases inside
  exact ⟨w, run, registered, noneDropped_free _ () _ w run⟩

/-- A second registration of input on fd 5 overwrites the fiber that waits there. -/
theorem not_noneDropped :
    ¬ NoneDropped (fun k _ => (true, k)) fun (_ : Waiting Unit Unit Nat) _ => True := by
  intro all
  have dropped := all () [(.addEvent 5 (.only .read) (some ()) fun _ => 0, true),
    (.addEvent 5 (.only .read) (some ()) fun _ => 1, true)] _
    (.cons ⟨rfl, trivial⟩ (.single ⟨rfl, trivial⟩)) ⟨0, 5, .read, some (), 0⟩ (by decide)
  cases dropped with
  | held here _ _ => exact absurd here (by decide)
  | handed _ once _ => exact absurd once (by decide)
  | discarded _ _ thrown => exact absurd thrown (by decide)

end Waiting

end Sylar
