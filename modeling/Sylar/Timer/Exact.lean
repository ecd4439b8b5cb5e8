import Sylar.Timer.Order

/-!
# Every call of a timer manager

`refresh` and `reset` delete, write the new expiration and insert; `reinsert` is what they share. With
its specification every call is known to keep the set sound. So in every state of every run the set is
strictly ordered, keys are only written while their timer is outside the set, expiry is exact, and the
next timer is the earliest one (`timers_exact`).
-/

namespace Sylar.TimerManager

open Lib

variable {φ ω : Type} {m : TimerManager φ ω}

theorem expiration_congr {m' : TimerManager φ ω} {t : TimerPtr} (same : m.heap[t]? = m'.heap[t]?) :
    m.expiration t = m'.expiration t := by
  unfold expiration expirationIn
  rw [same]

/-! ## Deleting -/

theorem delTimer_of_free (o : m.Ordered) {t : TimerPtr} (free : m.Free (m.expiration t)) :
    m.delTimer t = (false, m) := by
  unfold delTimer
  rw [(OrderedSet.find_eq_none o.sorted).mpr free]

/-- The timer given to `del_timer` is outside the set afterwards, whatever was erased. -/
theorem not_mem_delTimer (o : m.Ordered) (t : TimerPtr) : t ∉ (m.delTimer t).2.timers :=
  fun mem => ((mem_delTimer o t t).mp mem).2 rfl

theorem delTimer_expiration (t : TimerPtr) : (m.delTimer t).2.expiration = m.expiration :=
  congrArg expirationIn (delTimer_heap t)

theorem cancel_expiration (t : TimerPtr) : (m.cancel t).2.expiration = m.expiration := by
  unfold cancel
  split
  · split
    · exact (expirationIn_unmanaged _ t).trans (delTimer_expiration t)
    · rfl
  · rfl

theorem getNextTimer_expiration (now : UInt64) : (m.getNextTimer now).2.expiration = m.expiration := by
  unfold getNextTimer
  split
  · rfl
  · rfl

theorem Sound.delTimer (h : m.Sound) (t : TimerPtr) : (m.delTimer t).2.Sound := by
  refine ⟨delTimer_ordered h.toOrdered t, fun u mem => ?_⟩
  unfold TimerManager.managed
  rw [delTimer_heap]
  exact h.managed u ((mem_delTimer h.toOrdered t u).mp mem).1

/-! ## Moving a timer -/

/-- What `refresh` and `reset` share: delete, and where something was deleted write the new
expiration and insert. -/
def reinsert (m : TimerManager φ ω) (t : TimerPtr) (e : UInt64) : Bool × TimerManager φ ω :=
  if (m.delTimer t).1 then ((m.delTimer t).2.setExpiration t e).addTimerPtr t else m.delTimer t

/-- A timer that still has its manager is an allocated one. -/
theorem timer_of_managed {t : TimerPtr} (has : m.managed t = true) :
    ∃ timer, m.heap[t]? = some timer ∧ timer.managed = true := by
  unfold managed at has
  cases here : m.heap[t]? with
  | none => simp [here] at has
  | some timer => exact ⟨timer, rfl, by simpa [here] using has⟩

theorem allocated_of_managed {t : TimerPtr} (has : m.managed t = true) : t < m.heap.length := by
  obtain ⟨timer, here, -⟩ := timer_of_managed has
  exact (List.getElem?_eq_some_iff.mp here).1

section Reinsert

variable {t u : TimerPtr} {e : UInt64}

theorem reinsert_of_free (o : m.Ordered) (free : m.Free (m.expiration t)) :
    m.reinsert t e = (false, m) := by
  unfold reinsert
  rw [delTimer_of_free o free, if_neg Bool.false_ne_true]

/-- Nothing of a timer is written but its expiration. -/
theorem reinsert_map {β : Type} {read : Timer φ ω → β}
    (keep : ∀ x e, read { x with nextExpiration := e } = read x) :
    (m.reinsert t e).2.heap[u]?.map read = m.heap[u]?.map read := by
  unfold reinsert
  split
  · refine (map_modify fun x => keep x e).trans ?_
    rw [delTimer_heap]
  · rw [delTimer_heap]

theorem reinsert_managed : (m.reinsert t e).2.managed u = m.managed u :=
  congrArg (·.getD false) (reinsert_map fun _ _ => rfl)

theorem reinsert_expiration_ne (ne : u ≠ t) : (m.reinsert t e).2.expiration u = m.expiration u := by
  unfold reinsert
  split
  · exact (setExpiration_expiration_ne ne).trans (congrFun (delTimer_expiration t) u)
  · exact congrFun (delTimer_expiration t) u

/-- A key that has changed is the timer's own, and something was deleted. -/
theorem reinsert_changed (changed : (m.reinsert t e).2.expiration u ≠ m.expiration u) :
    u = t ∧ (m.delTimer t).1 = true := by
  refine ⟨not_not.mp fun ne => changed (reinsert_expiration_ne ne), ?_⟩
  by_contra kept
  unfold reinsert at changed
  rw [if_neg kept] at changed
  exact changed (congrFun (delTimer_expiration t) u)

/-- The other timers stay, except the one that has the expiration looked for. -/
theorem mem_reinsert_ne (o : m.Ordered) (ne : u ≠ t) :
    u ∈ (m.reinsert t e).2.timers ↔ u ∈ m.timers ∧ m.expiration u ≠ m.expiration t := by
  unfold reinsert
  split
  · refine Iff.trans OrderedSet.mem_insert (Iff.trans ?_ (mem_delTimer o t u))
    exact ⟨fun mem => mem.resolve_right fun new => ne new.2, .inl⟩
  · exact mem_delTimer o t u

/-- The key is written while the timer is outside the set, so the order is kept. -/
theorem Ordered.written (o : m.Ordered) (e : UInt64) :
    ((m.delTimer t).2.setExpiration t e).Ordered := by
  have deleted := delTimer_ordered o t
  refine ⟨deleted.sorted.congr fun u mem =>
    setExpiration_expiration_ne fun same => not_mem_delTimer o t (same ▸ mem), fun u mem => ?_⟩
  exact (List.length_modify ..).symm ▸ deleted.allocated u mem

theorem Sound.reinsert (h : m.Sound) (has : m.managed t = true) (e : UInt64) :
    (m.reinsert t e).2.Sound := by
  refine ⟨?_, fun u mem => ?_⟩
  · have deleted := delTimer_ordered h.toOrdered t
    unfold TimerManager.reinsert
    split
    · refine (addTimerPtr_spec (h.toOrdered.written e) ?_).1
      refine (List.length_modify ..).symm ▸ ?_
      rw [delTimer_heap]
      exact allocated_of_managed has
    · exact deleted
  · rw [reinsert_managed]
    by_cases same : u = t
    · rw [same]
      exact has
    · exact h.managed u ((mem_reinsert_ne h.toOrdered same).mp mem).1

end Reinsert

/-! ## Refreshing and resetting -/

section Refresh

variable {t : TimerPtr}

theorem refresh_unmanaged (now : UInt64) (gone : m.managed t = false) :
    m.refresh now t = (false, m) := by
  unfold refresh
  split
  · rename_i timer here
    have flag : timer.managed = false := by simpa [managed, here] using gone
    rw [if_neg (by simp [flag])]
  · rfl

theorem refresh_eq (now : UInt64) {timer : Timer φ ω} (here : m.heap[t]? = some timer)
    (flag : timer.managed = true) : m.refresh now t = m.reinsert t (now + timer.periodTime) := by
  simp only [refresh, here, flag, if_true, reinsert]

theorem refresh_managed (now : UInt64) (has : m.managed t = true) :
    ∃ e, m.refresh now t = m.reinsert t e := by
  obtain ⟨timer, here, flag⟩ := timer_of_managed has
  exact ⟨_, refresh_eq now here flag⟩

/-- What `reset` writes before it looks at the set. -/
def setPeriod (m : TimerManager φ ω) (t : TimerPtr) (ms : UInt64) : TimerManager φ ω :=
  { m with heap := m.heap.modify t fun timer => { timer with periodTime := ms } }

theorem setPeriod_expiration (ms : UInt64) : (m.setPeriod t ms).expiration = m.expiration :=
  funext fun _ => congrArg (·.getD 0) (map_modify (by intro; rfl))

theorem setPeriod_managed (ms : UInt64) : (m.setPeriod t ms).managed = m.managed :=
  funext fun _ => congrArg (·.getD false) (map_modify (by intro; rfl))

theorem Sound.setPeriod (h : m.Sound) (t : TimerPtr) (ms : UInt64) : (m.setPeriod t ms).Sound := by
  refine ⟨⟨?_, fun u mem => ?_⟩, fun u mem => ?_⟩
  · rw [setPeriod_expiration]
    exact h.sorted
  · exact (List.length_modify ..).symm ▸ h.allocated u mem
  · rw [setPeriod_managed]
    exact h.managed u mem

/-- Whether the expiration `reset` aims at is a new one. -/
def resetMoves (m : TimerManager φ ω) (clock : UInt64) (t : TimerPtr) (ms : UInt64) (fromNow : Bool) :
    Bool :=
  (m.heap[t]?.map fun timer =>
    (if fromNow then clock else timer.nextExpiration - timer.periodTime) + ms
      != timer.nextExpiration).getD false

variable (clock ms : UInt64) (fromNow : Bool)

theorem reset_unmanaged (gone : m.managed t = false) : m.reset clock t ms fromNow = (false, m) := by
  unfold reset
  split
  · rename_i timer here
    have flag : timer.managed = false := by simpa [managed, here] using gone
    rw [if_neg (by simp [flag])]
  · rfl

/-- Where `reset` counts from: the clock, or the start of the current period. -/
def resetStart (timer : Timer φ ω) (clock : UInt64) (fromNow : Bool) : UInt64 :=
  if fromNow then clock else timer.nextExpiration - timer.periodTime

theorem reset_eq {timer : Timer φ ω} (here : m.heap[t]? = some timer) (flag : timer.managed = true) :
    m.reset clock t ms fromNow =
      if resetStart timer clock fromNow + ms = timer.nextExpiration then (false, m.setPeriod t ms)
      else (m.setPeriod t ms).reinsert t (resetStart timer clock fromNow + ms) := by
  unfold reset
  rw [here]
  dsimp only
  rw [if_pos flag]
  by_cases same : resetStart timer clock fromNow + ms = timer.nextExpiration
  · rw [if_pos same]
    exact if_neg (not_not_intro same)
  · rw [if_neg same]
    exact if_pos same

theorem reset_still (has : m.managed t = true) (still : m.resetMoves clock t ms fromNow = false) :
    m.reset clock t ms fromNow = (false, m.setPeriod t ms) := by
  obtain ⟨timer, here, flag⟩ := timer_of_managed has
  have same : resetStart timer clock fromNow + ms = timer.nextExpiration := by
    simpa [resetMoves, resetStart, here] using still
  rw [reset_eq clock ms fromNow here flag, if_pos same]

theorem reset_moved (has : m.managed t = true) (moves : m.resetMoves clock t ms fromNow = true) :
    ∃ e, m.reset clock t ms fromNow = (m.setPeriod t ms).reinsert t e := by
  obtain ⟨timer, here, flag⟩ := timer_of_managed has
  have other : resetStart timer clock fromNow + ms ≠ timer.nextExpiration := by
    simpa [resetMoves, resetStart, here] using moves
  exact ⟨_, by rw [reset_eq clock ms fromNow here flag, if_neg other]⟩

end Refresh

theorem Sound.refresh (h : m.Sound) (now : UInt64) (t : TimerPtr) : (m.refresh now t).2.Sound := by
  cases has : m.managed t with
  | false =>
    rw [refresh_unmanaged now has]
    exact h
  | true =>
    obtain ⟨e, eq⟩ := refresh_managed now has
    rw [eq]
    exact h.reinsert has e

theorem Sound.reset (h : m.Sound) (clock : UInt64) (t : TimerPtr) (ms : UInt64) (fromNow : Bool) :
    (m.reset clock t ms fromNow).2.Sound := by
  cases has : m.managed t with
  | false =>
    rw [reset_unmanaged clock ms fromNow has]
    exact h
  | true =>
    cases moves : m.resetMoves clock t ms fromNow with
    | false =>
      rw [reset_still clock ms fromNow has moves]
      exact h.setPeriod t ms
    | true =>
      obtain ⟨e, eq⟩ := reset_moved clock ms fromNow has moves
      rw [eq]
      refine (h.setPeriod t ms).reinsert ?_ e
      rw [setPeriod_managed]
      exact has

/-- Every call keeps the set sound. -/
theorem Sound.call (h : m.Sound) (c : Call φ ω) : (m.call c).2.Sound := by
  cases c with
  | addTimer now recurring ms cb => exact h.addTimer now recurring ms cb
  | delTimer t => exact h.delTimer t
  | cancel t => exact h.cancel t
  | refresh now t => exact h.refresh now t
  | reset clock t ms fromNow => exact h.reset clock t ms fromNow
  | getNextTimer now => exact h.getNextTimer now
  | getExpiredTimers now => exact (h.getExpiredTimers now).1

/-- The set is sound in every state of every run. -/
theorem sound_of_run {events : List (Call φ ω × Answer)} (run : Run Step init events m) : m.Sound :=
  run.invariant (I := Sound) (fun s event _ h step => by
    have kept := h.call event.1
    rw [show s.call event.1 = _ from step] at kept
    exact kept) sound_init

/-! ## Exact expiry -/

/-- The loop over the expired timers writes no other timer. -/
theorem rearm_heap_ne (now : UInt64) (expired : List TimerPtr) {u : TimerPtr} (other : u ∉ expired) :
    ∀ m : TimerManager φ ω, (rearm now expired m).heap[u]? = m.heap[u]? := by
  simp only [rearm_eq_foldl]
  induction expired with
  | nil => intro m; rfl
  | cons t expired ih =>
    intro m
    obtain ⟨ne, later⟩ := not_or.mp fun mem => other (List.mem_cons.mpr mem)
    rw [List.foldl_cons, ih later, rearmOne_heap_ne ne]

/-- Nor does it write a one-shot timer. -/
theorem rearm_heap_oneShot (now : UInt64) (expired : List TimerPtr) {u : TimerPtr} :
    ∀ m : TimerManager φ ω, m.recurring u = false → (rearm now expired m).heap[u]? = m.heap[u]? := by
  simp only [rearm_eq_foldl]
  induction expired with
  | nil => intro m _; rfl
  | cons t expired ih =>
    intro m once
    rw [List.foldl_cons, ih _ (rearmOne_flags.trans once)]
    by_cases same : u = t
    · rw [same] at once ⊢
      rw [rearmOne_oneShot once]
    · exact rearmOne_heap_ne same

/-- What was in the set stays in it. -/
theorem mem_rearm (now : UInt64) (expired : List TimerPtr) {u : TimerPtr} :
    ∀ m : TimerManager φ ω, u ∈ m.timers → u ∈ (rearm now expired m).timers := by
  simp only [rearm_eq_foldl]
  induction expired with
  | nil => exact fun m mem => mem
  | cons t expired ih => exact fun m mem => ih _ (mem_rearmOne mem)

/-- What the loop brings into the set: recurring timers of the loop, at their new expirations. -/
theorem mem_of_mem_rearm (now : UInt64) (expired : List TimerPtr) {u : TimerPtr} :
    ∀ m : TimerManager φ ω, (∀ t ∈ expired, t < m.heap.length) → expired.Nodup →
    u ∈ (rearm now expired m).timers → u ∈ m.timers ∨
      (u ∈ expired ∧ m.recurring u = true ∧ (rearm now expired m).expiration u = m.rearmedAt now u) := by
  induction expired with
  | nil => exact fun m _ _ mem => .inl mem
  | cons t expired ih =>
    intro m alloc nodup mem
    obtain ⟨notAgain, nodup⟩ := List.nodup_cons.mp nodup
    have unfolded : rearm now (t :: expired) m = rearm now expired (rearmOne now m t) := by
      simp only [rearm_eq_foldl, List.foldl_cons]
    rw [unfolded] at mem ⊢
    have alloc' : ∀ v ∈ expired, v < (rearmOne now m t).heap.length := fun v later => by
      rw [rearmOne_length]
      exact alloc v (List.mem_cons_of_mem _ later)
    rcases ih (rearmOne now m t) alloc' nodup mem with before | ⟨later, again, target⟩
    · rcases mem_of_mem_rearmOne before with old | ⟨rfl, again⟩
      · exact .inl old
      · -- the timer of this turn is not written by the later ones
        refine .inr ⟨List.mem_cons_self, again, ?_⟩
        rw [← rearmOne_expiration_self (alloc u List.mem_cons_self) again]
        exact expiration_congr (rearm_heap_ne now expired notAgain _)
    · exact .inr ⟨List.mem_cons_of_mem _ later, rearmOne_flags.symm.trans again,
        target.trans rearmOne_rearmedAt⟩

/-- The manager as the loop of `get_expired_timers` starts. -/
def expiring (m : TimerManager φ ω) (now : UInt64) : TimerManager φ ω :=
  { m with timers := OrderedSet.beyond m.expiration now.toNat m.timers, needTickle := true }

theorem getExpiredTimers_fst (now : UInt64) :
    (m.getExpiredTimers now []).1 = OrderedSet.upTo m.expiration now.toNat m.timers := by
  unfold getExpiredTimers
  dsimp only
  split
  · rename_i none
    exact (List.isEmpty_iff.mp none).symm
  · rfl

/-- Where nothing has expired the loop has nothing to do; `need_tickle_` is not set either. -/
theorem getExpiredTimers_snd (now : UInt64) :
    (m.getExpiredTimers now []).2.heap =
        (rearm now (OrderedSet.upTo m.expiration now.toNat m.timers) (m.expiring now)).heap ∧
      (m.getExpiredTimers now []).2.timers =
        (rearm now (OrderedSet.upTo m.expiration now.toNat m.timers) (m.expiring now)).timers := by
  unfold getExpiredTimers
  dsimp only
  split
  · rename_i none
    have split : OrderedSet.upTo m.expiration now.toNat m.timers ++
        OrderedSet.beyond m.expiration now.toNat m.timers = m.timers := OrderedSet.upTo_append_beyond
    rw [List.isEmpty_iff.mp none, List.nil_append] at split
    rw [List.isEmpty_iff.mp none]
    exact ⟨rfl, split.symm⟩
  · exact ⟨rfl, rfl⟩

/-- The members after an expiry: those that were not due, as they were, and recurring timers that were
due, at their new expirations. -/
theorem Sound.mem_after (h : m.Sound) {now : UInt64} {t : TimerPtr}
    (mem : t ∈ (m.getExpiredTimers now []).2.timers) :
    (t ∈ m.timers ∧ now.toNat < m.expiration t ∧
        (m.getExpiredTimers now []).2.expiration t = m.expiration t) ∨
      (t ∈ (m.getExpiredTimers now []).1 ∧ m.recurring t = true ∧
        (m.getExpiredTimers now []).2.expiration t = m.rearmedAt now t) := by
  have members := fun u => OrderedSet.mem_upTo (x := u) (k := now.toNat) h.sorted
  obtain ⟨heap, timers⟩ := getExpiredTimers_snd (m := m) now
  rw [timers] at mem
  rw [getExpiredTimers_fst, show (m.getExpiredTimers now []).2.expiration =
    (rearm now (OrderedSet.upTo m.expiration now.toNat m.timers) (m.expiring now)).expiration from
      congrArg expirationIn heap]
  rcases mem_of_mem_rearm now _ (m.expiring now) (fun u inside => h.allocated u ((members u).mp inside).1)
    (h.toOrdered.nodup now) mem with stayed | again
  · obtain ⟨old, later⟩ := (OrderedSet.mem_beyond h.sorted).mp stayed
    have undue : t ∉ OrderedSet.upTo m.expiration now.toNat m.timers :=
      fun inside => absurd ((members t).mp inside).2 (not_le.mpr later)
    exact .inl ⟨old, later, expiration_congr (rearm_heap_ne now _ undue (m.expiring now))⟩
  · exact .inr again

/-- Expiry at the clock reading `now` is exact: it returns the members that are due, each once and in
increasing order; a member that is due afterwards is a recurring timer that the call has re-armed, and
the members that are not due are untouched. -/
structure ExactExpiry (m : TimerManager φ ω) (now : UInt64) : Prop where
  returned : ∀ t, t ∈ (m.getExpiredTimers now []).1 ↔ t ∈ m.timers ∧ m.expiration t ≤ now.toNat
  once : (m.getExpiredTimers now []).1.Nodup
  increasing : OrderedSet.Sorted m.expiration (m.getExpiredTimers now []).1
  rearmed : ∀ t ∈ (m.getExpiredTimers now []).2.timers,
    (m.getExpiredTimers now []).2.expiration t ≤ now.toNat →
    t ∈ (m.getExpiredTimers now []).1 ∧ m.recurring t = true ∧
      (m.getExpiredTimers now []).2.expiration t = m.rearmedAt now t
  untouched : ∀ t ∈ m.timers, now.toNat < m.expiration t →
    t ∈ (m.getExpiredTimers now []).2.timers ∧ (m.getExpiredTimers now []).2.heap[t]? = m.heap[t]?

theorem Sound.exactExpiry (h : m.Sound) (now : UInt64) : m.ExactExpiry now := by
  have members := fun t => OrderedSet.mem_upTo (x := t) (k := now.toNat) h.sorted
  have beyond := fun t => OrderedSet.mem_beyond (x := t) (k := now.toNat) h.sorted
  obtain ⟨heap, timers⟩ := getExpiredTimers_snd (m := m) now
  have due : ∀ t, now.toNat < m.expiration t →
      t ∉ OrderedSet.upTo m.expiration now.toNat m.timers :=
    fun t later mem => absurd ((members t).mp mem).2 (not_le.mpr later)
  constructor
  case returned =>
    intro t
    rw [getExpiredTimers_fst]
    exact members t
  case once =>
    rw [getExpiredTimers_fst]
    exact h.toOrdered.nodup now
  case increasing =>
    rw [getExpiredTimers_fst]
    exact OrderedSet.sorted_upTo h.sorted
  case rearmed =>
    intro t mem le
    rcases h.mem_after mem with ⟨-, later, same⟩ | again
    · rw [same] at le
      exact absurd le (not_le.mpr later)
    · exact again
  case untouched =>
    intro t mem later
    rw [timers, heap]
    refine ⟨mem_rearm now _ (m.expiring now) ((beyond t).mpr ⟨mem, later⟩), ?_⟩
    exact rearm_heap_ne now _ (due t later) (m.expiring now)

/-! ## The next timer -/

/-- The waiting time until the first expiration: all ones where there is none, nothing where it has
passed. -/
def WaitsFor (m : TimerManager φ ω) (now wait : UInt64) : Prop :=
  (m.timers = [] → wait = ~~~0) ∧
    (m.timers ≠ [] → ∃ t ∈ m.timers, (∀ u ∈ m.timers, m.expiration t ≤ m.expiration u) ∧
      wait.toNat = max 0 (m.expiration t - now.toNat))

theorem Ordered.waitsFor (o : m.Ordered) (now : UInt64) : m.WaitsFor now (m.getNextTimer now).1 := by
  unfold getNextTimer
  cases timers : m.timers with
  | nil => exact ⟨fun _ => rfl, fun some => absurd timers some⟩
  | cons t rest =>
    refine ⟨fun none => absurd (timers.symm.trans none) (List.cons_ne_nil t rest), fun _ => ?_⟩
    have sorted := o.sorted
    rw [timers] at sorted
    obtain ⟨first, -⟩ := List.pairwise_cons.mp sorted
    have inside : t ∈ m.timers := timers ▸ List.mem_cons_self
    refine ⟨t, inside, fun u mem => ?_, ?_⟩
    · rw [timers] at mem
      rcases List.mem_cons.mp mem with rfl | later
      · exact le_rfl
      · exact le_of_lt (first u later)
    · have here := List.getElem?_eq_getElem (o.allocated t inside)
      have key : m.expiration t = (m.heap.get ⟨t, o.allocated t inside⟩).nextExpiration.toNat := by
        simp [expiration, expirationIn, here]
      rw [key]
      simp only [here, Option.map_some, Option.getD_some, List.get_eq_getElem, Nat.zero_max]
      split
      · rename_i passed
        exact (Nat.sub_eq_zero_of_le (UInt64.le_iff_toNat_le.mp passed)).symm
      · rename_i ahead
        exact UInt64.toNat_sub_of_le _ _ (UInt64.le_of_lt (UInt64.not_le.mp ahead))

/-! ## Where keys are written -/

/-- The writes of `next_expiration_` by a call, with the timer written and the manager at that
moment. `refresh` and `reset` write between the deletion and the insertion, `get_expired_timers` at
each recurring timer of its loop. The constructor of a timer writes before the timer is anyone's. -/
inductive Writes (m : TimerManager φ ω) : Call φ ω → TimerPtr → TimerManager φ ω → Prop where
  | refresh {now : UInt64} {t : TimerPtr} (has : m.managed t = true) (ret : (m.delTimer t).1 = true) :
      Writes m (.refresh now t) t (m.delTimer t).2
  | reset {clock ms : UInt64} {fromNow : Bool} {t : TimerPtr} (has : m.managed t = true)
      (moves : m.resetMoves clock t ms fromNow = true)
      (ret : ((m.setPeriod t ms).delTimer t).1 = true) :
      Writes m (.reset clock t ms fromNow) t ((m.setPeriod t ms).delTimer t).2
  | rearm {now : UInt64} {before after : List TimerPtr} {t : TimerPtr}
      (loop : OrderedSet.upTo m.expiration now.toNat m.timers = before ++ t :: after)
      (again : m.recurring t = true) :
      Writes m (.getExpiredTimers now) t (rearm now before (m.expiring now))

/-- A key is written while its timer is outside the set. -/
theorem Sound.not_mem_of_writes (h : m.Sound) {c : Call φ ω} {t : TimerPtr} {m' : TimerManager φ ω}
    (write : Writes m c t m') : t ∉ m'.timers := by
  cases write with
  | refresh => exact not_mem_delTimer h.toOrdered t
  | reset => exact not_mem_delTimer (h.setPeriod t _).toOrdered t
  | @rearm now before after _ loop again =>
    have nodup := h.toOrdered.nodup now
    have alloc : ∀ u ∈ before ++ t :: after, u < m.heap.length := fun u mem =>
      h.allocated u ((OrderedSet.mem_upTo h.sorted).mp (loop ▸ mem)).1
    have due := ((OrderedSet.mem_upTo h.sorted).mp
      (loop ▸ List.mem_append_right before List.mem_cons_self : t ∈ OrderedSet.upTo _ _ _)).2
    rw [loop] at nodup
    obtain ⟨distinct, -, apart⟩ := List.nodup_append.mp nodup
    intro mem
    rcases mem_of_mem_rearm now before (m.expiring now)
      (fun u inside => alloc u (List.mem_append_left _ inside)) distinct mem with later | ⟨earlier, -⟩
    · exact not_lt.mpr due (OrderedSet.lt_of_mem_beyond h.sorted later)
    · exact apart t earlier t List.mem_cons_self rfl

/-- A call changes no key but by these writes. -/
theorem writes_of_expiration_ne {c : Call φ ω} {u : TimerPtr} (old : u < m.heap.length)
    (changed : (m.call c).2.expiration u ≠ m.expiration u) : ∃ m', Writes m c u m' := by
  cases c with
  | addTimer now recurring ms cb => exact absurd (expirationIn_append old) changed
  | delTimer t => exact absurd (congrFun (delTimer_expiration t) u) changed
  | cancel t => exact absurd (congrFun (cancel_expiration t) u) changed
  | refresh now t =>
    replace changed : (m.refresh now t).2.expiration u ≠ m.expiration u := changed
    cases has : m.managed t with
    | false =>
      rw [refresh_unmanaged now has] at changed
      exact absurd rfl changed
    | true =>
      obtain ⟨e, eq⟩ := refresh_managed now has
      rw [eq] at changed
      obtain ⟨rfl, ret⟩ := reinsert_changed changed
      exact ⟨_, .refresh has ret⟩
  | reset clock t ms fromNow =>
    replace changed : (m.reset clock t ms fromNow).2.expiration u ≠ m.expiration u := changed
    cases has : m.managed t with
    | false =>
      rw [reset_unmanaged clock ms fromNow has] at changed
      exact absurd rfl changed
    | true =>
      have period := congrFun (setPeriod_expiration (m := m) (t := t) ms) u
      cases moves : m.resetMoves clock t ms fromNow with
      | false =>
        rw [reset_still clock ms fromNow has moves] at changed
        exact absurd period changed
      | true =>
        obtain ⟨e, eq⟩ := reset_moved clock ms fromNow has moves
        rw [eq, ← period] at changed
        obtain ⟨rfl, ret⟩ := reinsert_changed changed
        exact ⟨_, .reset has moves ret⟩
  | getNextTimer now => exact absurd (congrFun (getNextTimer_expiration now) u) changed
  | getExpiredTimers now =>
    replace changed : (m.getExpiredTimers now []).2.expiration u ≠ m.expiration u := changed
    have heap := (getExpiredTimers_snd (m := m) now).1
    by_cases inside : u ∈ OrderedSet.upTo m.expiration now.toNat m.timers
    · cases flag : m.recurring u with
      | false =>
        refine absurd (expiration_congr ?_) changed
        rw [heap]
        exact rearm_heap_oneShot now _ (m.expiring now) flag
      | true =>
        obtain ⟨before, after, loop⟩ := List.append_of_mem inside
        exact ⟨_, .rearm loop flag⟩
    · refine absurd (expiration_congr ?_) changed
      rw [heap]
      exact rearm_heap_ne now _ inside (m.expiring now)

/-- In every state that any sequence of calls reaches, at whatever clock readings: the set is strictly
increasing, no call writes a key while its timer is in the set, expiry is exact at every clock reading,
and the next timer is the earliest one. -/
theorem timers_exact {events : List (Call φ ω × Answer)} (run : Run Step init events m) :
    OrderedSet.Sorted m.expiration m.timers ∧
      (∀ c t m', Writes m c t m' → t ∉ m'.timers) ∧
      (∀ c, ∀ t < m.heap.length, (m.call c).2.expiration t ≠ m.expiration t → ∃ m', Writes m c t m') ∧
      (∀ now, m.ExactExpiry now) ∧ ∀ now, m.WaitsFor now (m.getNextTimer now).1 := by
  have h := sound_of_run run
  refine ⟨h.sorted, fun c t m' write => h.not_mem_of_writes write,
    fun c t old changed => writes_of_expiration_ne old changed, h.exactExpiry, h.toOrdered.waitsFor⟩

/-- A recurring timer and a one-shot one that expires after it, until the first is refreshed. -/
theorem timers_exact_refreshed : ∃ m : TimerManager Unit Unit,
    Run Step init [(.addTimer 0 true 10 (.plain ()), .timer (some 0)),
      (.addTimer 5 false 10 (.plain ()), .timer (some 1)), (.refresh 7 0, .flag true)] m ∧
    m.timers = [1, 0] ∧ m.ExactExpiry 15 := by
  have run : Run Step (init : TimerManager Unit Unit) [(.addTimer 0 true 10 (.plain ()), .timer (some 0)),
      (.addTimer 5 false 10 (.plain ()), .timer (some 1)), (.refresh 7 0, .flag true)] _ :=
    .cons rfl (.cons rfl (.single rfl))
  exact ⟨_, run, rfl, (timers_exact run).2.2.2.1 15⟩

end Sylar.TimerManager
