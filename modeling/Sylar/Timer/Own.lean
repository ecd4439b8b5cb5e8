import Sylar.Timer.Exact

/-!
# Calls on one timer

A cancelled timer never comes back: `manager_` is the only gate to `timers_`, no call sets it again,
and every timer in the set still has it (`cancelled_never_fires`).

The calls on a timer find it by its expiration. A timer that has fired keeps its old expiration, so a
call on it finds any other timer that has this expiration now, erases that one, and answers true. The
calls act on their own timer alone exactly when this does not happen (`ownTimerOnly_iff`).
-/

namespace Sylar.TimerManager

open Lib

variable {φ ω : Type} {m : TimerManager φ ω} {t : TimerPtr}

/-! ## Cancelled timers -/

/-- The loop over the expired timers writes nothing of a timer but its expiration. -/
theorem rearm_map {β : Type} {read : Timer φ ω → β}
    (keep : ∀ x e, read { x with nextExpiration := e } = read x) (now : UInt64)
    (expired : List TimerPtr) : ∀ m : TimerManager φ ω,
    (rearm now expired m).heap[t]?.map read = m.heap[t]?.map read := by
  simp only [rearm_eq_foldl]
  induction expired with
  | nil => intro m; rfl
  | cons u expired ih =>
    intro m
    rw [List.foldl_cons, ih, rearmOne_map keep]

/-- Whether a timer was cancelled: it is allocated and has no manager. -/
def cancelled (m : TimerManager φ ω) (t : TimerPtr) : Prop :=
  m.heap[t]?.map Timer.managed = some false

theorem cancelled.managed (gone : m.cancelled t) : m.managed t = false :=
  congrArg (·.getD false) gone

theorem cancelled_cancel (alloc : t < m.heap.length) : (m.cancel t).2.cancelled t := by
  have here := List.getElem?_eq_getElem alloc
  unfold cancel cancelled
  rw [here]
  dsimp only
  split
  · dsimp only
    rw [delTimer_heap, List.getElem?_modify, here]
    simp
  · rename_i gone
    rw [here]
    simpa using gone

/-- No call gives a cancelled timer its manager back. -/
theorem cancelled.call (gone : m.cancelled t) (c : Call φ ω) : (m.call c).2.cancelled t := by
  have unmanaged := gone.managed
  have alloc : t < m.heap.length := by
    obtain ⟨timer, here, -⟩ := Option.map_eq_some_iff.mp gone
    exact (List.getElem?_eq_some_iff.mp here).1
  cases c with
  | addTimer now recurring ms cb =>
    refine Eq.trans ?_ gone
    show (m.addTimer now recurring ms cb).2.heap[t]?.map Timer.managed = _
    rw [addTimer_heap, List.getElem?_append_left alloc]
  | delTimer u =>
    refine Eq.trans ?_ gone
    show (m.delTimer u).2.heap[t]?.map Timer.managed = _
    rw [delTimer_heap]
  | cancel u =>
    show (m.cancel u).2.cancelled t
    by_cases same : u = t
    · rw [same]
      exact cancelled_cancel alloc
    · refine Eq.trans ?_ gone
      unfold TimerManager.cancel
      split
      · split
        · dsimp only
          rw [delTimer_heap]
          simp [same]
        · rfl
      · rfl
  | refresh now u =>
    refine Eq.trans ?_ gone
    show (m.refresh now u).2.heap[t]?.map Timer.managed = _
    cases has : m.managed u with
    | false => rw [refresh_unmanaged now has]
    | true =>
      obtain ⟨e, eq⟩ := refresh_managed now has
      rw [eq, reinsert_map fun _ _ => rfl]
  | reset clock u ms fromNow =>
    refine Eq.trans ?_ gone
    show (m.reset clock u ms fromNow).2.heap[t]?.map Timer.managed = _
    have period : (m.setPeriod u ms).heap[t]?.map Timer.managed = m.heap[t]?.map Timer.managed :=
      map_modify (by intro; rfl)
    cases has : m.managed u with
    | false => rw [reset_unmanaged clock ms fromNow has]
    | true =>
      cases moves : m.resetMoves clock u ms fromNow with
      | false => rw [reset_still clock ms fromNow has moves, period]
      | true =>
        obtain ⟨e, eq⟩ := reset_moved clock ms fromNow has moves
        rw [eq, reinsert_map fun _ _ => rfl, period]
  | getNextTimer now =>
    refine Eq.trans ?_ gone
    show (m.getNextTimer now).2.heap[t]?.map Timer.managed = _
    unfold TimerManager.getNextTimer
    split
    · rfl
    · rfl
  | getExpiredTimers now =>
    refine Eq.trans ?_ gone
    show (m.getExpiredTimers now []).2.heap[t]?.map Timer.managed = _
    rw [(getExpiredTimers_snd now).1, rearm_map fun _ _ => rfl]
    rfl

/-- A timer without its manager is returned by no call as expired. -/
theorem Sound.not_returns (h : m.Sound) (gone : m.managed t = false) (c : Call φ ω) :
    ¬ Returns t (c, (m.call c).1) := by
  have outside : t ∉ m.timers := fun mem => by
    rw [h.managed t mem] at gone
    cases gone
  cases c with
  | getExpiredTimers now =>
    exact fun returned => outside (((h.exactExpiry now).returned t).mp returned).1
  | addTimer | delTimer | cancel | refresh | reset | getNextTimer => exact not_false

/-- Along a run from a state where a timer is cancelled, no call returns it. -/
theorem not_returns_of_run {m' : TimerManager φ ω} {events : List (Call φ ω × Answer)}
    (run : Run Step m events m') : m.Sound → m.cancelled t →
    (∀ event ∈ events, ¬ Returns t event) ∧ m'.Sound ∧ m'.cancelled t := by
  induction run with
  | nil m => exact fun h gone => ⟨fun event mem => absurd mem List.not_mem_nil, h, gone⟩
  | @cons m m₁ m' event events step rest ih =>
    intro h gone
    obtain ⟨call, answer⟩ := event
    obtain ⟨rfl, rfl⟩ := Prod.mk.inj (show m.call call = (answer, m₁) from step)
    obtain ⟨later, sound, still⟩ := ih (h.call call) (gone.call call)
    refine ⟨fun event mem => ?_, sound, still⟩
    rcases List.mem_cons.mp mem with rfl | mem
    · exact h.not_returns gone.managed call
    · exact later event mem

/-- Once a timer has been cancelled it is in no later set, and no later call returns it as expired,
whatever is called on it or on others. -/
theorem cancelled_never_fires {before after : List (Call φ ω × Answer)} {m₀ m₁ m₂ : TimerManager φ ω}
    {answer : Answer} (run : Run Step init before m₀) (alloc : t < m₀.heap.length)
    (cancel : Step m₀ (.cancel t, answer) m₁) (rest : Run Step m₁ after m₂) :
    t ∉ m₁.timers ∧ t ∉ m₂.timers ∧ ∀ event ∈ after, ¬ Returns t event := by
  obtain ⟨-, rfl⟩ := Prod.mk.inj (show m₀.call (.cancel t) = (answer, m₁) from cancel)
  have h := (sound_of_run run).call (.cancel t)
  have gone : (m₀.call (.cancel t)).2.cancelled t := cancelled_cancel alloc
  obtain ⟨quiet, h', gone'⟩ := not_returns_of_run rest h gone
  have outside : ∀ {m : TimerManager φ ω}, m.Sound → m.cancelled t → t ∉ m.timers :=
    fun {m} sound gone mem => by
      have none := gone.managed
      rw [sound.managed t mem] at none
      cases none
  exact ⟨outside h gone, outside h' gone', quiet⟩

/-- A recurring timer, cancelled and then refreshed: the expiry at 20 returns only the other timer. -/
theorem cancelled_never_fires_refreshed : ∃ m : TimerManager Unit Unit, 0 ∉ m.timers ∧
    ∀ event ∈ [((.refresh 4 0, .flag false) : Call Unit Unit × Answer),
      (.getExpiredTimers 20, .expired [1])], ¬ Returns 0 event := by
  have run : Run Step (init : TimerManager Unit Unit) [(.addTimer 0 true 10 (.plain ()), .timer (some 0)),
      (.addTimer 3 false 10 (.plain ()), .timer (some 1))] _ := .cons rfl (.single rfl)
  exact ⟨_, (cancelled_never_fires run (by decide) (show Step _ (.cancel 0, .flag true) _ from rfl)
    (show Run Step _ [(.refresh 4 0, .flag false), (.getExpiredTimers 20, .expired [1])] _ from
      .cons rfl (.single rfl))).2⟩

/-! ## The timer a call is about -/

/-- A call on `t` acts on no other timer: the others in the set stay at their expirations, and the
answer is true only if `t` was in the set; where it was not, the call answers false and changes neither
the set nor an expiration. -/
structure OwnTimerOnly (m : TimerManager φ ω) (t : TimerPtr) (r : Bool × TimerManager φ ω) : Prop where
  others : ∀ u ∈ m.timers, u ≠ t → u ∈ r.2.timers ∧ r.2.expiration u = m.expiration u
  own : r.1 = true → t ∈ m.timers
  stale : t ∉ m.timers → r.1 = false ∧ r.2.timers = m.timers ∧ r.2.expiration = m.expiration

/-- A call that changes neither set nor expirations. -/
theorem ownTimerOnly_of_unchanged {m' : TimerManager φ ω} (timers : m'.timers = m.timers)
    (keys : m'.expiration = m.expiration) : OwnTimerOnly m t (false, m') :=
  ⟨fun u mem _ => ⟨timers ▸ mem, congrFun keys u⟩, (fun yes => nomatch yes), fun _ => ⟨rfl, timers, keys⟩⟩

/-- A call that looks its timer up by expiration: it takes out the other timer that has this
expiration, and does nothing where no timer has it. -/
theorem ownTimerOnly_iff_of_lookup (o : m.Ordered) {r : Bool × TimerManager φ ω}
    (members : ∀ u, u ≠ t → (u ∈ r.2.timers ↔ u ∈ m.timers ∧ m.expiration u ≠ m.expiration t))
    (keys : ∀ u, u ≠ t → r.2.expiration u = m.expiration u)
    (none : m.Free (m.expiration t) →
      r.1 = false ∧ r.2.timers = m.timers ∧ r.2.expiration = m.expiration) :
    OwnTimerOnly m t r ↔ t ∈ m.timers ∨ m.Free (m.expiration t) := by
  constructor
  · intro only
    by_contra stale
    obtain ⟨outside, taken⟩ := not_or.mp stale
    refine taken fun u mem same => ?_
    have ne : u ≠ t := fun eq => outside (eq ▸ mem)
    exact ((members u ne).mp (only.others u mem ne).1).2 same
  · rintro (inside | free)
    · refine ⟨fun u mem ne => ⟨(members u ne).mpr ⟨mem, fun same => ?_⟩, keys u ne⟩, fun _ => inside,
        fun outside => absurd inside outside⟩
      exact ne (o.sorted.eq_of_key_eq mem inside same)
    · obtain ⟨answer, timers, expirations⟩ := none free
      refine ⟨fun u mem _ => ⟨timers ▸ mem, congrFun expirations u⟩, fun yes => ?_,
        fun _ => ⟨answer, timers, expirations⟩⟩
      cases answer.symm.trans yes

theorem delTimer_ownTimerOnly (o : m.Ordered) :
    OwnTimerOnly m t (m.delTimer t) ↔ t ∈ m.timers ∨ m.Free (m.expiration t) := by
  refine ownTimerOnly_iff_of_lookup o (fun u _ => mem_delTimer o t u)
    (fun u _ => congrFun (delTimer_expiration t) u) fun free => ?_
  rw [delTimer_of_free o free]
  exact ⟨rfl, rfl, rfl⟩

theorem reinsert_ownTimerOnly (o : m.Ordered) (e : UInt64) :
    OwnTimerOnly m t (m.reinsert t e) ↔ t ∈ m.timers ∨ m.Free (m.expiration t) := by
  refine ownTimerOnly_iff_of_lookup o (fun u ne => mem_reinsert_ne o ne)
    (fun u ne => reinsert_expiration_ne ne) fun free => ?_
  rw [reinsert_of_free o free]
  exact ⟨rfl, rfl, rfl⟩

/-- Cancelling a timer that has its manager is a deletion. -/
theorem cancel_managed (has : m.managed t = true) :
    (m.cancel t).1 = (m.delTimer t).1 ∧ (m.cancel t).2.timers = (m.delTimer t).2.timers := by
  obtain ⟨timer, here, flag⟩ := timer_of_managed has
  simp [cancel, here, flag]

theorem cancel_unmanaged (gone : m.managed t = false) : m.cancel t = (false, m) := by
  unfold cancel
  split
  · rename_i timer here
    have flag : timer.managed = false := by simpa [managed, here] using gone
    rw [if_neg (by simp [flag])]
  · rfl

theorem cancel_ownTimerOnly (o : m.Ordered) (has : m.managed t = true) :
    OwnTimerOnly m t (m.cancel t) ↔ t ∈ m.timers ∨ m.Free (m.expiration t) := by
  obtain ⟨answer, timers⟩ := cancel_managed has
  refine ownTimerOnly_iff_of_lookup o (fun u _ => ?_)
    (fun u _ => congrFun (cancel_expiration t) u) fun free => ?_
  · rw [timers]
    exact mem_delTimer o t u
  · rw [answer, timers, cancel_expiration, delTimer_of_free o free]
    exact ⟨rfl, rfl, rfl⟩

/-- The calls on a timer act on it alone, in every state of every run. -/
def CallsActOnOwnTimer (φ ω : Type) : Prop :=
  ∀ (events : List (Call φ ω × Answer)) (m : TimerManager φ ω), Run Step init events m → ∀ t,
    OwnTimerOnly m t (m.delTimer t) ∧ OwnTimerOnly m t (m.cancel t) ∧
      (∀ now, OwnTimerOnly m t (m.refresh now t)) ∧
      ∀ clock ms fromNow, OwnTimerOnly m t (m.reset clock t ms fromNow)

/-- In every state that any sequence of calls reaches, a call on a timer acts on it alone exactly when
the timer is in the set or no timer has its expiration, or else when the call does not reach the
look-up: the timer was cancelled before, or `reset` aims at the expiration it has. -/
theorem ownTimerOnly_iff {events : List (Call φ ω × Answer)} (run : Run Step init events m)
    (t : TimerPtr) :
    (OwnTimerOnly m t (m.delTimer t) ↔ t ∈ m.timers ∨ m.Free (m.expiration t)) ∧
      (OwnTimerOnly m t (m.cancel t) ↔
        m.managed t = false ∨ t ∈ m.timers ∨ m.Free (m.expiration t)) ∧
      (∀ now, OwnTimerOnly m t (m.refresh now t) ↔
        m.managed t = false ∨ t ∈ m.timers ∨ m.Free (m.expiration t)) ∧
      ∀ clock ms fromNow, OwnTimerOnly m t (m.reset clock t ms fromNow) ↔
        m.managed t = false ∨ m.resetMoves clock t ms fromNow = false ∨
          t ∈ m.timers ∨ m.Free (m.expiration t) := by
  have h := sound_of_run run
  refine ⟨delTimer_ownTimerOnly h.toOrdered, ?_⟩
  cases has : m.managed t with
  | false =>
    rw [cancel_unmanaged has]
    refine ⟨iff_of_true (ownTimerOnly_of_unchanged rfl rfl) (.inl rfl), fun now => ?_,
      fun clock ms fromNow => ?_⟩
    · rw [refresh_unmanaged now has]
      exact iff_of_true (ownTimerOnly_of_unchanged rfl rfl) (.inl rfl)
    · rw [reset_unmanaged clock ms fromNow has]
      exact iff_of_true (ownTimerOnly_of_unchanged rfl rfl) (.inl rfl)
  | true =>
    simp only [Bool.true_eq_false, false_or]
    refine ⟨cancel_ownTimerOnly h.toOrdered has, fun now => ?_, fun clock ms fromNow => ?_⟩
    · obtain ⟨e, eq⟩ := refresh_managed now has
      rw [eq]
      exact reinsert_ownTimerOnly h.toOrdered e
    · have keys : (m.setPeriod t ms).expiration = m.expiration := setPeriod_expiration ms
      cases moves : m.resetMoves clock t ms fromNow with
      | false =>
        rw [reset_still clock ms fromNow has moves]
        exact iff_of_true (ownTimerOnly_of_unchanged rfl keys) (.inl rfl)
      | true =>
        simp only [Bool.true_eq_false, false_or]
        obtain ⟨e, eq⟩ := reset_moved clock ms fromNow has moves
        rw [eq]
        have moved := reinsert_ownTimerOnly (t := t) (h.setPeriod t ms).toOrdered e
        -- the period is neither in the set's order nor in the condition
        have same : OwnTimerOnly (m.setPeriod t ms) t ((m.setPeriod t ms).reinsert t e) ↔
            OwnTimerOnly m t ((m.setPeriod t ms).reinsert t e) :=
          ⟨fun ⟨others, own, stale⟩ => ⟨keys ▸ others, own, keys ▸ stale⟩,
            fun ⟨others, own, stale⟩ => ⟨keys.symm ▸ others, own, keys.symm ▸ stale⟩⟩
        rw [← same, moved, Free, Free, keys]
        rfl

/-- Two timers that expire at 10 and at 20: cancelling the first one acts on it alone. -/
theorem ownTimerOnly_iff_two : ∃ m : TimerManager Unit Unit, m.timers = [0, 1] ∧
    OwnTimerOnly m 0 (m.cancel 0) := by
  have run : Run Step (init : TimerManager Unit Unit) [(.addTimer 0 false 10 (.plain ()), .timer (some 0)),
      (.addTimer 0 false 20 (.plain ()), .timer (some 1))] _ := .cons rfl (.single rfl)
  exact ⟨_, rfl, (ownTimerOnly_iff run 0).2.1.mpr (.inr (.inl (by decide)))⟩

/-- A timer of no milliseconds fires, and in the same millisecond another one is added: cancelling the
first takes out the second. -/
theorem not_callsActOnOwnTimer : ¬ CallsActOnOwnTimer Unit Unit := by
  intro all
  have run : Run Step (init : TimerManager Unit Unit) [(.addTimer 5 false 0 (.plain ()), .timer (some 0)),
      (.getExpiredTimers 5, .expired [0]), (.addTimer 5 false 0 (.plain ()), .timer (some 1))] _ :=
    .cons rfl (.cons rfl (.single rfl))
  have lost := ((all _ _ run 0).2.1.others 1 (by decide) (by decide)).1
  exact absurd lost (by decide)

end Sylar.TimerManager
