import Sylar.Timer.Own

/-!
# Waking the waiter for a new first timer

`get_next_timer` tells how long to wait and sets `need_tickle_`; the first `add_timer` that puts a timer
at the front then clears it and calls `on_timer_insert_at_front`. Where `timers_` is empty
`get_next_timer` returns before the flag is set, so on a fresh manager the first timer after the first
wait wakes nobody. In every run whose waits find a timer in the set, or the flag already set, no wake-up
is lost (`wakesWaiter_told`).
-/

namespace Sylar.TimerManager

open Lib

variable {φ ω : Type} {m : TimerManager φ ω}

/-! ## The flag and the hook -/

/-- From `m` to `m'` no call of the hook is forgotten, and a set flag is only cleared by calling it. -/
structure Notices (m m' : TimerManager φ ω) : Prop where
  count : m.insertedAtFront ≤ m'.insertedAtFront
  flag : m.needTickle = true → m'.needTickle = true ∨ m.insertedAtFront < m'.insertedAtFront

theorem Notices.refl (m : TimerManager φ ω) : Notices m m :=
  ⟨le_rfl, .inl⟩

theorem Notices.trans {m₁ m₂ m₃ : TimerManager φ ω} (first : Notices m₁ m₂) (second : Notices m₂ m₃) :
    Notices m₁ m₃ := by
  refine ⟨first.count.trans second.count, fun flag => ?_⟩
  rcases first.flag flag with still | woken
  · exact (second.flag still).imp_right first.count.trans_lt
  · exact .inr (woken.trans_le second.count)

theorem notices_addTimerPtr (t : TimerPtr) : Notices m (m.addTimerPtr t).2 := by
  unfold addTimerPtr
  constructor
  case count =>
    dsimp only
    split
    · exact Nat.le_succ _
    · exact le_rfl
  case flag =>
    intro flag
    dsimp only
    split
    · exact .inr (Nat.lt_succ_self _)
    · exact .inl flag

/-- A timer that enters at the front while the flag is set calls the hook. -/
theorem addTimerPtr_tickles {t : TimerPtr} (flag : m.needTickle = true)
    (fresh : (m.addTimerPtr t).1 = true) (front : (m.addTimerPtr t).2.timers.head? = some t) :
    m.insertedAtFront < (m.addTimerPtr t).2.insertedAtFront := by
  have position : (OrderedSet.insert m.expiration t m.timers).position = t :=
    OrderedSet.insert_position fresh
  have first : ((OrderedSet.insert m.expiration t m.timers).elements.head? ==
      some (OrderedSet.insert m.expiration t m.timers).position && m.needTickle) = true := by
    rw [position, flag, Bool.and_true, beq_iff_eq]
    exact front
  unfold addTimerPtr
  dsimp only
  rw [if_pos first]
  exact Nat.lt_succ_self _

theorem notices_delTimer (t : TimerPtr) : Notices m (m.delTimer t).2 := by
  unfold delTimer
  split
  · exact ⟨le_rfl, .inl⟩
  · exact .refl m

theorem notices_reinsert (t : TimerPtr) (e : UInt64) : Notices m (m.reinsert t e).2 := by
  unfold reinsert
  split
  · have written : Notices (m.delTimer t).2 ((m.delTimer t).2.setExpiration t e) := ⟨le_rfl, .inl⟩
    exact ((notices_delTimer t).trans written).trans (notices_addTimerPtr t)
  · exact notices_delTimer t

/-- The loop over the expired timers inserts into the set directly and calls no hook. -/
theorem notices_rearm (now : UInt64) (expired : List TimerPtr) : ∀ m : TimerManager φ ω,
    Notices m (rearm now expired m) := by
  simp only [rearm_eq_foldl]
  induction expired with
  | nil => exact Notices.refl
  | cons t expired ih =>
    intro m
    refine Notices.trans ?_ (ih (rearmOne now m t))
    cases again : m.recurring t with
    | false =>
      rw [rearmOne_oneShot again]
      exact .refl m
    | true =>
      obtain ⟨e, -, eq⟩ := rearmOne_recurring now again
      rw [eq]
      exact ⟨le_rfl, .inl⟩

theorem notices_cancel (t : TimerPtr) : Notices m (m.cancel t).2 := by
  unfold cancel
  split
  · split
    · have deleted := notices_delTimer (m := m) t
      exact ⟨deleted.count, deleted.flag⟩
    · exact .refl m
  · exact .refl m

theorem notices_refresh (now : UInt64) (t : TimerPtr) : Notices m (m.refresh now t).2 := by
  cases has : m.managed t with
  | false =>
    rw [refresh_unmanaged now has]
    exact .refl m
  | true =>
    obtain ⟨e, eq⟩ := refresh_managed now has
    rw [eq]
    exact notices_reinsert t e

theorem notices_reset (clock : UInt64) (t : TimerPtr) (ms : UInt64) (fromNow : Bool) :
    Notices m (m.reset clock t ms fromNow).2 := by
  have period : Notices m (m.setPeriod t ms) := ⟨le_rfl, .inl⟩
  cases has : m.managed t with
  | false =>
    rw [reset_unmanaged clock ms fromNow has]
    exact .refl m
  | true =>
    cases moves : m.resetMoves clock t ms fromNow with
    | false =>
      rw [reset_still clock ms fromNow has moves]
      exact period
    | true =>
      obtain ⟨e, eq⟩ := reset_moved clock ms fromNow has moves
      rw [eq]
      exact period.trans (notices_reinsert t e)

theorem notices_getNextTimer (now : UInt64) : Notices m (m.getNextTimer now).2 := by
  unfold getNextTimer
  split
  · exact .refl m
  · exact ⟨le_rfl, fun _ => .inl rfl⟩

theorem notices_getExpiredTimers (now : UInt64) : Notices m (m.getExpiredTimers now []).2 := by
  unfold getExpiredTimers
  dsimp only
  split
  · exact .refl m
  · have start : Notices m (m.expiring now) := ⟨le_rfl, fun _ => .inl rfl⟩
    exact start.trans (notices_rearm now _ (m.expiring now))

theorem notices_call (c : Call φ ω) : Notices m (m.call c).2 := by
  cases c with
  | addTimer now recurring ms cb =>
    have allocated : Notices m (m.alloc (.create now recurring ms cb)).2 := ⟨le_rfl, .inl⟩
    exact allocated.trans (notices_addTimerPtr _)
  | delTimer t => exact notices_delTimer t
  | cancel t => exact notices_cancel t
  | refresh now t => exact notices_refresh now t
  | reset clock t ms fromNow => exact notices_reset clock t ms fromNow
  | getNextTimer now => exact notices_getNextTimer now
  | getExpiredTimers now => exact notices_getExpiredTimers now

/-! ## Waits -/

/-- The steps whose calls are made where `cond` holds. -/
def TimerStep (cond : TimerManager φ ω → Call φ ω → Prop) :
    TimerManager φ ω → Call φ ω × Answer → TimerManager φ ω → Prop :=
  Guarded Step fun m event => cond m event.1

theorem notices_run {cond : TimerManager φ ω → Call φ ω → Prop} {events : List (Call φ ω × Answer)}
    {m' : TimerManager φ ω} (run : Run (TimerStep cond) m events m') : Notices m m' := by
  induction run with
  | nil m => exact .refl m
  | @cons m m₁ m' event events step rest ih =>
    have kept := notices_call (m := m) event.1
    rw [show m.call event.1 = (event.2, m₁) from step.1] at kept
    exact kept.trans ih

/-- Whether a call is a wait. -/
def Call.isGetNextTimer : Call φ ω → Bool
  | .getNextTimer _ => true
  | _ => false

/-- No wake-up is lost in the runs whose calls meet `cond`: between a wait that was told to last until
`clock + wait` and the next wait, an `add_timer` that puts at the front a timer that expires earlier is
noticed, by a call of the hook between the two waits. -/
def WakesWaiter (cond : TimerManager φ ω → Call φ ω → Prop) : Prop :=
  ∀ (before between after : List (Call φ ω × Answer)) (m₀ m₁ m₂ m₃ m₄ : TimerManager φ ω)
    (clock wait now : UInt64) (recurring : Bool) (ms : UInt64) (cb : Callback φ ω) (t : TimerPtr),
    Run (TimerStep cond) init before m₀ →
    TimerStep cond m₀ (.getNextTimer clock, .wait wait) m₁ →
    Run (TimerStep cond) m₁ between m₂ →
    TimerStep cond m₂ (.addTimer now recurring ms cb, .timer (some t)) m₃ →
    Run (TimerStep cond) m₃ after m₄ →
    (∀ event ∈ between ++ after, event.1.isGetNextTimer = false) →
    m₃.timers.head? = some t → m₃.expiration t < clock.toNat + wait.toNat →
    m₁.insertedAtFront < m₄.insertedAtFront

/-- A wait that leaves the flag set: a timer is in the set, or the flag was set before. -/
def Told (m : TimerManager φ ω) : Call φ ω → Prop
  | .getNextTimer _ => m.timers ≠ [] ∨ m.needTickle = true
  | _ => True

theorem getNextTimer_tells {clock : UInt64} (told : m.Told (.getNextTimer clock)) :
    (m.getNextTimer clock).2.needTickle = true := by
  unfold getNextTimer
  split
  · rename_i none
    exact told.resolve_left (not_not_intro none)
  · rfl

/-- In every run whose waits leave the flag set, no wake-up is lost. -/
theorem wakesWaiter_told : WakesWaiter (Told : TimerManager φ ω → Call φ ω → Prop) := by
  intro before between after m₀ m₁ m₂ m₃ m₄ clock wait now recurring ms cb t _ ask run add rest _ front _
  obtain ⟨asked, told⟩ := ask
  obtain ⟨-, rfl⟩ := Prod.mk.inj (show m₀.call (.getNextTimer clock) = (.wait wait, m₁) from asked)
  obtain ⟨added, -⟩ := add
  obtain ⟨answer, rfl⟩ :=
    Prod.mk.inj (show m₂.call (.addTimer now recurring ms cb) = (.timer (some t), m₃) from added)
  have since := notices_run run
  have later := notices_run rest
  have inserted := notices_call (m := m₂) (.addTimer now recurring ms cb)
  -- by the time of the insertion the hook has been called, or the flag is still set
  rcases since.flag (getNextTimer_tells told) with flag | woken
  · have returned : (m₂.addTimer now recurring ms cb).1 = some t := Answer.timer.inj answer
    have fresh : ((m₂.alloc (.create now recurring ms cb)).2.addTimerPtr m₂.heap.length).1 = true := by
      unfold addTimer at returned
      dsimp only at returned
      split at returned
      · rename_i yes
        exact yes
      · cases returned
    obtain rfl := addTimer_returned m₂ now recurring ms cb returned
    have tickled := addTimerPtr_tickles (m := (m₂.alloc (.create now recurring ms cb)).2) flag fresh front
    exact (since.count.trans_lt tickled).trans_le later.count
  · exact woken.trans_le (inserted.count.trans later.count)

/-- A wait for a timer at 10, and then a timer at 5. -/
theorem wakesWaiter_told_earlier : ∃ m₁ m₄ : TimerManager Unit Unit,
    m₁.timers = [0] ∧ m₄.timers = [1, 0] ∧ m₁.insertedAtFront < m₄.insertedAtFront := by
  have first : Run (TimerStep Told) (init : TimerManager Unit Unit)
      [(.addTimer 0 false 10 (.plain ()), .timer (some 0))] _ := .single ⟨rfl, trivial⟩
  exact ⟨_, _, rfl, rfl, wakesWaiter_told _ [] [] _ _ _ _ _ 0 10 1 false 4 (.plain ()) 1 first
    ⟨rfl, .inl (by decide)⟩ (.nil _) ⟨rfl, trivial⟩ (.nil _) (by decide) rfl (by decide)⟩

/-- The first wait of a fresh manager is told to last for ever; a timer of one second that is added
then wakes nobody. -/
theorem not_wakesWaiter : ¬ WakesWaiter (fun (_ : TimerManager Unit Unit) _ => True) := by
  intro all
  have woken := all [] [] [] init init init _ _ 0 (~~~0) 0 false 1000 (.plain ()) 0 (.nil _) ⟨rfl, trivial⟩
    (.nil _) ⟨rfl, trivial⟩ (.nil _) (by decide) rfl (by decide)
  exact absurd woken (by decide)

end Sylar.TimerManager
