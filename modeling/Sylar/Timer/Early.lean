import Sylar.Timer.Exact

/-!
# Timers that fire early

Expirations are sums of a clock reading and a duration, taken modulo 2^64 and compared as plain numbers.
`arming` follows a run and remembers for each timer the clock reading and the duration it was last armed
with. A timer in the set has the wrapped sum of the two as its expiration, in every state of every run.
So it is returned no earlier than it was armed for exactly when the sum does not wrap (`notEarly_iff`):
the duration of all ones that elsewhere means "no timeout" expires at once.
-/

namespace Sylar.TimerManager

open Lib

variable {φ ω : Type} {m : TimerManager φ ω} {t u : TimerPtr}

/-! ## What a timer was armed for -/

/-- The clock reading at which a timer was armed, and for how long. -/
structure Arming where
  clock : UInt64
  ms : UInt64
  deriving DecidableEq, Repr

def period (m : TimerManager φ ω) (t : TimerPtr) : UInt64 :=
  (m.heap[t]?.map Timer.periodTime).getD 0

/-- What a call on the manager `m` arms. A timer that `add_timer`, `refresh` or `reset` from now leaves in
the set is armed by the call, whatever it answers; `reset` from the previous start arms for no clock
reading, and where it answers false the timer is as it was. -/
def arm (m : TimerManager φ ω) (armed : TimerPtr → Option Arming) :
    Call φ ω × Answer → TimerPtr → Option Arming
  | (.addTimer now _ ms _, _) => Function.update armed m.heap.length (some ⟨now, ms⟩)
  | (.refresh now t, _) => Function.update armed t (some ⟨now, m.period t⟩)
  | (.reset clock t ms true, _) => Function.update armed t (some ⟨clock, ms⟩)
  | (.reset _ t _ false, .flag true) => Function.update armed t none
  | (.getExpiredTimers now, .expired timers) => fun t =>
    if t ∈ timers ∧ m.recurring t = true then some ⟨now, m.period t⟩ else armed t
  | _ => armed

/-- What the timers are armed for after a sequence of calls. -/
def arming : TimerManager φ ω → (TimerPtr → Option Arming) → List (Call φ ω × Answer) →
    TimerPtr → Option Arming
  | _, armed, [] => armed
  | m, armed, event :: events => arming (m.call event.1).2 (m.arm armed event) events

/-- The timers in the set expire at the wrapped sum they were armed for. -/
def Aims (m : TimerManager φ ω) (armed : TimerPtr → Option Arming) : Prop :=
  ∀ t ∈ m.timers, ∀ a, armed t = some a → m.expiration t = (a.clock + a.ms).toNat

/-! ## The calls -/

section Calls

variable {m' : TimerManager φ ω} {armed : TimerPtr → Option Arming}

/-- A call that brings no timer into the set and moves none. -/
theorem Aims.mono (aims : m.Aims armed) (fewer : ∀ u ∈ m'.timers, u ∈ m.timers)
    (same : m'.expiration = m.expiration) : m'.Aims armed := by
  intro u mem a what
  rw [same]
  exact aims u (fewer u mem) a what

/-- A call that moves one timer and arms it for what it moves it to. -/
theorem Aims.moved (aims : m.Aims armed) {a : Option Arming}
    (own : t ∈ m'.timers → ∀ b, a = some b → m'.expiration t = (b.clock + b.ms).toNat)
    (others : ∀ u ∈ m'.timers, u ≠ t → u ∈ m.timers ∧ m'.expiration u = m.expiration u) :
    m'.Aims (Function.update armed t a) := by
  intro u mem b what
  by_cases same : u = t
  · rw [same, Function.update_self] at what
    rw [same] at mem ⊢
    exact own mem b what
  · rw [Function.update_of_ne same] at what
    obtain ⟨old, key⟩ := others u mem same
    rw [key]
    exact aims u old b what

theorem Aims.addTimer (h : m.Sound) (aims : m.Aims armed) (now : UInt64) (recurring : Bool) (ms : UInt64)
    (cb : Callback φ ω) : (m.addTimer now recurring ms cb).2.Aims
      (Function.update armed m.heap.length (some ⟨now, ms⟩)) := by
  apply aims.moved
  · intro _ b what
    cases what
    exact expirationIn_length
  · intro u mem ne
    rcases (mem_addTimer m now recurring ms cb u).mp mem with old | new
    · exact ⟨old, expirationIn_append (h.allocated u old)⟩
    · exact absurd (addTimer_returned m now recurring ms cb new) ne

/-- A timer that is in the set after it was taken out and put back is where it was put, and the answer
was true. -/
theorem reinsert_self (o : m.Ordered) (alloc : t < m.heap.length) {e : UInt64}
    (mem : t ∈ (m.reinsert t e).2.timers) :
    (m.reinsert t e).1 = true ∧ (m.reinsert t e).2.expiration t = e.toNat := by
  unfold reinsert at mem ⊢
  split at mem
  · rename_i deleted
    rw [if_pos deleted]
    refine ⟨?_, setExpiration_expiration_self e (by rwa [delTimer_heap])⟩
    exact ((OrderedSet.mem_insert.mp mem).resolve_left (not_mem_delTimer o t)).1
  · exact absurd mem (not_mem_delTimer o t)

theorem Aims.reinsert (o : m.Ordered) (aims : m.Aims armed) (alloc : t < m.heap.length) {e : UInt64}
    {a : Option Arming} (goal : ∀ b, a = some b → e = b.clock + b.ms) :
    (m.reinsert t e).2.Aims (Function.update armed t a) := by
  apply aims.moved
  · intro mem b what
    rw [(reinsert_self o alloc mem).2, goal b what]
  · intro u mem ne
    exact ⟨((mem_reinsert_ne o ne).mp mem).1, reinsert_expiration_ne ne⟩

/-- A cancelled timer is not in the set, so nothing is asked of it. -/
theorem Aims.unmanaged (h : m.Sound) (aims : m.Aims armed) (gone : m.managed t = false) (a : Option Arming) :
    m.Aims (Function.update armed t a) := by
  apply aims.moved
  · intro mem
    exact absurd ((h.managed t mem).symm.trans gone) Bool.true_eq_false.mp
  · exact fun u mem _ => ⟨mem, rfl⟩

theorem Aims.refresh (h : m.Sound) (aims : m.Aims armed) (now : UInt64) (t : TimerPtr) :
    (m.refresh now t).2.Aims (Function.update armed t (some ⟨now, m.period t⟩)) := by
  cases has : m.managed t with
  | false =>
    rw [refresh_unmanaged now has]
    exact aims.unmanaged h has _
  | true =>
    obtain ⟨timer, here, flag⟩ := timer_of_managed has
    rw [refresh_eq now here flag]
    apply aims.reinsert h.toOrdered (allocated_of_managed has)
    intro b what
    cases what
    rw [period, here]
    rfl

/-- `reset` arms from now whatever it answers, and from the previous start where it answers true. -/
theorem Aims.reset (h : m.Sound) (aims : m.Aims armed) (clock : UInt64) (t : TimerPtr) (ms : UInt64)
    (fromNow : Bool) : (m.reset clock t ms fromNow).2.Aims
      (m.arm armed (.reset clock t ms fromNow, .flag (m.reset clock t ms fromNow).1)) := by
  cases has : m.managed t with
  | false =>
    rw [reset_unmanaged clock ms fromNow has]
    cases fromNow with
    | false => exact aims
    | true => exact aims.unmanaged h has _
  | true =>
    obtain ⟨timer, here, flag⟩ := timer_of_managed has
    have written := h.setPeriod t ms
    have keys : (m.setPeriod t ms).expiration = m.expiration := setPeriod_expiration ms
    have kept : (m.setPeriod t ms).Aims armed := aims.mono (fun u mem => mem) keys
    have alloc : t < (m.setPeriod t ms).heap.length :=
      (List.length_modify ..).symm ▸ allocated_of_managed has
    rw [reset_eq clock ms fromNow here flag]
    by_cases still : resetStart timer clock fromNow + ms = timer.nextExpiration
    · rw [if_pos still]
      cases fromNow with
      | false => exact kept
      | true =>
        -- the timer stays where it is, which is where it is wanted
        apply kept.moved
        · intro _ b what
          cases what
          have key : m.expiration t = timer.nextExpiration.toNat := by
            rw [expiration, expirationIn, here]
            rfl
          rw [keys, key, ← still]
          rfl
        · exact fun u mem _ => ⟨mem, rfl⟩
    · rw [if_neg still]
      cases fromNow with
      | false =>
        cases moved : ((m.setPeriod t ms).reinsert t (resetStart timer clock false + ms)).1 with
        | false =>
          -- the timer is outside the set, so nothing is asked of it
          refine Function.update_eq_self t armed ▸ kept.moved (fun mem => ?_) fun u mem ne => ?_
          · exact absurd ((reinsert_self written.toOrdered alloc mem).1.symm.trans moved)
              Bool.true_eq_false.mp
          · exact ⟨((mem_reinsert_ne written.toOrdered ne).mp mem).1, reinsert_expiration_ne ne⟩
        | true =>
          apply kept.reinsert written.toOrdered alloc
          intro b what
          cases what
      | true =>
        apply kept.reinsert written.toOrdered alloc
        intro b what
        cases what
        rfl

theorem rearmedAt_eq (now : UInt64) (alloc : t < m.heap.length) :
    m.rearmedAt now t = (now + m.period t).toNat := by
  rw [rearmedAt, period, List.getElem?_eq_getElem alloc]
  rfl

theorem Aims.getExpiredTimers (h : m.Sound) (aims : m.Aims armed) (now : UInt64) :
    (m.getExpiredTimers now []).2.Aims
      (m.arm armed (.getExpiredTimers now, .expired (m.getExpiredTimers now []).1)) := by
  intro u mem a what
  replace what : (if u ∈ (m.getExpiredTimers now []).1 ∧ m.recurring u = true then
    some (⟨now, m.period u⟩ : Arming) else armed u) = some a := what
  have returned := (h.exactExpiry now).returned u
  rcases h.mem_after mem with ⟨old, later, same⟩ | ⟨due, again, target⟩
  · rw [if_neg fun due => absurd (returned.mp due.1).2 (not_le.mpr later)] at what
    rw [same]
    exact aims u old a what
  · rw [if_pos ⟨due, again⟩] at what
    cases what
    rw [target]
    exact rearmedAt_eq now (h.allocated u (returned.mp due).1)

/-- Every call keeps the timers of the set where they were armed for. -/
theorem Aims.call (h : m.Sound) (aims : m.Aims armed) (c : Call φ ω) :
    (m.call c).2.Aims (m.arm armed (c, (m.call c).1)) := by
  cases c with
  | addTimer now recurring ms cb => exact aims.addTimer h now recurring ms cb
  | delTimer t => exact aims.mono (fun u mem => ((mem_delTimer h.toOrdered t u).mp mem).1) (delTimer_expiration t)
  | cancel t => exact aims.mono (fun u mem => mem_of_mem_cancel h.toOrdered mem) (cancel_expiration t)
  | refresh now t => exact aims.refresh h now t
  | reset clock t ms fromNow => exact aims.reset h clock t ms fromNow
  | getNextTimer now =>
    exact aims.mono (fun u mem => getNextTimer_timers (m := m) now ▸ mem) (getNextTimer_expiration now)
  | getExpiredTimers now => exact aims.getExpiredTimers h now

end Calls

/-! ## Runs -/

/-- Along every run the timers of the set are where they were armed for. -/
theorem aims_of_run {m' : TimerManager φ ω} {events : List (Call φ ω × Answer)} (run : Run Step m events m')
    {armed : TimerPtr → Option Arming} (h : m.Sound) (aims : m.Aims armed) :
    m'.Aims (arming m armed events) := by
  induction run generalizing armed with
  | nil => exact aims
  | @cons m next m' event events step rest ih =>
    have sound := h.call event.1
    have kept := aims.call h event.1
    rw [show m.call event.1 = _ from step] at sound kept
    rw [arming, show m.call event.1 = _ from step]
    exact ih sound kept

/-- A timer is only returned when the time it was armed for has passed, as exact integers. -/
def NotEarly (m : TimerManager φ ω) (t : TimerPtr) (a : Arming) : Prop :=
  ∀ now, t ∈ (m.getExpiredTimers now []).1 → a.clock.toNat + a.ms.toNat ≤ now.toNat

/-- No timer is early in any state of any run. -/
def NeverEarly (φ ω : Type) : Prop :=
  ∀ (events : List (Call φ ω × Answer)) (m : TimerManager φ ω), Run Step init events m →
    ∀ t a, arming init (fun _ => none) events t = some a → m.NotEarly t a

/-- In every state that any sequence of calls reaches, at whatever clock readings: a timer that was
armed at a clock reading for a duration is never returned before their sum exactly when it is not in
the set or the sum is below 2^64. -/
theorem notEarly_iff {events : List (Call φ ω × Answer)} (run : Run Step init events m) {a : Arming}
    (armed : arming init (fun _ => none) events t = some a) :
    m.NotEarly t a ↔ (t ∈ m.timers → a.clock.toNat + a.ms.toNat < 2 ^ 64) := by
  have exact := fun now => ((sound_of_run run).exactExpiry now).returned t
  have aims : m.Aims (arming init (fun _ => none) events) :=
    aims_of_run run sound_init fun _ mem => nomatch mem
  constructor
  · intro punctual mem
    have key := aims t mem a armed
    -- the reading that equals the wrapped sum returns the timer
    have sum := punctual (a.clock + a.ms) ((exact _).mpr ⟨mem, key.le⟩)
    exact lt_of_le_of_lt sum (UInt64.toNat_lt _)
  · intro small now returned
    obtain ⟨mem, due⟩ := (exact now).mp returned
    rw [aims t mem a armed, UInt64.toNat_add, Nat.mod_eq_of_lt (small mem)] at due
    exact due

/-- A recurring timer that was returned at 12 is armed for 22, and not returned before. -/
theorem notEarly_iff_recurring : ∃ m : TimerManager Unit Unit, m.timers = [0] ∧ m.NotEarly 0 ⟨12, 10⟩ := by
  have run : Run Step (init : TimerManager Unit Unit) [(.addTimer 0 true 10 (.plain ()), .timer (some 0)),
      (.getExpiredTimers 12, .expired [0])] _ := .cons rfl (.single rfl)
  exact ⟨_, rfl, (notEarly_iff run (t := 0) rfl).mpr fun _ => by decide⟩

/-- A timer for the duration of all ones, added at 5: it expires at 4, and is returned at once. -/
theorem not_neverEarly : ¬ NeverEarly Unit Unit := by
  intro never
  have run : Run Step (init : TimerManager Unit Unit)
      [(.addTimer 5 false (~~~0) (.plain ()), .timer (some 0))] _ := .single rfl
  exact absurd (never _ _ run 0 _ rfl 5 (by decide)) (by decide)

end Sylar.TimerManager
