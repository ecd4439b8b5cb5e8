import Sylar.Timer.Exact

/-!
# Calls that fail after they have begun

`refresh` and `reset` take the timer out of the set, write its new expiration and put it back. The last
step fails when another timer has that expiration, and nothing is undone then: the timer is out of the
set with a new expiration, and the answer is false. `reset` writes the period before anything else, so
a `reset` that moves nothing, because the timer is not in the set or already has the expiration it
aims at, leaves the new period behind.

`allOrNothing_iff` says for every state of every run when the two calls do all of their work or none.
-/

namespace Sylar.TimerManager

open Lib

variable {φ ω : Type} {m : TimerManager φ ω} {t : TimerPtr}

/-- The call did nothing to the set and to its timer and answered false, or it answered true and the
timer is in the set with the new expiration. -/
structure AllOrNothing (m : TimerManager φ ω) (t : TimerPtr) (e : UInt64) (r : Bool × TimerManager φ ω) :
    Prop where
  nothing : r.1 = false → r.2.timers = m.timers ∧
    r.2.heap[t]?.map Timer.periodTime = m.heap[t]?.map Timer.periodTime ∧
    r.2.heap[t]?.map Timer.nextExpiration = m.heap[t]?.map Timer.nextExpiration
  all : r.1 = true → t ∈ r.2.timers ∧ r.2.heap[t]?.map Timer.nextExpiration = some e

theorem allOrNothing_unchanged (e : UInt64) : AllOrNothing m t e (false, m) :=
  ⟨fun _ => ⟨rfl, rfl, rfl⟩, fun yes => absurd yes Bool.false_ne_true⟩

/-! ## Taking out and putting back -/

theorem delTimer_fst (o : m.Ordered) : (m.delTimer t).1 = true ↔ ¬ m.Free (m.expiration t) := by
  unfold delTimer
  split
  · rename_i u found
    obtain ⟨mem, same⟩ := (OrderedSet.find_eq_some o.sorted).mp found
    exact iff_of_true rfl fun free => free u mem same
  · rename_i none
    exact iff_of_false Bool.false_ne_true (not_not_intro ((OrderedSet.find_eq_none o.sorted).mp none))

/-- With a timer at the old expiration, putting back succeeds exactly where no other timer has the new
one. -/
theorem reinsert_fst (o : m.Ordered) (alloc : t < m.heap.length)
    (taken : ¬ m.Free (m.expiration t)) (e : UInt64) :
    (m.reinsert t e).1 = true ↔ e.toNat = m.expiration t ∨ m.Free e.toNat := by
  have deleted := (delTimer_fst o).mpr taken
  have alloc' : t < ((m.delTimer t).2.setExpiration t e).heap.length := by
    refine (List.length_modify ..).symm ▸ ?_
    rwa [delTimer_heap]
  have own : ((m.delTimer t).2.setExpiration t e).expiration t = e.toNat :=
    setExpiration_expiration_self e (by rwa [delTimer_heap])
  have others : ∀ u ∈ (m.delTimer t).2.timers,
      ((m.delTimer t).2.setExpiration t e).expiration u = m.expiration u := by
    intro u mem
    have ne : u ≠ t := fun same => not_mem_delTimer o t (same ▸ mem)
    exact (setExpiration_expiration_ne ne).trans (congrFun (delTimer_expiration t) u)
  have fresh := (addTimerPtr_spec (o.written e) alloc').2.2.1
  unfold reinsert
  rw [if_pos deleted, fresh, own]
  constructor
  · intro free
    by_cases same : e.toNat = m.expiration t
    · exact .inl same
    · refine .inr fun u mem equal => ?_
      have still : u ∈ (m.delTimer t).2.timers :=
        (mem_delTimer o t u).mpr ⟨mem, fun old => same (equal.symm.trans old)⟩
      exact free u still ((others u still).trans equal)
  · intro either u mem equal
    obtain ⟨inside, moved⟩ := (mem_delTimer o t u).mp mem
    rw [others u mem] at equal
    rcases either with same | free
    · exact moved (equal.trans same)
    · exact free u inside equal

/-- Taking out and putting back does all or nothing exactly where it succeeds or finds nothing. -/
theorem reinsert_allOrNothing (o : m.Ordered) (alloc : t < m.heap.length) (e : UInt64) :
    AllOrNothing m t e (m.reinsert t e) ↔
      m.Free (m.expiration t) ∨ e.toNat = m.expiration t ∨ m.Free e.toNat := by
  by_cases free : m.Free (m.expiration t)
  · rw [reinsert_of_free o free]
    exact iff_of_true (allOrNothing_unchanged e) (.inl free)
  · have deleted := (delTimer_fst o).mpr free
    have answer := reinsert_fst o alloc free e
    rw [or_iff_right free, ← answer]
    constructor
    · intro whole
      by_contra failed
      obtain ⟨timers, -⟩ := whole.nothing (Bool.eq_false_of_not_eq_true failed)
      -- the timer at the old expiration is gone
      obtain ⟨u, found⟩ := not_forall.mp free
      obtain ⟨mem, same⟩ := Classical.not_imp.mp found
      have same := not_not.mp same
      rw [← timers] at mem
      have back : u ∈ ((m.delTimer t).2.setExpiration t e).timers := by
        unfold reinsert at mem failed
        rw [if_pos deleted] at mem failed
        exact (OrderedSet.mem_insert.mp mem).resolve_right fun new => failed new.1
      exact ((mem_delTimer o t u).mp back).2 same
    · intro yes
      refine ⟨fun no => absurd (yes.symm.trans no) Bool.noConfusion, fun _ => ?_⟩
      unfold reinsert at yes ⊢
      rw [if_pos deleted] at yes ⊢
      refine ⟨OrderedSet.mem_insert.mpr (.inr ⟨yes, rfl⟩), ?_⟩
      show (((m.delTimer t).2.setExpiration t e).heap[t]?).map Timer.nextExpiration = some e
      unfold setExpiration
      dsimp only
      rw [delTimer_heap, List.getElem?_modify, List.getElem?_eq_getElem alloc]
      simp only [if_true, Option.map_eq_map, Option.map_some]

/-! ## The two calls -/

theorem setPeriod_period {timer : Timer φ ω} (here : m.heap[t]? = some timer) (ms : UInt64) :
    (m.setPeriod t ms).heap[t]?.map Timer.periodTime = some ms := by
  unfold setPeriod
  dsimp only
  rw [List.getElem?_modify, here]
  simp only [if_true, Option.map_eq_map, Option.map_some]

/-- `reset` under the new period already: what it owes for the old one besides. -/
theorem reset_allOrNothing_of_period {timer : Timer φ ω} (here : m.heap[t]? = some timer)
    {ms e : UInt64} {r : Bool × TimerManager φ ω}
    (period : r.2.heap[t]?.map Timer.periodTime = some ms) :
    AllOrNothing m t e r ↔
      AllOrNothing (m.setPeriod t ms) t e r ∧ (r.1 = false → ms = timer.periodTime) := by
  have same : (m.setPeriod t ms).heap[t]?.map Timer.nextExpiration =
      m.heap[t]?.map Timer.nextExpiration := map_modify (by intro; rfl)
  have own := setPeriod_period here ms
  have old : m.heap[t]?.map Timer.periodTime = some timer.periodTime := by rw [here]; rfl
  constructor
  · intro whole
    refine ⟨⟨fun no => ?_, whole.all⟩, fun no => ?_⟩
    · obtain ⟨timers, -, next⟩ := whole.nothing no
      exact ⟨timers, by rw [period, own], by rw [next, same]⟩
    · obtain ⟨-, kept, -⟩ := whole.nothing no
      rw [period, old] at kept
      exact Option.some.inj kept
  · intro both
    obtain ⟨whole, equal⟩ := both
    refine ⟨fun no => ?_, whole.all⟩
    obtain ⟨timers, -, next⟩ := whole.nothing no
    exact ⟨timers, by rw [period, old, equal no], by rw [next, same]⟩

/-- Both calls do all or nothing, on every timer, in every state of every run. -/
def MovesAreAtomic (φ ω : Type) : Prop :=
  ∀ (events : List (Call φ ω × Answer)) (m : TimerManager φ ω), Run Step init events m →
    ∀ (t : TimerPtr) (timer : Timer φ ω), m.heap[t]? = some timer →
    (∀ now, AllOrNothing m t (now + timer.periodTime) (m.refresh now t)) ∧
      ∀ clock ms fromNow,
        AllOrNothing m t (resetStart timer clock fromNow + ms) (m.reset clock t ms fromNow)

/-- In every state that any sequence of calls reaches, and for every timer, clock reading and argument:
`refresh` does all or nothing exactly when the timer was cancelled, or no timer in the set has its
expiration, or no other timer has the new one. `reset` does so exactly when the timer was cancelled; or
it has nothing to move, the timer being outside the set or at the new expiration already, and the new
period is the old one; or it moves the timer to an expiration that no timer has. -/
theorem allOrNothing_iff {events : List (Call φ ω × Answer)} (run : Run Step init events m)
    {timer : Timer φ ω} (here : m.heap[t]? = some timer) :
    (∀ now, AllOrNothing m t (now + timer.periodTime) (m.refresh now t) ↔
        timer.managed = false ∨ m.Free (m.expiration t) ∨
          (now + timer.periodTime).toNat = m.expiration t ∨ m.Free (now + timer.periodTime).toNat) ∧
      ∀ clock ms fromNow,
        AllOrNothing m t (resetStart timer clock fromNow + ms) (m.reset clock t ms fromNow) ↔
          timer.managed = false ∨
          ((resetStart timer clock fromNow + ms).toNat = m.expiration t ∨ m.Free (m.expiration t)) ∧
            ms = timer.periodTime ∨
          (resetStart timer clock fromNow + ms).toNat ≠ m.expiration t ∧
            ¬ m.Free (m.expiration t) ∧ m.Free (resetStart timer clock fromNow + ms).toNat := by
  have h := sound_of_run run
  have alloc : t < m.heap.length := (List.getElem?_eq_some_iff.mp here).1
  have key : m.expiration t = timer.nextExpiration.toNat := by
    unfold expiration expirationIn
    rw [here]
    rfl
  have flag : m.managed t = timer.managed := by
    unfold managed
    rw [here]
    rfl
  cases has : timer.managed with
  | false =>
    have gone : m.managed t = false := flag.trans has
    refine ⟨fun now => ?_, fun clock ms fromNow => ?_⟩
    · rw [refresh_unmanaged now gone]
      exact iff_of_true (allOrNothing_unchanged _) (.inl rfl)
    · rw [reset_unmanaged clock ms fromNow gone]
      exact iff_of_true (allOrNothing_unchanged _) (.inl rfl)
  | true =>
    simp only [Bool.true_eq_false, false_or]
    refine ⟨fun now => ?_, fun clock ms fromNow => ?_⟩
    · rw [refresh_eq now here has]
      exact reinsert_allOrNothing h.toOrdered alloc _
    · have o := (h.setPeriod t ms).toOrdered
      have alloc' : t < (m.setPeriod t ms).heap.length := (List.length_modify ..).symm ▸ alloc
      have keys : (m.setPeriod t ms).expiration = m.expiration := setPeriod_expiration ms
      have own := setPeriod_period here ms
      rw [reset_eq clock ms fromNow here has]
      generalize resetStart timer clock fromNow + ms = e
      by_cases still : e = timer.nextExpiration
      · have at_key : e.toNat = m.expiration t := by rw [key, still]
        rw [if_pos still, reset_allOrNothing_of_period here own]
        constructor
        · exact fun both => .inl ⟨.inl at_key, both.2 rfl⟩
        · rintro (⟨-, same⟩ | ⟨moved, -⟩)
          · exact ⟨allOrNothing_unchanged e, fun _ => same⟩
          · exact absurd at_key moved
      · have off_key : e.toNat ≠ m.expiration t := fun same =>
          still (UInt64.toNat_inj.mp (same.trans key))
        have period : ((m.setPeriod t ms).reinsert t e).2.heap[t]?.map Timer.periodTime = some ms :=
          (reinsert_map fun _ _ => rfl).trans own
        have whole := reinsert_allOrNothing o alloc' e
        rw [if_neg still, reset_allOrNothing_of_period here period, whole, Free, Free, keys]
        by_cases free : m.Free (m.expiration t)
        · have none := reinsert_of_free (e := e) o (by rw [Free, keys]; exact free)
          rw [none]
          constructor
          · exact fun both => .inl ⟨.inr free, both.2 rfl⟩
          · rintro (⟨-, same⟩ | ⟨-, taken, -⟩)
            · exact ⟨.inl free, fun _ => same⟩
            · exact absurd free taken
        · have answer := reinsert_fst o alloc' (by rw [Free, keys]; exact free) e
          rw [Free, keys] at answer
          constructor
          · rintro ⟨free' | same | room, -⟩
            · exact absurd free' free
            · exact absurd same off_key
            · exact .inr ⟨off_key, free, room⟩
          · rintro (⟨same | free', -⟩ | ⟨-, -, room⟩)
            · exact absurd same off_key
            · exact absurd free' free
            · exact ⟨.inr (.inr room), fun no => by rw [answer.mpr (.inr room)] at no; cases no⟩

/-- Two timers that expire at 10 and at 20: refreshing the first one at 5 moves it to 15. -/
theorem allOrNothing_iff_two : ∃ m : TimerManager Unit Unit, m.timers = [0, 1] ∧
    AllOrNothing m 0 15 (m.refresh 5 0) := by
  have run : Run Step (init : TimerManager Unit Unit) [(.addTimer 0 false 10 (.plain ()), .timer (some 0)),
      (.addTimer 0 false 20 (.plain ()), .timer (some 1))] _ := .cons rfl (.single rfl)
  exact ⟨_, rfl, ((allOrNothing_iff (t := 0) run rfl).1 5).mpr (.inr (.inr (.inr (by decide))))⟩

/-- The same two timers: refreshing the first one at 10 aims at 20, where the second one is. The answer
is false, and the first timer is out of the set. -/
theorem not_movesAreAtomic : ¬ MovesAreAtomic Unit Unit := by
  intro all
  have run : Run Step (init : TimerManager Unit Unit) [(.addTimer 0 false 10 (.plain ()), .timer (some 0)),
      (.addTimer 0 false 20 (.plain ()), .timer (some 1))] _ := .cons rfl (.single rfl)
  have whole := (all _ _ run 0 _ rfl).1 10
  exact absurd (whole.nothing rfl).1 (by decide)

end Sylar.TimerManager
