import Sylar.Timer.Kept

/-!
# What every timer call keeps

Facts that hold of the timer set whatever the expirations are, collisions included: it stays strictly
ordered, every timer in it still has its manager, a call brings no timer into it but the one it is
about, and what a timer calls never changes.
-/

namespace Sylar.TimerManager

open Lib

variable {φ ω : Type} {m : TimerManager φ ω}

/-- What a timer calls. -/
def callback (m : TimerManager φ ω) (t : TimerPtr) : Option (Callback φ ω) :=
  m.heap[t]?.map Timer.cb

/-- The set is ordered and its timers have not been cancelled. -/
structure Sound (m : TimerManager φ ω) : Prop extends Ordered m where
  managed : ∀ t ∈ m.timers, m.managed t = true

theorem sound_init : (init : TimerManager φ ω).Sound :=
  ⟨ordered_init, fun _ mem => nomatch mem⟩

/-! ## Adding -/

section AddTimer

variable (m) (now : UInt64) (recurring : Bool) (ms : UInt64) (cb : Callback φ ω)

theorem addTimer_heap :
    (m.addTimer now recurring ms cb).2.heap = m.heap ++ [.create now recurring ms cb] :=
  rfl

/-- A timer that is returned is the one just allocated. -/
theorem addTimer_returned {t : TimerPtr} (ret : (m.addTimer now recurring ms cb).1 = some t) :
    t = m.heap.length := by
  unfold addTimer at ret
  dsimp only at ret
  split at ret
  · exact (Option.some.inj ret).symm
  · cases ret

/-- The set gains the new timer when it is returned, and nothing else. -/
theorem mem_addTimer (u : TimerPtr) :
    u ∈ (m.addTimer now recurring ms cb).2.timers ↔
      u ∈ m.timers ∨ (m.addTimer now recurring ms cb).1 = some u := by
  refine Iff.trans OrderedSet.mem_insert (or_congr_right ?_)
  unfold addTimer
  dsimp only
  split
  · rename_i fresh
    exact ⟨fun ⟨_, same⟩ => congrArg some same.symm, fun same => ⟨fresh, (Option.some.inj same).symm⟩⟩
  · rename_i taken
    exact iff_of_false (fun ⟨fresh, _⟩ => taken fresh) (fun none => nomatch none)

theorem addTimer_callback (u : TimerPtr) :
    (m.addTimer now recurring ms cb).2.callback u =
      if u = m.heap.length then some cb else m.callback u := by
  unfold callback
  rw [addTimer_heap]
  rcases Nat.lt_trichotomy u m.heap.length with old | rfl | beyond
  · rw [if_neg (Nat.ne_of_lt old), List.getElem?_append_left old]
  · rw [if_pos rfl, List.getElem?_concat_length]
    rfl
  · have past : (m.heap ++ [Timer.create now recurring ms cb]).length ≤ u := by
      rw [List.length_append, List.length_singleton]
      exact beyond
    rw [if_neg (Nat.ne_of_gt beyond), List.getElem?_eq_none past, List.getElem?_eq_none (Nat.le_of_lt beyond)]

end AddTimer

theorem Sound.addTimer (h : m.Sound) (now : UInt64) (recurring : Bool) (ms : UInt64)
    (cb : Callback φ ω) : (m.addTimer now recurring ms cb).2.Sound := by
  have ordered := (addTimerPtr_spec (alloc_ordered h.toOrdered (.create now recurring ms cb))
    (t := m.heap.length) (by simp [alloc])).1
  refine ⟨ordered, fun u mem => ?_⟩
  unfold TimerManager.managed
  rw [addTimer_heap]
  rcases (mem_addTimer ..).mp mem with old | new
  · rw [List.getElem?_append_left (h.allocated u old)]
    exact h.managed u old
  · rw [addTimer_returned m now recurring ms cb new, List.getElem?_concat_length]
    rfl

/-! ## Cancelling -/

theorem cancel_callback (t u : TimerPtr) : (m.cancel t).2.callback u = m.callback u := by
  unfold cancel callback
  split
  · split
    · dsimp only
      rw [delTimer_heap, map_modify (by intro; rfl)]
    · rfl
  · rfl

/-- Cancelling only takes timers out of the set. -/
theorem mem_of_mem_cancel (o : m.Ordered) {t u : TimerPtr} (mem : u ∈ (m.cancel t).2.timers) :
    u ∈ m.timers := by
  unfold cancel at mem
  split at mem
  · split at mem
    · exact ((mem_delTimer o t u).mp mem).1
    · exact mem
  · exact mem

/-- A cancelled timer is not in the set. -/
theorem Sound.not_mem_cancel (h : m.Sound) (t : TimerPtr) : t ∉ (m.cancel t).2.timers := by
  intro mem
  have old := mem_of_mem_cancel h.toOrdered mem
  have has := h.managed t old
  unfold cancel at mem
  split at mem
  · rename_i timer here
    rw [TimerManager.managed, here] at has
    rw [if_pos (by exact has)] at mem
    exact ((mem_delTimer h.toOrdered t t).mp mem).2 rfl
  · rename_i absent
    rw [TimerManager.managed, absent] at has
    cases has

theorem cancel_managed_ne {t u : TimerPtr} (ne : u ≠ t) : (m.cancel t).2.managed u = m.managed u := by
  unfold cancel TimerManager.managed
  split
  · split
    · dsimp only
      simp only [delTimer_heap, List.getElem?_modify, if_neg (Ne.symm ne), Option.map_eq_map, Option.map_id']
    · rfl
  · rfl

theorem Sound.cancel (h : m.Sound) (t : TimerPtr) : (m.cancel t).2.Sound := by
  refine ⟨cancel_ordered h.toOrdered t, fun u mem => ?_⟩
  have ne : u ≠ t := fun eq => h.not_mem_cancel t (eq ▸ mem)
  rw [cancel_managed_ne ne]
  exact h.managed u (mem_of_mem_cancel h.toOrdered mem)

/-! ## Expiry -/

theorem getNextTimer_callback (now : UInt64) (u : TimerPtr) :
    (m.getNextTimer now).2.callback u = m.callback u := by
  unfold getNextTimer
  split <;> rfl

theorem getNextTimer_timers (now : UInt64) : (m.getNextTimer now).2.timers = m.timers := by
  unfold getNextTimer
  split
  · rfl
  · rfl

theorem Sound.getNextTimer (h : m.Sound) (now : UInt64) : (m.getNextTimer now).2.Sound := by
  unfold TimerManager.getNextTimer
  split
  · exact h
  · exact ⟨⟨h.sorted, h.allocated⟩, h.managed⟩

theorem rearmOne_managed {now : UInt64} {t u : TimerPtr} :
    (rearmOne now m t).managed u = m.managed u :=
  congrArg (·.getD false) (rearmOne_map fun _ _ => rfl)

/-- The loop over the expired timers: whatever expirations it meets, the set stays sound, gains only
timers of the loop, and the timers call what they called. -/
theorem rearm_sound (now : UInt64) (expired : List TimerPtr) : ∀ m : TimerManager φ ω, m.Sound →
    (∀ t ∈ expired, t < m.heap.length ∧ t ∉ m.timers ∧ m.managed t = true) → expired.Nodup →
    (rearm now expired m).Sound ∧
      (∀ u ∈ (rearm now expired m).timers, u ∈ m.timers ∨ u ∈ expired) ∧
      ∀ u, (rearm now expired m).callback u = m.callback u := by
  simp only [rearm_eq_foldl]
  induction expired with
  | nil =>
    intro m h _ _
    exact ⟨h, fun u mem => .inl mem, fun u => rfl⟩
  | cons t expired ih =>
    intro m h outside nodup
    obtain ⟨alloc, notIn, has⟩ := outside t List.mem_cons_self
    obtain ⟨notAgain, nodup⟩ := List.nodup_cons.mp nodup
    have sound : (rearmOne now m t).Sound := by
      refine ⟨rearmOne_ordered h.toOrdered alloc notIn, fun u mem => ?_⟩
      rw [rearmOne_managed]
      rcases mem_of_mem_rearmOne mem with old | ⟨rfl, -⟩
      · exact h.managed u old
      · exact has
    have later := rearmOne_outside now notAgain fun u mem =>
      ⟨(outside u mem).1, (outside u mem).2.1⟩
    obtain ⟨h', gained, calls⟩ := ih (rearmOne now m t) sound
      (fun u mem => ⟨(later u mem).1, (later u mem).2,
        rearmOne_managed.trans (outside u (List.mem_cons_of_mem _ mem)).2.2⟩) nodup
    refine ⟨h', fun u mem => ?_, fun u => (calls u).trans (rearmOne_map fun _ _ => rfl)⟩
    rcases gained u mem with mem | mem
    · rcases mem_of_mem_rearmOne mem with old | ⟨rfl, -⟩
      · exact .inl old
      · exact .inr List.mem_cons_self
    · exact .inr (List.mem_cons_of_mem _ mem)

/-- `get_expired_timers` at any clock reading: the set stays sound, loses timers and gains none, and
the timers call what they called. -/
theorem Sound.getExpiredTimers (h : m.Sound) (now : UInt64) :
    (m.getExpiredTimers now []).2.Sound ∧
      (∀ u ∈ (m.getExpiredTimers now []).2.timers, u ∈ m.timers) ∧
      ∀ u, (m.getExpiredTimers now []).2.callback u = m.callback u := by
  unfold TimerManager.getExpiredTimers
  dsimp only
  split
  · exact ⟨h, fun u mem => mem, fun u => rfl⟩
  · have rest : ({ m with
        timers := OrderedSet.beyond m.expiration now.toNat m.timers
        needTickle := true } : TimerManager φ ω).Sound :=
      ⟨h.toOrdered.beyond now, fun u mem => h.managed u ((OrderedSet.mem_beyond h.sorted).mp mem).1⟩
    obtain ⟨h', gained, calls⟩ := rearm_sound now
      (OrderedSet.upTo m.expiration now.toNat m.timers) _ rest
      (fun t mem => by
        obtain ⟨allocated, apart⟩ := h.toOrdered.due mem
        exact ⟨allocated, apart, h.managed t ((OrderedSet.mem_upTo h.sorted).mp mem).1⟩)
      (h.toOrdered.nodup now)
    refine ⟨h', fun u mem => ?_, calls⟩
    rcases gained u mem with mem | mem
    · exact ((OrderedSet.mem_beyond h.sorted).mp mem).1
    · exact ((OrderedSet.mem_upTo h.sorted).mp mem).1

end Sylar.TimerManager
