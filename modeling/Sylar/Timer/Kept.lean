import Sylar.Timer.Basic

/-!
# No timer is lost

`timers_` takes two timers with one expiration for the same element. An `add_timer` whose expiration
is taken answers null, a recurring timer re-armed at a taken expiration drops out, and cancelling a
timer that has already expired erases whatever other timer has its old expiration. `Clear` says, of
the state before a call, that none of the three happens. In every run whose calls are all clear no
timer is lost (`noTimerLost_clear`); without the condition two calls in one millisecond lose one.
-/

namespace Sylar.TimerManager

open Lib

variable {φ ω : Type} {m : TimerManager φ ω}

/-! ## The heap -/

/-- Whether a timer is a recurring one. -/
def recurring (m : TimerManager φ ω) (t : TimerPtr) : Bool :=
  (m.heap[t]?.map Timer.isRecurring).getD false

/-- Whether a timer still has its manager; a cancelled one does not. -/
def managed (m : TimerManager φ ω) (t : TimerPtr) : Bool :=
  (m.heap[t]?.map Timer.managed).getD false

/-- The expiration a timer gets when it is re-armed at `now`. -/
def rearmedAt (m : TimerManager φ ω) (now : UInt64) (t : TimerPtr) : Nat :=
  (m.heap[t]?.map fun timer => (now + timer.periodTime).toNat).getD 0

theorem expirationIn_append {heap : List (Timer φ ω)} {timer : Timer φ ω} {t : TimerPtr}
    (old : t < heap.length) : expirationIn (heap ++ [timer]) t = expirationIn heap t := by
  rw [expirationIn, expirationIn, List.getElem?_append_left old]

theorem expirationIn_length {heap : List (Timer φ ω)} {timer : Timer φ ω} :
    expirationIn (heap ++ [timer]) heap.length = timer.nextExpiration.toNat := by
  rw [expirationIn, List.getElem?_concat_length]
  rfl

/-- A change of a timer is not seen in what it keeps. -/
theorem map_modify {β : Type} {heap : List (Timer φ ω)} {t u : TimerPtr}
    {change : Timer φ ω → Timer φ ω} {read : Timer φ ω → β} (keep : ∀ x, read (change x) = read x) :
    (heap.modify t change)[u]?.map read = heap[u]?.map read := by
  rw [List.getElem?_modify]
  cases heap[u]? with
  | none => rfl
  | some timer =>
    refine congrArg some ?_
    split
    · exact keep timer
    · rfl

theorem setExpiration_expiration_ne {t u : TimerPtr} {e : UInt64} (ne : u ≠ t) :
    (m.setExpiration t e).expiration u = m.expiration u := by
  unfold expiration expirationIn setExpiration
  dsimp only
  simp only [List.getElem?_modify, if_neg (Ne.symm ne), Option.map_eq_map, Option.map_id']

theorem setExpiration_expiration_self {t : TimerPtr} (e : UInt64) (alloc : t < m.heap.length) :
    (m.setExpiration t e).expiration t = e.toNat := by
  unfold expiration expirationIn setExpiration
  dsimp only
  rw [List.getElem?_modify, List.getElem?_eq_getElem alloc]
  simp only [if_true, Option.map_eq_map, Option.map_some, Option.getD_some]

/-! ## The invariant -/

/-- The set is strictly ordered by expiration and names allocated timers. -/
structure Ordered (m : TimerManager φ ω) : Prop where
  sorted : OrderedSet.Sorted m.expiration m.timers
  allocated : ∀ t ∈ m.timers, t < m.heap.length

theorem ordered_init : (init : TimerManager φ ω).Ordered :=
  ⟨OrderedSet.Sorted.nil, fun _ mem => nomatch mem⟩

/-! ## Adding -/

/-- No timer in the set has this expiration. -/
def Free (m : TimerManager φ ω) (e : Nat) : Prop :=
  ∀ u ∈ m.timers, m.expiration u ≠ e

instance (m : TimerManager φ ω) (e : Nat) : Decidable (m.Free e) :=
  inferInstanceAs (Decidable (∀ u ∈ m.timers, m.expiration u ≠ e))

/-- Inserting an allocated timer. -/
theorem addTimerPtr_spec (o : m.Ordered) {t : TimerPtr} (alloc : t < m.heap.length) :
    (m.addTimerPtr t).2.Ordered ∧ (m.addTimerPtr t).2.heap = m.heap ∧
      ((m.addTimerPtr t).1 = true ↔ m.Free (m.expiration t)) ∧
      ∀ u, u ∈ (m.addTimerPtr t).2.timers ↔ u ∈ m.timers ∨ ((m.addTimerPtr t).1 = true ∧ u = t) := by
  refine ⟨⟨OrderedSet.sorted_insert o.sorted, fun u mem => ?_⟩, rfl,
    OrderedSet.insert_fresh_iff o.sorted, fun u => OrderedSet.mem_insert⟩
  rcases OrderedSet.mem_insert.mp mem with old | ⟨-, rfl⟩
  · exact o.allocated u old
  · exact alloc

/-- Allocating a timer does not touch the set. -/
theorem alloc_ordered (o : m.Ordered) (timer : Timer φ ω) : (m.alloc timer).2.Ordered where
  sorted := o.sorted.congr fun u mem => expirationIn_append (o.allocated u mem)
  allocated u mem := by
    rw [alloc, List.length_append]
    exact Nat.lt_of_lt_of_le (o.allocated u mem) (Nat.le_add_right _ _)

/-- A timer added at a free expiration is in the set and is what the call returns; the others stay. -/
theorem addTimer_spec (o : m.Ordered) (now : UInt64) (recurring : Bool) (ms : UInt64)
    (cb : Callback φ ω) (free : m.Free (now + ms).toNat) :
    (m.addTimer now recurring ms cb).1 = some m.heap.length ∧
      (m.addTimer now recurring ms cb).2.Ordered ∧
      m.heap.length ∈ (m.addTimer now recurring ms cb).2.timers ∧
      (∀ u ∈ m.timers, u ∈ (m.addTimer now recurring ms cb).2.timers) ∧
      (m.addTimer now recurring ms cb).2.heap = m.heap ++ [.create now recurring ms cb] := by
  have alloc : (m.alloc (.create now recurring ms cb)).1 <
      (m.alloc (.create now recurring ms cb)).2.heap.length := by
    simp only [TimerManager.alloc, List.length_append, List.length_singleton, Nat.lt_succ_self]
  obtain ⟨ordered, heap, fresh, members⟩ :=
    addTimerPtr_spec (alloc_ordered o (.create now recurring ms cb)) alloc
  have added : ((m.alloc (.create now recurring ms cb)).2.addTimerPtr m.heap.length).1 = true := by
    refine fresh.mpr fun u mem => ?_
    have key : (m.alloc (.create now recurring ms cb)).2.expiration m.heap.length = (now + ms).toNat :=
      expirationIn_length
    have old : (m.alloc (.create now recurring ms cb)).2.expiration u = m.expiration u :=
      expirationIn_append (o.allocated u mem)
    show (m.alloc (.create now recurring ms cb)).2.expiration u ≠
      (m.alloc (.create now recurring ms cb)).2.expiration m.heap.length
    rw [key, old]
    exact free u mem
  refine ⟨if_pos added, ordered, (members _).mpr (.inr ⟨added, rfl⟩),
    fun u mem => (members u).mpr (.inl mem), heap⟩

/-! ## Removing -/

theorem mem_delTimer (o : m.Ordered) (t u : TimerPtr) :
    u ∈ (m.delTimer t).2.timers ↔ u ∈ m.timers ∧ m.expiration u ≠ m.expiration t := by
  unfold delTimer
  split
  · exact OrderedSet.mem_erase o.sorted
  · rename_i none
    exact ⟨fun mem => ⟨mem, (OrderedSet.find_eq_none o.sorted).mp none u mem⟩, And.left⟩

theorem delTimer_heap (t : TimerPtr) : (m.delTimer t).2.heap = m.heap := by
  unfold delTimer
  split <;> rfl

theorem delTimer_ordered (o : m.Ordered) (t : TimerPtr) : (m.delTimer t).2.Ordered where
  sorted := by
    unfold delTimer
    split
    · exact OrderedSet.sorted_erase o.sorted
    · exact o.sorted
  allocated u mem := by
    rw [delTimer_heap]
    exact o.allocated u ((mem_delTimer o t u).mp mem).1

/-- Clearing `manager_` leaves the expirations alone. -/
theorem expirationIn_unmanaged (heap : List (Timer φ ω)) (t : TimerPtr) :
    expirationIn (heap.modify t fun timer => { timer with managed := false }) = expirationIn heap :=
  funext fun _ => congrArg (·.getD 0) (map_modify (by intro; rfl))

theorem cancel_ordered (o : m.Ordered) (t : TimerPtr) : (m.cancel t).2.Ordered := by
  unfold cancel
  split
  · split
    · have d := delTimer_ordered o t
      exact ⟨d.sorted.congr fun u _ => congrFun (expirationIn_unmanaged _ t) u, fun u mem => by
        rw [List.length_modify]
        exact d.allocated u mem⟩
    · exact o
  · exact o

theorem cancel_recurring (t u : TimerPtr) : (m.cancel t).2.recurring u = m.recurring u := by
  unfold cancel
  split
  · split
    · unfold recurring
      dsimp only
      rw [delTimer_heap, map_modify (by intro; rfl)]
    · rfl
  · rfl

/-- Cancelling takes out no timer other than its own, provided its own was cancelled before, is in
the set, or has an expiration that is not another's. -/
theorem mem_cancel (o : m.Ordered) {t u : TimerPtr}
    (own : m.managed t = false ∨ t ∈ m.timers ∨ m.Free (m.expiration t)) (ne : u ≠ t)
    (mem : u ∈ m.timers) : u ∈ (m.cancel t).2.timers := by
  unfold cancel
  split
  · rename_i timer here
    split
    · rename_i isManaged
      refine (mem_delTimer o t u).mpr ⟨mem, fun same => ?_⟩
      rcases own with before | inside | free
      · simp only [managed, here, Option.map_some, Option.getD_some, isManaged,
          Bool.true_eq_false] at before
      · exact ne (o.sorted.eq_of_key_eq mem inside same)
      · exact free u mem same
    · exact mem
  · exact mem

/-! ## Expiry -/

/-- The expirations at which the recurring timers among `expired` are re-armed are free, and distinct
from one another. -/
def RearmClear (m : TimerManager φ ω) (now : UInt64) (expired : List TimerPtr) : Prop :=
  (expired.filter m.recurring).Pairwise (fun t u => m.rearmedAt now t ≠ m.rearmedAt now u) ∧
    ∀ t ∈ expired.filter m.recurring, m.Free (m.rearmedAt now t)

instance (m : TimerManager φ ω) (now : UInt64) (expired : List TimerPtr) :
    Decidable (m.RearmClear now expired) :=
  inferInstanceAs (Decidable (_ ∧ _))

/-- One turn of the loop over the expired timers. -/
def rearmOne (now : UInt64) (m : TimerManager φ ω) (t : TimerPtr) : TimerManager φ ω :=
  match m.heap[t]? with
  | some timer =>
    if timer.isRecurring then
      let m := m.setExpiration t (now + timer.periodTime)
      { m with timers := (OrderedSet.insert m.expiration t m.timers).elements }
    else m
  | none => m

theorem rearm_eq_foldl (now : UInt64) (expired : List TimerPtr) : ∀ m : TimerManager φ ω,
    rearm now expired m = expired.foldl (rearmOne now) m := by
  induction expired with
  | nil => intro m; rfl
  | cons t expired ih =>
    intro m
    rw [rearm, List.foldl_cons, ← ih, rearmOne]
    cases m.heap[t]? with
    | none => rfl
    | some timer =>
      dsimp only
      split
      · rfl
      · rfl

section RearmOne

variable {now : UInt64} {t u : TimerPtr}

theorem rearmOne_oneShot (once : m.recurring t = false) : rearmOne now m t = m := by
  unfold rearmOne
  split
  · rename_i timer here
    have flag : timer.isRecurring = false := by simpa [recurring, here] using once
    rw [if_neg (by simp [flag])]
  · rfl

/-- A recurring timer has its new expiration written, and is then inserted. -/
theorem rearmOne_recurring (now : UInt64) (again : m.recurring t = true) :
    ∃ e : UInt64, e.toNat = m.rearmedAt now t ∧
      rearmOne now m t = { m.setExpiration t e with
        timers := (OrderedSet.insert (m.setExpiration t e).expiration t m.timers).elements } := by
  unfold rearmOne
  cases here : m.heap[t]? with
  | none => simp [recurring, here] at again
  | some timer =>
    have flag : timer.isRecurring = true := by simpa [recurring, here] using again
    refine ⟨now + timer.periodTime, by simp [rearmedAt, here], ?_⟩
    simp only [flag, if_true]
    rfl

/-- A turn writes nothing of a timer but its expiration. -/
theorem rearmOne_map {β : Type} {read : Timer φ ω → β}
    (keep : ∀ x e, read { x with nextExpiration := e } = read x) :
    (rearmOne now m t).heap[u]?.map read = m.heap[u]?.map read := by
  cases flag : m.recurring t with
  | false => rw [rearmOne_oneShot flag]
  | true =>
    obtain ⟨e, -, eq⟩ := rearmOne_recurring now flag
    rw [eq]
    exact map_modify fun x => keep x e

theorem rearmOne_flags : (rearmOne now m t).recurring u = m.recurring u :=
  congrArg (·.getD false) (rearmOne_map fun _ _ => rfl)

theorem rearmOne_rearmedAt : (rearmOne now m t).rearmedAt now u = m.rearmedAt now u :=
  congrArg (·.getD 0) (rearmOne_map fun _ _ => rfl)

theorem rearmOne_length : (rearmOne now m t).heap.length = m.heap.length := by
  cases flag : m.recurring t with
  | false => rw [rearmOne_oneShot flag]
  | true =>
    obtain ⟨e, -, eq⟩ := rearmOne_recurring now flag
    rw [eq]
    exact List.length_modify ..

/-- A turn writes no other timer. -/
theorem rearmOne_heap_ne (ne : u ≠ t) : (rearmOne now m t).heap[u]? = m.heap[u]? := by
  cases flag : m.recurring t with
  | false => rw [rearmOne_oneShot flag]
  | true =>
    obtain ⟨e, -, eq⟩ := rearmOne_recurring now flag
    rw [eq]
    simp [setExpiration, Ne.symm ne]

theorem rearmOne_expiration_ne (ne : u ≠ t) : (rearmOne now m t).expiration u = m.expiration u := by
  unfold expiration expirationIn
  rw [rearmOne_heap_ne ne]

theorem rearmOne_expiration_self (alloc : t < m.heap.length) (again : m.recurring t = true) :
    (rearmOne now m t).expiration t = m.rearmedAt now t := by
  obtain ⟨e, value, eq⟩ := rearmOne_recurring now again
  rw [eq, ← value]
  exact setExpiration_expiration_self e alloc

/-- What is in the set stays. -/
theorem mem_rearmOne (mem : u ∈ m.timers) : u ∈ (rearmOne now m t).timers := by
  cases flag : m.recurring t with
  | false => rw [rearmOne_oneShot flag]; exact mem
  | true =>
    obtain ⟨e, -, eq⟩ := rearmOne_recurring now flag
    rw [eq]
    exact OrderedSet.mem_insert.mpr (.inl mem)

/-- The set gains at most the timer of the turn, and only a recurring one. -/
theorem mem_of_mem_rearmOne (mem : u ∈ (rearmOne now m t).timers) :
    u ∈ m.timers ∨ (u = t ∧ m.recurring t = true) := by
  cases flag : m.recurring t with
  | false =>
    rw [rearmOne_oneShot flag] at mem
    exact .inl mem
  | true =>
    obtain ⟨e, -, eq⟩ := rearmOne_recurring now flag
    rw [eq] at mem
    exact (OrderedSet.mem_insert.mp mem).imp_right fun new => ⟨new.2, rfl⟩

/-- A turn at a timer that is outside the set keeps the order. -/
theorem rearmOne_ordered (o : m.Ordered) (alloc : t < m.heap.length) (notIn : t ∉ m.timers) :
    (rearmOne now m t).Ordered := by
  refine ⟨?_, fun u mem => ?_⟩
  · cases flag : m.recurring t with
    | false => rw [rearmOne_oneShot flag]; exact o.sorted
    | true =>
      obtain ⟨e, -, eq⟩ := rearmOne_recurring now flag
      rw [eq]
      exact OrderedSet.sorted_insert (o.sorted.congr fun u mem =>
        setExpiration_expiration_ne fun same => notIn (same ▸ mem))
  · rw [rearmOne_length]
    rcases mem_of_mem_rearmOne mem with old | ⟨rfl, -⟩
    · exact o.allocated u old
    · exact alloc

/-- A recurring timer comes back when its new expiration is free. -/
theorem mem_rearmOne_self (o : m.Ordered) (alloc : t < m.heap.length) (notIn : t ∉ m.timers)
    (again : m.recurring t = true) (free : m.Free (m.rearmedAt now t)) :
    t ∈ (rearmOne now m t).timers := by
  obtain ⟨e, value, eq⟩ := rearmOne_recurring now again
  have other : ∀ u ∈ m.timers, (m.setExpiration t e).expiration u = m.expiration u :=
    fun u mem => setExpiration_expiration_ne fun same => notIn (same ▸ mem)
  rw [eq]
  refine OrderedSet.mem_insert.mpr (.inr ⟨?_, rfl⟩)
  refine (OrderedSet.insert_fresh_iff (o.sorted.congr other)).mpr fun u mem => ?_
  rw [other u mem, setExpiration_expiration_self e alloc, value]
  exact free u mem

/-- The timers of the loop are allocated and outside the set; so are those of its later turns after
one turn. -/
theorem rearmOne_outside (now : UInt64) {expired : List TimerPtr} (notAgain : t ∉ expired)
    (outside : ∀ u ∈ t :: expired, u < m.heap.length ∧ u ∉ m.timers) :
    ∀ u ∈ expired, u < (rearmOne now m t).heap.length ∧ u ∉ (rearmOne now m t).timers := by
  intro u mem
  obtain ⟨alloc, notIn⟩ := outside u (List.mem_cons_of_mem _ mem)
  refine ⟨by rwa [rearmOne_length], fun inside => ?_⟩
  rcases mem_of_mem_rearmOne inside with old | ⟨rfl, -⟩
  · exact notIn old
  · exact notAgain mem

/-- After one timer has been re-armed the rest of the loop is still clear. -/
theorem rearmClear_next {expired : List TimerPtr} (alloc : t < m.heap.length) (notIn : t ∉ m.timers)
    (clear : m.RearmClear now (t :: expired)) : (rearmOne now m t).RearmClear now expired := by
  obtain ⟨distinct, free⟩ := clear
  have flags : (rearmOne now m t).recurring = m.recurring := funext fun u => rearmOne_flags
  have targets : (rearmOne now m t).rearmedAt now = m.rearmedAt now := funext fun u => rearmOne_rearmedAt
  rw [RearmClear, flags, targets]
  cases flag : m.recurring t with
  | false =>
    rw [rearmOne_oneShot flag]
    rw [List.filter_cons_of_neg (by simp [flag])] at distinct free
    exact ⟨distinct, free⟩
  | true =>
    rw [List.filter_cons_of_pos flag] at distinct free
    obtain ⟨apart, distinct⟩ := List.pairwise_cons.mp distinct
    refine ⟨distinct, fun u due v inside => ?_⟩
    rcases mem_of_mem_rearmOne inside with old | ⟨rfl, -⟩
    · have ne : v ≠ t := fun same => notIn (same ▸ old)
      rw [rearmOne_expiration_ne ne]
      exact free u (List.mem_cons_of_mem _ due) v old
    · rw [rearmOne_expiration_self alloc flag]
      exact apart u due

end RearmOne

/-- The loop over the expired timers, at clear expirations: what is in the set stays and every
recurring timer comes back. -/
theorem rearm_spec (now : UInt64) (expired : List TimerPtr) : ∀ m : TimerManager φ ω, m.Ordered →
    (∀ t ∈ expired, t < m.heap.length ∧ t ∉ m.timers) → expired.Nodup → m.RearmClear now expired →
    (rearm now expired m).Ordered ∧ (∀ u ∈ m.timers, u ∈ (rearm now expired m).timers) ∧
      (∀ t ∈ expired, m.recurring t = true → t ∈ (rearm now expired m).timers) ∧
      ∀ u, (rearm now expired m).recurring u = m.recurring u := by
  simp only [rearm_eq_foldl]
  induction expired with
  | nil =>
    intro m o _ _ _
    exact ⟨o, fun u mem => mem, fun t mem => absurd mem List.not_mem_nil, fun u => rfl⟩
  | cons t expired ih =>
    intro m o outside nodup clear
    obtain ⟨alloc, notIn⟩ := outside t List.mem_cons_self
    obtain ⟨notAgain, nodup⟩ := List.nodup_cons.mp nodup
    obtain ⟨o', stay, back, flags⟩ := ih (rearmOne now m t) (rearmOne_ordered o alloc notIn)
      (rearmOne_outside now notAgain outside) nodup (rearmClear_next alloc notIn clear)
    refine ⟨o', fun u mem => stay u (mem_rearmOne mem), fun u mem again => ?_,
      fun u => (flags u).trans rearmOne_flags⟩
    rcases List.mem_cons.mp mem with rfl | later
    · have free := clear.2 u (List.mem_filter.mpr ⟨List.mem_cons_self, again⟩)
      exact stay u (mem_rearmOne_self o alloc notIn again free)
    · exact back u later (rearmOne_flags.trans again)

/-- The recurring timers that `get_expired_timers` re-arms find their expirations free. -/
def ExpiryClear (m : TimerManager φ ω) (now : UInt64) : Prop :=
  RearmClear { m with timers := OrderedSet.beyond m.expiration now.toNat m.timers } now
    (OrderedSet.upTo m.expiration now.toNat m.timers)

instance (m : TimerManager φ ω) (now : UInt64) : Decidable (m.ExpiryClear now) :=
  inferInstanceAs (Decidable (RearmClear _ _ _))

theorem Ordered.nodup (o : m.Ordered) (now : UInt64) :
    (OrderedSet.upTo m.expiration now.toNat m.timers).Nodup :=
  (OrderedSet.sorted_upTo o.sorted).imp fun {a b} lt eq => by
    rw [eq] at lt
    exact lt_irrefl _ lt

/-- The timers that are not due, after the others have been taken out. -/
theorem Ordered.beyond (o : m.Ordered) (now : UInt64) : ({ m with
    timers := OrderedSet.beyond m.expiration now.toNat m.timers
    needTickle := true } : TimerManager φ ω).Ordered where
  sorted := OrderedSet.sorted_beyond o.sorted
  allocated u mem := o.allocated u ((OrderedSet.mem_beyond o.sorted).mp mem).1

/-- A timer that is due is not among those that are not. -/
theorem Ordered.due (o : m.Ordered) {now : UInt64} {t : TimerPtr}
    (mem : t ∈ OrderedSet.upTo m.expiration now.toNat m.timers) :
    t < m.heap.length ∧ t ∉ OrderedSet.beyond m.expiration now.toNat m.timers := by
  obtain ⟨old, le⟩ := (OrderedSet.mem_upTo o.sorted).mp mem
  exact ⟨o.allocated t old, fun later => not_lt.mpr le (OrderedSet.lt_of_mem_beyond o.sorted later)⟩

/-- An expiry at clear expirations: the set keeps what it does not return, and the recurring timers
it returns. -/
theorem getExpiredTimers_spec (o : m.Ordered) {now : UInt64} (clear : m.ExpiryClear now) :
    (m.getExpiredTimers now []).2.Ordered ∧
      (∀ u ∈ m.timers, u ∉ (m.getExpiredTimers now []).1 ∨ m.recurring u = true →
        u ∈ (m.getExpiredTimers now []).2.timers) ∧
      ∀ u, (m.getExpiredTimers now []).2.recurring u = m.recurring u := by
  unfold getExpiredTimers
  dsimp only
  split
  · exact ⟨o, fun u mem _ => mem, fun u => rfl⟩
  · obtain ⟨o', stay, back, flags⟩ := rearm_spec now (OrderedSet.upTo m.expiration now.toNat m.timers)
      _ (o.beyond now) (fun t mem => o.due mem) (o.nodup now) clear
    refine ⟨o', fun u mem which => ?_, flags⟩
    by_cases due : m.expiration u ≤ now.toNat
    · have returned := (OrderedSet.mem_upTo o.sorted).mpr ⟨mem, due⟩
      rcases which with notReturned | isRecurring
      · exact absurd returned notReturned
      · exact back u returned isRecurring
    · exact stay u ((OrderedSet.mem_beyond o.sorted).mpr ⟨mem, not_le.mp due⟩)

/-! ## Runs -/

/-- The calls that schedule, cancel and expire timers. -/
def Call.Scheduling : Call φ ω → Prop
  | .addTimer .. | .cancel .. | .getExpiredTimers .. => True
  | .delTimer .. | .refresh .. | .reset .. | .getNextTimer .. => False

/-- A call in a state where no two expirations meet. -/
def Clear (m : TimerManager φ ω) : Call φ ω → Prop
  | .addTimer now _ ms _ => m.Free (now + ms).toNat
  | .cancel t => m.managed t = false ∨ t ∈ m.timers ∨ m.Free (m.expiration t)
  | .getExpiredTimers now => m.ExpiryClear now
  | .delTimer .. | .refresh .. | .reset .. | .getNextTimer .. => True

instance (m : TimerManager φ ω) : DecidablePred m.Clear
  | .addTimer now _ ms _ => inferInstanceAs (Decidable (m.Free (now + ms).toNat))
  | .cancel t =>
    inferInstanceAs (Decidable (m.managed t = false ∨ t ∈ m.timers ∨ m.Free (m.expiration t)))
  | .getExpiredTimers now => inferInstanceAs (Decidable (m.ExpiryClear now))
  | .delTimer .. | .refresh .. | .reset .. | .getNextTimer .. => isTrue trivial

/-- The scheduling calls, made where `cond` holds. -/
def SchedulingStep (cond : TimerManager φ ω → Call φ ω → Prop) :
    TimerManager φ ω → Call φ ω × Answer → TimerManager φ ω → Prop :=
  Guarded Step fun m event => event.1.Scheduling ∧ cond m event.1

/-- An event that returns a timer as expired. -/
def Returns (t : TimerPtr) : Call φ ω × Answer → Prop
  | (_, .expired timers) => t ∈ timers
  | _ => False

/-- No timer is silently lost in the runs whose calls meet `cond`: every `add_timer` returns a timer
that is then in the set; a one-shot timer stays in it until it is cancelled or returned as expired, a
recurring one until it is cancelled. -/
def NoTimerLost (cond : TimerManager φ ω → Call φ ω → Prop) : Prop :=
  ∀ (before after : List (Call φ ω × Answer)) (m₀ m₁ m₂ : TimerManager φ ω) (now : UInt64)
    (recurring : Bool) (ms : UInt64) (cb : Callback φ ω) (answer : Answer),
    Run (SchedulingStep cond) init before m₀ →
    SchedulingStep cond m₀ (.addTimer now recurring ms cb, answer) m₁ →
    Run (SchedulingStep cond) m₁ after m₂ →
    ∃ t, answer = .timer (some t) ∧ t ∈ m₁.timers ∧
      (recurring = false → (∀ event ∈ after, event.1 ≠ .cancel t) →
        (∀ event ∈ after, ¬ Returns t event) → t ∈ m₂.timers) ∧
      (recurring = true → (∀ event ∈ after, event.1 ≠ .cancel t) → t ∈ m₂.timers)

/-- What a clear call does to the set: it stays ordered, and a timer leaves it only by its own cancel
or, when it is a one-shot timer, by being returned. -/
theorem clear_step_spec {m' : TimerManager φ ω} {event : Call φ ω × Answer} (o : m.Ordered)
    (step : SchedulingStep Clear m event m') :
    m'.Ordered ∧ (∀ u ∈ m.timers, event.1 ≠ .cancel u → ¬ Returns u event ∨ m.recurring u = true →
        u ∈ m'.timers) ∧
      ∀ u ∈ m.timers, m'.recurring u = m.recurring u := by
  obtain ⟨call, answer⟩ := event
  obtain ⟨step, scheduling, clear⟩ := step
  cases call with
  | addTimer now isRecurring ms cb =>
    obtain ⟨-, ordered, -, stay, heap⟩ := addTimer_spec o now isRecurring ms cb clear
    obtain rfl : (m.addTimer now isRecurring ms cb).2 = m' := congrArg Prod.snd step
    refine ⟨ordered, fun u mem _ _ => stay u mem, fun u mem => ?_⟩
    unfold recurring
    rw [heap, List.getElem?_append_left (o.allocated u mem)]
  | cancel t =>
    obtain rfl : (m.cancel t).2 = m' := congrArg Prod.snd step
    refine ⟨cancel_ordered o t, fun u mem other _ => ?_, fun u _ => cancel_recurring t u⟩
    exact mem_cancel o clear (fun eq => other (eq ▸ rfl)) mem
  | getExpiredTimers now =>
    obtain rfl : (m.getExpiredTimers now []).2 = m' := congrArg Prod.snd step
    obtain rfl : Answer.expired (m.getExpiredTimers now []).1 = answer := congrArg Prod.fst step
    obtain ⟨ordered, stay, flags⟩ := getExpiredTimers_spec o clear
    exact ⟨ordered, fun u mem _ which => stay u mem which, fun u _ => flags u⟩
  | delTimer | refresh | reset | getNextTimer => exact absurd scheduling not_false

/-- A one-shot timer in the set, along a run that neither cancels nor returns it. -/
theorem oneShot_stays {m' : TimerManager φ ω} {events : List (Call φ ω × Answer)} {t : TimerPtr}
    (run : Run (SchedulingStep Clear) m events m') (o : m.Ordered) (mem : t ∈ m.timers)
    (quiet : ∀ event ∈ events, event.1 ≠ .cancel t ∧ ¬ Returns t event) : t ∈ m'.timers := by
  refine (run.invariant_of_labels (I := fun m => m.Ordered ∧ t ∈ m.timers)
    (fun m event m' ⟨o, mem⟩ step ⟨notCancel, notReturn⟩ => ?_) ⟨o, mem⟩ quiet).2
  obtain ⟨o', stay, -⟩ := clear_step_spec o step
  exact ⟨o', stay t mem notCancel (.inl notReturn)⟩

/-- A recurring timer in the set, along a run that does not cancel it. -/
theorem recurring_stays {m' : TimerManager φ ω} {events : List (Call φ ω × Answer)} {t : TimerPtr}
    (run : Run (SchedulingStep Clear) m events m') (o : m.Ordered) (mem : t ∈ m.timers)
    (flag : m.recurring t = true) (quiet : ∀ event ∈ events, event.1 ≠ .cancel t) :
    t ∈ m'.timers := by
  refine (run.invariant_of_labels (I := fun m => m.Ordered ∧ t ∈ m.timers ∧ m.recurring t = true)
    (fun m event m' ⟨o, mem, flag⟩ step notCancel => ?_) ⟨o, mem, flag⟩ quiet).2.1
  obtain ⟨o', stay, flags⟩ := clear_step_spec o step
  exact ⟨o', stay t mem notCancel (.inr flag), (flags t mem).trans flag⟩

/-- In every run whose calls are clear no timer is lost. -/
theorem noTimerLost_clear : NoTimerLost (Clear : TimerManager φ ω → Call φ ω → Prop) := by
  intro before after m₀ m₁ m₂ now isRecurring ms cb answer run add rest
  have o₀ : m₀.Ordered :=
    run.invariant (I := Ordered) (fun _ _ _ o step => (clear_step_spec o step).1) ordered_init
  have o₁ : m₁.Ordered := (clear_step_spec o₀ add).1
  obtain ⟨step, -, free⟩ := add
  obtain ⟨returned, -, mem, -, heap⟩ := addTimer_spec o₀ now isRecurring ms cb free
  obtain rfl : (m₀.addTimer now isRecurring ms cb).2 = m₁ := congrArg Prod.snd step
  obtain rfl : Answer.timer (m₀.addTimer now isRecurring ms cb).1 = answer := congrArg Prod.fst step
  refine ⟨m₀.heap.length, congrArg _ returned, mem, fun _ noCancel noReturn => ?_,
    fun again noCancel => ?_⟩
  · exact oneShot_stays rest o₁ mem fun event inside => ⟨noCancel event inside, noReturn event inside⟩
  · refine recurring_stays rest o₁ mem ?_ noCancel
    unfold recurring
    rw [heap, List.getElem?_concat_length]
    exact again

/-- A recurring timer armed at 0 and one armed at 5, both for 10 milliseconds: the first is still in
the set after it has fired at 12. -/
theorem noTimerLost_clear_two :
    0 ∈ ((((init : TimerManager Unit Unit).addTimer 0 true 10 (.plain ())).2.addTimer 5 true 10
      (.plain ())).2.getExpiredTimers 12 []).2.timers := by
  obtain ⟨t, returned, -, -, kept⟩ := noTimerLost_clear (φ := Unit) (ω := Unit) []
    [(.addTimer 5 true 10 (.plain ()), .timer (some 1)), (.getExpiredTimers 12, .expired [0])] init
    _ _ 0 true 10 (.plain ()) (.timer (some 0)) (.nil _)
    ⟨rfl, trivial, by decide⟩
    (.cons ⟨rfl, trivial, by decide⟩ (.single ⟨rfl, trivial, by decide⟩))
  obtain rfl : 0 = t := by simpa using returned
  exact kept rfl (by decide)

/-- Two timers of one duration added in one millisecond: the second call answers null. -/
theorem not_noTimerLost :
    ¬ NoTimerLost (fun (_ : TimerManager Unit Unit) _ => True) := by
  intro all
  obtain ⟨t, returned, -⟩ := all [(.addTimer 5 false 1000 (.plain ()), .timer (some 0))] [] _ _ _ 5 false
    1000 (.plain ()) (.timer none) (.single ⟨rfl, trivial, trivial⟩) ⟨rfl, trivial, trivial⟩ (.nil _)
  cases returned

end Sylar.TimerManager
