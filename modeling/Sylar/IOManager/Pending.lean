import Sylar.IOManager.Basic

/-!
# The pending event count

`pending_event_count_` is adjusted once per successful call, whatever number of directions the call
changed, and by `idle` once per delivered direction, whether or not it was registered. It equals the
number of registered directions as long as every call changes as many directions as it counts:
`Counts` says so of the state before a call, and `countsPending_counts` proves it of every run. An
error reported on an fd that waits for one direction is enough to wrap the count below zero.
-/

namespace Sylar

/-- The sum over an association list, with one entry written. -/
theorem sum_entries_insert {α β : Type} [DecidableEq α] (f : β → Nat) (s : AList fun _ : α => β) (a : α)
    (b : β) :
    ((s.insert a b).entries.map fun e => f e.2).sum + ((s.lookup a).elim 0 f) =
      (s.entries.map fun e => f e.2).sum + f b := by
  have erased : ∀ l : List (Sigma fun _ : α => β),
      ((l.kerase a).map fun e => f e.2).sum + ((l.dlookup a).elim 0 f) = (l.map fun e => f e.2).sum := by
    intro l
    induction l with
    | nil => rfl
    | cons e l ih =>
      obtain ⟨a', b'⟩ := e
      by_cases same : a = a'
      · subst same
        have gone : List.kerase a (⟨a, b'⟩ :: l) = l := List.kerase_cons_eq rfl
        rw [gone, List.dlookup_cons_eq, List.map_cons, List.sum_cons, Nat.add_comm]
        rfl
      · rw [List.kerase_cons_ne same, List.dlookup_cons_ne l ⟨a', b'⟩ same, List.map_cons,
          List.map_cons, List.sum_cons, List.sum_cons, Nat.add_assoc, ih]
  rw [AList.entries_insert, List.map_cons, List.sum_cons, Nat.add_assoc, AList.lookup, erased,
    Nat.add_comm]

namespace Events

theorem count_le (e : Events) : e.count ≤ 2 := by
  obtain ⟨i, o⟩ := e
  cases i <;> cases o <;> decide

theorem count_union (a b : Events) : (a.union b).count = a.count + (b.diff a).count := by
  obtain ⟨i, o⟩ := a
  obtain ⟨i', o'⟩ := b
  cases i <;> cases o <;> cases i' <;> cases o' <;> rfl

theorem count_diff (a b : Events) : (a.diff b).count + (a.inter b).count = a.count := by
  obtain ⟨i, o⟩ := a
  obtain ⟨i', o'⟩ := b
  cases i <;> cases o <;> cases i' <;> cases o' <;> rfl

theorem count_eq_zero {e : Events} : e.count = 0 ↔ e = .none := by
  obtain ⟨i, o⟩ := e
  cases i <;> cases o <;> decide

theorem count_inter_only (a : Events) (d : Direction) : (a.inter (.only d)).count = (a.has d).toNat := by
  obtain ⟨i, o⟩ := a
  cases d <;> cases i <;> cases o <;> rfl

theorem diff_eq_self {a b : Events} (apart : a.inter b = .none) : a.diff b = a := by
  obtain ⟨i, o⟩ := a
  obtain ⟨i', o'⟩ := b
  revert apart
  cases i <;> cases o <;> cases i' <;> cases o' <;> decide

theorem has_of_diff_none {a b : Events} (sub : a.diff b = .none) {d : Direction} (isSet : a.has d = true) :
    b.has d = true := by
  obtain ⟨i, o⟩ := a
  obtain ⟨i', o'⟩ := b
  revert sub isSet
  cases d <;> cases i <;> cases o <;> cases i' <;> cases o' <;> decide

theorem has_diff_only_ne {a : Events} {d d' : Direction} (ne : d' ≠ d) :
    (a.diff (.only d)).has d' = a.has d' := by
  obtain ⟨i, o⟩ := a
  revert ne
  cases d <;> cases d' <;> cases i <;> cases o <;> decide

end Events

section Accepting

variable {K S F : Type} {ctl : EpollCtl K}

namespace IOEvent

/-- With a kernel that accepts, `add_event` registers the mask. -/
theorem addEvent_spec (accepts : ∀ k c, (ctl k c).1 = true) (k : K) (e : IOEvent S F) (event : Events)
    (scheduler : Option S) (fiber : Direction → F) :
    ∃ e' k', e.addEvent ctl k event scheduler fiber = (true, e', k') ∧
      e'.events = e.events.union event := by
  unfold addEvent
  dsimp only
  rw [if_pos (accepts _ _)]
  exact ⟨_, _, rfl, rfl⟩

/-- With a kernel that accepts, `del_event` takes the mask out when it meets what is set. -/
theorem delEvent_spec (accepts : ∀ k c, (ctl k c).1 = true) (k : K) {e : IOEvent S F} {event : Events}
    (meets : e.events.inter event ≠ .none) :
    ∃ e' k', e.delEvent ctl k event = (true, e', k') ∧ e'.events = e.events.diff event := by
  unfold delEvent
  rw [if_neg meets]
  refine ⟨_, _, Prod.ext (accepts _ _) rfl, rfl⟩

/-- Triggering does not change what is registered. -/
theorem cancelTrigger_spec {e : IOEvent S F} {event : Events} (meets : e.events.inter event ≠ .none) :
    ∃ handed e', e.cancelTrigger event = some (handed, e') ∧ e'.events = e.events := by
  unfold cancelTrigger
  rw [if_neg meets]
  exact ⟨_, _, rfl, rfl⟩

end IOEvent

namespace IOManager

/-- The registered directions, over all fds. -/
def registered (m : IOManager K S F) : Nat :=
  (m.fdEventMap.entries.map fun e => e.2.events.count).sum

/-- The count is the number of registered directions. -/
def Counted (m : IOManager K S F) : Prop :=
  m.pendingEventCount.toNat = m.registered

/-- A C `int` leaves room for the count: it never gets near its own bound. -/
theorem registered_le (m : IOManager K S F) : m.registered ≤ 2 * 2 ^ 32 := by
  have keys : m.fdEventMap.entries.length ≤ 2 ^ 32 := by
    have nodup : (m.fdEventMap.keys.map BitVec.toFin).Nodup :=
      m.fdEventMap.keys_nodup.map fun a b eq => BitVec.eq_of_toFin_eq eq
    have bound := nodup.length_le_card
    rwa [List.length_map, Fintype.card_fin, AList.keys, List.keys, List.length_map] at bound
  have each : ∀ l : List (Sigma fun _ : Fd => IOEvent S F),
      (l.map fun e => e.2.events.count).sum ≤ 2 * l.length := by
    intro l
    induction l with
    | nil => exact Nat.le_refl 0
    | cons e l ih =>
      have := e.2.events.count_le
      rw [List.map_cons, List.sum_cons, List.length_cons]
      omega
  exact (each _).trans (Nat.mul_le_mul_left 2 keys)

/-- Writing the event of one fd. -/
theorem registered_insert (m : IOManager K S F) (fd : Fd) (e : IOEvent S F) (c : UInt64) (k : K)
    (handed : List (S × F)) :
    (⟨m.fdEventMap.insert fd e, c, k, handed⟩ : IOManager K S F).registered + (m.events fd).count =
      m.registered + e.events.count := by
  have entry : ((m.fdEventMap.lookup fd).elim 0 fun e => e.events.count) = (m.events fd).count := by
    unfold events
    cases m.fdEventMap.lookup fd <;> rfl
  rw [registered, ← entry]
  exact sum_entries_insert (fun e : IOEvent S F => e.events.count) m.fdEventMap fd e

theorem toNat_pred {c : UInt64} (pos : 1 ≤ c.toNat) : (c - 1).toNat = c.toNat - 1 :=
  UInt64.toNat_sub_of_le c 1 (UInt64.le_iff_toNat_le.mpr pos)

/-- The events of an fd after its entry has been written. -/
theorem events_insert_self (m : IOManager K S F) (fd : Fd) (e : IOEvent S F) (c : UInt64) (k : K)
    (handed : List (S × F)) :
    (⟨m.fdEventMap.insert fd e, c, k, handed⟩ : IOManager K S F).events fd = e.events := by
  rw [events, AList.lookup_insert]

theorem events_insert_ne (m : IOManager K S F) {fd fd' : Fd} (ne : fd' ≠ fd) (e : IOEvent S F)
    (c : UInt64) (k : K) (handed : List (S × F)) :
    (⟨m.fdEventMap.insert fd e, c, k, handed⟩ : IOManager K S F).events fd' = m.events fd' := by
  rw [events, AList.lookup_insert_ne ne, events]

/-- The registrations after a mask has been taken out of one fd. -/
structure Removed (m : IOManager K S F) (fd : Fd) (event : Events) (m' : IOManager K S F) : Prop where
  registered : m'.registered + ((m.events fd).inter event).count = m.registered
  here : m'.events fd = (m.events fd).diff event
  others : ∀ fd', fd' ≠ fd → m'.events fd' = m.events fd'

theorem removed_insert (m : IOManager K S F) (fd : Fd) {event : Events} {e : IOEvent S F} (c : UInt64)
    (k : K) (handed : List (S × F)) (out : e.events = (m.events fd).diff event) :
    m.Removed fd event ⟨m.fdEventMap.insert fd e, c, k, handed⟩ where
  registered := by
    have sums := registered_insert m fd e c k handed
    have parts := Events.count_diff (m.events fd) event
    rw [out] at sums
    omega
  here := (events_insert_self ..).trans out
  others _ ne := events_insert_ne m ne ..

theorem removed_self {m : IOManager K S F} {fd : Fd} {event : Events}
    (apart : (m.events fd).inter event = .none) : m.Removed fd event m where
  registered := by rw [apart]; rfl
  here := (Events.diff_eq_self apart).symm
  others _ _ := rfl

theorem events_lookup {m : IOManager K S F} {fd : Fd} {e : IOEvent S F}
    (entry : m.fdEventMap.lookup fd = some e) : m.events fd = e.events := by
  rw [events, entry]

theorem inter_of_lookup_none {m : IOManager K S F} {fd : Fd} (event : Events)
    (entry : m.fdEventMap.lookup fd = none) : (m.events fd).inter event = .none := by
  rw [events, entry]
  rfl

/-- `IOEvent::del_event` takes its mask out and returns whether any of it was set. The count is not
its business. -/
theorem deleteIn_spec (accepts : ∀ k c, (ctl k c).1 = true) (m : IOManager K S F) (fd : Fd)
    (event : Events) :
    m.Removed fd event (m.deleteIn ctl fd event).2 ∧
      (m.deleteIn ctl fd event).2.pendingEventCount = m.pendingEventCount ∧
      ((m.deleteIn ctl fd event).1 = true ↔ (m.events fd).inter event ≠ .none) := by
  unfold deleteIn
  cases entry : m.fdEventMap.lookup fd with
  | none =>
    have apart := inter_of_lookup_none event entry
    exact ⟨removed_self apart, rfl, iff_of_false Bool.false_ne_true (not_not_intro apart)⟩
  | some e =>
    have here := events_lookup entry
    by_cases apart : (m.events fd).inter event = .none
    · have refused : e.delEvent ctl m.kernel event = (false, e, m.kernel) := by
        rw [IOEvent.delEvent, if_pos (here ▸ apart)]
      dsimp only
      rw [refused]
      refine ⟨removed_insert _ _ _ _ _ ?_, rfl,
        iff_of_false Bool.false_ne_true (not_not_intro apart)⟩
      rw [Events.diff_eq_self apart, here]
    · obtain ⟨e', k', run, removed⟩ :=
        IOEvent.delEvent_spec accepts m.kernel (here ▸ apart : e.events.inter event ≠ .none)
      dsimp only
      rw [run]
      exact ⟨removed_insert _ _ _ _ _ (here ▸ removed), rfl, fun _ => apart, fun _ => rfl⟩

/-- Triggering leaves the registrations as they are. -/
theorem triggerIn_spec (m : IOManager K S F) (fd : Fd) (event : Events) :
    (m.triggerIn fd event).2.registered = m.registered ∧
      (∀ fd', (m.triggerIn fd event).2.events fd' = m.events fd') ∧
      (m.triggerIn fd event).2.pendingEventCount = m.pendingEventCount ∧
      ((m.triggerIn fd event).1 = true ↔ (m.events fd).inter event ≠ .none) := by
  unfold triggerIn
  cases entry : m.fdEventMap.lookup fd with
  | none =>
    have apart := inter_of_lookup_none event entry
    exact ⟨rfl, fun _ => rfl, rfl, iff_of_false Bool.false_ne_true (not_not_intro apart)⟩
  | some e =>
    have here := events_lookup entry
    by_cases apart : (m.events fd).inter event = .none
    · have stops : e.cancelTrigger event = none := by
        rw [IOEvent.cancelTrigger, if_pos (here ▸ apart)]
      dsimp only
      rw [stops]
      exact ⟨rfl, fun _ => rfl, rfl, iff_of_false Bool.false_ne_true (not_not_intro apart)⟩
    · obtain ⟨handed, e', run, same⟩ :=
        IOEvent.cancelTrigger_spec (here ▸ apart : e.events.inter event ≠ .none)
      have sums := registered_insert m fd e' m.pendingEventCount m.kernel (m.handed ++ handed)
      rw [same, ← here] at sums
      dsimp only
      rw [run]
      refine ⟨Nat.add_right_cancel sums, fun fd' => ?_, rfl, fun _ => apart, fun _ => rfl⟩
      by_cases eq : fd' = fd
      · rw [eq, here, ← same]
        exact events_insert_self ..
      · exact events_insert_ne m eq ..

theorem cancelIn_spec (accepts : ∀ k c, (ctl k c).1 = true) (m : IOManager K S F) (fd : Fd)
    (event : Events) :
    m.Removed fd event (m.cancelIn ctl fd event).2 ∧
      (m.cancelIn ctl fd event).2.pendingEventCount = m.pendingEventCount ∧
      ((m.cancelIn ctl fd event).1 = true ↔ (m.events fd).inter event ≠ .none) := by
  obtain ⟨sums, same, count, goesOn⟩ := m.triggerIn_spec fd event
  unfold cancelIn
  dsimp only
  by_cases apart : (m.events fd).inter event = .none
  · have stops : ¬ (m.triggerIn fd event).1 = true := fun h => goesOn.mp h apart
    rw [if_neg stops]
    refine ⟨⟨?_, ?_, fun fd' _ => same fd'⟩, count,
      iff_of_false Bool.false_ne_true (not_not_intro apart)⟩
    · rw [apart, sums]; rfl
    · rw [same, Events.diff_eq_self apart]
  · rw [if_pos (goesOn.mpr apart)]
    obtain ⟨removed, count', returned⟩ := deleteIn_spec accepts (m.triggerIn fd event).2 fd event
    refine ⟨⟨?_, ?_, fun fd' ne => ?_⟩, count'.trans count, ?_⟩
    · rw [← sums, ← same]
      exact removed.registered
    · rw [← same]
      exact removed.here
    · exact (removed.others fd' ne).trans (same fd')
    · rw [← same]
      exact returned

/-- The count after `del_event` and after `cancel_event`: one less when something was set. -/
theorem counted_down {m m' : IOManager K S F} {ret : Bool} {fd : Fd} {event : Events}
    (spec : m.Removed fd event m' ∧ m'.pendingEventCount = m.pendingEventCount ∧
      (ret = true ↔ (m.events fd).inter event ≠ .none)) :
    m.Removed fd event
        (if ret then (true, { m' with pendingEventCount := m'.pendingEventCount - 1 }) else (false, m')).2 ∧
      (if ret then (true, { m' with pendingEventCount := m'.pendingEventCount - 1 })
          else (false, m')).2.pendingEventCount =
        if (m.events fd).inter event = .none then m.pendingEventCount else m.pendingEventCount - 1 := by
  obtain ⟨removed, count, returned⟩ := spec
  by_cases apart : (m.events fd).inter event = .none
  · have notSet : ¬ ret = true := fun h => returned.mp h apart
    rw [if_neg notSet, if_pos apart]
    exact ⟨removed, count⟩
  · rw [if_pos (returned.mpr apart), if_neg apart]
    exact ⟨⟨removed.registered, removed.here, removed.others⟩, congrArg (· - 1) count⟩

theorem delEvent_spec (accepts : ∀ k c, (ctl k c).1 = true) (m : IOManager K S F) (fd : Fd)
    (event : Events) :
    m.Removed fd event (m.delEvent ctl fd event).2 ∧
      (m.delEvent ctl fd event).2.pendingEventCount =
        if (m.events fd).inter event = .none then m.pendingEventCount else m.pendingEventCount - 1 :=
  counted_down (deleteIn_spec accepts m fd event)

theorem cancelEvent_spec (accepts : ∀ k c, (ctl k c).1 = true) (m : IOManager K S F) (fd : Fd)
    (event : Events) :
    m.Removed fd event (m.cancelEvent ctl fd event).2 ∧
      (m.cancelEvent ctl fd event).2.pendingEventCount =
        if (m.events fd).inter event = .none then m.pendingEventCount else m.pendingEventCount - 1 :=
  counted_down (cancelIn_spec accepts m fd event)

/-! ## Steps that count right -/

/-- A removal of at most one direction, counted down if there was one. -/
theorem Counted.removed {m m' : IOManager K S F} (counted : m.Counted) {fd : Fd} {event : Events}
    (removed : m.Removed fd event m')
    (count : m'.pendingEventCount =
      if (m.events fd).inter event = .none then m.pendingEventCount else m.pendingEventCount - 1)
    (single : ((m.events fd).inter event).count ≤ 1) : m'.Counted := by
  have sums := removed.registered
  rw [Counted, count]
  by_cases apart : (m.events fd).inter event = .none
  · rw [apart] at sums
    rw [if_pos apart, counted]
    exact sums.symm
  · have one : ((m.events fd).inter event).count = 1 := by
      have : ((m.events fd).inter event).count ≠ 0 := fun zero => apart (Events.count_eq_zero.mp zero)
      omega
    rw [one] at sums
    rw [if_neg apart, toNat_pred (by rw [counted]; omega), counted]
    omega

theorem Counted.addEvent (accepts : ∀ k c, (ctl k c).1 = true) {m : IOManager K S F}
    (counted : m.Counted) {fd : Fd} {event : Events} (scheduler : Option S) (fiber : Direction → F)
    (single : (event.diff (m.events fd)).count = 1) :
    (m.addEvent ctl fd event scheduler fiber).2.Counted := by
  have old : ((m.fdEventMap.lookup fd).getD (.create fd)).events = m.events fd := by
    unfold events
    cases m.fdEventMap.lookup fd <;> rfl
  obtain ⟨e', k', run, added⟩ := IOEvent.addEvent_spec accepts m.kernel
    ((m.fdEventMap.lookup fd).getD (.create fd)) event scheduler fiber
  have sums := registered_insert m fd e' (m.pendingEventCount + 1) k' m.handed
  have room := m.registered_le
  have stands : m.pendingEventCount.toNat = m.registered := counted
  have parts := Events.count_union (m.events fd) event
  rw [added, old] at sums
  unfold IOManager.addEvent
  dsimp only
  rw [run]
  dsimp only
  rw [if_pos rfl, Counted]
  dsimp only
  rw [UInt64.toNat_add, Nat.mod_eq_of_lt (by rw [stands, UInt64.toNat_one]; omega), stands,
    UInt64.toNat_one]
  omega

/-- A direction of `cancel_all`. -/
theorem Counted.cancelSet (accepts : ∀ k c, (ctl k c).1 = true) {m : IOManager K S F}
    (counted : m.Counted) (fd : Fd) (isSet : Bool) (d : Direction) :
    (m.cancelSet ctl fd isSet d).2.Counted := by
  unfold IOManager.cancelSet
  cases isSet with
  | false => exact counted
  | true =>
    obtain ⟨removed, count⟩ := cancelEvent_spec accepts m fd (.only d)
    refine counted.removed removed count ?_
    rw [Events.count_inter_only]
    exact Bool.toNat_le _

/-- A delivered direction that was registered. -/
theorem Counted.deliver (accepts : ∀ k c, (ctl k c).1 = true) {m : IOManager K S F}
    (counted : m.Counted) (fd : Fd) (ready : Bool) (d : Direction)
    (isSet : ready = true → (m.events fd).has d = true) :
    (m.deliver ctl fd ready d).Counted ∧
      (∀ d', d' ≠ d → ((m.deliver ctl fd ready d).events fd).has d' = (m.events fd).has d') ∧
      ∀ fd', fd' ≠ fd → (m.deliver ctl fd ready d).events fd' = m.events fd' := by
  unfold IOManager.deliver
  cases ready with
  | false => exact ⟨counted, fun _ _ => rfl, fun _ _ => rfl⟩
  | true =>
    have one : ((m.events fd).inter (.only d)).count = 1 := by
      rw [Events.count_inter_only, isSet rfl]
      rfl
    have meets : (m.events fd).inter (.only d) ≠ .none := fun none => by
      rw [Events.count_eq_zero.mpr none] at one
      exact Nat.zero_ne_one one
    obtain ⟨removed, count, -⟩ := cancelIn_spec accepts m fd (.only d)
    refine ⟨counted.removed ⟨removed.registered, removed.here, removed.others⟩ ?_ (Nat.le_of_eq one),
      fun d' ne => ?_, fun fd' ne => removed.others fd' ne⟩
    · rw [if_neg meets]
      exact congrArg (· - 1) count
    · exact (congrArg (·.has d') removed.here).trans (Events.has_diff_only_ne ne)

/-- A report whose delivered directions are all registered. -/
theorem Counted.processEvent (accepts : ∀ k c, (ctl k c).1 = true) {m : IOManager K S F}
    (counted : m.Counted) {report : Fd × Revents}
    (allSet : report.2.delivered.diff (m.events report.1) = .none) :
    (m.processEvent ctl report).Counted ∧
      ∀ fd', fd' ≠ report.1 → (m.processEvent ctl report).events fd' = m.events fd' := by
  have isSet : ∀ d, report.2.delivered.has d = true → (m.events report.1).has d = true :=
    fun d => Events.has_of_diff_none allSet
  obtain ⟨first, same, others⟩ :=
    counted.deliver accepts report.1 report.2.delivered.epollin .read (isSet .read)
  obtain ⟨second, -, others'⟩ :=
    first.deliver accepts report.1 report.2.delivered.epollout .write fun ready =>
      (same .write (by decide)).trans (isSet .write ready)
  exact ⟨second, fun fd' ne => (others' fd' ne).trans (others fd' ne)⟩

/-- All reports of an iteration, about different fds. -/
theorem Counted.processEvents (accepts : ∀ k c, (ctl k c).1 = true) (reports : List (Fd × Revents)) :
    ∀ {m : IOManager K S F}, m.Counted → (reports.map Prod.fst).Nodup →
      (∀ report ∈ reports, report.2.delivered.diff (m.events report.1) = .none) →
      (m.processEvents ctl reports).Counted := by
  induction reports with
  | nil => exact fun counted _ _ => counted
  | cons report reports ih =>
    intro m counted distinct allSet
    obtain ⟨notAgain, distinct⟩ := List.nodup_cons.mp distinct
    obtain ⟨next, others⟩ := counted.processEvent accepts (allSet report List.mem_cons_self)
    refine ih next distinct fun later mem => ?_
    have ne : later.1 ≠ report.1 := fun eq => notAgain (eq ▸ List.mem_map_of_mem mem)
    rw [others later.1 ne]
    exact allSet later (List.mem_cons_of_mem _ mem)

end IOManager

end Accepting

namespace IOManager

variable {K S F : Type}

/-! ## Runs -/

/-- The calls the kernel and the callers make: masks are not empty, and an iteration of `idle` sees
each registered fd at most once, ready in directions it is registered for, or with an error or a
hang-up. -/
def Admissible (m : IOManager K S F) : Call S F → Prop
  | .addEvent _ event _ _ | .delEvent _ event | .cancelEvent _ event => event ≠ .none
  | .cancelAll _ => True
  | .idle reports => (reports.map Prod.fst).Nodup ∧ ∀ report ∈ reports, m.events report.1 ≠ .none ∧
      (report.2.epollin = true → (m.events report.1).epollin = true) ∧
      (report.2.epollout = true → (m.events report.1).epollout = true)

/-- The call changes as many directions as it counts: `add_event` sets exactly one that was not set,
`del_event` and `cancel_event` clear at most one, and everything `idle` delivers is set. -/
def Counts (m : IOManager K S F) : Call S F → Prop
  | .addEvent fd event _ _ => (event.diff (m.events fd)).count = 1
  | .delEvent fd event | .cancelEvent fd event => ((m.events fd).inter event).count ≤ 1
  | .cancelAll _ => True
  | .idle reports => ∀ report ∈ reports, report.2.delivered.diff (m.events report.1) = .none

instance (m : IOManager K S F) : DecidablePred m.Admissible
  | .addEvent _ event _ _ | .delEvent _ event | .cancelEvent _ event =>
    inferInstanceAs (Decidable (event ≠ .none))
  | .cancelAll _ => isTrue trivial
  | .idle _ => inferInstanceAs (Decidable (_ ∧ _))

instance (m : IOManager K S F) : DecidablePred m.Counts
  | .addEvent fd event _ _ => inferInstanceAs (Decidable ((event.diff (m.events fd)).count = 1))
  | .delEvent fd event | .cancelEvent fd event =>
    inferInstanceAs (Decidable (((m.events fd).inter event).count ≤ 1))
  | .cancelAll _ => isTrue trivial
  | .idle reports => inferInstanceAs (Decidable (∀ report ∈ reports, _))

/-- A step of the manager against a kernel, made where `cond` holds. -/
def PendingStep (ctl : EpollCtl K) (cond : IOManager K S F → Call S F → Prop) :
    IOManager K S F → Call S F → IOManager K S F → Prop :=
  Lib.Guarded (fun m c m' => m.call ctl c = m') fun m c => m.Admissible c ∧ cond m c

/-- `pending_event_count_` is the number of registered directions in every state that a run whose
calls meet `cond` reaches. -/
def CountsPending (ctl : EpollCtl K) (cond : IOManager K S F → Call S F → Prop) : Prop :=
  ∀ (k : K) (calls : List (Call S F)) (m : IOManager K S F),
    Lib.Run (PendingStep ctl cond) (init k) calls m → m.pendingEventCount.toNat = m.registered

/-- One call keeps the count right. -/
theorem counted_step {ctl : EpollCtl K} (accepts : ∀ k c, (ctl k c).1 = true) {m m' : IOManager K S F}
    {c : Call S F} (counted : m.Counted) (step : PendingStep ctl Counts m c m') : m'.Counted := by
  obtain ⟨rfl, admissible, counts⟩ := step
  cases c with
  | addEvent fd event scheduler fiber => exact counted.addEvent accepts scheduler fiber counts
  | delEvent fd event =>
    obtain ⟨removed, count⟩ := delEvent_spec accepts m fd event
    exact counted.removed removed count counts
  | cancelEvent fd event =>
    obtain ⟨removed, count⟩ := cancelEvent_spec accepts m fd event
    exact counted.removed removed count counts
  | cancelAll fd =>
    exact (counted.cancelSet accepts fd (m.events fd).epollin .read).cancelSet accepts fd
      (m.events fd).epollout .write
  | idle reports => exact counted.processEvents accepts reports admissible.1 counts

/-- With a kernel that accepts every call, the count is right in every run whose calls change as many
directions as they count. -/
theorem countsPending_counts {ctl : EpollCtl K} (accepts : ∀ k c, (ctl k c).1 = true) :
    CountsPending ctl (Counts : IOManager K S F → Call S F → Prop) := by
  intro k calls m run
  exact run.invariant (I := Counted) (fun _ _ _ counted step => counted_step accepts counted step) rfl

/-- Two directions registered one after the other, then both delivered by a hang-up. -/
theorem countsPending_counts_hangup :
    ∃ m : IOManager Unit Unit Unit, Lib.Run (PendingStep (fun k _ => (true, k)) Counts) (init ())
      [.addEvent 5 (.only .read) (some ()) fun _ => (), .addEvent 5 (.only .write) (some ()) fun _ => (),
        .idle [(5, ⟨false, false, false, true⟩)]] m ∧ m.pendingEventCount.toNat = m.registered := by
  have run : Lib.Run (PendingStep (fun k _ => (true, k)) Counts) (init ())
      [.addEvent 5 (.only .read) (some ()) fun _ => (), .addEvent 5 (.only .write) (some ()) fun _ => (),
        .idle [(5, ⟨false, false, false, true⟩)]] _ :=
    .cons ⟨rfl, by decide, rfl⟩ (.cons ⟨rfl, by decide, rfl⟩ (.single ⟨rfl,
      ⟨List.nodup_singleton _, by decide⟩, by decide⟩))
  exact ⟨_, run, countsPending_counts (fun _ _ => rfl) () _ _ run⟩

/-- An fd waiting for input only and an error on it: `idle` counts down twice. -/
theorem not_countsPending :
    ¬ CountsPending (fun k _ => (true, k)) fun (_ : IOManager Unit Unit Unit) _ => True := by
  intro all
  have wrapped := all () [.addEvent 5 (.only .read) (some ()) fun _ => (),
    .idle [(5, ⟨false, false, true, false⟩)]] _
    (.cons ⟨rfl, by decide, trivial⟩ (.single ⟨rfl, ⟨List.nodup_singleton _, by decide⟩, trivial⟩))
  exact absurd wrapped (by decide)

end IOManager

end Sylar
