import Sylar.IOManager.Basic

/-!
# Deliveries and registrations that interleave

`IOEvent::cancel_event` is two critical sections, and `idle` runs it without `rw_mutex_`. Between
the two a fiber woken by the first, or any other worker, may register the same direction again, and
the second section then takes the new registration out. The steps here are the critical sections of
`IOEvent::mutex_`. The calls of `IOManager` on an existing `IOEvent` hold `rw_mutex_` for writing
from their first section to their last, so at most one of them is under way; the first registration
of an fd takes the lock to enter the map and is one step here. Deliveries by `idle` are under way in
any number.

`Undisturbed` says of an `add_event` that no delivery of its directions is between its sections and
that no other fiber is registered there. In every run whose registrations are undisturbed none is
lost (`noRegistrationLost_undisturbed`).
-/

namespace Sylar

open Lib

/-- A call of `IOManager` that holds `rw_mutex_`: the mask whose `del_event` is still to come, and the
directions `cancel_all` has left. -/
structure Holder where
  fd : Fd
  deleting : Option Events
  left : List Direction
  deriving DecidableEq, Repr

/-- The lock is released when nothing is left. -/
def Holder.release (h : Holder) : Option Holder :=
  if h.deleting.isNone && h.left.isEmpty then none else some h

/-- The critical sections, and the calls they belong to. -/
inductive Section (S F : Type) where
  /-- `IOManager::add_event`, one section. -/
  | addEvent (fd : Fd) (event : Events) (scheduler : Option S) (fiber : Direction → F)
  /-- `IOManager::del_event`, one section. -/
  | delEvent (fd : Fd) (event : Events)
  /-- `IOManager::cancel_event`, the first section. -/
  | cancelEvent (fd : Fd) (event : Events)
  /-- `IOManager::cancel_all`, its `get_events`. -/
  | cancelAll (fd : Fd)
  /-- The first section of the next `cancel_event` of `cancel_all`. -/
  | cancelNext (fd : Fd) (d : Direction)
  /-- The second section of the `cancel_event` of the lock's holder. -/
  | finishCancel
  /-- A `cancel_event` of `idle`, the first section. -/
  | deliver (fd : Fd) (d : Direction)
  /-- A `cancel_event` of `idle`, the second section. -/
  | finishDelivery (fd : Fd) (d : Direction)

/-- The manager, the deliveries between their two sections, and the holder of `rw_mutex_`. -/
structure Workers (K S F : Type) where
  manager : IOManager K S F
  delivering : List (Fd × Direction)
  holder : Option Holder

namespace Workers

variable {K S F : Type}

def init (k : K) : Workers K S F := ⟨.init k, [], none⟩

/-- `pending_event_count_ -= 1`. -/
def countDown (m : IOManager K S F) : IOManager K S F :=
  { m with pendingEventCount := m.pendingEventCount - 1 }

/-- Run one section; `none` when it cannot run. The flag is what the section's function returns, or
whether `cancel_event` goes on to its second section. -/
def exec (ctl : EpollCtl K) (w : Workers K S F) : Section S F → Option (Bool × Workers K S F)
  | .addEvent fd event scheduler fiber =>
    if w.holder.isSome then none
    else
      let (ret, m) := w.manager.addEvent ctl fd event scheduler fiber
      some (ret, { w with manager := m })
  | .delEvent fd event =>
    if w.holder.isSome then none
    else
      let (ret, m) := w.manager.delEvent ctl fd event
      some (ret, { w with manager := m })
  | .cancelEvent fd event =>
    if w.holder.isSome then none
    else
      let (goesOn, m) := w.manager.triggerIn fd event
      some (goesOn, { w with manager := m, holder := if goesOn then some ⟨fd, some event, []⟩ else none })
  | .cancelAll fd =>
    if w.holder.isSome then none
    else
      let left := [Direction.read, .write].filter (w.manager.events fd).has
      some (true, { w with holder := Holder.release ⟨fd, none, left⟩ })
  | .cancelNext fd d =>
    match w.holder with
    | some ⟨fd', none, d' :: left⟩ =>
      if fd' = fd ∧ d' = d then
        let (goesOn, m) := w.manager.triggerIn fd (.only d)
        let deleting := if goesOn then some (.only d) else none
        some (goesOn, { w with manager := m, holder := Holder.release ⟨fd, deleting, left⟩ })
      else none
    | _ => none
  | .finishCancel =>
    match w.holder with
    | some ⟨fd, some event, left⟩ =>
      let (ret, m) := w.manager.deleteIn ctl fd event
      some (ret, { w with
        manager := if ret then countDown m else m
        holder := Holder.release ⟨fd, none, left⟩ })
    | _ => none
  | .deliver fd d =>
    let (goesOn, m) := w.manager.triggerIn fd (.only d)
    some (goesOn,
      if goesOn then { w with manager := m, delivering := (fd, d) :: w.delivering }
      else { w with manager := countDown m })
  | .finishDelivery fd d =>
    if (fd, d) ∈ w.delivering then
      let (ret, m) := w.manager.deleteIn ctl fd (.only d)
      some (ret, { w with manager := countDown m, delivering := w.delivering.erase (fd, d) })
    else none

/-- A section with what it returned, as a step. -/
def Step (ctl : EpollCtl K) (w : Workers K S F) (event : Section S F × Bool) (w' : Workers K S F) : Prop :=
  w.exec ctl event.1 = some (event.2, w')

end Workers

/-! ## One registration -/

/-- What an event has for a direction: its bit and its context. -/
def IOEvent.slot {S F : Type} (e : IOEvent S F) (d : Direction) : Bool × EventContext S F :=
  (e.events.has d, e.context d)

/-- What the manager has for a direction of an fd. -/
def IOManager.slot {K S F : Type} (m : IOManager K S F) (fd : Fd) (d : Direction) :
    Option (Bool × EventContext S F) :=
  (m.fdEventMap.lookup fd).map (·.slot d)

section Slots

variable {K S F : Type} {ctl : EpollCtl K}

namespace IOEvent

/-- `add_event` writes the contexts of its mask, and their bits when the kernel accepts. -/
theorem addEvent_slot (k : K) (e : IOEvent S F) (event : Events) (scheduler : Option S)
    (fiber : Direction → F) (d : Direction) :
    (e.addEvent ctl k event scheduler fiber).2.1.slot d =
      if event.has d then
        ((e.addEvent ctl k event scheduler fiber).1 || e.events.has d, .set scheduler (fiber d))
      else e.slot d := by
  unfold addEvent
  dsimp only
  generalize ctl k _ = answer
  obtain ⟨ok, k'⟩ := answer
  obtain ⟨i, o⟩ := event
  cases ok <;> cases d <;> cases i <;> cases o <;>
    simp [slot, context, Events.has, Events.union]

/-- `del_event` leaves the directions outside its mask alone. -/
theorem delEvent_slot (k : K) (e : IOEvent S F) {event : Events} {d : Direction}
    (outside : event.has d = false) : (e.delEvent ctl k event).2.1.slot d = e.slot d := by
  unfold delEvent slot context
  split
  · rfl
  · cases d <;> cases event with
    | mk i o => cases i <;> cases o <;> simp_all [Events.has, Events.diff]

/-- Triggering leaves the directions outside its mask alone. -/
theorem cancelTrigger_slot {e e' : IOEvent S F} {event : Events} {handed : List (S × F)} {d : Direction}
    (run : e.cancelTrigger event = some (handed, e')) (outside : event.has d = false) :
    e'.slot d = e.slot d := by
  unfold cancelTrigger at run
  split at run
  · cases run
  · obtain ⟨-, rfl⟩ := Prod.mk.inj (Option.some.inj run)
    cases d with
    | read =>
      have notIn : event.epollin = false := outside
      simp only [slot, context, notIn, Bool.false_eq_true, if_false]
    | write =>
      have notOut : event.epollout = false := outside
      simp only [slot, context, notOut, Bool.false_eq_true, if_false]

end IOEvent

namespace IOManager

theorem slot_insert_self (m : IOManager K S F) (fd : Fd) (e : IOEvent S F) (d : Direction) (c : UInt64)
    (k : K) (handed : List (S × F)) :
    (⟨m.fdEventMap.insert fd e, c, k, handed⟩ : IOManager K S F).slot fd d = some (e.slot d) := by
  rw [slot, AList.lookup_insert]
  rfl

theorem slot_insert_ne (m : IOManager K S F) {fd fd' : Fd} (ne : fd' ≠ fd) (e : IOEvent S F)
    (d : Direction) (c : UInt64) (k : K) (handed : List (S × F)) :
    (⟨m.fdEventMap.insert fd e, c, k, handed⟩ : IOManager K S F).slot fd' d = m.slot fd' d := by
  rw [slot, AList.lookup_insert_ne ne, slot]

/-- The directions a section of `fd'` with mask `event` may change. -/
def Touches (fd' : Fd) (event : Events) (fd : Fd) (d : Direction) : Prop :=
  fd' = fd ∧ event.has d = true

/-- Writing an event that agrees on an untouched direction. -/
theorem slot_insert_of_not_touches {m : IOManager K S F} {fd fd' : Fd} {event : Events} {d : Direction}
    {e e' : IOEvent S F} (entry : m.fdEventMap.lookup fd' = some e)
    (away : ¬ Touches fd' event fd d) (same : event.has d = false → e'.slot d = e.slot d) (c : UInt64)
    (k : K) (handed : List (S × F)) :
    (⟨m.fdEventMap.insert fd' e', c, k, handed⟩ : IOManager K S F).slot fd d = m.slot fd d := by
  by_cases here : fd = fd'
  · subst here
    have outside : event.has d = false := by
      cases h : event.has d with
      | false => rfl
      | true => exact absurd ⟨rfl, h⟩ away
    rw [slot_insert_self, same outside, slot, entry]
    rfl
  · exact slot_insert_ne m here ..

theorem deleteIn_slot {m : IOManager K S F} {fd fd' : Fd} {event : Events} {d : Direction}
    (away : ¬ Touches fd' event fd d) : (m.deleteIn ctl fd' event).2.slot fd d = m.slot fd d := by
  unfold deleteIn
  cases entry : m.fdEventMap.lookup fd' with
  | none => rfl
  | some e => exact slot_insert_of_not_touches entry away (IOEvent.delEvent_slot m.kernel e) ..

theorem triggerIn_slot {m : IOManager K S F} {fd fd' : Fd} {event : Events} {d : Direction}
    (away : ¬ Touches fd' event fd d) : (m.triggerIn fd' event).2.slot fd d = m.slot fd d := by
  unfold triggerIn
  cases entry : m.fdEventMap.lookup fd' with
  | none => rfl
  | some e =>
    dsimp only
    split
    · rfl
    · rename_i run
      exact slot_insert_of_not_touches entry away (IOEvent.cancelTrigger_slot run) ..

theorem delEvent_slot {m : IOManager K S F} {fd fd' : Fd} {event : Events} {d : Direction}
    (away : ¬ Touches fd' event fd d) : (m.delEvent ctl fd' event).2.slot fd d = m.slot fd d := by
  have deleted : (m.deleteIn ctl fd' event).2.slot fd d = m.slot fd d := deleteIn_slot away
  unfold delEvent
  dsimp only
  split <;> exact deleted

/-- `add_event` elsewhere. -/
theorem addEvent_slot_of_not_touches {m : IOManager K S F} {fd fd' : Fd} {event : Events} {d : Direction}
    (scheduler : Option S) (fiber : Direction → F) (old : (m.slot fd d).isSome = true)
    (away : ¬ Touches fd' event fd d) :
    (m.addEvent ctl fd' event scheduler fiber).2.slot fd d = m.slot fd d := by
  have written : (⟨m.fdEventMap.insert fd'
      (((m.fdEventMap.lookup fd').getD (.create fd')).addEvent ctl m.kernel event scheduler fiber).2.1,
      m.pendingEventCount, m.kernel, m.handed⟩ : IOManager K S F).slot fd d = m.slot fd d := by
    cases entry : m.fdEventMap.lookup fd' with
    | some e =>
      refine slot_insert_of_not_touches entry away (fun outside => ?_) ..
      exact (IOEvent.addEvent_slot ..).trans (if_neg (by rw [outside]; exact Bool.false_ne_true))
    | none =>
      have ne : fd ≠ fd' := fun eq => by
        rw [slot, eq, entry] at old
        exact Bool.false_ne_true old
      exact slot_insert_ne m ne ..
  unfold addEvent
  dsimp only
  split <;> exact written

/-- `add_event` on its own direction. -/
theorem addEvent_slot_self {m : IOManager K S F} {fd : Fd} {event : Events} {d : Direction}
    (scheduler : Option S) (fiber : Direction → F) (inside : event.has d = true) :
    (m.addEvent ctl fd event scheduler fiber).2.slot fd d =
      some ((m.addEvent ctl fd event scheduler fiber).1 ||
        ((m.fdEventMap.lookup fd).getD (.create fd)).events.has d, .set scheduler (fiber d)) := by
  have written := slot_insert_self m fd
    (((m.fdEventMap.lookup fd).getD (.create fd)).addEvent ctl m.kernel event scheduler fiber).2.1 d
    m.pendingEventCount m.kernel m.handed
  rw [IOEvent.addEvent_slot, if_pos inside] at written
  unfold addEvent
  dsimp only
  split
  · rename_i accepted
    rw [accepted] at written
    exact written
  · rename_i refused
    rw [Bool.eq_false_iff.mpr refused] at written
    exact written

end IOManager

end Slots

/-! ## Runs -/

namespace Section

variable {S F : Type}

/-- The sections that start a delete, a cancel or a delivery of a direction. -/
def Starts (fd : Fd) (d : Direction) : Section S F → Prop
  | .delEvent fd' event | .cancelEvent fd' event => IOManager.Touches fd' event fd d
  | .cancelNext fd' d' | .deliver fd' d' => IOManager.Touches fd' (.only d') fd d
  | .addEvent .. | .cancelAll .. | .finishCancel | .finishDelivery .. => False

end Section

namespace Workers

variable {K S F : Type}

/-- A registration that meets no delivery of its directions between its two sections, and no other
fiber registered for them. -/
def Undisturbed (w : Workers K S F) : Section S F → Prop
  | .addEvent fd event scheduler fiber => ∀ d, event.has d = true → (fd, d) ∉ w.delivering ∧
      ∀ context, w.manager.slot fd d = some (true, context) → context = .set scheduler (fiber d)
  | _ => True

/-- No registration is lost in the runs whose sections meet `cond`: after an `add_event` that
returned true the bit stays set and the context keeps the fiber until a delete, cancel or delivery of
the direction starts. -/
def NoRegistrationLost (ctl : EpollCtl K) (cond : Workers K S F → Section S F → Prop) : Prop :=
  ∀ (k : K) (before after : List (Section S F × Bool)) (w₀ w₁ w₂ : Workers K S F) (fd : Fd)
    (event : Events) (scheduler : Option S) (fiber : Direction → F) (d : Direction),
    Run (Guarded (Step ctl) fun w e => cond w e.1) (init k) before w₀ →
    Guarded (Step ctl) (fun w e => cond w e.1) w₀ (.addEvent fd event scheduler fiber, true) w₁ →
    Run (Guarded (Step ctl) fun w e => cond w e.1) w₁ after w₂ →
    event.has d = true → (∀ e ∈ after, ¬ e.1.Starts fd d) →
    w₂.manager.slot fd d = some (true, .set scheduler (fiber d))

/-- The registration is in place and nothing is under way that will take it out. -/
structure Registered (w : Workers K S F) (fd : Fd) (d : Direction) (context : EventContext S F) :
    Prop where
  slot : w.manager.slot fd d = some (true, context)
  notDelivering : (fd, d) ∉ w.delivering
  notDeleting : ∀ event left, w.holder = some ⟨fd, some event, left⟩ → event.has d = false

theorem notDeleting_release {fd fd' : Fd} {d : Direction} {deleting : Option Events}
    {left : List Direction} (away : ∀ event, deleting = some event → fd' = fd → event.has d = false) :
    ∀ event left', Holder.release ⟨fd', deleting, left⟩ = some ⟨fd, some event, left'⟩ →
      event.has d = false := by
  intro event left' held
  unfold Holder.release at held
  split at held
  · cases held
  · obtain ⟨rfl, rfl, -⟩ := Holder.mk.inj (Option.some.inj held)
    exact away event rfl rfl

/-- A section that starts nothing on the direction keeps the registration. -/
theorem Registered.step {ctl : EpollCtl K} {w w' : Workers K S F} {fd : Fd} {d : Direction}
    {context : EventContext S F} {e : Section S F × Bool} (r : w.Registered fd d context)
    (step : Step ctl w e w') (undisturbed : w.Undisturbed e.1) (quiet : ¬ e.1.Starts fd d) :
    w'.Registered fd d context := by
  obtain ⟨sec, ret⟩ := e
  unfold Step exec at step
  cases sec with
  | addEvent fd' event scheduler fiber =>
    dsimp only at step
    split at step
    · cases step
    · obtain ⟨-, rfl⟩ := Prod.mk.inj (Option.some.inj step)
      refine ⟨?_, r.notDelivering, r.notDeleting⟩
      by_cases touches : IOManager.Touches fd' event fd d
      · obtain ⟨rfl, inside⟩ := touches
        obtain rfl := (undisturbed d inside).2 context r.slot
        have isSet : ((w.manager.fdEventMap.lookup fd').getD (.create fd')).events.has d = true := by
          have slot := r.slot
          unfold IOManager.slot at slot
          cases entry : w.manager.fdEventMap.lookup fd' with
          | none => rw [entry] at slot; exact nomatch slot
          | some e =>
            rw [entry] at slot
            exact congrArg Prod.fst (Option.some.inj slot)
        refine (IOManager.addEvent_slot_self scheduler fiber inside).trans ?_
        rw [isSet, Bool.or_true]
      · have old : (w.manager.slot fd d).isSome = true := by rw [r.slot]; rfl
        exact (IOManager.addEvent_slot_of_not_touches scheduler fiber old touches).trans r.slot
  | delEvent fd' event =>
    dsimp only at step
    split at step
    · cases step
    · obtain ⟨-, rfl⟩ := Prod.mk.inj (Option.some.inj step)
      exact ⟨(IOManager.delEvent_slot quiet).trans r.slot, r.notDelivering, r.notDeleting⟩
  | cancelEvent fd' event =>
    dsimp only at step
    split at step
    · cases step
    · obtain ⟨-, rfl⟩ := Prod.mk.inj (Option.some.inj step)
      refine ⟨(IOManager.triggerIn_slot quiet).trans r.slot, r.notDelivering, fun event' left held => ?_⟩
      dsimp only at held
      split at held
      · obtain ⟨rfl, same, -⟩ := Holder.mk.inj (Option.some.inj held)
        obtain rfl := Option.some.inj same
        cases outside : event.has d with
        | false => rfl
        | true => exact absurd ⟨rfl, outside⟩ quiet
      · cases held
  | cancelAll fd' =>
    dsimp only at step
    split at step
    · cases step
    · obtain ⟨-, rfl⟩ := Prod.mk.inj (Option.some.inj step)
      exact ⟨r.slot, r.notDelivering, notDeleting_release fun _ none => nomatch none⟩
  | cancelNext fd' d' =>
    dsimp only at step
    split at step
    · split at step
      · obtain ⟨-, rfl⟩ := Prod.mk.inj (Option.some.inj step)
        refine ⟨(IOManager.triggerIn_slot quiet).trans r.slot, r.notDelivering,
          notDeleting_release fun event deleting here => ?_⟩
        split at deleting
        · obtain rfl := Option.some.inj deleting
          cases outside : (Events.only d').has d with
          | false => rfl
          | true => exact absurd ⟨here, outside⟩ quiet
        · cases deleting
      · cases step
    · cases step
  | finishCancel =>
    dsimp only at step
    split at step
    · rename_i fd' event left held
      obtain ⟨-, rfl⟩ := Prod.mk.inj (Option.some.inj step)
      have away : ¬ IOManager.Touches fd' event fd d := fun ⟨here, inside⟩ => by
        rw [r.notDeleting event left (here ▸ held)] at inside
        exact Bool.false_ne_true inside
      have deleted : (w.manager.deleteIn ctl fd' event).2.slot fd d = some (true, context) :=
        (IOManager.deleteIn_slot away).trans r.slot
      refine ⟨?_, r.notDelivering, notDeleting_release fun _ none => nomatch none⟩
      dsimp only
      split <;> exact deleted
    · cases step
  | deliver fd' d' =>
    have triggered : (w.manager.triggerIn fd' (.only d')).2.slot fd d = some (true, context) :=
      (IOManager.triggerIn_slot quiet).trans r.slot
    dsimp only at step
    generalize w.manager.triggerIn fd' (.only d') = answer at step triggered
    obtain ⟨goesOn, m⟩ := answer
    obtain ⟨-, rfl⟩ := Prod.mk.inj (Option.some.inj step)
    cases goesOn with
    | true =>
      refine ⟨triggered, fun mem => ?_, r.notDeleting⟩
      rcases List.mem_cons.mp mem with same | mem
      · obtain ⟨rfl, rfl⟩ := Prod.mk.inj same
        exact quiet ⟨rfl, by cases d <;> rfl⟩
      · exact r.notDelivering mem
    | false => exact ⟨triggered, r.notDelivering, r.notDeleting⟩
  | finishDelivery fd' d' =>
    dsimp only at step
    split at step
    · rename_i delivering
      obtain ⟨-, rfl⟩ := Prod.mk.inj (Option.some.inj step)
      have away : ¬ IOManager.Touches fd' (.only d') fd d := fun ⟨here, inside⟩ => by
        have same : d' = d := by
          revert inside
          cases d <;> cases d' <;> decide
        exact r.notDelivering (here ▸ same ▸ delivering)
      exact ⟨(IOManager.deleteIn_slot away).trans r.slot,
        fun mem => r.notDelivering (List.mem_of_mem_erase mem), r.notDeleting⟩
    · cases step

/-- An undisturbed `add_event` that returned true leaves its registration in place. -/
theorem registered_addEvent {ctl : EpollCtl K} {w w' : Workers K S F} {fd : Fd} {event : Events}
    {scheduler : Option S} {fiber : Direction → F} {d : Direction}
    (step : Step ctl w (.addEvent fd event scheduler fiber, true) w')
    (undisturbed : w.Undisturbed (.addEvent fd event scheduler fiber)) (inside : event.has d = true) :
    w'.Registered fd d (.set scheduler (fiber d)) := by
  unfold Step exec at step
  dsimp only at step
  split at step
  · cases step
  · rename_i free
    obtain ⟨returned, rfl⟩ := Prod.mk.inj (Option.some.inj step)
    refine ⟨?_, (undisturbed d inside).1, fun event' left held => ?_⟩
    · refine (IOManager.addEvent_slot_self scheduler fiber inside).trans ?_
      rw [returned, Bool.true_or]
    · exact absurd (by rw [held]; rfl) free

/-- In every run whose registrations are undisturbed none is lost. -/
theorem noRegistrationLost_undisturbed (ctl : EpollCtl K) :
    NoRegistrationLost ctl (Undisturbed : Workers K S F → Section S F → Prop) := by
  intro k before after w₀ w₁ w₂ fd event scheduler fiber d _ add rest inside quiet
  have start := registered_addEvent add.1 add.2 inside
  exact (rest.invariant_of_labels (I := fun w => Registered w fd d (.set scheduler (fiber d)))
    (fun _ _ _ r step notStart => r.step step.1 step.2 notStart) start quiet).slot

/-- A delivery of input wakes fiber 0, and fiber 1 registers for output while it is under way. -/
theorem noRegistrationLost_undisturbed_output :
    ∃ w : Workers Unit Unit Nat, w.manager.slot 5 .write = some (true, ⟨some (), some 1⟩) ∧
      w.manager.slot 5 .read = some (false, ⟨none, none⟩) ∧ w.delivering = [] := by
  have firstClear : ∀ d, (Events.only .read).has d = true → ((5 : Fd), d) ∉ ([] : List (Fd × Direction)) ∧
      ∀ context, (none : Option (Bool × EventContext Unit Nat)) = some (true, context) →
        context = .set (some ()) 0 :=
    fun d _ => ⟨List.not_mem_nil, fun _ empty => nomatch empty⟩
  refine ⟨_, noRegistrationLost_undisturbed (fun k _ => (true, k)) ()
    [(.addEvent 5 (.only .read) (some ()) fun _ => 0, true), (.deliver 5 .read, true)]
    [(.finishDelivery 5 .read, true)] _ _ _ 5 (.only .write) (some ()) (fun _ => 1) .write
    (.cons ⟨rfl, firstClear⟩ (.single ⟨rfl, trivial⟩)) ⟨rfl, fun d inside => ?_⟩
    (.single ⟨rfl, trivial⟩) rfl (by simp [Section.Starts]), rfl, rfl⟩
  cases d with
  | read => cases inside
  | write => exact ⟨by decide, fun _ notSet => nomatch notSet⟩

/-- Fiber 0 waits for input; the delivery has woken it but not yet deleted the event when it registers
again; the second section takes the new registration out. -/
theorem not_noRegistrationLost :
    ¬ NoRegistrationLost (fun k _ => (true, k)) fun (_ : Workers Unit Unit Nat) _ => True := by
  intro all
  have lost := all () [(.addEvent 5 (.only .read) (some ()) fun _ => 0, true), (.deliver 5 .read, true)]
    [(.finishDelivery 5 .read, true)] _ _ _ 5 (.only .read) (some ()) (fun _ => 0) .read
    (.cons ⟨rfl, trivial⟩ (.single ⟨rfl, trivial⟩)) ⟨rfl, trivial⟩ (.single ⟨rfl, trivial⟩) rfl
    (by simp [Section.Starts])
  exact absurd lost (by decide)

end Workers

end Sylar
