import Sylar.IOManager.Basic

/-!
# The kernel's view of a registration

`add_event` and `del_event` choose between `EPOLL_CTL_ADD`, `EPOLL_CTL_MOD` and `EPOLL_CTL_DEL` by
looking at `events_` before or after they change it. The kernel here is an epoll set: it accepts an
addition of an fd that is not in it, and a modification or a removal of one that is. Against it the
choice is always right. After every sequence of calls no call has been refused, the set holds an fd
exactly when `events_` is not empty, with the mask `EPOLLET | events_`, and a direction's context holds
a fiber exactly when its bit is set (`agrees_of_run`).
-/

namespace Sylar

open Lib

/-! ## Masks -/

namespace Events

/-- The bits of `EPOLLIN` and `EPOLLOUT`. -/
def bits (e : Events) : BitVec 32 :=
  (if e.epollin then 0x001#32 else 0#32) ||| (if e.epollout then 0x004#32 else 0#32)

/-- The mask given to `epoll_ctl`, `EPOLLET | events_`. -/
def mask (e : Events) : BitVec 32 :=
  (1#32 <<< 31) ||| e.bits

/-- What the kernel should hold for an fd registered for these directions. -/
def interest (e : Events) : Option (BitVec 32) :=
  if e = .none then Option.none else some e.mask

theorem interest_none : Events.none.interest = Option.none :=
  rfl

theorem interest_some {e : Events} (some : e ≠ .none) : e.interest = Option.some e.mask :=
  if_neg some

theorem union_ne_none {a b : Events} (some : b ≠ .none) : a.union b ≠ .none := by
  obtain ⟨i, o⟩ := a
  obtain ⟨i', o'⟩ := b
  revert some
  cases i <;> cases o <;> cases i' <;> cases o' <;> decide

theorem ne_none_of_inter {a b : Events} (meets : a.inter b ≠ .none) : a ≠ .none := by
  intro none
  rw [none] at meets
  exact meets rfl

theorem has_diff (a b : Events) (d : Direction) : (a.diff b).has d = (a.has d && !b.has d) := by
  cases d <;> rfl

end Events

/-! ## The kernel -/

/-- An epoll set: the mask of each fd in it, and how many calls it has refused because the fd was in
it already or was not in it. -/
structure EpollSet where
  interest : Fd → Option (BitVec 32)
  refused : Nat

namespace EpollSet

def empty : EpollSet := ⟨fun _ => none, 0⟩

/-- `epoll_ctl`. -/
def ctl : EpollCtl EpollSet := fun k c =>
  match c.op, k.interest c.fd with
  | .add, none => (true, { k with interest := Function.update k.interest c.fd (some c.events.mask) })
  | .mod, some _ => (true, { k with interest := Function.update k.interest c.fd (some c.events.mask) })
  | .del, some _ => (true, { k with interest := Function.update k.interest c.fd none })
  | _, _ => (false, { k with refused := k.refused + 1 })

/-- One fd has been given a new interest and nothing was refused. -/
structure Written (k : EpollSet) (fd : Fd) (interest : Option (BitVec 32)) (k' : EpollSet) : Prop where
  here : k'.interest fd = interest
  others : ∀ fd', fd' ≠ fd → k'.interest fd' = k.interest fd'
  refused : k'.refused = k.refused

theorem written_update (k : EpollSet) (fd : Fd) (interest : Option (BitVec 32)) :
    k.Written fd interest { k with interest := Function.update k.interest fd interest } where
  here := Function.update_self ..
  others _ ne := Function.update_of_ne ne ..
  refused := rfl

theorem written_self {k : EpollSet} {fd : Fd} {interest : Option (BitVec 32)}
    (here : k.interest fd = interest) : k.Written fd interest k :=
  ⟨here, fun _ _ => rfl, rfl⟩

/-- The operation chosen by `events_` before an addition is accepted. -/
theorem ctl_add {k : EpollSet} {fd : Fd} {old new : Events} (here : k.interest fd = old.interest)
    (some : new ≠ .none) :
    (ctl k ⟨if old = .none then .add else .mod, fd, new⟩).1 = true ∧
      k.Written fd new.interest (ctl k ⟨if old = .none then .add else .mod, fd, new⟩).2 := by
  rw [Events.interest_some some]
  by_cases none : old = .none
  · rw [none, Events.interest_none] at here
    simp only [ctl, if_pos none, here]
    exact ⟨trivial, written_update ..⟩
  · rw [Events.interest_some none] at here
    simp only [ctl, if_neg none, here]
    exact ⟨trivial, written_update ..⟩

/-- The operation chosen by `events_` after a removal is accepted. -/
theorem ctl_del {k : EpollSet} {fd : Fd} {old : Events} (here : k.interest fd = old.interest)
    (some : old ≠ .none) (new : Events) :
    (ctl k ⟨if new = .none then .del else .mod, fd, new⟩).1 = true ∧
      k.Written fd new.interest (ctl k ⟨if new = .none then .del else .mod, fd, new⟩).2 := by
  rw [Events.interest_some some] at here
  by_cases none : new = .none
  · rw [none, Events.interest_none]
    simp only [ctl, if_true, here]
    exact ⟨trivial, written_update ..⟩
  · rw [Events.interest_some none]
    simp only [ctl, if_neg none, here]
    exact ⟨trivial, written_update ..⟩

end EpollSet

/-! ## One event -/

namespace EventContext

variable {S F : Type}

theorem isSome_set_if (b : Bool) (scheduler : Option S) (fiber : F) (c : EventContext S F) :
    (if b then EventContext.set scheduler fiber else c).fiber.isSome = (c.fiber.isSome || b) := by
  cases b with
  | false => simp
  | true => simp [EventContext.set]

theorem isSome_reset_if (b : Bool) (c : EventContext S F) :
    (if b then EventContext.reset else c).fiber.isSome = (c.fiber.isSome && !b) := by
  cases b with
  | false => simp
  | true => simp [EventContext.reset]

end EventContext

namespace IOEvent

variable {S F : Type}

/-- The event of an fd agrees with the kernel, and outside the mask `emptied` a context holds a fiber
exactly when its bit is set. -/
structure AgreesBut (emptied : Events) (k : EpollSet) (fd : Fd) (e : IOEvent S F) : Prop where
  number : e.fd = fd
  interest : k.interest fd = e.events.interest
  fibers : ∀ d, emptied.has d = false → (e.context d).fiber.isSome = e.events.has d

/-- The event of an fd and the kernel agree. -/
def Agrees (k : EpollSet) (fd : Fd) (e : IOEvent S F) : Prop :=
  AgreesBut .none k fd e

variable {k : EpollSet} {fd : Fd} {e : IOEvent S F} {event : Events}

theorem create_agrees (here : k.interest fd = none) : (create fd : IOEvent S F).Agrees k fd :=
  ⟨rfl, here, fun d _ => by cases d <;> rfl⟩

/-- Registering a mask with at least one direction. -/
theorem addEvent_agrees (h : e.Agrees k fd) (some : event ≠ .none) (scheduler : Option S)
    (fiber : Direction → F) :
    ∃ e' k', e.addEvent EpollSet.ctl k event scheduler fiber = (true, e', k') ∧ e'.Agrees k' fd ∧
      k.Written fd e'.events.interest k' := by
  obtain ⟨rfl, interest, fibers⟩ := h
  obtain ⟨accepted, written⟩ := EpollSet.ctl_add interest (Events.union_ne_none (a := e.events) some)
  unfold addEvent
  dsimp only
  rw [if_pos accepted]
  refine ⟨_, _, rfl, ⟨rfl, written.here, fun d _ => ?_⟩, written⟩
  have old := fibers d (by cases d <;> rfl)
  cases d with
  | read => exact (EventContext.isSome_set_if ..).trans (congrArg (· || _) old)
  | write => exact (EventContext.isSome_set_if ..).trans (congrArg (· || _) old)

/-- Removing a mask. Its contexts may have been emptied before. -/
theorem delEvent_agrees (h : e.AgreesBut event k fd) (meets : e.events.inter event ≠ .none) :
    ∃ e' k', e.delEvent EpollSet.ctl k event = (true, e', k') ∧ e'.Agrees k' fd ∧
      k.Written fd e'.events.interest k' := by
  obtain ⟨rfl, interest, fibers⟩ := h
  obtain ⟨accepted, written⟩ :=
    EpollSet.ctl_del interest (Events.ne_none_of_inter meets) (e.events.diff event)
  unfold delEvent
  rw [if_neg meets]
  refine ⟨_, _, Prod.ext accepted rfl, ⟨rfl, written.here, fun d _ => ?_⟩, written⟩
  have new : ((if event.has d then EventContext.reset else e.context d).fiber.isSome) =
      (e.events.diff event).has d := by
    rw [EventContext.isSome_reset_if, Events.has_diff]
    cases inside : event.has d with
    | false => rw [fibers d inside]
    | true => rw [Bool.not_true, Bool.and_false, Bool.and_false]
  cases d with
  | read => exact new
  | write => exact new

/-- Triggering a mask leaves the registrations and the other contexts alone. -/
theorem cancelTrigger_agrees (h : e.Agrees k fd) (meets : e.events.inter event ≠ .none) :
    ∃ handed e', e.cancelTrigger event = some (handed, e') ∧ e'.AgreesBut event k fd ∧
      e'.events = e.events := by
  obtain ⟨rfl, interest, fibers⟩ := h
  unfold cancelTrigger
  rw [if_neg meets]
  refine ⟨_, _, rfl, ⟨rfl, interest, fun d outside => ?_⟩, rfl⟩
  have old := fibers d (by cases d <;> rfl)
  cases d with
  | read =>
    have out : event.epollin = false := outside
    simpa [context, out] using old
  | write =>
    have out : event.epollout = false := outside
    simpa [context, out] using old

end IOEvent

/-! ## The manager -/

namespace IOManager

variable {S F : Type}

/-- The user's and the kernel's side agree on every fd, and the kernel has refused no call. -/
structure Agrees (m : IOManager EpollSet S F) : Prop where
  refused : m.kernel.refused = 0
  entries : ∀ fd, (m.entry fd).Agrees m.kernel fd

theorem agrees_init : (init EpollSet.empty : IOManager EpollSet S F).Agrees :=
  ⟨rfl, fun _ => IOEvent.create_agrees rfl⟩

variable {m : IOManager EpollSet S F}

/-- Writing the event of one fd together with what the kernel holds for it. -/
theorem Agrees.insert (h : m.Agrees) {fd : Fd} {e : IOEvent S F} {k : EpollSet} (agrees : e.Agrees k fd)
    (written : m.kernel.Written fd e.events.interest k) (c : UInt64) (handed : List (S × F)) :
    (⟨m.fdEventMap.insert fd e, c, k, handed⟩ : IOManager EpollSet S F).Agrees := by
  refine ⟨written.refused.trans h.refused, fun fd' => ?_⟩
  by_cases same : fd' = fd
  · rw [same, entry_insert_self]
    exact agrees
  · rw [entry_insert_ne m same]
    obtain ⟨number, interest, fibers⟩ := h.entries fd'
    exact ⟨number, (written.others fd' same).trans interest, fibers⟩

theorem Agrees.addEvent (h : m.Agrees) (fd : Fd) {event : Events} (some : event ≠ .none)
    (scheduler : Option S) (fiber : Direction → F) :
    (m.addEvent EpollSet.ctl fd event scheduler fiber).2.Agrees := by
  obtain ⟨e', k', eq, agrees, written⟩ := IOEvent.addEvent_agrees (h.entries fd) some scheduler fiber
  have run : m.addEvent EpollSet.ctl fd event scheduler fiber =
      (true, ⟨m.fdEventMap.insert fd e', m.pendingEventCount + 1, k', m.handed⟩) := by
    unfold IOManager.addEvent
    dsimp only
    rw [show IOEvent.addEvent _ _ ((m.fdEventMap.lookup fd).getD (.create fd)) .. = _ from eq]
    rfl
  rw [run]
  exact h.insert agrees written _ _

theorem Agrees.entry_of_lookup (h : m.Agrees) {fd : Fd} {e : IOEvent S F}
    (found : m.fdEventMap.lookup fd = some e) : e.Agrees m.kernel fd := by
  have here : m.entry fd = e := by rw [entry, found]; rfl
  exact here ▸ h.entries fd

/-- `IOEvent::del_event` after whatever its mask's contexts have lost. -/
theorem Agrees.deleteIn (h : m.Agrees) (fd : Fd) (event : Events) :
    (m.deleteIn EpollSet.ctl fd event).2.Agrees := by
  unfold IOManager.deleteIn
  cases found : m.fdEventMap.lookup fd with
  | none => exact h
  | some e =>
    have agrees := h.entry_of_lookup found
    by_cases none : e.events.inter event = .none
    · have same : e.delEvent EpollSet.ctl m.kernel event = (false, e, m.kernel) := if_pos none
      dsimp only
      rw [same]
      exact h.insert agrees (EpollSet.written_self agrees.interest) _ _
    · obtain ⟨e', k', eq, agrees', written⟩ :=
        IOEvent.delEvent_agrees ⟨agrees.number, agrees.interest, fun d _ => agrees.fibers d (by cases d <;> rfl)⟩
          none
      dsimp only
      rw [eq]
      exact h.insert agrees' written _ _

theorem Agrees.cancelIn (h : m.Agrees) (fd : Fd) (event : Events) :
    (m.cancelIn EpollSet.ctl fd event).2.Agrees := by
  unfold IOManager.cancelIn triggerIn
  cases found : m.fdEventMap.lookup fd with
  | none => exact h
  | some e =>
    have agrees := h.entry_of_lookup found
    by_cases none : e.events.inter event = .none
    · have same : e.cancelTrigger event = Option.none := if_pos none
      dsimp only
      rw [same]
      exact h
    · obtain ⟨handed, e', triggered, emptied, events⟩ := IOEvent.cancelTrigger_agrees agrees none
      obtain ⟨e'', k', deleted, agrees', written⟩ := IOEvent.delEvent_agrees emptied (events ▸ none)
      dsimp only
      rw [triggered]
      dsimp only
      rw [if_pos rfl, IOManager.deleteIn, AList.lookup_insert]
      dsimp only
      rw [deleted]
      dsimp only
      rw [AList.insert_insert]
      exact h.insert agrees' written _ _

/-- The count is no part of the agreement. -/
theorem Agrees.counted (h : m.Agrees) (c : UInt64) : Agrees { m with pendingEventCount := c } :=
  ⟨h.refused, h.entries⟩

theorem Agrees.cancelEvent (h : m.Agrees) (fd : Fd) (event : Events) :
    (m.cancelEvent EpollSet.ctl fd event).2.Agrees := by
  unfold IOManager.cancelEvent
  dsimp only
  split
  · exact (h.cancelIn fd event).counted _
  · exact h.cancelIn fd event

theorem Agrees.delEvent (h : m.Agrees) (fd : Fd) (event : Events) :
    (m.delEvent EpollSet.ctl fd event).2.Agrees := by
  unfold IOManager.delEvent
  dsimp only
  split
  · exact (h.deleteIn fd event).counted _
  · exact h.deleteIn fd event

theorem Agrees.cancelSet (h : m.Agrees) (fd : Fd) (isSet : Bool) (d : Direction) :
    (m.cancelSet EpollSet.ctl fd isSet d).2.Agrees := by
  unfold IOManager.cancelSet
  split
  · exact h.cancelEvent fd (.only d)
  · exact h

theorem Agrees.deliver (h : m.Agrees) (fd : Fd) (ready : Bool) (d : Direction) :
    (m.deliver EpollSet.ctl fd ready d).Agrees := by
  unfold IOManager.deliver
  split
  · exact (h.cancelIn fd (.only d)).counted _
  · exact h

theorem Agrees.processEvents (reports : List (Fd × Revents)) : ∀ {m : IOManager EpollSet S F}, m.Agrees →
    (m.processEvents EpollSet.ctl reports).Agrees := by
  induction reports with
  | nil => exact id
  | cons report reports ih =>
    intro m h
    exact ih ((h.deliver report.1 report.2.delivered.epollin .read).deliver report.1
      report.2.delivered.epollout .write)

/-! ## Runs -/

/-- A call on a manager over an epoll set; `add_event` is given at least one direction. -/
def AgreeStep : IOManager EpollSet S F → Call S F → IOManager EpollSet S F → Prop :=
  Guarded (fun m c m' => m.call EpollSet.ctl c = m') fun _ c =>
    match c with
    | .addEvent _ event _ _ => event ≠ .none
    | _ => True

theorem agrees_step {m' : IOManager EpollSet S F} {c : Call S F} (h : m.Agrees) (step : AgreeStep m c m') :
    m'.Agrees := by
  obtain ⟨rfl, some⟩ := step
  cases c with
  | addEvent fd event scheduler fiber => exact h.addEvent fd some scheduler fiber
  | delEvent fd event => exact h.delEvent fd event
  | cancelEvent fd event => exact h.cancelEvent fd event
  | cancelAll fd =>
    exact (h.cancelSet fd (m.events fd).epollin .read).cancelSet fd (m.events fd).epollout .write
  | idle reports => exact h.processEvents reports

/-- After every sequence of calls and deliveries, for every fd: no `epoll_ctl` call has been refused,
the kernel holds the fd exactly when `events_` is not empty, with the mask `EPOLLET | events_`, and the
context of a direction holds a fiber exactly when its bit is set. -/
theorem agrees_of_run {calls : List (Call S F)} (run : Run AgreeStep (init EpollSet.empty) calls m) (fd : Fd) :
    m.kernel.refused = 0 ∧
      (m.events fd ≠ .none → m.kernel.interest fd = some (m.events fd).mask) ∧
      (m.events fd = .none → m.kernel.interest fd = none) ∧
      ∀ d, (m.context fd d).fiber.isSome = true ↔ (m.events fd).has d = true := by
  have h : m.Agrees := run.invariant (I := Agrees) (fun _ _ _ h step => agrees_step h step) agrees_init
  have entry := h.entries fd
  rw [events_eq_entry]
  refine ⟨h.refused, fun some => ?_, fun none => ?_, fun d => ?_⟩
  · rw [entry.interest, Events.interest_some some]
  · rw [entry.interest, none, Events.interest_none]
  · rw [context, entry.fibers d (by cases d <;> rfl)]

/-- Both directions registered, one taken out, the other delivered by a hang-up: the fd is out of the
kernel's set. -/
theorem agrees_of_run_hangup : ∃ m : IOManager EpollSet Unit Unit,
    Run AgreeStep (init EpollSet.empty) [.addEvent 5 ⟨true, true⟩ (some ()) fun _ => (),
      .delEvent 5 (.only .write), .idle [(5, ⟨false, false, false, true⟩)]] m ∧
    m.kernel.interest 5 = none := by
  have run : Run AgreeStep (init EpollSet.empty : IOManager EpollSet Unit Unit)
      [.addEvent 5 ⟨true, true⟩ (some ()) fun _ => (), .delEvent 5 (.only .write),
        .idle [(5, ⟨false, false, false, true⟩)]] _ :=
    .cons ⟨rfl, by decide⟩ (.cons ⟨rfl, trivial⟩ (.single ⟨rfl, trivial⟩))
  exact ⟨_, run, (agrees_of_run run 5).2.2.1 (by decide)⟩

end IOManager

end Sylar
