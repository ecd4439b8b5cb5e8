import Sylar.IOManager.Agree

/-!
# Refused registrations

What `add_event` and `del_event` leave behind when `epoll_ctl` fails. Both change `events_` and the
contexts before the call. On failure `add_event` puts `events_` back and keeps the new contexts;
`del_event` puts nothing back. So a refused call is without effect exactly when there was nothing to
lose: it is an `add_event` of the fiber and scheduler that each direction of its mask already holds
(`failsClean_iff`).

The kernel's masks are read off its state by a function `mask`; all that is asked of the kernel is that
a call it refuses leaves them as they were.
-/

namespace Sylar

namespace IOManager

/-- A call of `add_event` (either overload) or of `del_event`. -/
inductive EventOp (S F : Type) where
  | add (fd : Fd) (event : Events) (scheduler : Option S) (fiber : Direction → F)
  | del (fd : Fd) (event : Events)

namespace EventOp

variable {K S F : Type}

/-- What the call returns, and the manager after it. -/
def run (ctl : EpollCtl K) (m : IOManager K S F) : EventOp S F → Bool × IOManager K S F
  | add fd event scheduler fiber => m.addEvent ctl fd event scheduler fiber
  | del fd event => m.delEvent ctl fd event

/-- The `epoll_ctl` call it makes, if it makes one. -/
def request (m : IOManager K S F) : EventOp S F → Option EpollCall
  | add fd event _ _ =>
    let e := m.entry fd
    some ⟨if e.events = .none then .add else .mod, e.fd, e.events.union event⟩
  | del fd event =>
    let e := m.entry fd
    let events := e.events.diff event
    if e.events.inter event = .none then none
    else some ⟨if events = .none then .del else .mod, e.fd, events⟩

/-- `epoll_ctl` is called and fails. -/
def Refused (ctl : EpollCtl K) (m : IOManager K S F) (op : EventOp S F) : Prop :=
  ∃ call, op.request m = some call ∧ (ctl m.kernel call).1 = false

/-- A call that fails in `epoll_ctl` and returns `false` leaves every event with its directions and
contexts, the kernel's masks and the count as they were. -/
def FailsClean {M : Type} (ctl : EpollCtl K) (mask : K → M) (m : IOManager K S F) (op : EventOp S F) : Prop :=
  op.Refused ctl m → (op.run ctl m).1 = false →
    (∀ fd, (op.run ctl m).2.entry fd = m.entry fd) ∧
      mask (op.run ctl m).2.kernel = mask m.kernel ∧
      (op.run ctl m).2.pendingEventCount = m.pendingEventCount

/-- The call is an `add_event`, and each direction of its mask waits already with the scheduler and the
fiber it is given. -/
def Harmless (m : IOManager K S F) : EventOp S F → Prop
  | add fd event scheduler fiber =>
    ∀ d, event.has d = true → m.context fd d = .set scheduler (fiber d)
  | del _ _ => False

/-- The event of the call's fd after `epoll_ctl` refused it. -/
def leftover (m : IOManager K S F) : EventOp S F → IOEvent S F
  | add fd event scheduler fiber =>
    { m.entry fd with
      read := if event.epollin then .set scheduler (fiber .read) else (m.entry fd).read
      write := if event.epollout then .set scheduler (fiber .write) else (m.entry fd).write }
  | del fd event =>
    { m.entry fd with
      events := (m.entry fd).events.diff event
      read := if event.epollin then .reset else (m.entry fd).read
      write := if event.epollout then .reset else (m.entry fd).write }

/-- The fd the call is about. -/
def target : EventOp S F → Fd
  | add fd _ _ _ => fd
  | del fd _ => fd

variable {M : Type} {ctl : EpollCtl K} {mask : K → M} {m : IOManager K S F}

/-- The outcome of a call that `epoll_ctl` refuses: `false`, an event that is not put back, and no
change of the count. -/
theorem run_of_refused {op : EventOp S F} {call : EpollCall} (asked : op.request m = some call)
    (no : (ctl m.kernel call).1 = false) :
    op.run ctl m = (false, { m with
      fdEventMap := m.fdEventMap.insert op.target (op.leftover m)
      kernel := (ctl m.kernel call).2 }) := by
  cases op with
  | add fd event scheduler fiber =>
    obtain rfl := Option.some.inj asked
    have refused : (m.entry fd).addEvent ctl m.kernel event scheduler fiber =
        (false, (add fd event scheduler fiber).leftover m, (ctl m.kernel _).2) :=
      if_neg (by rw [no]; decide)
    unfold run IOManager.addEvent
    dsimp only
    rw [show IOEvent.addEvent _ _ ((m.fdEventMap.lookup fd).getD (.create fd)) .. = _ from refused]
    rfl
  | del fd event =>
    by_cases none : (m.entry fd).events.inter event = .none
    · exact absurd ((if_pos none).symm.trans asked) (Option.some_ne_none call).symm
    · obtain rfl := Option.some.inj ((if_neg none).symm.trans asked)
      -- An fd that has an event asks for its removal: the one `add_event` would make has no direction.
      have found : m.fdEventMap.lookup fd = some (m.entry fd) := by
        unfold IOManager.entry at none ⊢
        cases found : m.fdEventMap.lookup fd with
        | none =>
          rw [found] at none
          exact absurd rfl none
        | some e => rfl
      have refused : (m.entry fd).delEvent ctl m.kernel event =
          (false, (del fd event).leftover m, (ctl m.kernel _).2) :=
        (if_neg none).trans (Prod.ext no rfl)
      change m.delEvent ctl fd event = _
      unfold IOManager.delEvent IOManager.deleteIn
      rw [found]
      dsimp only
      rw [refused]
      rfl

/-- What a refused call leaves is what was there exactly for a harmless one. -/
theorem leftover_eq_iff {op : EventOp S F} (asked : (op.request m).isSome = true) :
    op.leftover m = m.entry op.target ↔ op.Harmless m := by
  cases op with
  | add fd event scheduler fiber =>
    constructor
    · intro same d inside
      have here := congrArg (fun e => IOEvent.context e d) same
      cases d with
      | read => exact here.symm.trans (if_pos inside)
      | write => exact here.symm.trans (if_pos inside)
    · intro harmless
      have read : (if event.epollin then .set scheduler (fiber .read) else (m.entry fd).read) =
          (m.entry fd).read := by
        split
        · exact (harmless .read ‹_›).symm
        · rfl
      have write : (if event.epollout then .set scheduler (fiber .write) else (m.entry fd).write) =
          (m.entry fd).write := by
        split
        · exact (harmless .write ‹_›).symm
        · rfl
      rw [leftover, read, write]
      rfl
  | del fd event =>
    refine iff_of_false (fun same => ?_) id
    have events : (m.entry fd).events.diff event = (m.entry fd).events := congrArg IOEvent.events same
    have none : (m.entry fd).events.inter event = .none := by
      rw [← events]
      simp [Events.inter, Events.diff, Events.none, Bool.and_assoc]
    rw [show (del fd event).request m = Option.none from if_pos none] at asked
    exact Bool.false_ne_true asked

/-- For every state of the manager, every call and every kernel that keeps its masks when it refuses:
the call fails cleanly if and only if `epoll_ctl` does not fail in it or there was nothing to lose. -/
theorem failsClean_iff (inert : ∀ k call, (ctl k call).1 = false → mask (ctl k call).2 = mask k)
    (op : EventOp S F) : op.FailsClean ctl mask m ↔ (op.Refused ctl m → op.Harmless m) := by
  constructor
  · rintro clean ⟨call, asked, no⟩
    have run := run_of_refused asked no
    obtain ⟨entries, -⟩ := clean ⟨call, asked, no⟩ (by rw [run])
    have same := entries op.target
    rw [run, entry_insert_self] at same
    exact (leftover_eq_iff (by rw [asked]; rfl)).mp same
  · rintro harmless ⟨call, asked, no⟩ -
    have run := run_of_refused asked no
    have same := (leftover_eq_iff (by rw [asked]; rfl)).mpr (harmless ⟨call, asked, no⟩)
    rw [run]
    refine ⟨fun fd => ?_, inert _ _ no, rfl⟩
    by_cases here : fd = op.target
    · rw [here, entry_insert_self, same]
    · exact entry_insert_ne m here ..

end EventOp

end IOManager

/-- An epoll set keeps its masks when it refuses. -/
theorem EpollSet.interest_of_refused (k : EpollSet) (call : EpollCall) (no : (ctl k call).1 = false) :
    (ctl k call).2.interest = k.interest := by
  unfold ctl at no ⊢
  split at no
  · exact absurd no.symm Bool.false_ne_true
  · exact absurd no.symm Bool.false_ne_true
  · exact absurd no.symm Bool.false_ne_true
  · rfl

namespace IOManager.EventOp

/-- A manager with fiber 1 waiting to read on fd 5, after the fd was closed behind its back: the kernel
has dropped it from its set. -/
def closed : IOManager EpollSet Unit Nat :=
  { ((init .empty).addEvent EpollSet.ctl 5 (.only .read) (some ()) fun _ => 1).2 with kernel := .empty }

/-- The same fiber registers again and is refused: nothing changes. -/
theorem failsClean_iff_closed :
    (add 5 (.only .read) (some ()) fun _ => 1).Refused EpollSet.ctl closed ∧
      (add 5 (.only .read) (some ()) fun _ => 1).FailsClean EpollSet.ctl EpollSet.interest closed := by
  refine ⟨⟨_, rfl, rfl⟩, (failsClean_iff EpollSet.interest_of_refused _).mpr fun _ d inside => ?_⟩
  cases d with
  | read => rfl
  | write => exact absurd inside (by decide)

/-- Fiber 2 registers for both directions and is refused; fiber 1 is lost. Fiber 1 deregisters and is
refused; its registration is gone. -/
theorem not_failsClean_closed :
    ¬ (add 5 ⟨true, true⟩ (some ()) fun _ => 2).FailsClean EpollSet.ctl EpollSet.interest closed ∧
      ¬ (del 5 (.only .read)).FailsClean EpollSet.ctl EpollSet.interest closed := by
  constructor
  · intro clean
    have same := (clean ⟨_, rfl, rfl⟩ rfl).1 5
    exact absurd (congrArg IOEvent.read same) (by decide)
  · intro clean
    have same := (clean ⟨_, rfl, rfl⟩ rfl).1 5
    exact absurd (congrArg IOEvent.events same) (by decide)

end IOManager.EventOp

end Sylar
