import Sylar.Lib.Run

/-!
# Event registrations

The model of the event half of `iomanager.h` and `iomanager.cpp`. An `IOEvent` keeps the directions
an fd is registered for and, for each, the scheduler and the fiber to hand over when it is ready.
The kernel's side of `epoll_ctl` is a parameter: a state and a function that accepts or refuses a
call. `add_fiber` calls made by `trigger` are appended to a log in the order they are made.

Each function of `IOEvent` is one critical section of its `mutex_`, except `cancel_event`, which is
two: it triggers under the lock, releases it, and calls `del_event`. `cancelTrigger` is the first.
-/

namespace Sylar

/-- A file descriptor, a C `int`. -/
abbrev Fd := BitVec 32

inductive Direction where
  | read
  | write
  deriving DecidableEq, Repr

/-- The subsets of `EPOLLIN` and `EPOLLOUT`. -/
structure Events where
  epollin : Bool
  epollout : Bool
  deriving DecidableEq, Repr

namespace Events

def none : Events := ⟨false, false⟩

def has (e : Events) : Direction → Bool
  | .read => e.epollin
  | .write => e.epollout

/-- One direction. -/
def only : Direction → Events
  | .read => ⟨true, false⟩
  | .write => ⟨false, true⟩

/-- `a | b`. -/
def union (a b : Events) : Events := ⟨a.epollin || b.epollin, a.epollout || b.epollout⟩

/-- `a & b`. -/
def inter (a b : Events) : Events := ⟨a.epollin && b.epollin, a.epollout && b.epollout⟩

/-- `a & ~b`. -/
def diff (a b : Events) : Events := ⟨a.epollin && !b.epollin, a.epollout && !b.epollout⟩

/-- How many directions are set. -/
def count (e : Events) : Nat := e.epollin.toNat + e.epollout.toNat

end Events

/-- What the kernel reports for an fd. -/
structure Revents where
  epollin : Bool
  epollout : Bool
  epollerr : Bool
  epollhup : Bool
  deriving DecidableEq, Repr

/-- The directions `idle` delivers: an error or a hang-up counts as both. -/
def Revents.delivered (r : Revents) : Events :=
  if r.epollerr || r.epollhup then ⟨true, true⟩ else ⟨r.epollin, r.epollout⟩

/-- The operation of an `epoll_ctl` call. -/
inductive EpollOp where
  | add
  | mod
  | del
  deriving DecidableEq, Repr

/-- An `epoll_ctl` call; the mask always carries `EPOLLET` besides the directions. -/
structure EpollCall where
  op : EpollOp
  fd : Fd
  events : Events
  deriving DecidableEq, Repr

/-- The kernel: whether it accepts a call (`rt == 0`), and its state after it. -/
abbrev EpollCtl (K : Type) := K → EpollCall → Bool × K

/-- Whom to wake when a direction is ready. -/
structure EventContext (S F : Type) where
  scheduler : Option S
  fiber : Option F
  deriving DecidableEq, Repr

namespace EventContext

variable {S F : Type}

def reset : EventContext S F := ⟨none, none⟩

def set (scheduler : Option S) (fiber : F) : EventContext S F := ⟨scheduler, some fiber⟩

/-- `trigger`: the `add_fiber` call it makes, and the context after it. -/
def trigger (c : EventContext S F) : List (S × F) × EventContext S F :=
  match c.scheduler, c.fiber with
  | some scheduler, some fiber => ([(scheduler, fiber)], reset)
  | _, _ => ([], c)

end EventContext

structure IOEvent (S F : Type) where
  fd : Fd
  events : Events
  read : EventContext S F
  write : EventContext S F
  deriving DecidableEq, Repr

namespace IOEvent

variable {K S F : Type}

def create (fd : Fd) : IOEvent S F := ⟨fd, .none, .reset, .reset⟩

/-- The context of a direction. -/
def context (e : IOEvent S F) : Direction → EventContext S F
  | .read => e.read
  | .write => e.write

/-- `add_event` of both overloads; `fiber` is the one passed in, or the one made for each direction.
When the kernel refuses, `events_` is put back and the contexts are not. -/
def addEvent (ctl : EpollCtl K) (k : K) (e : IOEvent S F) (event : Events) (scheduler : Option S)
    (fiber : Direction → F) : Bool × IOEvent S F × K :=
  let op := if e.events = .none then EpollOp.add else .mod
  let added : IOEvent S F :=
    { e with
      events := e.events.union event
      read := if event.epollin then .set scheduler (fiber .read) else e.read
      write := if event.epollout then .set scheduler (fiber .write) else e.write }
  let (ok, k) := ctl k ⟨op, e.fd, added.events⟩
  if ok then (true, added, k) else (false, { added with events := e.events }, k)

/-- `del_event`. When the kernel refuses, the removal stays. -/
def delEvent (ctl : EpollCtl K) (k : K) (e : IOEvent S F) (event : Events) :
    Bool × IOEvent S F × K :=
  if e.events.inter event = .none then (false, e, k)
  else
    let removed : IOEvent S F :=
      { e with
        events := e.events.diff event
        read := if event.epollin then .reset else e.read
        write := if event.epollout then .reset else e.write }
    let op := if removed.events = .none then EpollOp.del else .mod
    let (ok, k) := ctl k ⟨op, e.fd, removed.events⟩
    (ok, removed, k)

/-- The first critical section of `cancel_event`: `none` when no direction of the mask is set, else
the `add_fiber` calls made and the event after them. -/
def cancelTrigger (e : IOEvent S F) (event : Events) : Option (List (S × F) × IOEvent S F) :=
  if e.events.inter event = .none then none
  else
    let read := if event.epollin then e.read.trigger else ([], e.read)
    let write := if event.epollout then e.write.trigger else ([], e.write)
    some (read.1 ++ write.1, { e with read := read.2, write := write.2 })

end IOEvent

structure IOManager (K S F : Type) where
  fdEventMap : AList fun _ : Fd => IOEvent S F
  pendingEventCount : UInt64
  kernel : K
  /-- The `add_fiber` calls made by `trigger`, in order. -/
  handed : List (S × F)

namespace IOManager

variable {K S F : Type}

def init (k : K) : IOManager K S F := ⟨∅, 0, k, []⟩

/-- The directions an fd is registered for. -/
def events (m : IOManager K S F) (fd : Fd) : Events :=
  match m.fdEventMap.lookup fd with
  | some e => e.events
  | none => .none

/-- Both overloads of `add_event`; an fd without an `IOEvent` gets one, also when the kernel refuses. -/
def addEvent (ctl : EpollCtl K) (m : IOManager K S F) (fd : Fd) (event : Events) (scheduler : Option S)
    (fiber : Direction → F) : Bool × IOManager K S F :=
  let e := (m.fdEventMap.lookup fd).getD (.create fd)
  let (ret, e, k) := e.addEvent ctl m.kernel event scheduler fiber
  let m := { m with fdEventMap := m.fdEventMap.insert fd e, kernel := k }
  if ret then (true, { m with pendingEventCount := m.pendingEventCount + 1 }) else (false, m)

/-- `IOEvent::del_event` on the event of an fd. -/
def deleteIn (ctl : EpollCtl K) (m : IOManager K S F) (fd : Fd) (event : Events) :
    Bool × IOManager K S F :=
  match m.fdEventMap.lookup fd with
  | none => (false, m)
  | some e =>
    let (ret, e, k) := e.delEvent ctl m.kernel event
    (ret, { m with fdEventMap := m.fdEventMap.insert fd e, kernel := k })

/-- The first critical section of `IOEvent::cancel_event` on the event of an fd: whether it goes on to
the second. -/
def triggerIn (m : IOManager K S F) (fd : Fd) (event : Events) : Bool × IOManager K S F :=
  match m.fdEventMap.lookup fd with
  | none => (false, m)
  | some e =>
    match e.cancelTrigger event with
    | none => (false, m)
    | some (handed, e) =>
      (true, { m with fdEventMap := m.fdEventMap.insert fd e, handed := m.handed ++ handed })

/-- `IOEvent::cancel_event` on the event of an fd, run without interruption. -/
def cancelIn (ctl : EpollCtl K) (m : IOManager K S F) (fd : Fd) (event : Events) :
    Bool × IOManager K S F :=
  let (goesOn, m) := m.triggerIn fd event
  if goesOn then m.deleteIn ctl fd event else (false, m)

def delEvent (ctl : EpollCtl K) (m : IOManager K S F) (fd : Fd) (event : Events) :
    Bool × IOManager K S F :=
  let (ret, m) := m.deleteIn ctl fd event
  if ret then (true, { m with pendingEventCount := m.pendingEventCount - 1 }) else (false, m)

def cancelEvent (ctl : EpollCtl K) (m : IOManager K S F) (fd : Fd) (event : Events) :
    Bool × IOManager K S F :=
  let (ret, m) := m.cancelIn ctl fd event
  if ret then (true, { m with pendingEventCount := m.pendingEventCount - 1 }) else (false, m)

/-- One direction of `cancel_all`, as it was set when the call looked. -/
def cancelSet (ctl : EpollCtl K) (m : IOManager K S F) (fd : Fd) (isSet : Bool) (d : Direction) :
    Bool × IOManager K S F :=
  if isSet then m.cancelEvent ctl fd (.only d) else (false, m)

def cancelAll (ctl : EpollCtl K) (m : IOManager K S F) (fd : Fd) : Bool × IOManager K S F :=
  let events := m.events fd
  let (rt, m) := m.cancelSet ctl fd events.epollin .read
  let (rt', m) := m.cancelSet ctl fd events.epollout .write
  (rt || rt', m)

/-- One direction of a report in `idle`: cancel, and count down whatever `cancel_event` returned. -/
def deliver (ctl : EpollCtl K) (m : IOManager K S F) (fd : Fd) (ready : Bool) (d : Direction) :
    IOManager K S F :=
  if ready then
    let m := (m.cancelIn ctl fd (.only d)).2
    { m with pendingEventCount := m.pendingEventCount - 1 }
  else m

/-- The body of the loop of `idle` over the reports. -/
def processEvent (ctl : EpollCtl K) (m : IOManager K S F) (report : Fd × Revents) : IOManager K S F :=
  let revents := report.2.delivered
  (m.deliver ctl report.1 revents.epollin .read).deliver ctl report.1 revents.epollout .write

/-- The loop of `idle` over what `epoll_wait` reported. -/
def processEvents (ctl : EpollCtl K) (m : IOManager K S F) (reports : List (Fd × Revents)) :
    IOManager K S F :=
  reports.foldl (processEvent ctl) m

/-- The calls on a manager, and an iteration of `idle` with what `epoll_wait` reported to it. -/
inductive Call (S F : Type) where
  | addEvent (fd : Fd) (event : Events) (scheduler : Option S) (fiber : Direction → F)
  | delEvent (fd : Fd) (event : Events)
  | cancelEvent (fd : Fd) (event : Events)
  | cancelAll (fd : Fd)
  | idle (reports : List (Fd × Revents))

/-- The manager after a call. -/
def call (ctl : EpollCtl K) (m : IOManager K S F) : Call S F → IOManager K S F
  | .addEvent fd event scheduler fiber => (m.addEvent ctl fd event scheduler fiber).2
  | .delEvent fd event => (m.delEvent ctl fd event).2
  | .cancelEvent fd event => (m.cancelEvent ctl fd event).2
  | .cancelAll fd => (m.cancelAll ctl fd).2
  | .idle reports => m.processEvents ctl reports

/-! ## The event of an fd -/

/-- The event of an fd; an fd without one has the event `add_event` would make. -/
def entry (m : IOManager K S F) (fd : Fd) : IOEvent S F :=
  (m.fdEventMap.lookup fd).getD (.create fd)

/-- Whether a direction of an fd is registered. -/
def bit (m : IOManager K S F) (fd : Fd) (d : Direction) : Bool :=
  (m.entry fd).events.has d

def context (m : IOManager K S F) (fd : Fd) (d : Direction) : EventContext S F :=
  (m.entry fd).context d

theorem events_eq_entry (m : IOManager K S F) (fd : Fd) : m.events fd = (m.entry fd).events := by
  unfold events entry
  cases m.fdEventMap.lookup fd <;> rfl

theorem entry_insert_self (m : IOManager K S F) (fd : Fd) (e : IOEvent S F) (c : UInt64) (k : K)
    (handed : List (S × F)) :
    (⟨m.fdEventMap.insert fd e, c, k, handed⟩ : IOManager K S F).entry fd = e := by
  rw [entry, AList.lookup_insert]
  rfl

theorem entry_insert_ne (m : IOManager K S F) {fd fd' : Fd} (ne : fd' ≠ fd) (e : IOEvent S F)
    (c : UInt64) (k : K) (handed : List (S × F)) :
    (⟨m.fdEventMap.insert fd e, c, k, handed⟩ : IOManager K S F).entry fd' = m.entry fd' := by
  rw [entry, AList.lookup_insert_ne ne, entry]

end IOManager

end Sylar
