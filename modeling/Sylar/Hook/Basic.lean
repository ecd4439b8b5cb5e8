import Sylar.IOManager.Basic
import Sylar.Scheduler.Basic
import Sylar.Timer.Basic

/-!
# Hooked I/O on one worker

The model of `hook_iofunc` together with what it waits on: the loop of `Scheduler::schedule` and
`IOManager::idle` on an `IOManager` with a single worker thread. The events of an fd and the timers
are the models of `IOManager.Basic` and `Timer.Basic`; the fibers run on the worker one at a time,
until they yield, sleep or end.

The system call, the kernel's answers to `epoll_ctl`, what `epoll_wait` reports and the clock are
not determined: an event of the model carries what they answered. Each fd is used by one fiber, its
owner, while any fiber may cancel events of any fd.

`seen`, `accepted`, `lastWait`, `ran` and `handovers` only record what happened; no step reads them.
-/

namespace Sylar.Hook

/-- What a system call returned, and `errno` after it. -/
structure SysResult where
  rt : Int
  errno : Nat
  deriving DecidableEq, Repr

def eintr : Nat := 4
def eagain : Nat := 11
def etimedout : Nat := 110

namespace SysResult

def interrupted (r : SysResult) : Bool := r.rt == -1 && r.errno == eintr

def again (r : SysResult) : Bool := r.rt == -1 && r.errno == eagain

/-- The results `hook_iofunc` does not return. -/
def retried (r : SysResult) : Bool := r.interrupted || r.again

end SysResult

/-- How `hook_iofunc` returns. -/
inductive Outcome where
  /-- What the system call returned. -/
  | result (r : SysResult)
  /-- `-1`, with `errno` set to `ETIMEDOUT`. -/
  | timedOut
  /-- `-1`, because `add_event` returned false. -/
  | refused
  deriving DecidableEq, Repr

/-- A `timer_info` is named by its place in the heap of them. -/
abbrev InfoPtr := Nat

/-- What the timer callback of a wait captures, besides the `weak_ptr` to its `timer_info`. -/
structure Expiry (F : Type) where
  sockfd : Fd
  event : Direction
  fiber : F
  deriving DecidableEq, Repr

/-- The fiber a timer callback of the model was made for. -/
def Expiry.of {F : Type} : Callback (Expiry F) InfoPtr → Expiry F
  | .plain cb => cb
  | .bound cb _ => cb

/-- The locals of a wait: `tinfo` and `timer`. -/
structure Wait where
  tinfo : InfoPtr
  timer : Option TimerPtr
  deriving DecidableEq, Repr

/-- Where a fiber is. -/
inductive Point where
  /-- Not yet added. -/
  | fresh
  /-- In its own code. -/
  | user
  /-- In `hook_iofunc`, before a call of `sys_fun`. -/
  | trying (fd : Fd) (d : Direction)
  /-- The call would block; before the timer is added. -/
  | arming (fd : Fd) (d : Direction)
  /-- Before `add_event`. -/
  | registering (fd : Fd) (d : Direction) (wait : Wait)
  /-- In `fiber_sleep`. -/
  | asleep (fd : Fd) (d : Direction) (wait : Wait)
  /-- `hook_iofunc` returns. -/
  | returned (fd : Fd) (d : Direction) (out : Outcome)
  /-- Its function has returned or thrown. -/
  | ended
  deriving DecidableEq, Repr

/-- What a task runs: a fiber, or the callback of a timer in a fiber of its own. -/
inductive Job (F : Type) where
  | fiber (f : F)
  | callback (t : TimerPtr)
  deriving DecidableEq, Repr

/-- Where the worker is. -/
inductive Worker (F : Type) where
  /-- At the top of the loop of `schedule`. -/
  | loop
  /-- On the stack of a fiber. -/
  | running (f : F)
  /-- Back from `fiber_resume`, before the look at the fiber's state. -/
  | back (f : F)
  /-- In the idle fiber. -/
  | idle
  deriving DecidableEq, Repr

structure World (K F : Type) where
  io : IOManager K Unit F
  timers : TimerManager (Expiry F) InfoPtr
  /-- The `state` of each `timer_info`, until its last `shared_ptr` is gone. -/
  infos : List (Option Nat)
  tasks : List (Job F)
  worker : Worker F
  state : F → FiberState
  point : F → Point
  /-- The results of `sys_fun` in the fiber's last call, in order. -/
  seen : F → List SysResult
  /-- What the fiber's last `add_event` returned. -/
  accepted : F → Bool
  /-- The `timer_info` of the fiber's last wait. -/
  lastWait : F → InfoPtr
  /-- The `timer_info`s whose timer callback has run. -/
  ran : List InfoPtr
  /-- How often the fiber was added to the tasks since it last started to sleep. -/
  handovers : F → Nat

namespace World

variable {K F : Type} [DecidableEq F]

/-- A manager as constructed, with the worker at the top of its loop. -/
def init (k : K) : World K F where
  io := .init k
  timers := .init
  infos := []
  tasks := []
  worker := .loop
  state _ := .initing
  point _ := .fresh
  seen _ := []
  accepted _ := false
  lastWait _ := 0
  ran := []
  handovers _ := 0

/-! ## The scheduler's part -/

/-- `add_fiber` of fibers, in order. -/
def addFibers (s : World K F) (fs : List F) : World K F :=
  { s with
    tasks := s.tasks ++ fs.map .fiber
    handovers := fun f => s.handovers f + fs.count f }

def setState (s : World K F) (f : F) (new : FiberState) : World K F :=
  { s with state := Function.update s.state f new }

def goto (s : World K F) (f : F) (p : Point) : World K F :=
  { s with point := Function.update s.point f p }

/-- `fiber_wakeup`. -/
def fiberWakeup (s : World K F) (f : F) : World K F :=
  if s.state f = .sleeping then s.setState f .suspended else s

/-- `fiber_yield` and `fiber_sleep`: store the new state, unless the fiber is no longer `RUNNING`, and
switch to the loop. -/
def leave (s : World K F) (f : F) (new : FiberState) : World K F :=
  { (if s.state f = .running then s.setState f new else s) with worker := .back f }

/-! ## The event manager's part -/

/-- The world after an operation on events: what `trigger` handed over is added to the tasks. -/
def handOver (s : World K F) (io : IOManager K Unit F) : World K F :=
  { s.addFibers (io.handed.map Prod.snd) with io := { io with handed := [] } }

def cancelEvent (ctl : EpollCtl K) (s : World K F) (fd : Fd) (event : Events) : World K F :=
  s.handOver (s.io.cancelEvent ctl fd event).2

/-- One direction of a report in `idle`. -/
def deliver (ctl : EpollCtl K) (s : World K F) (fd : Fd) (ready : Bool) (d : Direction) : World K F :=
  s.handOver (s.io.deliver ctl fd ready d)

/-- The body of the loop of `idle` over the reports. -/
def processEvent (ctl : EpollCtl K) (s : World K F) (report : Fd × Revents) : World K F :=
  let revents := report.2.delivered
  (s.deliver ctl report.1 revents.epollin .read).deliver ctl report.1 revents.epollout .write

def processEvents (ctl : EpollCtl K) (s : World K F) (reports : List (Fd × Revents)) : World K F :=
  reports.foldl (processEvent ctl) s

/-- The timers in `idle`: the look at the next one before `epoll_wait`, at clock reading `before`, and
the expired ones after it, at clock reading `now`. Their callbacks are added to the tasks. -/
def processTimers (s : World K F) (before now : UInt64) : World K F :=
  let (_, timers) := s.timers.getNextTimer before
  let (expired, timers) := timers.getExpiredTimers now []
  { s with timers := timers, tasks := s.tasks ++ expired.map .callback }

/-! ## The timer callback -/

/-- Whether the `weak_ptr` to a `timer_info` can still be locked. -/
def lock (s : World K F) (info : InfoPtr) : Bool :=
  (s.infos[info]?.join).isSome

/-- The body of the callback `hook_iofunc` binds. -/
def timeOut (ctl : EpollCtl K) (s : World K F) (info : InfoPtr) (e : Expiry F) : World K F :=
  let s := { s with infos := s.infos.set info (some etimedout), ran := info :: s.ran }
  (s.fiberWakeup e.fiber).cancelEvent ctl e.sockfd (.only e.event)

/-- A timer callback runs to its end, through `cond_timer_cb`. -/
def runCallback (ctl : EpollCtl K) (s : World K F) (t : TimerPtr) : World K F :=
  match s.timers.heap[t]?.map Timer.cb with
  | some (.bound e info) =>
    match (Callback.bound e info).run s.lock with
    | some e => s.timeOut ctl info e
    | none => s
  | _ => s

/-! ## The parts of `hook_iofunc` -/

/-- `tinfo`, and the timer if a timeout is set. -/
def arm (s : World K F) (f : F) (fd : Fd) (d : Direction) (now timeout : UInt64) : World K F :=
  let info := s.infos.length
  let s := { s with infos := s.infos ++ [some 0], lastWait := Function.update s.lastWait f info }
  if timeout ≠ ~~~0 then
    let (timer, timers) := s.timers.addTimer now false timeout (.bound ⟨fd, d, f⟩ info)
    { s with timers := timers }.goto f (.registering fd d ⟨info, timer⟩)
  else s.goto f (.registering fd d ⟨info, none⟩)

/-- `if(timer) timer->cancel()`. -/
def cancelTimer (s : World K F) : Option TimerPtr → World K F
  | some t => { s with timers := (s.timers.cancel t).2 }
  | none => s

/-- The end of the block: the only `shared_ptr` to `tinfo` is gone. -/
def release (s : World K F) (wait : Wait) : World K F :=
  { s with infos := s.infos.set wait.tinfo none }

/-- `add_event`, and the sleep or the return after it. -/
def register (ctl : EpollCtl K) (s : World K F) (f : F) (fd : Fd) (d : Direction) (wait : Wait) :
    World K F :=
  let (ret, io) := s.io.addEvent ctl fd (.only d) (some ()) fun _ => f
  let s := { s with io := io, accepted := Function.update s.accepted f ret }
  if ret then
    let s := { s with handovers := Function.update s.handovers f 0 }
    (s.goto f (.asleep fd d wait)).leave f .sleeping
  else ((s.cancelTimer wait.timer).release wait).goto f (.returned fd d .refused)

/-- What follows `fiber_sleep`. -/
def wake (s : World K F) (f : F) (fd : Fd) (d : Direction) (wait : Wait) : World K F :=
  let s := s.cancelTimer wait.timer
  if s.infos[wait.tinfo]? = some (some etimedout) then
    (s.release wait).goto f (.returned fd d .timedOut)
  else (s.release wait).goto f (.trying fd d)

/-- A call of `sys_fun`: again when interrupted, wait when it would block, else return. -/
def sysFun (s : World K F) (f : F) (fd : Fd) (d : Direction) (r : SysResult) : World K F :=
  let s := { s with seen := Function.update s.seen f (s.seen f ++ [r]) }
  if r.interrupted then s.goto f (.trying fd d)
  else if r.again then s.goto f (.arming fd d)
  else s.goto f (.returned fd d (.result r))

end World

/-! ## Steps -/

/-- What happens next: on the worker's loop, or in the fiber it runs. -/
inductive Event (F : Type) where
  /-- Some code adds a new fiber. -/
  | spawn (f : F)
  | take
  | look
  | idle (before now : UInt64) (reports : List (Fd × Revents))
  /-- The running fiber calls a hooked function. -/
  | call (fd : Fd) (d : Direction)
  | sysFun (r : SysResult)
  | arm (now timeout : UInt64)
  | register
  | wake
  /-- The running fiber goes on after the call. -/
  | proceed
  | cancelEvent (fd : Fd) (event : Events)
  | yield
  | finish (threw : Bool)
  deriving DecidableEq, Repr

namespace World

variable {K F : Type} [DecidableEq F]

/-- The worker takes the first task. A fiber that has ended sends it to the idle fiber, as does an
empty list; one that is `RUNNING` is added again. -/
def take (ctl : EpollCtl K) (s : World K F) : World K F :=
  match s.tasks with
  | [] => { s with worker := .idle }
  | .callback t :: rest => { s with tasks := rest }.runCallback ctl t
  | .fiber f :: rest =>
    let s := { s with tasks := rest }
    if s.state f = .terminated ∨ s.state f = .exception then { s with worker := .idle }
    else if s.state f = .running then s.addFibers [f]
    else { s.setState f .running with worker := .running f }

/-- The look at a fiber that came back. -/
def look (s : World K F) (f : F) : World K F :=
  { (if s.state f = .ready ∨ s.state f = .suspended then s.addFibers [f] else s) with worker := .loop }

/-- What the running fiber does; `none` when it is not where it could. -/
def act (owner : Fd → F) (ctl : EpollCtl K) (s : World K F) (f : F) : Event F → Option (World K F)
  | .call fd d =>
    if s.point f = .user ∧ owner fd = f then
      some ({ s with seen := Function.update s.seen f [] }.goto f (.trying fd d))
    else none
  | .sysFun r =>
    match s.point f with
    | .trying fd d => some (s.sysFun f fd d r)
    | _ => none
  | .arm now timeout =>
    match s.point f with
    | .arming fd d => some (s.arm f fd d now timeout)
    | _ => none
  | .register =>
    match s.point f with
    | .registering fd d wait => some (s.register ctl f fd d wait)
    | _ => none
  | .wake =>
    match s.point f with
    | .asleep fd d wait => some (s.wake f fd d wait)
    | _ => none
  | .proceed =>
    match s.point f with
    | .returned _ _ _ => some (s.goto f .user)
    | _ => none
  | .cancelEvent fd event => if s.point f = .user then some (s.cancelEvent ctl fd event) else none
  | .yield => if s.point f = .user then some (s.leave f .suspended) else none
  | .finish threw =>
    if s.point f = .user then
      some (((s.goto f .ended).setState f (if threw then .exception else .terminated)).leave f .suspended)
    else none
  | _ => none

/-- One step; `none` when it cannot be taken. -/
def exec (owner : Fd → F) (ctl : EpollCtl K) (s : World K F) (e : Event F) : Option (World K F) :=
  match e, s.worker with
  | .spawn f, _ => if s.point f = .fresh then some ((s.goto f .user).addFibers [f]) else none
  | .take, .loop => some (s.take ctl)
  | .look, .back f => some (s.look f)
  | .idle before now reports, .idle =>
    some { (s.processTimers before now).processEvents ctl reports with worker := .loop }
  | e, .running f => s.act owner ctl f e
  | _, _ => none

def Step (owner : Fd → F) (ctl : EpollCtl K) (s : World K F) (e : Event F) (s' : World K F) : Prop :=
  s.exec owner ctl e = some s'

end World

end Sylar.Hook
