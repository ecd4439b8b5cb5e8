import Sylar.Fiber.Basic
import Sylar.Lib.Run

/-!
# Workers, fibers and the task queue

The model of `Scheduler::schedule` with hooked sleeps, for any number of worker threads. A worker is
at a place of its loop (`Pc`); a step moves one worker over one access to something shared: the task
list under `mutex_`, a fiber's `state_`, the timer set, the active count, the switch off a fiber's
stack. The fibers a worker resumes yield, finish, throw, or call a hooked sleep, which arms a timer
whose callback wakes the fiber and adds it again.

`slept` and `requeued` count, for each fiber, the hooked sleeps it has started and the times it has
been put into `tasks_` because of one.
-/

namespace Sylar

namespace Scheduler

/-- What a task runs: a fiber, or the callback of the timer a fiber sleeps on. -/
inductive Job (F : Type) where
  | fiber (f : F)
  | callback (f : F)
  deriving DecidableEq, Repr

/-- `ScheduledTask`; no thread stands for `-1`. -/
structure Task (W F : Type) where
  thread : Option W
  job : Job F
  deriving DecidableEq, Repr

/-- How a fiber left its worker. -/
inductive Leave where
  | yielded
  | slept
  | finished
  deriving DecidableEq, Repr

/-- Where a worker is. -/
inductive Pc (F : Type) where
  /-- At the top of the loop. -/
  | loop
  /-- A task is taken, its fiber's state not yet looked at. -/
  | taken (job : Job F)
  /-- The fiber was found `RUNNING` and is to be added again. -/
  | putBack (f : F)
  /-- Before `active_thread_count_.fetch_add`. -/
  | counting (f : F)
  /-- Before `fiber_resume`. -/
  | resuming (f : F)
  /-- On the fiber's stack, running its function. -/
  | running (f : F)
  /-- On the fiber's stack, in a hooked sleep whose timer is armed. -/
  | armed (f : F)
  /-- On the fiber's stack, its new state stored, not yet switched away. -/
  | switching (f : F) (leave : Leave)
  /-- Back in the loop, before `active_thread_count_.fetch_sub`. -/
  | leaving (f : F) (leave : Leave)
  /-- Before the look at the fiber's state. -/
  | returned (f : F) (leave : Leave)
  /-- The fiber was found `READY` or `SUSPENDED` and is to be added again. -/
  | requeue (f : F) (leave : Leave)
  /-- In the idle fiber. -/
  | idle
  /-- In the idle fiber, with expired timers whose callbacks are still to be added. -/
  | firing (fs : List F)
  /-- In a timer callback, before `fiber_wakeup`. -/
  | callback (f : F)
  /-- In a timer callback, before `add_fiber`. -/
  | woke (f : F)
  /-- Back from a timer callback, whose fiber has ended, before `active_thread_count_.fetch_sub`. -/
  | called
  deriving DecidableEq, Repr

structure World (W F : Type) where
  state : F → FiberState
  tasks : List (Task W F)
  timers : List F
  activeThreadCount : Nat
  pc : W → Pc F
  slept : F → Nat
  requeued : F → Nat

variable {W F : Type} [DecidableEq W] [DecidableEq F]

/-- Fibers added once each, with or without a thread, and every worker at the top of its loop. -/
def init (fibers : List (Option W × F)) : World W F where
  state _ := .initing
  tasks := fibers.map fun f => ⟨f.1, .fiber f.2⟩
  timers := []
  activeThreadCount := 0
  pc _ := .loop
  slept _ := 0
  requeued _ := 0

/-- The search of `schedule` for the first task this worker may run, and the list without it. -/
def takeTask (w : W) : List (Task W F) → Option (Job F × List (Task W F))
  | [] => none
  | task :: tasks =>
    if task.thread = none ∨ task.thread = some w then some (task.job, tasks)
    else (takeTask w tasks).map fun (job, rest) => (job, task :: rest)

namespace World

def goto (s : World W F) (w : W) (p : Pc F) : World W F :=
  { s with pc := Function.update s.pc w p }

/-- `add_fiber` with the default thread. -/
def addFiber (s : World W F) (job : Job F) : World W F :=
  { s with tasks := s.tasks ++ [⟨none, job⟩] }

def setState (s : World W F) (f : F) (new : FiberState) : World W F :=
  { s with state := Function.update s.state f new }

/-- `fiber_wakeup`. -/
def fiberWakeup (s : World W F) (f : F) : World W F :=
  if s.state f = .sleeping then s.setState f .suspended else s

/-- The state `fiber_yield` and `fiber_sleep` store, unless the fiber is no longer `RUNNING`. -/
def leaveState (s : World W F) (f : F) (new : FiberState) : World W F :=
  if s.state f = .running then s.setState f new else s

/-- A fiber is put into `tasks_` because of a sleep. -/
def bookRequeue (s : World W F) (f : F) : World W F :=
  { s with requeued := Function.update s.requeued f (s.requeued f + 1) }

end World

/-- The steps, by worker. -/
inductive Event (W F : Type) where
  | take (w : W)
  | inspect (w : W)
  | putBack (w : W)
  | activate (w : W)
  | resume (w : W) (f : F)
  | yield (w : W)
  | finish (w : W) (threw : Bool)
  | arm (w : W) (inserted : Bool)
  | sleep (w : W)
  | switch (w : W)
  | deactivate (w : W)
  | look (w : W) (f : F) (leave : Leave)
  | requeue (w : W)
  | expire (w : W) (fs : List F)
  | fire (w : W)
  | wakeup (w : W)
  | addWoken (w : W)
  deriving DecidableEq, Repr

/-- One step of one worker. -/
inductive Step : World W F → Event W F → World W F → Prop where
  /-- A task this worker may run is erased from the list under `mutex_`. -/
  | take {s : World W F} {w : W} {job : Job F} {rest : List (Task W F)} (at_ : s.pc w = .loop)
      (found : takeTask w s.tasks = some (job, rest)) :
      Step s (.take w) ({ s with tasks := rest }.goto w (.taken job))
  /-- There is no such task: the idle fiber runs. -/
  | idle {s : World W F} {w : W} (at_ : s.pc w = .loop) (found : takeTask w s.tasks = none) :
      Step s (.take w) (s.goto w .idle)
  /-- A fiber that has ended: the idle fiber runs. -/
  | inspectEnded {s : World W F} {w : W} {f : F} (at_ : s.pc w = .taken (.fiber f))
      (ended : s.state f = .terminated ∨ s.state f = .exception) :
      Step s (.inspect w) (s.goto w .idle)
  /-- A fiber that still runs on another worker is to be put back. -/
  | inspectRunning {s : World W F} {w : W} {f : F} (at_ : s.pc w = .taken (.fiber f))
      (runs : s.state f = .running) : Step s (.inspect w) (s.goto w (.putBack f))
  | inspectOther {s : World W F} {w : W} {f : F} (at_ : s.pc w = .taken (.fiber f))
      (notEnded : s.state f ≠ .terminated ∧ s.state f ≠ .exception) (notRuns : s.state f ≠ .running) :
      Step s (.inspect w) (s.goto w (.counting f))
  /-- A callback's fiber is new: it is counted and resumed. -/
  | inspectCallback {s : World W F} {w : W} {f : F} (at_ : s.pc w = .taken (.callback f)) :
      Step s (.inspect w)
        ({ s with activeThreadCount := s.activeThreadCount + 1 }.goto w (.callback f))
  | putBack {s : World W F} {w : W} {f : F} (at_ : s.pc w = .putBack f) :
      Step s (.putBack w) ((s.addFiber (.fiber f)).goto w .loop)
  | activate {s : World W F} {w : W} {f : F} (at_ : s.pc w = .counting f) :
      Step s (.activate w)
        ({ s with activeThreadCount := s.activeThreadCount + 1 }.goto w (.resuming f))
  /-- `fiber_resume` stores `RUNNING` and switches to the fiber's stack. -/
  | resume {s : World W F} {w : W} {f : F} (at_ : s.pc w = .resuming f)
      (notEnded : s.state f ≠ .terminated ∧ s.state f ≠ .exception) :
      Step s (.resume w f) ((s.setState f .running).goto w (.running f))
  /-- `fiber_resume` returns at once for a fiber that has ended. -/
  | resumeEnded {s : World W F} {w : W} {f : F} (at_ : s.pc w = .resuming f)
      (ended : s.state f = .terminated ∨ s.state f = .exception) :
      Step s (.resume w f) (s.goto w (.leaving f .finished))
  /-- `fiber_yield` stores `SUSPENDED`. -/
  | yield {s : World W F} {w : W} {f : F} (at_ : s.pc w = .running f) :
      Step s (.yield w) ((s.leaveState f .suspended).goto w (.switching f .yielded))
  /-- The fiber's function returns or throws; `fiber_yield` then leaves the state alone. -/
  | finish {s : World W F} {w : W} {f : F} (at_ : s.pc w = .running f) (threw : Bool) :
      Step s (.finish w threw)
        ((s.setState f (if threw then .exception else .terminated)).goto w (.switching f .finished))
  /-- A hooked sleep adds its timer, which `timers_` takes or not. -/
  | arm {s : World W F} {w : W} {f : F} (at_ : s.pc w = .running f) (inserted : Bool) :
      Step s (.arm w inserted)
        ({ s with
            timers := if inserted then f :: s.timers else s.timers
            slept := Function.update s.slept f (s.slept f + 1) }.goto w (.armed f))
  /-- `fiber_sleep` stores `SLEEPING`. -/
  | sleep {s : World W F} {w : W} {f : F} (at_ : s.pc w = .armed f) :
      Step s (.sleep w) ((s.leaveState f .sleeping).goto w (.switching f .slept))
  /-- The switch off the fiber's stack. -/
  | switch {s : World W F} {w : W} {f : F} {leave : Leave} (at_ : s.pc w = .switching f leave) :
      Step s (.switch w) (s.goto w (.leaving f leave))
  | deactivate {s : World W F} {w : W} {f : F} {leave : Leave} (at_ : s.pc w = .leaving f leave) :
      Step s (.deactivate w)
        ({ s with activeThreadCount := s.activeThreadCount - 1 }.goto w (.returned f leave))
  /-- The look at the fiber's state after it came back. -/
  | lookReady {s : World W F} {w : W} {f : F} {leave : Leave} (at_ : s.pc w = .returned f leave)
      (ready : s.state f = .ready ∨ s.state f = .suspended) :
      Step s (.look w f leave) (s.goto w (.requeue f leave))
  | lookOther {s : World W F} {w : W} {f : F} {leave : Leave} (at_ : s.pc w = .returned f leave)
      (notReady : s.state f ≠ .ready ∧ s.state f ≠ .suspended) :
      Step s (.look w f leave) (s.goto w .loop)
  | requeue {s : World W F} {w : W} {f : F} {leave : Leave} (at_ : s.pc w = .requeue f leave) :
      Step s (.requeue w)
        (((if leave = .slept then s.bookRequeue f else s).addFiber (.fiber f)).goto w .loop)
  /-- `get_expired_timers`, at whatever clock reading. -/
  | expire {s : World W F} {w : W} {fs : List F} (at_ : s.pc w = .idle) (due : fs.Subperm s.timers) :
      Step s (.expire w fs) ({ s with timers := s.timers.diff fs }.goto w (.firing fs))
  | fire {s : World W F} {w : W} {f : F} {fs : List F} (at_ : s.pc w = .firing (f :: fs)) :
      Step s (.fire w) ((s.addFiber (.callback f)).goto w (.firing fs))
  /-- The idle fiber yields. -/
  | fired {s : World W F} {w : W} (at_ : s.pc w = .firing []) : Step s (.fire w) (s.goto w .loop)
  | wakeup {s : World W F} {w : W} {f : F} (at_ : s.pc w = .callback f) :
      Step s (.wakeup w) ((s.fiberWakeup f).goto w (.woke f))
  /-- The callback adds the fiber; its own fiber ends and is not added again. -/
  | addWoken {s : World W F} {w : W} {f : F} (at_ : s.pc w = .woke f) :
      Step s (.addWoken w) (((s.bookRequeue f).addFiber (.fiber f)).goto w .called)
  | deactivateCalled {s : World W F} {w : W} (at_ : s.pc w = .called) :
      Step s (.deactivate w)
        ({ s with activeThreadCount := s.activeThreadCount - 1 }.goto w .loop)

end Scheduler

end Sylar
