import Sylar.Scheduler.Tally

/-!
# The scheduler as a whole

The workers of `Scheduler::schedule` together with `start`, `stop`, `can_stop` and the calls of
`add_fiber`, which come from running fibers or from outside, at any time. `W` holds the ids of the
threads: those of the workers, and any others that an `add_fiber` names, which take no steps. A worker
that has left its loop takes none either. Of `threads_` only its size is kept, and only whether it is
empty is looked at.

`scheduled` is history: the thread a fiber was passed to `add_fiber` with. No function reads it.
-/

namespace Sylar

/-- A fiber that has returned or thrown. -/
def FiberState.Ended (state : FiberState) : Prop := state = .terminated ∨ state = .exception

instance (state : FiberState) : Decidable state.Ended :=
  inferInstanceAs (Decidable (_ ∨ _))

namespace Scheduler

section Moves

variable {W F : Type} [DecidableEq W]

/-! ## Moving a worker -/

theorem goto_pc_self (s : World W F) (w : W) (p : Pc F) : (s.goto w p).pc w = p :=
  Function.update_self ..

theorem goto_pc_ne (s : World W F) {w v : W} (p : Pc F) (ne : v ≠ w) : (s.goto w p).pc v = s.pc v :=
  Function.update_of_ne ne ..

/-! ## Taking a task -/

/-- The task taken is the first that this worker may run, and the others keep their order. -/
theorem takeTask_eq_some {w : W} {found : Job F} {tasks rest : List (Task W F)}
    (take : takeTask w tasks = some (found, rest)) :
    ∃ before task after, tasks = before ++ task :: after ∧ rest = before ++ after ∧ task.job = found ∧
      (task.thread = none ∨ task.thread = some w) ∧
      ∀ other ∈ before, other.thread ≠ none ∧ other.thread ≠ some w := by
  induction tasks generalizing rest with
  | nil => cases take
  | cons task tasks ih =>
    rw [takeTask] at take
    split at take
    · rename_i eligible
      obtain ⟨rfl, rfl⟩ := Prod.mk.inj (Option.some.inj take)
      exact ⟨[], task, tasks, rfl, rfl, rfl, eligible, fun _ mem => absurd mem List.not_mem_nil⟩
    · rename_i skipped
      obtain ⟨⟨found', rest'⟩, inner, eq⟩ := Option.map_eq_some_iff.mp take
      obtain ⟨rfl, rfl⟩ := Prod.mk.inj eq
      obtain ⟨before, chosen, after, rfl, rfl, job, eligible, others⟩ := ih inner
      refine ⟨task :: before, chosen, after, rfl, rfl, job, eligible, fun other mem => ?_⟩
      rcases List.mem_cons.mp mem with rfl | mem
      · exact not_or.mp skipped
      · exact others other mem

/-- The tasks that are left were there. -/
theorem takeTask_subset {w : W} {found : Job F} {tasks rest : List (Task W F)}
    (take : takeTask w tasks = some (found, rest)) : rest ⊆ tasks := by
  obtain ⟨before, task, after, rfl, rfl, -, -, -⟩ := takeTask_eq_some take
  intro other mem
  rcases List.mem_append.mp mem with mem | mem
  · exact List.mem_append_left _ mem
  · exact List.mem_append_right _ (List.mem_cons_of_mem _ mem)

/-- The task that is taken was there, for this worker or for any. -/
theorem takeTask_mem {w : W} {found : Job F} {tasks rest : List (Task W F)}
    (take : takeTask w tasks = some (found, rest)) :
    ∃ task ∈ tasks, task.job = found ∧ (task.thread = none ∨ task.thread = some w) := by
  obtain ⟨before, task, after, rfl, rfl, job, eligible, -⟩ := takeTask_eq_some take
  exact ⟨task, List.mem_append_right _ List.mem_cons_self, job, eligible⟩

theorem takeTask_eq_none {w : W} {tasks : List (Task W F)} (take : takeTask w tasks = none) :
    ∀ task ∈ tasks, task.thread ≠ none ∧ task.thread ≠ some w := by
  induction tasks with
  | nil => exact fun _ mem => absurd mem List.not_mem_nil
  | cons task tasks ih =>
    rw [takeTask] at take
    split at take
    · cases take
    · rename_i skipped
      intro other mem
      rcases List.mem_cons.mp mem with rfl | mem
      · exact not_or.mp skipped
      · exact ih (Option.map_eq_none_iff.mp take) other mem

end Moves

variable {W F : Type} [DecidableEq F]

/-- `Scheduler::State`; `STOPPED` is never stored. -/
inductive State where
  | init
  | running
  | stopping
  deriving DecidableEq, Repr

structure System (W F : Type) where
  world : World W F
  state : State
  /-- The size of `threads_`. -/
  threads : Nat
  scheduled : F → Option (Option W)

namespace System

/-- A scheduler that has been constructed. -/
def init : System W F where
  world := Scheduler.init []
  state := .init
  threads := 0
  scheduled _ := none

/-- `add_fiber`, with a thread or with the default. -/
def addFiber (s : System W F) (f : F) (thread : Option W) : System W F :=
  { s with
    world := { s.world with tasks := s.world.tasks ++ [⟨thread, .fiber f⟩] }
    scheduled := Function.update s.scheduled f (some thread) }

@[simp] theorem addFiber_scheduled_self (s : System W F) (f : F) (thread : Option W) :
    (s.addFiber f thread).scheduled f = some thread := Function.update_self ..

theorem addFiber_scheduled_ne (s : System W F) {f g : F} (thread : Option W) (ne : g ≠ f) :
    (s.addFiber f thread).scheduled g = s.scheduled g := Function.update_of_ne ne ..

/-- `Scheduler::can_stop`. It holds `mutex_`, so the list and `threads_` do not change under it, and
`STOPPING` stays: what it answers is true of the moment at which it reads the active count. -/
def canStop (s : System W F) : Bool :=
  s.state == .stopping && s.threads == 0 && s.world.activeThreadCount == 0 && s.world.tasks.isEmpty

/-- `IOManager::can_stop`, which asks the scheduler first. -/
def ioCanStop (pendingEventCount : Nat) (s : System W F) : Bool :=
  s.canStop && pendingEventCount == 0 && s.world.timers.isEmpty

end System

/-- The steps of the system. -/
inductive SystemEvent (W F : Type) where
  | worker (e : Event W F)
  | addFiber (f : F) (thread : Option W)
  | start
  | stop
  | swapThreads
  deriving DecidableEq, Repr

variable [DecidableEq W]

/-- One step of the system. Each fiber is passed to `add_fiber` once. -/
inductive SystemStep [Fintype W] : System W F → SystemEvent W F → System W F → Prop where
  | worker {s : System W F} {e : Event W F} {world : World W F} (started : s.state ≠ .init)
      (step : Step s.world e world) : SystemStep s (.worker e) { s with world := world }
  | addFiber {s : System W F} {f : F} (thread : Option W) (fresh : s.scheduled f = none) :
      SystemStep s (.addFiber f thread) (s.addFiber f thread)
  | start {s : System W F} (first : s.state = .init) :
      SystemStep s .start { s with state := .running, threads := Fintype.card W }
  /-- `stop` stores `STOPPING`. -/
  | stop {s : System W F} (running : s.state = .running) :
      SystemStep s .stop { s with state := .stopping }
  /-- `stop` swaps `threads_` out, to join the threads. -/
  | swapThreads {s : System W F} (stopping : s.state = .stopping) :
      SystemStep s .swapThreads { s with threads := 0 }

/-! ## What a worker holds -/

/-- The fiber in a worker's `task`, from the erase to the end of the loop's body. -/
def Pc.hand : Pc F → Option F
  | .taken (.fiber f) | .putBack f | .counting f | .resuming f | .running f | .armed f
  | .switching f _ | .leaving f _ | .returned f _ | .requeue f _ => some f
  | .taken (.callback _) | .loop | .idle | .firing _ | .callback _ | .woke _ | .called => none

/-- The workers that hold a fiber. -/
def World.held [Fintype W] (s : World W F) (f : F) : Nat :=
  (Finset.univ.filter fun w => (s.pc w).hand = some f).card

/-! ## One step -/

/-- Whose state a step changes: that of a fiber about to be resumed, on its stack, or about to be
woken. -/
theorem step_state {s s' : World W F} {e : Event W F} (step : Step s e s') (f : F) :
    s'.state f = s.state f ∨ ∃ w, s.pc w = .resuming f ∨ s.pc w = .running f ∨ s.pc w = .armed f ∨
      s.pc w = .callback f := by
  have stored : ∀ (g : F) (new : FiberState), (s.setState g new).state f = s.state f ∨ f = g :=
    fun g new => (eq_or_ne f g).symm.imp_left fun ne => Function.update_of_ne ne ..
  cases step with
  | resume at_ notEnded =>
    rename_i w g
    rcases stored g .running with same | rfl
    · exact .inl same
    · exact .inr ⟨w, .inl at_⟩
  | finish at_ threw =>
    rename_i w g
    rcases stored g (if threw then .exception else .terminated) with same | rfl
    · exact .inl same
    · exact .inr ⟨w, .inr (.inl at_)⟩
  | yield at_ =>
    rename_i w g
    rw [World.leaveState]
    split
    · rcases stored g .suspended with same | rfl
      · exact .inl same
      · exact .inr ⟨w, .inr (.inl at_)⟩
    · exact .inl rfl
  | sleep at_ =>
    rename_i w g
    rw [World.leaveState]
    split
    · rcases stored g .sleeping with same | rfl
      · exact .inl same
      · exact .inr ⟨w, .inr (.inr (.inl at_))⟩
    · exact .inl rfl
  | wakeup at_ =>
    rename_i w g
    rw [World.fiberWakeup]
    split
    · rcases stored g .suspended with same | rfl
      · exact .inl same
      · exact .inr ⟨w, .inr (.inr (.inr at_))⟩
    · exact .inl rfl
  | requeue =>
    rw [bookRequeue_eq]
    exact .inl rfl
  | _ => exact .inl rfl

end Scheduler

end Sylar
