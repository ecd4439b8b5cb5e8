import Sylar.Scheduler.System

/-!
# When `can_stop` answers too early

The active count is the number of workers between `fetch_add` and `fetch_sub`, in every reachable
state. A worker that has erased a task and not yet counted itself, or that has uncounted itself and
not yet put its fiber back, is in neither the list nor the count: `can_stop` does not see its fiber.
-/

namespace Sylar.Scheduler

open Lib

variable {W F : Type} [DecidableEq W] [DecidableEq F]

/-! ## The active count -/

/-- One between `active_thread_count_.fetch_add` and `fetch_sub`. -/
def Pc.counted : Pc F → Nat
  | .resuming _ | .running _ | .armed _ | .switching _ _ | .leaving _ _ | .callback _ | .woke _
  | .called => 1
  | .loop | .taken _ | .putBack _ | .counting _ | .returned _ _ | .requeue _ _ | .idle | .firing _ => 0

section Workers

variable [Fintype W]

/-- The active count is right. -/
def World.Counts (s : World W F) : Prop := s.activeThreadCount = ∑ w, (s.pc w).counted

omit [DecidableEq W] [DecidableEq F] in
theorem World.Counts.counted_le {s : World W F} {w : W} {p : Pc F} (h : s.Counts) (at_ : s.pc w = p) :
    p.counted ≤ s.activeThreadCount := by
  rw [← at_, h]
  exact Finset.single_le_sum (f := fun v => (s.pc v).counted) (fun _ _ => Nat.zero_le _)
    (Finset.mem_univ w)

omit [DecidableEq F] in
theorem World.Counts.goto {s s₁ : World W F} {w : W} {p q : Pc F} (h : s.Counts) (at_ : s.pc w = q)
    (same : s₁.pc = s.pc) (balance : s₁.activeThreadCount + q.counted = s.activeThreadCount + p.counted) :
    (s₁.goto w p).Counts := by
  have moved := sum_update Pc.counted s.pc w p
  rw [at_] at moved
  unfold World.Counts at h ⊢
  rw [World.goto, same]
  dsimp only
  omega

theorem World.Counts.step {s s' : World W F} {e : Event W F} (h : s.Counts) (step : Step s e s') :
    s'.Counts := by
  cases step with
  | deactivate at_ | deactivateCalled at_ =>
    have counted := h.counted_le at_
    refine h.goto at_ rfl ?_
    simp only [Pc.counted] at counted ⊢
    omega
  | yield at_ | sleep at_ =>
    rw [leaveState_eq]
    exact h.goto at_ rfl rfl
  | wakeup at_ =>
    rw [fiberWakeup_eq]
    exact h.goto at_ rfl rfl
  | requeue at_ =>
    rw [bookRequeue_eq]
    exact h.goto at_ rfl rfl
  | take at_ | idle at_ | inspectEnded at_ | inspectRunning at_ | inspectOther at_ | inspectCallback at_
  | putBack at_ | activate at_ | resume at_ | resumeEnded at_ | finish at_ | arm at_ | switch at_
  | lookReady at_ | lookOther at_ | expire at_ | fire at_ | fired at_ | addWoken at_ =>
    exact h.goto at_ rfl rfl

/-- The active count is right in every reachable state. -/
theorem counts_of_run {events : List (SystemEvent W F)} {s : System W F}
    (run : Run SystemStep System.init events s) : s.world.Counts := by
  refine run.invariant (I := fun s => s.world.Counts) (fun s e s' h step => ?_) ?_
  · cases step with
    | worker started step => exact h.step step
    | addFiber | start | stop | swapThreads => exact h
  · exact (Finset.sum_eq_zero fun _ _ => rfl).symm

end Workers

/-! ## What a worker has in hand -/

/-- The worker has a fiber in hand that is not done: taken and not yet counted, counted, or back and
to be put into `tasks_` again. -/
def Pc.Holds (state : F → FiberState) : Pc F → Prop
  | .taken (.fiber f) | .putBack f | .counting f | .resuming f | .running f | .armed f
  | .switching f _ | .leaving f _ | .requeue f _ => ¬ (state f).Ended
  | .returned f _ => state f = .ready ∨ state f = .suspended
  | .taken (.callback _) | .callback _ | .woke _ => True
  | .loop | .idle | .firing _ | .called => False

/-- The worker has such a fiber in hand between the erase and `fetch_add`, or between `fetch_sub` and
`add_fiber`. -/
def Pc.InWindow (state : F → FiberState) : Pc F → Prop
  | .taken (.fiber f) | .putBack f | .counting f | .requeue f _ => ¬ (state f).Ended
  | .returned f _ => state f = .ready ∨ state f = .suspended
  | .taken (.callback _) => True
  | _ => False

omit [DecidableEq F] in
/-- Off the active count the windows are the only places with a fiber in hand. -/
theorem Pc.holds_iff_inWindow {p : Pc F} (state : F → FiberState) (uncounted : p.counted = 0) :
    p.Holds state ↔ p.InWindow state := by
  cases p with
  | taken job => cases job <;> exact Iff.rfl
  | putBack | counting | returned | requeue | loop | idle | firing => exact Iff.rfl
  | resuming | running | armed | switching | leaving | callback | woke | called => cases uncounted

/-- No unfinished fiber is in `tasks_` or in the hands of a worker. -/
def System.AllDone (s : System W F) : Prop :=
  (∀ task ∈ s.world.tasks, ∃ f, task.job = .fiber f ∧ (s.world.state f).Ended) ∧
    ∀ w, ¬ (s.world.pc w).Holds s.world.state

section Workers

variable [Fintype W] {s : System W F}

omit [DecidableEq W] [DecidableEq F] [Fintype W] in
theorem canStop_spec (stops : s.canStop = true) :
    s.state = .stopping ∧ s.threads = 0 ∧ s.world.activeThreadCount = 0 ∧ s.world.tasks = [] := by
  simpa [System.canStop, and_assoc] using stops

omit [DecidableEq W] [DecidableEq F] [Fintype W] in
theorem canStop_of_ioCanStop {pendingEventCount : Nat} (stops : s.ioCanStop pendingEventCount = true) :
    s.canStop = true := by
  simp only [System.ioCanStop, Bool.and_eq_true] at stops
  exact stops.1.1

omit [DecidableEq W] [DecidableEq F] in
theorem allDone_iff (counts : s.world.Counts) (stops : s.canStop = true) :
    s.AllDone ↔ ∀ w, ¬ (s.world.pc w).InWindow s.world.state := by
  obtain ⟨-, -, inactive, empty⟩ := canStop_spec stops
  have uncounted : ∀ w, (s.world.pc w).counted = 0 := fun w => by
    have le := counts.counted_le (w := w) rfl
    omega
  constructor
  · intro done w window
    exact done.2 w ((Pc.holds_iff_inWindow _ (uncounted w)).mpr window)
  · intro clear
    refine ⟨fun task mem => ?_, fun w holds => ?_⟩
    · rw [empty] at mem
      cases mem
    · exact clear w ((Pc.holds_iff_inWindow _ (uncounted w)).mp holds)

/-- `can_stop`, of the scheduler and of the IO manager, is sound in exactly those moments of a run in
which no worker is in one of its two windows with a fiber that is not done. -/
theorem canStop_sound_iff (events : List (SystemEvent W F))
    (run : Run SystemStep System.init events s) :
    (s.canStop = true → (s.AllDone ↔ ∀ w, ¬ (s.world.pc w).InWindow s.world.state)) ∧
      ∀ pendingEventCount, s.ioCanStop pendingEventCount = true →
        (s.AllDone ↔ ∀ w, ¬ (s.world.pc w).InWindow s.world.state) := by
  have counts := counts_of_run run
  exact ⟨allDone_iff counts, fun _ stops => allDone_iff counts (canStop_of_ioCanStop stops)⟩

end Workers

/-- A fiber that has run to its end before the scheduler is stopped. -/
theorem canStop_sound_iff_finished : ∃ s : System Bool Unit, s.canStop = true ∧
    s.world.state () = .terminated ∧ s.AllDone := by
  refine ⟨_, rfl, rfl, ((canStop_sound_iff (W := Bool) (F := Unit)
    [.addFiber () none, .start, .worker (.take false), .worker (.inspect false),
      .worker (.activate false), .worker (.resume false ()), .worker (.finish false false),
      .worker (.switch false), .worker (.deactivate false), .stop, .swapThreads]
    (.cons (.addFiber none rfl) <| .cons (.start rfl) <| .cons (.worker (by decide) (.take rfl rfl)) <|
      .cons (.worker (by decide) (.inspectOther rfl (by decide) (by decide))) <|
      .cons (.worker (by decide) (.activate rfl)) <|
      .cons (.worker (by decide) (.resume rfl (by decide))) <|
      .cons (.worker (by decide) (.finish rfl false)) <| .cons (.worker (by decide) (.switch rfl)) <|
      .cons (.worker (by decide) (.deactivate rfl)) <| .cons (.stop rfl) <|
      .single (.swapThreads rfl))).1 rfl).mpr ?_⟩
  intro w
  cases w with
  | false =>
    rintro (ready | suspended)
    · cases ready
    · cases suspended
  | true => exact not_false

/-- Whenever `can_stop` answers that the scheduler can stop, there is no unfinished fiber. -/
def CanStopSound (W F : Type) [DecidableEq W] [DecidableEq F] [Fintype W] : Prop :=
  ∀ (events : List (SystemEvent W F)) (s : System W F), Run SystemStep System.init events s →
    s.canStop = true → s.AllDone

/-- A worker has erased the only task and not yet counted itself when the other asks. -/
theorem not_canStopSound : ¬ CanStopSound Bool Unit := by
  intro sound
  have done := sound [.addFiber () none, .start, .worker (.take false), .stop, .swapThreads] _
    (.cons (.addFiber none rfl) <| .cons (.start rfl) <| .cons (.worker (by decide) (.take rfl rfl)) <|
      .cons (.stop rfl) <| .single (.swapThreads rfl)) rfl
  have notEnded : ¬ FiberState.Ended .initing := by decide
  exact done.2 false notEnded

end Sylar.Scheduler
