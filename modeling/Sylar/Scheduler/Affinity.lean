import Sylar.Scheduler.System

/-!
# Threads and put back fibers

The thread a fiber is scheduled with stands in its task. The loop copies the task, and every path that
puts the fiber back, after a yield, after it was found `RUNNING`, or out of a hooked sleep, calls
`add_fiber` with the fiber alone: the new task has no thread and any worker may take it. Until then
the fiber is only taken by its worker.
-/

namespace Sylar.Scheduler

open Lib

variable {W F : Type}

/-! ## Fibers that are named somewhere -/

def Job.of : Job F → F
  | .fiber f | .callback f => f

/-- The fibers a worker's place names. -/
def Pc.fibers : Pc F → List F
  | .taken job => [job.of]
  | .putBack f | .counting f | .resuming f | .running f | .armed f | .switching f _ | .leaving f _
  | .returned f _ | .requeue f _ | .callback f | .woke f => [f]
  | .firing fs => fs
  | .loop | .idle | .called => []

/-- The fiber is in a task, has a timer armed, or is named by the place of a worker. -/
def World.Names (s : World W F) (f : F) : Prop :=
  (∃ task ∈ s.tasks, task.job.of = f) ∨ f ∈ s.timers ∨ ∃ w, f ∈ (s.pc w).fibers

theorem names_at {s : World W F} {w : W} {p : Pc F} {f : F} (at_ : s.pc w = p) (mem : f ∈ p.fibers) :
    s.Names f :=
  .inr (.inr ⟨w, at_ ▸ mem⟩)

/-! ## Fibers bound to a thread -/

/-- The worker has taken the fiber and may come to resume it. -/
def Pc.Readies (f : F) : Pc F → Prop
  | .taken (.fiber g) | .counting g | .resuming g => g = f
  | _ => False

theorem Pc.Readies.mem_fibers {f : F} {p : Pc F} (readies : p.Readies f) : f ∈ p.fibers := by
  cases p with
  | taken job =>
    cases job with
    | fiber g => exact List.mem_singleton.mpr (Eq.symm readies)
    | callback g => exact absurd readies not_false
  | counting g | resuming g => exact List.mem_singleton.mpr (Eq.symm readies)
  | _ => exact absurd readies not_false

/-- The fiber's tasks have the thread, and only that worker has taken it. -/
structure World.BoundTo (s : World W F) (f : F) (t : W) : Prop where
  tasks : ∀ task ∈ s.tasks, task.job = .fiber f → task.thread = some t
  taken : ∀ w, (s.pc w).Readies f → w = t

/-- A fiber that is named nowhere is bound to any thread. -/
theorem boundTo_of_not_names {s : World W F} {f : F} (absent : ¬ s.Names f) (t : W) : s.BoundTo f t := by
  refine ⟨fun task mem job => ?_, fun w readies => ?_⟩
  · have names : s.Names f := .inl ⟨task, mem, by rw [job]; rfl⟩
    exact absurd names absent
  · have names : s.Names f := names_at rfl readies.mem_fibers
    exact absurd names absent

/-- Fibers scheduled with a thread are with it, where there is another worker at all. -/
structure Affine (s : System W F) : Prop where
  named : ∀ f, s.world.Names f → s.scheduled f ≠ none
  bound : ∀ f t, s.scheduled f = some (some t) → (∀ w, w = t) ∨ s.world.BoundTo f t

theorem affine_init : Affine (System.init : System W F) := by
  refine ⟨fun f names => ?_, fun f t scheduled => nomatch scheduled⟩
  rcases names with ⟨task, mem, -⟩ | mem | ⟨w, mem⟩ <;> exact nomatch mem

/-! ## Moves of one worker -/

variable [DecidableEq W]

theorem names_of_goto {s s₁ : World W F} {w : W} {p : Pc F} {f : F} (names : (s₁.goto w p).Names f)
    (same : s₁.pc = s.pc) (tasks : ∀ task ∈ s₁.tasks, task.job.of = f → s.Names f)
    (timers : f ∈ s₁.timers → s.Names f) (place : f ∈ p.fibers → s.Names f) : s.Names f := by
  rcases names with ⟨task, mem, job⟩ | mem | ⟨v, mem⟩
  · exact tasks task mem job
  · exact timers mem
  · by_cases eq : v = w
    · rw [eq, goto_pc_self] at mem
      exact place mem
    · rw [goto_pc_ne s₁ p eq, same] at mem
      exact names_at rfl mem

/-- A move that leaves the list and the timers alone. -/
theorem names_of_goto_same {s s₁ : World W F} {w : W} {p q : Pc F} {f : F}
    (names : (s₁.goto w p).Names f) (at_ : s.pc w = q) (place : p.fibers ⊆ q.fibers)
    (same : s₁.pc = s.pc) (tasks : s₁.tasks = s.tasks) (timers : s₁.timers = s.timers) : s.Names f := by
  refine names_of_goto names same (fun task mem job => ?_) (fun mem => ?_) (fun mem => ?_)
  · exact .inl ⟨task, tasks ▸ mem, job⟩
  · exact .inr (.inl (timers ▸ mem))
  · exact names_at at_ (place mem)

/-- A move that adds one task. -/
theorem names_of_goto_add {s s₁ : World W F} {w : W} {p q : Pc F} {f : F} {new : Task W F}
    (names : (s₁.goto w p).Names f) (at_ : s.pc w = q) (place : p.fibers ⊆ q.fibers)
    (added : new.job.of ∈ q.fibers) (same : s₁.pc = s.pc) (tasks : s₁.tasks = s.tasks ++ [new])
    (timers : s₁.timers = s.timers) : s.Names f := by
  refine names_of_goto names same (fun task mem job => ?_) (fun mem => ?_) (fun mem => ?_)
  · rw [tasks] at mem
    rcases List.mem_append.mp mem with mem | mem
    · exact .inl ⟨task, mem, job⟩
    · rw [List.mem_singleton.mp mem] at job
      exact names_at at_ (job ▸ added)
  · exact .inr (.inl (timers ▸ mem))
  · exact names_at at_ (place mem)

theorem World.BoundTo.goto {s s₁ : World W F} {f : F} {t w : W} {p : Pc F} (h : s.BoundTo f t)
    (same : s₁.pc = s.pc) (tasks : ∀ task ∈ s₁.tasks, task.job = .fiber f → task.thread = some t)
    (place : p.Readies f → w = t) : (s₁.goto w p).BoundTo f t := by
  refine ⟨tasks, fun v readies => ?_⟩
  by_cases eq : v = w
  · rw [eq, goto_pc_self] at readies
    rw [eq]
    exact place readies
  · rw [goto_pc_ne s₁ p eq, same] at readies
    exact h.taken v readies

/-- A move that leaves the list alone. -/
theorem World.BoundTo.goto_same {s s₁ : World W F} {f : F} {t w : W} {p q : Pc F} (h : s.BoundTo f t)
    (at_ : s.pc w = q) (same : s₁.pc = s.pc) (tasks : s₁.tasks = s.tasks)
    (place : p.Readies f → q.Readies f) : (s₁.goto w p).BoundTo f t := by
  refine h.goto same (fun task mem => h.tasks task (tasks ▸ mem)) (fun readies => h.taken w ?_)
  rw [at_]
  exact place readies

/-- A move that adds a task of another fiber. -/
theorem World.BoundTo.goto_add {s s₁ : World W F} {f g : F} {t w : W} {p : Pc F} (h : s.BoundTo f t)
    (ne : g ≠ f) (same : s₁.pc = s.pc) (tasks : s₁.tasks = s.tasks ++ [⟨none, .fiber g⟩])
    (place : ¬ p.Readies f) : (s₁.goto w p).BoundTo f t := by
  refine h.goto same (fun task mem job => ?_) (fun readies => absurd readies place)
  rw [tasks] at mem
  rcases List.mem_append.mp mem with mem | mem
  · exact h.tasks task mem job
  · rw [List.mem_singleton.mp mem] at job
    exact absurd (Job.fiber.inj job) ne

/-! ## Steps -/

variable [DecidableEq F]

/-- No step of a worker names a fiber that was not named. -/
theorem names_step {s s' : World W F} {e : Event W F} {f : F} (step : Step s e s') (names : s'.Names f) :
    s.Names f := by
  cases step with
  | take at_ found =>
    obtain ⟨task, here, rfl, -⟩ := takeTask_mem found
    refine names_of_goto names rfl (fun other mem job => ?_) (fun mem => .inr (.inl mem)) (fun mem => ?_)
    · exact .inl ⟨other, takeTask_subset found mem, job⟩
    · exact .inl ⟨task, here, (List.mem_singleton.mp mem).symm⟩
  | expire at_ due =>
    refine names_of_goto names rfl (fun task mem job => .inl ⟨task, mem, job⟩) (fun mem => ?_)
      (fun mem => ?_)
    · exact .inr (.inl (List.diff_subset _ _ mem))
    · exact .inr (.inl (due.subset mem))
  | arm at_ inserted =>
    refine names_of_goto names rfl (fun task mem job => .inl ⟨task, mem, job⟩) (fun mem => ?_)
      (fun mem => names_at at_ mem)
    dsimp only at mem
    split at mem
    · rcases List.mem_cons.mp mem with rfl | mem
      · exact names_at at_ (List.mem_singleton_self _)
      · exact .inr (.inl mem)
    · exact .inr (.inl mem)
  | putBack at_ | addWoken at_ =>
    exact names_of_goto_add names at_ (List.nil_subset _) (List.mem_singleton_self _) rfl rfl rfl
  | requeue at_ =>
    rename_i w g leave
    have new : (⟨none, .fiber g⟩ : Task W F).job.of ∈ (Pc.requeue g leave).fibers :=
      List.mem_singleton_self g
    rw [bookRequeue_eq] at names
    exact names_of_goto_add names at_ (List.nil_subset _) new rfl rfl rfl
  | fire at_ =>
    exact names_of_goto_add names at_ (List.subset_cons_self _ _) List.mem_cons_self rfl rfl rfl
  | yield at_ | sleep at_ =>
    rw [leaveState_eq] at names
    exact names_of_goto_same names at_ (List.Subset.refl _) rfl rfl rfl
  | wakeup at_ =>
    rw [fiberWakeup_eq] at names
    exact names_of_goto_same names at_ (List.Subset.refl _) rfl rfl rfl
  | idle at_ | inspectEnded at_ | lookOther at_ | fired at_ | deactivateCalled at_ =>
    exact names_of_goto_same names at_ (List.nil_subset _) rfl rfl rfl
  | inspectRunning at_ | inspectOther at_ | inspectCallback at_ | activate at_ | resume at_
  | resumeEnded at_ | finish at_ | switch at_ | deactivate at_ | lookReady at_ =>
    exact names_of_goto_same names at_ (List.Subset.refl _) rfl rfl rfl

/-- The fiber a step puts back into `tasks_`. -/
def putsBack (s : World W F) : Event W F → Option F
  | .putBack w | .requeue w | .addWoken w =>
    match s.pc w with
    | .putBack f | .requeue f _ | .woke f => some f
    | _ => none
  | _ => none

/-- A step of a worker either keeps the fiber with its thread or puts it back. -/
theorem World.BoundTo.step {s s' : World W F} {e : Event W F} {f : F} {t : W} (h : s.BoundTo f t)
    (step : Step s e s') : s'.BoundTo f t ∨ putsBack s e = some f := by
  cases step with
  | take at_ found =>
    obtain ⟨task, here, rfl, eligible⟩ := takeTask_mem found
    refine .inl (h.goto rfl (fun other mem => h.tasks other (takeTask_subset found mem)) (fun readies => ?_))
    · have job : task.job = .fiber f := by
        cases eq : task.job with
        | fiber g =>
          rw [eq] at readies
          rw [show g = f from readies]
        | callback g =>
          rw [eq] at readies
          exact absurd readies not_false
      have thread := h.tasks task here job
      rcases eligible with none | mine
      · cases none.symm.trans thread
      · exact Option.some.inj (mine.symm.trans thread)
  | putBack at_ | addWoken at_ =>
    rename_i w g
    by_cases eq : g = f
    · exact .inr (by simp only [putsBack, at_, eq])
    · exact .inl (h.goto_add eq rfl rfl not_false)
  | requeue at_ =>
    rename_i w g leave
    by_cases eq : g = f
    · exact .inr (by simp only [putsBack, at_, eq])
    · rw [bookRequeue_eq]
      exact .inl (h.goto_add eq rfl rfl not_false)
  | fire at_ =>
    refine .inl (h.goto rfl (fun task mem job => ?_) (fun readies => absurd readies not_false))
    rcases List.mem_append.mp mem with mem | mem
    · exact h.tasks task mem job
    · rw [List.mem_singleton.mp mem] at job
      cases job
  | inspectOther at_ | activate at_ => exact .inl (h.goto_same at_ rfl rfl id)
  | yield at_ | sleep at_ =>
    rw [leaveState_eq]
    exact .inl (h.goto_same at_ rfl rfl (fun readies => absurd readies not_false))
  | wakeup at_ =>
    rw [fiberWakeup_eq]
    exact .inl (h.goto_same at_ rfl rfl (fun readies => absurd readies not_false))
  | idle at_ | inspectEnded at_ | inspectRunning at_ | inspectCallback at_ | resume at_
  | resumeEnded at_ | finish at_ | arm at_ | switch at_ | deactivate at_ | lookReady at_
  | lookOther at_ | expire at_ | fired at_ | deactivateCalled at_ =>
    exact .inl (h.goto_same at_ rfl rfl (fun readies => absurd readies not_false))

/-- The step puts no fiber back that was scheduled with a thread, or that thread's is the only id there
is: `∀ w, w = t` ranges over every id of `W`, also one whose worker takes no step in the run. -/
def PutsBackUnbound (s : System W F) : SystemEvent W F → Prop
  | .worker e => ∀ f t, putsBack s.world e = some f → s.scheduled f = some (some t) → ∀ w, w = t
  | _ => True

variable {s : System W F}

omit [DecidableEq W] in
theorem Affine.addFiber (h : Affine s) {f : F} (thread : Option W) (fresh : s.scheduled f = none) :
    Affine (s.addFiber f thread) := by
  refine ⟨fun g names => ?_, fun g t scheduled => ?_⟩
  · by_cases eq : g = f
    · rw [eq, System.addFiber_scheduled_self]
      exact Option.some_ne_none thread
    · rw [System.addFiber_scheduled_ne s thread eq]
      refine h.named g ?_
      rcases names with ⟨task, mem, job⟩ | elsewhere
      · rcases List.mem_append.mp mem with mem | mem
        · exact .inl ⟨task, mem, job⟩
        · rw [List.mem_singleton.mp mem] at job
          exact absurd job.symm eq
      · exact .inr elsewhere
  · by_cases eq : g = f
    · subst eq
      rw [System.addFiber_scheduled_self] at scheduled
      obtain rfl := Option.some.inj scheduled
      have old := boundTo_of_not_names (fun names => h.named g names fresh) t
      refine .inr ⟨fun task mem job => ?_, old.taken⟩
      rcases List.mem_append.mp mem with mem | mem
      · exact old.tasks task mem job
      · rw [List.mem_singleton.mp mem]
    · rw [System.addFiber_scheduled_ne s thread eq] at scheduled
      refine (h.bound g t scheduled).imp_right fun old => ⟨fun task mem job => ?_, old.taken⟩
      rcases List.mem_append.mp mem with mem | mem
      · exact old.tasks task mem job
      · rw [List.mem_singleton.mp mem] at job
        exact absurd (Job.fiber.inj job).symm eq

section Workers

variable [Fintype W]

theorem Affine.step (h : Affine s) {s' : System W F} {e : SystemEvent W F} (step : SystemStep s e s')
    (unbound : PutsBackUnbound s e) : Affine s' := by
  cases step with
  | worker started step =>
    refine ⟨fun f names => h.named f (names_step step names), fun f t scheduled => ?_⟩
    rcases h.bound f t scheduled with alone | bound
    · exact .inl alone
    · rcases bound.step step with kept | back
      · exact .inr kept
      · exact .inl (unbound f t back scheduled)
  | addFiber thread fresh => exact h.addFiber thread fresh
  | start | stop | swapThreads => exact ⟨h.named, h.bound⟩

end Workers

/-! ## Runs -/

/-- In every run whose steps meet `cond`, a fiber scheduled with a thread is only resumed by that
thread's worker. -/
def KeepsAffinity (W F : Type) [DecidableEq W] [DecidableEq F] [Fintype W]
    (cond : System W F → SystemEvent W F → Prop) : Prop :=
  ∀ (events : List (SystemEvent W F)) (s : System W F),
    Run (Guarded SystemStep cond) System.init events s → ∀ f t, s.scheduled f = some (some t) →
      ∀ w s', SystemStep s (.worker (.resume w f)) s' → w = t

/-- A fiber scheduled with a thread stays with it as long as it is not put back. -/
theorem keepsAffinity_unbound [Fintype W] : KeepsAffinity W F PutsBackUnbound := by
  intro events s run f t scheduled w s' step
  have h : Affine s :=
    run.invariant (I := Affine) (fun _ _ _ h step => h.step step.1 step.2) affine_init
  rcases h.bound f t scheduled with alone | bound
  · exact alone w
  · cases step with
    | worker started step =>
      have readies : (s.world.pc w).Readies f := by
        cases step with
        | resume at_ | resumeEnded at_ =>
          rw [at_]
          rfl
      exact bound.taken w readies

/-- The run of a fiber that is scheduled with the first of two workers, up to its first resumption. -/
theorem keepsAffinity_unbound_first : ∃ s s' : System Bool Unit, s.scheduled () = some (some false) ∧
    SystemStep s (.worker (.resume false ())) s' ∧
    ∀ w s', SystemStep s (.worker (.resume w ())) s' → w = false := by
  refine ⟨_, _, rfl, .worker (by decide) (.resume rfl (by decide)),
    keepsAffinity_unbound (W := Bool) (F := Unit)
      [.addFiber () (some false), .start, .worker (.take false), .worker (.inspect false),
        .worker (.activate false)] _
      (.cons ⟨.addFiber (some false) rfl, trivial⟩ <| .cons ⟨.start rfl, trivial⟩ <|
        .cons ⟨.worker (by decide) (.take rfl rfl), fun _ _ back => nomatch back⟩ <|
        .cons ⟨.worker (by decide) (.inspectOther rfl (by decide) (by decide)),
          fun _ _ back => nomatch back⟩ <|
        .single ⟨.worker (by decide) (.activate rfl), fun _ _ back => nomatch back⟩) () false rfl⟩

/-- A fiber scheduled with the first of two workers yields, is put back without its thread, and is
resumed by the second. -/
theorem not_keepsAffinity : ¬ KeepsAffinity Bool Unit fun _ _ => True := by
  intro all
  have other := all
    [.addFiber () (some false), .start, .worker (.take false), .worker (.inspect false),
      .worker (.activate false), .worker (.resume false ()), .worker (.yield false),
      .worker (.switch false), .worker (.deactivate false), .worker (.look false () .yielded),
      .worker (.requeue false), .worker (.take true), .worker (.inspect true), .worker (.activate true)] _
    (.cons ⟨.addFiber (some false) rfl, trivial⟩ <| .cons ⟨.start rfl, trivial⟩ <|
      .cons ⟨.worker (by decide) (.take rfl rfl), trivial⟩ <|
      .cons ⟨.worker (by decide) (.inspectOther rfl (by decide) (by decide)), trivial⟩ <|
      .cons ⟨.worker (by decide) (.activate rfl), trivial⟩ <|
      .cons ⟨.worker (by decide) (.resume rfl (by decide)), trivial⟩ <|
      .cons ⟨.worker (by decide) (.yield rfl), trivial⟩ <|
      .cons ⟨.worker (by decide) (.switch rfl), trivial⟩ <|
      .cons ⟨.worker (by decide) (.deactivate rfl), trivial⟩ <|
      .cons ⟨.worker (by decide) (.lookReady rfl (by decide)), trivial⟩ <|
      .cons ⟨.worker (by decide) (.requeue rfl), trivial⟩ <|
      .cons ⟨.worker (by decide) (.take rfl rfl), trivial⟩ <|
      .cons ⟨.worker (by decide) (.inspectOther rfl (by decide) (by decide)), trivial⟩ <|
      .single ⟨.worker (by decide) (.activate rfl), trivial⟩)
    () false rfl true _ (.worker (by decide) (.resume rfl (by decide)))
  cases other

end Sylar.Scheduler
