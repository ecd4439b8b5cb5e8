import Sylar.Scheduler.System

/-!
# The scheduler conserves fibers

Where fibers yield, finish, throw and add fibers, and no hook puts them to sleep, a fiber is in
`tasks_` or in the `task` of one worker from its `add_fiber` until it ends. The place of the worker
that holds it says what its state is (`Pc.Fits`), so the checks of the loop go the one way: no fiber
taken is found `RUNNING` or ended, and none that has yielded is dropped.
-/

namespace Sylar.Scheduler

open Lib

variable {W F : Type} [DecidableEq W] [DecidableEq F]

/-! ## Occurrences -/

def Job.occurs (f : F) : Job F → Nat
  | .fiber g => one f g
  | .callback _ => 0

def Pc.occurs (f : F) (p : Pc F) : Nat := if p.hand = some f then 1 else 0

theorem Pc.occurs_of_hand {f : F} {p : Pc F} (hand : p.hand = some f) : p.occurs f = 1 := if_pos hand

theorem Pc.occurs_congr {p q : Pc F} (hand : p.hand = q.hand) (f : F) : p.occurs f = q.occurs f := by
  simp [occurs, hand]

theorem Pc.occurs_of_none {p : Pc F} (hand : p.hand = none) (f : F) : p.occurs f = 0 := by
  simp [occurs, hand]

omit [DecidableEq W] in
/-- How often a fiber is in a list of tasks. -/
theorem sum_occurs (tasks : List (Task W F)) (f : F) :
    (tasks.map fun task => task.job.occurs f).sum = (tasks.map Task.job).count (.fiber f) := by
  induction tasks with
  | nil => rfl
  | cons task tasks ih =>
    have here : task.job.occurs f = if (task.job == Job.fiber f) = true then 1 else 0 := by
      cases task.job <;> simp [Job.occurs, one]
    rw [List.map_cons, List.sum_cons, ih, here, List.map_cons, List.count_cons, Nat.add_comm]

section Workers

variable [Fintype W]

/-- How often a fiber is in `tasks_` or in the hands of a worker. -/
def World.occurs (s : World W F) (f : F) : Nat :=
  s.tally (Job.occurs f) (Pc.occurs f) fun _ => 0

omit [DecidableEq W] in
theorem occurs_eq (s : World W F) (f : F) : s.occurs f = s.queued f + s.held f := by
  have workers : ∑ w, Pc.occurs f (s.pc w) = s.held f := by
    rw [World.held, Finset.card_filter]
    rfl
  rw [World.occurs, World.tally, sum_occurs, workers, Nat.add_zero]
  rfl

omit [DecidableEq W] in
theorem hand_le_occurs {s : World W F} {w : W} {f : F} (hand : (s.pc w).hand = some f) :
    (s.tasks.map fun task => task.job.occurs f).sum + 1 ≤ s.occurs f := by
  have mine := Finset.single_le_sum (f := fun v => (s.pc v).occurs f) (fun _ _ => Nat.zero_le _)
    (Finset.mem_univ w)
  rw [Pc.occurs_of_hand hand] at mine
  simp only [World.occurs, World.tally]
  omega

/-- Two workers that hold one fiber are two occurrences. -/
theorem hands_le_occurs {s : World W F} {w w' : W} {f : F} (ne : w ≠ w')
    (hand : (s.pc w).hand = some f) (hand' : (s.pc w').hand = some f) : 2 ≤ s.occurs f := by
  have pair := pair_le_tally (Job.occurs f) (Pc.occurs f) (fun _ => 0) s ne
  rw [Pc.occurs_of_hand hand, Pc.occurs_of_hand hand'] at pair
  exact pair

/-! ## The invariant -/

/-- A fiber that is not on a stack and has not ended. -/
def Waiting (state : FiberState) : Prop := state = .initing ∨ state = .suspended

theorem Waiting.not_ended {state : FiberState} (h : Waiting state) : ¬ state.Ended := by
  rcases h with rfl | rfl <;> decide

/-- What a worker's place says about the fiber it holds. -/
def Pc.Fits (state : F → FiberState) : Pc F → Prop
  | .loop | .idle | .firing [] => True
  | .taken (.fiber f) | .counting f | .resuming f => Waiting (state f)
  | .running f => state f = .running
  | .switching f .yielded | .leaving f .yielded | .returned f .yielded | .requeue f .yielded =>
    state f = .suspended
  | .switching f .finished | .leaving f .finished | .returned f .finished => (state f).Ended
  | _ => False

omit [DecidableEq F] in
/-- A place speaks only of the fiber it holds. -/
theorem Pc.Fits.congr {state state' : F → FiberState} {p : Pc F} (h : p.Fits state)
    (same : ∀ f, p.hand = some f → state' f = state f) : p.Fits state' := by
  cases p with
  | taken job =>
    cases job with
    | fiber f =>
      rw [Fits, same f rfl]
      exact h
    | callback f => exact h
  | counting f | resuming f | running f =>
    rw [Fits, same f rfl]
    exact h
  | switching f leave | leaving f leave | returned f leave | requeue f leave =>
    cases leave <;> first | exact h | (rw [Fits, same f rfl]; exact h)
  | firing fs => cases fs <;> exact h
  | loop | idle => trivial
  | putBack f | armed f | callback f | woke f | called => exact h

/-- Fibers are conserved. -/
structure Conserved (s : System W F) : Prop where
  timers : s.world.timers = []
  tasks : ∀ task ∈ s.world.tasks, ∃ f, task.job = .fiber f ∧ Waiting (s.world.state f)
  fits : ∀ w, (s.world.pc w).Fits s.world.state
  once : ∀ f, s.world.occurs f ≤ 1
  fresh : ∀ f, s.scheduled f = none → s.world.occurs f = 0 ∧ s.world.state f = .initing
  kept : ∀ f, s.scheduled f ≠ none → ¬ (s.world.state f).Ended → s.world.occurs f = 1

/-- No fiber sleeps: fibers only yield, finish, throw or add fibers. -/
def Plain : System W F → SystemEvent W F → Prop
  | _, .worker (.arm _ _) => False
  | _, _ => True

variable {s : System W F}

omit [DecidableEq W] in
/-- A fiber in the list is in no worker's hands. -/
theorem Conserved.not_held (h : Conserved s) {task : Task W F} {f : F} (mem : task ∈ s.world.tasks)
    (job : task.job = .fiber f) (w : W) : (s.world.pc w).hand ≠ some f := by
  intro hand
  have held := hand_le_occurs hand
  have queued : 1 ≤ (s.world.tasks.map fun task => task.job.occurs f).sum := by
    rw [sum_occurs]
    exact List.count_pos_iff.mpr (List.mem_map.mpr ⟨task, mem, job⟩)
  have once := h.once f
  omega

theorem Conserved.single (h : Conserved s) {w w' : W} {f : F} (hand : (s.world.pc w).hand = some f)
    (hand' : (s.world.pc w').hand = some f) : w = w' := by
  by_contra ne
  have two := hands_le_occurs ne hand hand'
  have once := h.once f
  omega

/-- A step that moves one worker, changes the state of no fiber but the one it holds, and drops none
that has not ended. -/
theorem Conserved.goto (h : Conserved s) {world : World W F} {w : W} {p : Pc F}
    (same : world.pc = s.world.pc) (timers : world.timers = [])
    (states : ∀ f, (s.world.pc w).hand ≠ some f → world.state f = s.world.state f)
    (tasks : ∀ task ∈ world.tasks, task ∈ s.world.tasks ∨
      ∃ f, task.job = .fiber f ∧ Waiting (world.state f))
    (fits : p.Fits world.state)
    (balance : ∀ f, p.occurs f + (world.tasks.map fun task => task.job.occurs f).sum ≤
        (s.world.pc w).occurs f + (s.world.tasks.map fun task => task.job.occurs f).sum)
    (keeps : ∀ f, ¬ (world.state f).Ended → ¬ (s.world.state f).Ended ∧
      p.occurs f + (world.tasks.map fun task => task.job.occurs f).sum =
        (s.world.pc w).occurs f + (s.world.tasks.map fun task => task.job.occurs f).sum) :
    Conserved { s with world := world.goto w p } := by
  have moved : ∀ f, (world.goto w p).occurs f + ((s.world.pc w).occurs f +
      (s.world.tasks.map fun task => task.job.occurs f).sum) =
        s.world.occurs f + (p.occurs f + (world.tasks.map fun task => task.job.occurs f).sum) := fun f => by
    have := tally_goto (Job.occurs f) (Pc.occurs f) (fun _ => 0) s.world world w p same
    unfold World.occurs
    omega
  refine ⟨timers, fun task mem => ?_, fun v => ?_, fun f => ?_, fun f fresh => ?_, fun f added alive => ?_⟩
  · rcases tasks task mem with old | new
    · obtain ⟨f, job, waiting⟩ := h.tasks task old
      refine ⟨f, job, ?_⟩
      show Waiting (world.state f)
      rw [states f (h.not_held old job w)]
      exact waiting
    · exact new
  · show (Function.update world.pc w p v).Fits world.state
    by_cases eq : v = w
    · subst eq
      rw [Function.update_self]
      exact fits
    · rw [Function.update_of_ne eq, same]
      refine (h.fits v).congr fun f hand => states f fun hand' => ?_
      exact eq (h.single hand hand')
  · have once := h.once f
    have := moved f
    have := balance f
    show (world.goto w p).occurs f ≤ 1
    omega
  · obtain ⟨none, initing⟩ := h.fresh f fresh
    have := moved f
    have := balance f
    refine ⟨?_, ?_⟩
    · show (world.goto w p).occurs f = 0
      omega
    · refine (states f fun hand => ?_).trans initing
      have := hand_le_occurs hand
      omega
  · obtain ⟨before, equal⟩ := keeps f alive
    have kept := h.kept f added before
    have := moved f
    show (world.goto w p).occurs f = 1
    omega

omit [DecidableEq W] in
theorem Conserved.fits_at (h : Conserved s) {w : W} {p : Pc F} (at_ : s.world.pc w = p) :
    p.Fits s.world.state :=
  at_ ▸ h.fits w

/-- A move that leaves the list and the states alone, of a worker that keeps what it holds. -/
theorem Conserved.goto_same (h : Conserved s) {world : World W F} {w : W} {p : Pc F}
    (same : world.pc = s.world.pc) (timers : world.timers = []) (states : world.state = s.world.state)
    (tasks : world.tasks = s.world.tasks) (hand : p.hand = (s.world.pc w).hand)
    (fits : p.Fits s.world.state) : Conserved { s with world := world.goto w p } := by
  refine h.goto same timers (fun f _ => by rw [states]) (fun task mem => .inl (tasks ▸ mem))
    (by rw [states]; exact fits) (fun f => ?_) (fun f alive => ⟨by rw [← states]; exact alive, ?_⟩)
  · rw [tasks, Pc.occurs_congr hand]
  · rw [tasks, Pc.occurs_congr hand]

/-- A worker on a fiber's stack stores the fiber's new state. -/
theorem Conserved.goto_state (h : Conserved s) {world : World W F} {w : W} {p : Pc F} {f : F}
    (same : world.pc = s.world.pc) (timers : world.timers = []) (tasks : world.tasks = s.world.tasks)
    (states : ∀ g, g ≠ f → world.state g = s.world.state g) (alive : ¬ (s.world.state f).Ended)
    (hand : (s.world.pc w).hand = some f) (keeps : p.hand = some f) (fits : p.Fits world.state) :
    Conserved { s with world := world.goto w p } := by
  have equal : ∀ g, p.occurs g = (s.world.pc w).occurs g := Pc.occurs_congr (keeps.trans hand.symm)
  refine h.goto same timers (fun g ne => states g fun eq => ne (eq ▸ hand))
    (fun task mem => .inl (tasks ▸ mem)) fits (fun g => ?_) (fun g notEnded => ⟨?_, ?_⟩)
  · rw [tasks, equal]
  · by_cases eq : g = f
    · rw [eq]
      exact alive
    · rw [← states g eq]
      exact notEnded
  · rw [tasks, equal]

/-! ## One step -/

theorem Conserved.worker (h : Conserved s) {e : Event W F} {world : World W F}
    (step : Step s.world e world) (plain : Plain s (.worker e)) :
    Conserved { s with world := world } := by
  cases step with
  | take at_ found =>
    rename_i w job rest
    obtain ⟨task, here, rfl, -⟩ := takeTask_mem found
    obtain ⟨f, job, waiting⟩ := h.tasks task here
    have sums := fun g => sum_takeTask (Job.occurs g) found
    have none := fun g => Pc.occurs_of_none (p := s.world.pc w) (by rw [at_]; rfl) g
    have mine : ∀ g, (Pc.taken task.job).occurs g = task.job.occurs g := fun g => by
      simp [Pc.occurs, job, Pc.hand, Job.occurs, one]
    refine h.goto rfl h.timers (fun _ _ => rfl) (fun other mem => .inl (takeTask_subset found mem)) ?_
      (fun g => ?_) (fun g alive => ⟨alive, ?_⟩)
    · rw [job]
      exact waiting
    · rw [none, mine, sums, Nat.zero_add]
    · rw [none, mine, sums, Nat.zero_add]
  | requeue at_ =>
    rename_i w f leave
    have fits := h.fits_at at_
    cases leave with
    | yielded =>
      have sums := fun g => sum_addFiber (Job.occurs g) s.world (.fiber f)
      have mine : ∀ g, (s.world.pc w).occurs g = one g f := fun g => by
        simp [Pc.occurs, at_, Pc.hand, one]
      have none : ∀ g, (Pc.loop : Pc F).occurs g = 0 := Pc.occurs_of_none rfl
      rw [if_neg (by decide : Leave.yielded ≠ .slept)]
      refine h.goto rfl h.timers (fun _ _ => rfl) (fun task mem => ?_) trivial (fun g => ?_)
        (fun g alive => ⟨alive, ?_⟩)
      · rcases List.mem_append.mp mem with mem | mem
        · exact .inl mem
        · rw [List.mem_singleton.mp mem]
          exact .inr ⟨f, rfl, .inr fits⟩
      · rw [none, mine, sums, Job.occurs]
        omega
      · rw [none, mine, sums, Job.occurs]
        omega
    | slept | finished => exact absurd fits not_false
  | resume at_ notEnded =>
    rename_i w f
    refine h.goto_state (f := f) rfl h.timers rfl (fun g ne => Function.update_of_ne ne ..)
      (not_or.mpr notEnded) (by rw [at_]; rfl) rfl ?_
    exact Function.update_self ..
  | yield at_ =>
    rename_i w f
    have running : s.world.state f = .running := h.fits_at at_
    obtain ⟨stored, others⟩ := leaveState_state .suspended running
    have unfolded : s.world.leaveState f .suspended = s.world.setState f .suspended := if_pos running
    rw [unfolded] at stored others ⊢
    exact h.goto_state rfl h.timers rfl others (by rw [running]; decide) (by rw [at_]; rfl) rfl stored
  | finish at_ threw =>
    rename_i w f
    have running : s.world.state f = .running := h.fits_at at_
    refine h.goto_state (f := f) rfl h.timers rfl (fun g ne => Function.update_of_ne ne ..)
      (by rw [running]; decide) (by rw [at_]; rfl) rfl ?_
    show ((s.world.setState f _).state f).Ended
    have stored : (s.world.setState f (if threw then .exception else .terminated)).state f =
        if threw then .exception else .terminated := Function.update_self ..
    rw [stored]
    cases threw <;> decide
  | lookOther at_ notReady =>
    rename_i w f leave
    have fits := h.fits_at at_
    cases leave with
    | yielded => exact absurd fits notReady.2
    | slept => exact absurd fits not_false
    | finished =>
      -- the fiber has ended: it leaves the worker's hands
      have mine : ∀ g, (s.world.pc w).occurs g = one g f := fun g => by
        simp [Pc.occurs, at_, Pc.hand, one]
      have none : ∀ g, (Pc.loop : Pc F).occurs g = 0 := Pc.occurs_of_none rfl
      refine h.goto rfl h.timers (fun _ _ => rfl) (fun _ mem => .inl mem) trivial (fun g => ?_)
        (fun g alive => ⟨alive, ?_⟩)
      · rw [none]
        omega
      · have ne : f ≠ g := fun eq => alive (eq ▸ fits)
        rw [none, mine, one, if_neg ne]
  | expire at_ due =>
    rename_i w fs
    rw [h.timers] at due
    obtain rfl := List.subperm_nil.mp due
    exact h.goto_same rfl h.timers rfl rfl (by rw [at_]; rfl) trivial
  | fire at_ | inspectCallback at_ | putBack at_ | sleep at_ | wakeup at_ | addWoken at_
  | deactivateCalled at_ =>
    exact absurd (h.fits_at at_) not_false
  | inspectEnded at_ ended | resumeEnded at_ ended =>
    exact absurd ended (h.fits_at at_).not_ended
  | inspectRunning at_ runs =>
    rcases h.fits_at at_ with waits | waits <;> exact nomatch runs.symm.trans waits
  | arm at_ inserted => exact absurd plain not_false
  | lookReady at_ ready =>
    rename_i w f leave
    have fits := h.fits_at at_
    cases leave with
    | yielded => exact h.goto_same rfl h.timers rfl rfl (by rw [at_]; rfl) fits
    | slept => exact absurd fits not_false
    | finished => rcases fits with isOver | isOver <;> rw [isOver] at ready <;> exact absurd ready (by decide)
  | switch at_ | deactivate at_ =>
    rename_i w f leave
    refine h.goto_same rfl h.timers rfl rfl (by rw [at_]; rfl) ?_
    have fits := h.fits_at at_
    cases leave <;> exact fits
  | inspectOther at_ | activate at_ =>
    have fits := h.fits_at at_
    exact h.goto_same rfl h.timers rfl rfl (by rw [at_]; rfl) fits
  | idle at_ | fired at_ => exact h.goto_same rfl h.timers rfl rfl (by rw [at_]; rfl) trivial

omit [DecidableEq W] in
/-- A new fiber. -/
theorem Conserved.addFiber (h : Conserved s) {f : F} (thread : Option W)
    (fresh : s.scheduled f = none) : Conserved (s.addFiber f thread) := by
  obtain ⟨absent, initing⟩ := h.fresh f fresh
  have occurs : ∀ g, (s.addFiber f thread).world.occurs g = s.world.occurs g + one g f := fun g => by
    simp [System.addFiber, World.occurs, World.tally, Job.occurs]
    omega
  refine ⟨h.timers, fun task mem => ?_, h.fits, fun g => ?_, fun g unscheduled => ?_,
    fun g added alive => ?_⟩
  · rcases List.mem_append.mp mem with mem | mem
    · exact h.tasks task mem
    · rw [List.mem_singleton.mp mem]
      exact ⟨f, rfl, .inl initing⟩
  · rw [occurs, one]
    by_cases eq : f = g
    · subst eq
      rw [absent, if_pos rfl]
    · rw [if_neg eq]
      exact h.once g
  · have ne : g ≠ f := fun eq => by
      rw [eq, System.addFiber_scheduled_self] at unscheduled
      cases unscheduled
    rw [System.addFiber_scheduled_ne s thread ne] at unscheduled
    rw [occurs, one, if_neg ne.symm]
    exact h.fresh g unscheduled
  · rw [occurs, one]
    by_cases eq : f = g
    · subst eq
      rw [absent, if_pos rfl]
    · rw [System.addFiber_scheduled_ne s thread (Ne.symm eq)] at added
      rw [if_neg eq]
      exact h.kept g added alive

theorem Conserved.step (h : Conserved s) {s' : System W F} {e : SystemEvent W F}
    (step : SystemStep s e s') (plain : Plain s e) : Conserved s' := by
  cases step with
  | worker started step => exact h.worker step plain
  | addFiber thread fresh => exact h.addFiber thread fresh
  | start | stop | swapThreads => exact ⟨h.timers, h.tasks, h.fits, h.once, h.fresh, h.kept⟩

omit [DecidableEq W] in
theorem conserved_init : Conserved (System.init : System W F) := by
  have absent : ∀ f, (System.init : System W F).world.occurs f = 0 := fun f => by
    simp [System.init, Scheduler.init, World.occurs, World.tally, Pc.occurs, Pc.hand]
  refine ⟨rfl, (fun _ mem => absurd mem List.not_mem_nil), fun _ => trivial, fun f => ?_,
    fun f _ => ⟨absent f, rfl⟩, fun f added => absurd rfl added⟩
  rw [absent]
  exact Nat.zero_le 1

/-! ## Runs -/

omit [DecidableEq W] in
/-- A worker at one of the places where a fiber is resumed or runs holds one that has not ended. -/
theorem Conserved.not_at (h : Conserved s) {f : F} (ended : (s.world.state f).Ended) (w : W) :
    s.world.pc w ≠ .resuming f ∧ s.world.pc w ≠ .running f ∧ s.world.pc w ≠ .armed f ∧
      s.world.pc w ≠ .callback f := by
  refine ⟨fun at_ => ?_, fun at_ => ?_, fun at_ => h.fits_at at_, fun at_ => h.fits_at at_⟩
  · exact (h.fits_at at_).not_ended ended
  · have running : s.world.state f = .running := h.fits_at at_
    rw [running] at ended
    exact absurd ended (by decide)

/-- A fiber that has ended keeps its state, and no step resumes it. -/
theorem Conserved.ended_step (h : Conserved s) {s' : System W F} {e : SystemEvent W F} {f : F}
    (step : SystemStep s e s') (ended : (s.world.state f).Ended) :
    (s'.world.state f).Ended ∧ ∀ w, e ≠ .worker (.resume w f) := by
  cases step with
  | worker started step =>
    refine ⟨?_, fun w eq => ?_⟩
    · rcases step_state step f with same | ⟨w, at_⟩
      · rw [same]
        exact ended
      · obtain ⟨notResuming, notRunning, notArmed, notCallback⟩ := h.not_at ended w
        rcases at_ with at_ | at_ | at_ | at_
        · exact absurd at_ notResuming
        · exact absurd at_ notRunning
        · exact absurd at_ notArmed
        · exact absurd at_ notCallback
    · cases SystemEvent.worker.inj eq
      cases step with
      | resume at_ | resumeEnded at_ => exact (h.not_at ended w).1 at_
  | addFiber | start | stop | swapThreads => exact ⟨ended, fun w eq => nomatch eq⟩

theorem Conserved.never_resumed {s' : System W F} {events : List (SystemEvent W F)} {f : F}
    (run : Run (Guarded SystemStep Plain) s events s') (h : Conserved s) (ended : (s.world.state f).Ended)
    (w : W) : .worker (.resume w f) ∉ events := by
  induction run with
  | nil => exact List.not_mem_nil
  | cons step _ ih =>
    obtain ⟨ended', other⟩ := h.ended_step step.1 ended
    intro mem
    rcases List.mem_cons.mp mem with eq | mem
    · exact other w eq.symm
    · exact ih (h.step step.1 step.2) ended' mem

/-- The scheduler conserves its fibers in a state, and in the runs from it. -/
structure Conserves (s : System W F) : Prop where
  /-- An unfinished fiber is once in `tasks_` or in a worker's hands. -/
  once : ∀ f, s.scheduled f ≠ none → ¬ (s.world.state f).Ended →
    s.world.queued f + s.world.held f = 1
  /-- No two workers hold a fiber. -/
  apart : ∀ f w w', (s.world.pc w).hand = some f → (s.world.pc w').hand = some f → w = w'
  /-- A fiber that has returned or thrown is not resumed again. -/
  notAgain : ∀ f, (s.world.state f).Ended → ∀ events s', Run (Guarded SystemStep Plain) s events s' →
    ∀ w, .worker (.resume w f) ∉ events
  /-- A worker takes the first task it may run and leaves the others in their order. -/
  order : ∀ w s', SystemStep s (.worker (.take w)) s' →
    (s'.world.tasks = s.world.tasks ∧
      ∀ task ∈ s.world.tasks, task.thread ≠ none ∧ task.thread ≠ some w) ∨
    ∃ before task after, s.world.tasks = before ++ task :: after ∧ s'.world.tasks = before ++ after ∧
      s'.world.pc w = .taken task.job ∧ (task.thread = none ∨ task.thread = some w) ∧
      ∀ other ∈ before, other.thread ≠ none ∧ other.thread ≠ some w

theorem take_order {s' : System W F} {w : W} (step : SystemStep s (.worker (.take w)) s') :
    (s'.world.tasks = s.world.tasks ∧
      ∀ task ∈ s.world.tasks, task.thread ≠ none ∧ task.thread ≠ some w) ∨
    ∃ before task after, s.world.tasks = before ++ task :: after ∧ s'.world.tasks = before ++ after ∧
      s'.world.pc w = .taken task.job ∧ (task.thread = none ∨ task.thread = some w) ∧
      ∀ other ∈ before, other.thread ≠ none ∧ other.thread ≠ some w := by
  cases step with
  | worker started step =>
    cases step with
    | take at_ found =>
      obtain ⟨before, task, after, tasks, rfl, rfl, eligible, others⟩ := takeTask_eq_some found
      exact .inr ⟨before, task, after, tasks, rfl, Function.update_self .., eligible, others⟩
    | idle at_ found => exact .inl ⟨rfl, takeTask_eq_none found⟩

/-- For every number of workers and in every interleaving of their steps, fibers that only yield,
finish, throw or add fibers are conserved. -/
theorem fibers_conserved (events : List (SystemEvent W F))
    (run : Run (Guarded SystemStep Plain) System.init events s) : Conserves s := by
  have h : Conserved s :=
    run.invariant (I := Conserved) (fun _ _ _ h step => h.step step.1 step.2) conserved_init
  refine ⟨fun f added alive => ?_, fun f w w' => h.single, fun f ended events s' later => ?_,
    fun w s' => take_order⟩
  · rw [← occurs_eq]
    exact h.kept f added alive
  · exact h.never_resumed later ended

end Workers

/-- A fiber yields on one worker and is taken by the other, while a second one waits for the first. -/
theorem fibers_conserved_taken : ∃ s : System Bool Bool, Conserves s ∧
    s.world.tasks = [⟨some false, .fiber true⟩] ∧ s.world.pc true = .taken (.fiber false) := by
  refine ⟨_, fibers_conserved (W := Bool) (F := Bool)
    [.addFiber false none, .start, .addFiber true (some false), .worker (.take false),
      .worker (.inspect false), .worker (.activate false), .worker (.resume false false),
      .worker (.yield false), .worker (.switch false), .worker (.deactivate false),
      .worker (.look false false .yielded), .worker (.requeue false), .worker (.take true)]
    (.cons ⟨.addFiber none rfl, trivial⟩ <| .cons ⟨.start rfl, trivial⟩ <|
      .cons ⟨.addFiber (some false) rfl, trivial⟩ <| .cons ⟨.worker (by decide) (.take rfl rfl), trivial⟩ <|
      .cons ⟨.worker (by decide) (.inspectOther rfl (by decide) (by decide)), trivial⟩ <|
      .cons ⟨.worker (by decide) (.activate rfl), trivial⟩ <|
      .cons ⟨.worker (by decide) (.resume rfl (by decide)), trivial⟩ <|
      .cons ⟨.worker (by decide) (.yield rfl), trivial⟩ <|
      .cons ⟨.worker (by decide) (.switch rfl), trivial⟩ <|
      .cons ⟨.worker (by decide) (.deactivate rfl), trivial⟩ <|
      .cons ⟨.worker (by decide) (.lookReady rfl (by decide)), trivial⟩ <|
      .cons ⟨.worker (by decide) (.requeue rfl), trivial⟩ <|
      .single ⟨.worker (by decide) (.take rfl rfl), trivial⟩), rfl, rfl⟩

end Sylar.Scheduler
