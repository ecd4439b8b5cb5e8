import Sylar.Scheduler.Tally

/-!
# Hooked sleeps requeue once

Between a fiber's store of `SLEEPING` and the look its worker takes at the state after the switch, the
timer's callback may run on another worker. If it wakes the fiber there, the worker finds it
`SUSPENDED` and adds it as well; and once it is in `tasks_` a third worker may resume it while the
first is still on its stack. `Calm` excludes the two, and a timer that `timers_` does not take.

The proof counts tokens. A fiber has at most one: its task, its sleep timer, the callback on its way,
or the worker that holds it. Arming a timer hands the worker's token to the timer, and a calm look
after a sleep does not make a second one.
-/

namespace Sylar.Scheduler

open Lib

variable {W F : Type} [DecidableEq W] [DecidableEq F]

/-! ## Tokens -/

/-- A token for each task that will run the fiber or wake it. -/
def Job.tokens (f : F) : Job F → Nat
  | .fiber g | .callback g => one f g

/-- The tasks that will wake the fiber. -/
def Job.owed (f : F) : Job F → Nat
  | .callback g => one f g
  | .fiber _ => 0

/-- The token a worker holds. A fiber that is going to sleep has left its token to the timer. -/
def Pc.tokens (f : F) : Pc F → Nat
  | .taken job => job.tokens f
  | .putBack g | .counting g | .resuming g | .running g | .requeue g _ | .callback g | .woke g => one f g
  | .switching g .yielded | .leaving g .yielded | .returned g .yielded => one f g
  | .firing gs => gs.count f
  | .loop | .armed _ | .switching _ _ | .leaving _ _ | .returned _ _ | .idle | .called => 0

/-- The wake-up a worker is on its way to make. -/
def Pc.owed (f : F) : Pc F → Nat
  | .taken job => job.owed f
  | .callback g | .woke g => one f g
  | .firing gs => gs.count f
  | _ => 0

section Invariant

variable [Fintype W]

/-- The tokens of a fiber. -/
def World.tokens (s : World W F) (f : F) : Nat :=
  s.tally (Job.tokens f) (Pc.tokens f) (List.count f)

/-- The wake-ups a fiber has to come. -/
def World.owed (s : World W F) (f : F) : Nat :=
  s.tally (Job.owed f) (Pc.owed f) (List.count f)

/-! ## The invariant -/

/-- The fiber's function runs here. -/
def Pc.Runs (f : F) : Pc F → Prop
  | .running g | .armed g => g = f
  | _ => False

/-- The worker is on the fiber's stack. -/
def Pc.Executes (f : F) : Pc F → Prop
  | .running g | .armed g | .switching g _ => g = f
  | _ => False

/-- The worker is about to resume the fiber. -/
def Pc.Resumes (f : F) : Pc F → Prop
  | .counting g | .resuming g => g = f
  | _ => False

/-- The fiber has ended on this worker. -/
def Pc.Ended (f : F) : Pc F → Prop
  | .switching g .finished | .leaving g .finished | .returned g .finished => g = f
  | _ => False

omit [DecidableEq F] in
theorem Pc.Runs.executes {p : Pc F} {f : F} (runs : p.Runs f) : p.Executes f := by
  cases p <;> first | exact runs | exact absurd runs not_false

/-- What the places of the workers say about the fibers. -/
structure Placed (s : World W F) : Prop where
  runs : ∀ w f, (s.pc w).Runs f → s.state f = .running
  single : ∀ w w' f, (s.pc w).Executes f → (s.pc w').Executes f → w = w'
  resumes : ∀ w f, (s.pc w).Resumes f → s.state f ≠ .running
  ended : ∀ w f, (s.pc w).Ended f → s.state f = .terminated ∨ s.state f = .exception
  noRequeue : ∀ w f, s.pc w ≠ .requeue f .slept

/-- Every fiber has at most one token, and every sleep has led to one requeue or is owed one. -/
structure Sound (s : World W F) : Prop where
  tokens : ∀ f, s.tokens f ≤ 1
  placed : Placed s
  booked : ∀ f, s.slept f = s.requeued f + s.owed f

/-- The step makes no second token: no worker resumes a fiber whose stack another is on, a worker that
looks at a fiber after its sleep does not find it `READY` or `SUSPENDED`, and a sleep's timer is taken
by the timer set. -/
def Calm (s : World W F) : Event W F → Prop
  | .resume _ f => ∀ w leave, s.pc w ≠ .switching f leave
  | .look _ f .slept => s.state f ≠ .ready ∧ s.state f ≠ .suspended
  | .arm _ inserted => inserted = true
  | _ => True

/-! ## One step -/

/-- A step that moves one worker and leaves it with no more tokens than it takes. -/
theorem tokens_goto_le {s s₁ : World W F} {w : W} {p : Pc F} {f : F} (same : s₁.pc = s.pc)
    (le : p.tokens f + (s₁.tasks.map fun task => task.job.tokens f).sum + s₁.timers.count f ≤
      (s.pc w).tokens f + (s.tasks.map fun task => task.job.tokens f).sum + s.timers.count f) :
    (s₁.goto w p).tokens f ≤ s.tokens f := by
  have moved := tally_goto (Job.tokens f) (Pc.tokens f) (List.count f) s s₁ w p same
  unfold World.tokens
  omega

/-- A step that moves one worker and books what it changes. -/
theorem booked_goto {s s₁ : World W F} {w : W} {p : Pc F} {f : F}
    (booked : s.slept f = s.requeued f + s.owed f) (same : s₁.pc = s.pc)
    (balance : s₁.slept f + s.requeued f + ((s.pc w).owed f +
        (s.tasks.map fun task => task.job.owed f).sum + s.timers.count f) =
      s.slept f + s₁.requeued f + (p.owed f +
        (s₁.tasks.map fun task => task.job.owed f).sum + s₁.timers.count f)) :
    (s₁.goto w p).slept f = (s₁.goto w p).requeued f + (s₁.goto w p).owed f := by
  have moved := tally_goto (Job.owed f) (Pc.owed f) (List.count f) s s₁ w p same
  unfold World.owed at booked ⊢
  show s₁.slept f = s₁.requeued f + _
  omega

omit [DecidableEq F] [Fintype W] in
/-- A step that moves one worker, where the other workers still agree with the states. -/
theorem Placed.goto {s s₁ : World W F} {w : W} {p : Pc F} (h : Placed s) (same : s₁.pc = s.pc)
    (others : ∀ v f, v ≠ w → ((s.pc v).Runs f → s₁.state f = .running) ∧
      ((s.pc v).Resumes f → s₁.state f ≠ .running) ∧
      ((s.pc v).Ended f → s₁.state f = .terminated ∨ s₁.state f = .exception))
    (runs : ∀ f, p.Runs f → s₁.state f = .running)
    (single : ∀ f, p.Executes f → ∀ v, v ≠ w → ¬ (s.pc v).Executes f)
    (resumes : ∀ f, p.Resumes f → s₁.state f ≠ .running)
    (ended : ∀ f, p.Ended f → s₁.state f = .terminated ∨ s₁.state f = .exception)
    (noRequeue : ∀ f, p ≠ .requeue f .slept) : Placed (s₁.goto w p) := by
  have here : (s₁.goto w p).pc w = p := Function.update_self ..
  have there : ∀ v, v ≠ w → (s₁.goto w p).pc v = s.pc v := fun v ne => by
    rw [← same]
    exact Function.update_of_ne ne ..
  refine ⟨fun v f => ?_, fun v v' f => ?_, fun v f => ?_, fun v f => ?_, fun v f => ?_⟩
  · by_cases eq : v = w
    · rw [eq, here]
      exact runs f
    · rw [there v eq]
      exact (others v f eq).1
  · by_cases eq : v = w
    · by_cases eq' : v' = w
      · exact fun _ _ => eq.trans eq'.symm
      · rw [eq, here, there v' eq']
        exact fun ex ex' => absurd ex' (single f ex v' eq')
    · by_cases eq' : v' = w
      · rw [eq', here, there v eq]
        exact fun ex ex' => absurd ex (single f ex' v eq)
      · rw [there v eq, there v' eq']
        exact h.single v v' f
  · by_cases eq : v = w
    · rw [eq, here]
      exact resumes f
    · rw [there v eq]
      exact (others v f eq).2.1
  · by_cases eq : v = w
    · rw [eq, here]
      exact ended f
    · rw [there v eq]
      exact (others v f eq).2.2
  · by_cases eq : v = w
    · rw [eq, here]
      exact noRequeue f
    · rw [there v eq]
      exact h.noRequeue v f

/-- A place off every fiber's stack, from which no fiber is resumed and none requeued after a sleep. -/
def Pc.Quiet (p : Pc F) : Prop :=
  ∀ f, ¬ p.Executes f ∧ ¬ p.Resumes f ∧ p ≠ .requeue f .slept

omit [DecidableEq F] [Fintype W] in
/-- A move to a quiet place that leaves the states alone. -/
theorem Placed.goto_quiet {s s₁ : World W F} {w : W} {p : Pc F} (h : Placed s) (same : s₁.pc = s.pc)
    (states : s₁.state = s.state) (quiet : p.Quiet)
    (ended : ∀ f, p.Ended f → s.state f = .terminated ∨ s.state f = .exception) :
    Placed (s₁.goto w p) := by
  refine h.goto same (fun v f _ => ?_) (fun f runs => absurd runs.executes (quiet f).1)
    (fun f executes => absurd executes (quiet f).1) (fun f resumes => absurd resumes (quiet f).2.1)
    (fun f => ?_) (fun f => (quiet f).2.2)
  · rw [states]
    exact ⟨h.runs v f, h.resumes v f, h.ended v f⟩
  · rw [states]
    exact ended f

omit [DecidableEq W] [DecidableEq F] [Fintype W] in
/-- The workers other than the one on the fiber's stack do not run it. -/
theorem Placed.others_not_run {s : World W F} (h : Placed s) {w v : W} {f : F}
    (here : (s.pc w).Executes f) (ne : v ≠ w) : ¬ (s.pc v).Executes f :=
  fun there => ne (h.single v w f there here)

omit [Fintype W] in
/-- The fiber's own worker stores a state other than `RUNNING` and starts to switch away. -/
theorem Placed.goto_switching {s s₁ : World W F} {w : W} {f : F} {leave : Leave} (h : Placed s)
    (same : s₁.pc = s.pc) (here : (s.pc w).Runs f) (states : ∀ g, g ≠ f → s₁.state g = s.state g)
    (stored : s₁.state f ≠ .running)
    (ended : leave = .finished → s₁.state f = .terminated ∨ s₁.state f = .exception) :
    Placed (s₁.goto w (.switching f leave)) := by
  have running := h.runs w f here
  refine h.goto same (fun v g ne => ?_) (fun g runs => absurd runs not_false) (fun g executes v ne => ?_)
    (fun g resumes => absurd resumes not_false) (fun g isEnded => ?_) (fun g eq => nomatch eq)
  · by_cases eq : g = f
    · subst eq
      refine ⟨fun runs => absurd runs.executes (h.others_not_run here.executes ne), fun _ => stored,
        fun isEnded => ?_⟩
      rcases h.ended v g isEnded with isOver | isOver <;> exact nomatch running.symm.trans isOver
    · rw [states g eq]
      exact ⟨h.runs v g, h.resumes v g, h.ended v g⟩
  · obtain rfl : f = g := executes
    exact h.others_not_run here.executes ne
  · cases leave with
    | finished =>
      obtain rfl : f = g := isEnded
      exact ended rfl
    | yielded | slept => exact absurd isEnded not_false

theorem count_diff {fs timers : List F} (due : fs.Subperm timers) (f : F) :
    (timers.diff fs).count f + fs.count f = timers.count f := by
  have le := due.count_le f
  rw [List.count_diff]
  omega

/-- Counting one more for a fiber. -/
theorem update_add_one (counter : F → Nat) (f g : F) :
    Function.update counter g (counter g + 1) f = counter f + one f g := by
  by_cases eq : g = f
  · subst eq
    rw [Function.update_self, one_self]
  · rw [Function.update_of_ne (Ne.symm eq), one, if_neg eq, Nat.add_zero]

/-- No calm step makes a token. -/
theorem tokens_step {s s' : World W F} {e : Event W F} (step : Step s e s') (calm : Calm s e)
    (placed : Placed s) (f : F) : s'.tokens f ≤ s.tokens f := by
  cases step with
  | take at_ found =>
    refine tokens_goto_le rfl ?_
    rw [at_, sum_takeTask (Job.tokens f) found]
    exact Nat.le_of_eq (by simp only [Pc.tokens]; omega)
  | putBack at_ | fire at_ | addWoken at_ =>
    refine tokens_goto_le rfl ?_
    rw [at_, sum_addFiber (Job.tokens f)]
    simp only [Pc.tokens, Job.tokens, World.addFiber, World.bookRequeue, List.count_cons, one, beq_iff_eq]
    omega
  | requeue at_ =>
    rw [bookRequeue_eq]
    refine tokens_goto_le rfl ?_
    rw [at_, sum_addFiber (Job.tokens f)]
    simp only [Pc.tokens, Job.tokens, World.addFiber]
    omega
  | arm at_ inserted =>
    obtain rfl : inserted = true := calm
    refine tokens_goto_le rfl ?_
    rw [at_]
    simp only [Pc.tokens, if_true, List.count_cons, one, beq_iff_eq]
    omega
  | expire at_ due =>
    have := count_diff due f
    refine tokens_goto_le rfl ?_
    rw [at_]
    simp only [Pc.tokens]
    omega
  | lookReady at_ ready =>
    rename_i w g leave
    refine tokens_goto_le rfl ?_
    rw [at_]
    cases leave with
    | yielded => exact Nat.le_refl _
    | slept => exact absurd ready (not_or.mpr calm)
    | finished =>
      have isOver := placed.ended w g (by rw [at_]; rfl)
      rcases isOver with isOver | isOver <;> rw [isOver] at ready <;> exact absurd ready (by decide)
  | inspectCallback at_ | inspectRunning at_ | inspectOther at_ | activate at_ | resume at_ | finish at_ =>
    refine tokens_goto_le rfl ?_
    rw [at_]
    simp only [Pc.tokens, Job.tokens, World.setState]
    omega
  | yield at_ | sleep at_ =>
    rw [leaveState_eq]
    refine tokens_goto_le rfl ?_
    rw [at_]
    simp only [Pc.tokens]
    omega
  | wakeup at_ =>
    rw [fiberWakeup_eq]
    refine tokens_goto_le rfl ?_
    rw [at_]
    simp only [Pc.tokens]
    omega
  | switch at_ | deactivate at_ =>
    rename_i leave
    refine tokens_goto_le rfl ?_
    rw [at_]
    cases leave <;> exact Nat.le_refl _
  | idle at_ | inspectEnded at_ | resumeEnded at_ | lookOther at_ | fired at_ | deactivateCalled at_ =>
    refine tokens_goto_le rfl ?_
    rw [at_]
    simp only [Pc.tokens]
    omega

/-- Calm steps keep every sleep booked. -/
theorem booked_step {s s' : World W F} {e : Event W F} (step : Step s e s') (calm : Calm s e)
    (placed : Placed s) {f : F} (booked : s.slept f = s.requeued f + s.owed f) :
    s'.slept f = s'.requeued f + s'.owed f := by
  cases step with
  | take at_ found =>
    refine booked_goto booked rfl ?_
    rw [at_, sum_takeTask (Job.owed f) found]
    simp only [Pc.owed]
    omega
  | putBack at_ | fire at_ =>
    refine booked_goto booked rfl ?_
    rw [at_, sum_addFiber (Job.owed f)]
    simp only [Pc.owed, Job.owed, World.addFiber, List.count_cons, one, beq_iff_eq]
    omega
  | addWoken at_ =>
    rename_i w g
    refine booked_goto booked rfl ?_
    rw [at_, sum_addFiber (Job.owed f)]
    simp only [Pc.owed, Job.owed, World.addFiber, World.bookRequeue, update_add_one]
    omega
  | requeue at_ =>
    rename_i w g leave
    have notSlept : leave ≠ .slept := fun eq => placed.noRequeue w g (eq ▸ at_)
    rw [if_neg notSlept]
    refine booked_goto booked rfl ?_
    rw [at_, sum_addFiber (Job.owed f)]
    simp only [Pc.owed, Job.owed, World.addFiber]
    omega
  | arm at_ inserted =>
    rename_i w g
    obtain rfl : inserted = true := calm
    refine booked_goto booked rfl ?_
    rw [at_]
    simp only [Pc.owed, if_true, List.count_cons, beq_iff_eq, update_add_one, one]
    omega
  | expire at_ due =>
    have := count_diff due f
    refine booked_goto booked rfl ?_
    rw [at_]
    simp only [Pc.owed]
    omega
  | yield at_ | sleep at_ =>
    rw [leaveState_eq]
    refine booked_goto booked rfl ?_
    rw [at_]
    rfl
  | wakeup at_ =>
    rw [fiberWakeup_eq]
    refine booked_goto booked rfl ?_
    rw [at_]
    rfl
  | inspectCallback at_ | inspectRunning at_ | inspectOther at_ | inspectEnded at_ | activate at_
  | resume at_ | resumeEnded at_ | finish at_ | switch at_ | deactivate at_ | lookReady at_
  | lookOther at_ | idle at_ | fired at_ | deactivateCalled at_ =>
    refine booked_goto booked rfl ?_
    rw [at_]
    rfl

/-- Calm steps keep the places in agreement with the states. -/
theorem placed_step {s s' : World W F} {e : Event W F} (step : Step s e s') (calm : Calm s e)
    (tokens : ∀ f, s.tokens f ≤ 1) (h : Placed s) : Placed s' := by
  cases step with
  | take at_ | idle at_ | inspectEnded at_ | inspectRunning at_ | inspectCallback at_ | putBack at_
  | lookOther at_ | expire at_ | fire at_ | fired at_ | addWoken at_ | deactivateCalled at_ =>
    refine h.goto_quiet rfl rfl (fun f => ?_) (fun f isEnded => absurd isEnded not_false)
    exact ⟨not_false, not_false, fun eq => nomatch eq⟩
  | requeue at_ =>
    rw [bookRequeue_eq]
    refine h.goto_quiet rfl rfl (fun f => ?_) (fun f isEnded => absurd isEnded not_false)
    exact ⟨not_false, not_false, fun eq => nomatch eq⟩
  | inspectOther at_ notEnded notRuns =>
    rename_i w g
    refine h.goto rfl (fun v f _ => ⟨h.runs v f, h.resumes v f, h.ended v f⟩)
      (fun f runs => absurd runs not_false) (fun f executes => absurd executes not_false)
      (fun f resumes => ?_) (fun f isEnded => absurd isEnded not_false) (fun f eq => nomatch eq)
    obtain rfl : g = f := resumes
    exact notRuns
  | activate at_ =>
    rename_i w g
    refine h.goto rfl (fun v f _ => ⟨h.runs v f, h.resumes v f, h.ended v f⟩)
      (fun f runs => absurd runs not_false) (fun f executes => absurd executes not_false)
      (fun f resumes => ?_) (fun f isEnded => absurd isEnded not_false) (fun f eq => nomatch eq)
    exact h.resumes w f (by rw [at_]; exact resumes)
  | resume at_ notEnded =>
    rename_i w g
    have notRunning := h.resumes w g (by rw [at_]; rfl)
    -- no other worker is on the stack: it would be `RUNNING`, or in a switch, which is not calm
    have alone : ∀ v, v ≠ w → ¬ (s.pc v).Executes g := fun v ne executes => by
      cases place : s.pc v with
      | running g' =>
        rw [place] at executes
        exact notRunning (h.runs v g (by rw [place]; exact executes))
      | armed g' =>
        rw [place] at executes
        exact notRunning (h.runs v g (by rw [place]; exact executes))
      | switching g' leave =>
        rw [place] at executes
        exact calm v leave (by rw [place, show g' = g from executes])
      | _ => rw [place] at executes; exact executes
    refine h.goto rfl (fun v f ne => ?_) (fun f runs => ?_) (fun f executes v ne => ?_)
      (fun f resumes => absurd resumes not_false) (fun f isEnded => absurd isEnded not_false)
      (fun f eq => nomatch eq)
    · by_cases eq : f = g
      · subst eq
        refine ⟨fun _ => Function.update_self .., fun resumes => ?_, fun isEnded => ?_⟩
        · -- two workers about to resume one fiber would be two tokens
          have two := pair_le_tally (Job.tokens f) (Pc.tokens f) (List.count f) s ne
          have mine : (s.pc w).tokens f = 1 := by rw [at_]; exact one_self f
          have theirs : (s.pc v).tokens f = 1 := by
            cases place : s.pc v with
            | counting g' | resuming g' =>
              rw [place] at resumes
              rw [show g' = f from resumes]
              exact one_self f
            | _ => rw [place] at resumes; exact absurd resumes not_false
          have atMost := tokens f
          unfold World.tokens at atMost
          omega
        · exact absurd (h.ended v f isEnded) (not_or.mpr notEnded)
      · have other : (s.setState g .running).state f = s.state f := Function.update_of_ne eq ..
        rw [other]
        exact ⟨h.runs v f, h.resumes v f, h.ended v f⟩
    · obtain rfl : g = f := runs
      exact Function.update_self ..
    · obtain rfl : g = f := executes
      exact alone v ne
  | resumeEnded at_ ended =>
    rename_i w g
    refine h.goto_quiet rfl rfl (fun f => ?_) (fun f isEnded => ?_)
    · exact ⟨not_false, not_false, fun eq => nomatch eq⟩
    · obtain rfl : g = f := isEnded
      exact ended
  | yield at_ =>
    rename_i w g
    have here : (s.pc w).Runs g := by rw [at_]; rfl
    obtain ⟨stored, others⟩ := leaveState_state .suspended (h.runs w g here)
    refine h.goto_switching ?_ here others (by rw [stored]; decide) (fun eq => nomatch eq)
    rw [leaveState_eq]
  | sleep at_ =>
    rename_i w g
    have here : (s.pc w).Runs g := by rw [at_]; rfl
    obtain ⟨stored, others⟩ := leaveState_state .sleeping (h.runs w g here)
    refine h.goto_switching ?_ here others (by rw [stored]; decide) (fun eq => nomatch eq)
    rw [leaveState_eq]
  | finish at_ threw =>
    rename_i w g
    have here : (s.pc w).Runs g := by rw [at_]; rfl
    have stored : (s.setState g (if threw then .exception else .terminated)).state g =
        if threw then .exception else .terminated := Function.update_self ..
    refine h.goto_switching rfl here (fun f ne => Function.update_of_ne ne ..) ?_ (fun _ => ?_)
    · rw [stored]
      cases threw <;> decide
    · rw [stored]
      cases threw
      · exact .inl rfl
      · exact .inr rfl
  | arm at_ inserted =>
    rename_i w g
    have here : (s.pc w).Runs g := by rw [at_]; rfl
    refine h.goto rfl (fun v f _ => ⟨h.runs v f, h.resumes v f, h.ended v f⟩) (fun f runs => ?_)
      (fun f executes v ne => ?_) (fun f resumes => absurd resumes not_false)
      (fun f isEnded => absurd isEnded not_false) (fun f eq => nomatch eq)
    · obtain rfl : g = f := runs
      exact h.runs w g here
    · obtain rfl : g = f := executes
      exact h.others_not_run here.executes ne
  | switch at_ | deactivate at_ =>
    rename_i w g leave
    refine h.goto_quiet rfl rfl (fun f => ?_) (fun f isEnded => ?_)
    · exact ⟨not_false, not_false, fun eq => nomatch eq⟩
    · refine h.ended w f ?_
      rw [at_]
      cases leave <;> exact isEnded
  | lookReady at_ ready =>
    rename_i w g leave
    refine h.goto_quiet rfl rfl (fun f => ?_) (fun f isEnded => absurd isEnded not_false)
    refine ⟨not_false, not_false, fun eq => ?_⟩
    obtain ⟨rfl, rfl⟩ := Pc.requeue.inj eq
    exact absurd ready (not_or.mpr calm)
  | wakeup at_ =>
    rename_i w g
    refine h.goto ?_ (fun v f _ => ?_) (fun f runs => absurd runs not_false)
      (fun f executes => absurd executes not_false) (fun f resumes => absurd resumes not_false)
      (fun f isEnded => absurd isEnded not_false) (fun f eq => nomatch eq)
    · rw [fiberWakeup_eq]
    · rcases fiberWakeup_state s g f with same | ⟨asleep, woken⟩
      · rw [same]
        exact ⟨h.runs v f, h.resumes v f, h.ended v f⟩
      · rw [woken]
        refine ⟨fun runs => ?_, fun _ => by decide, fun isEnded => ?_⟩
        · cases asleep.symm.trans (h.runs v f runs)
        · rcases h.ended v f isEnded with isOver | isOver <;> exact nomatch asleep.symm.trans isOver

theorem Sound.step {s s' : World W F} {e : Event W F} (h : Sound s) (step : Step s e s')
    (calm : Calm s e) : Sound s' where
  tokens f := (tokens_step step calm h.placed f).trans (h.tokens f)
  placed := placed_step step calm h.tokens h.placed
  booked f := booked_step step calm h.placed (h.booked f)

omit [DecidableEq W] in
theorem sound_init {fibers : List (Option W × F)} (once : (fibers.map Prod.snd).Nodup) :
    Sound (init fibers) where
  tokens f := by
    have tasks : ∀ l : List (Option W × F),
        ((l.map fun g => (⟨g.1, .fiber g.2⟩ : Task W F)).map fun task => task.job.tokens f).sum =
          (l.map Prod.snd).count f := by
      intro l
      induction l with
      | nil => rfl
      | cons g l ih =>
        rw [List.map_cons, List.map_cons, List.sum_cons, ih, List.map_cons, List.count_cons, Nat.add_comm]
        simp only [Job.tokens, one, beq_iff_eq]
    have workers : ∑ w : W, Pc.tokens f ((init fibers).pc w) = 0 :=
      Finset.sum_eq_zero fun _ _ => rfl
    unfold World.tokens World.tally
    rw [workers]
    simp only [init, tasks, List.count_nil]
    exact List.nodup_iff_count_le_one.mp once f
  placed := by
    refine ⟨fun _ f runs => ?_, fun _ _ f executes => ?_, fun _ f resumes => ?_, fun _ f isEnded => ?_,
      fun _ f eq => nomatch eq⟩
    · exact absurd runs not_false
    · exact absurd executes not_false
    · exact absurd resumes not_false
    · exact absurd isEnded not_false
  booked f := by
    have tasks : ∀ l : List (Option W × F),
        ((l.map fun g => (⟨g.1, .fiber g.2⟩ : Task W F)).map fun task => task.job.owed f).sum = 0 := by
      intro l
      induction l with
      | nil => rfl
      | cons g l ih => rw [List.map_cons, List.map_cons, List.sum_cons, ih]; rfl
    have workers : ∑ w : W, Pc.owed f ((init fibers).pc w) = 0 :=
      Finset.sum_eq_zero fun _ _ => rfl
    unfold World.owed World.tally
    rw [workers]
    simp only [init, tasks, List.count_nil]

/-! ## Runs -/

omit [DecidableEq W] in
theorem queued_le_tokens (s : World W F) (f : F) : s.queued f ≤ s.tokens f := by
  have tasks : ∀ l : List (Task W F),
      (l.map Task.job).count (.fiber f) ≤ (l.map fun task => task.job.tokens f).sum := by
    intro l
    induction l with
    | nil => exact Nat.le_refl 0
    | cons task l ih =>
      have here : (if (task.job == Job.fiber f) = true then 1 else 0) ≤ task.job.tokens f := by
        cases task.job with
        | fiber g => simp only [Job.tokens, one, beq_iff_eq, Job.fiber.injEq, Nat.le_refl]
        | callback g => exact Nat.zero_le _
      rw [List.map_cons, List.count_cons, List.map_cons, List.sum_cons]
      omega
  have := tasks s.tasks
  unfold World.queued World.tokens World.tally
  omega

omit [DecidableEq W] in
theorem owed_le_tokens (s : World W F) (f : F) : s.owed f ≤ s.tokens f := by
  have jobs : ∀ job : Job F, job.owed f ≤ job.tokens f := fun job => by
    cases job with
    | fiber g => exact Nat.zero_le _
    | callback g => exact Nat.le_refl _
  have places : ∀ p : Pc F, p.owed f ≤ p.tokens f := fun p => by
    cases p with
    | taken job => exact jobs job
    | callback g | woke g | firing gs => exact Nat.le_refl _
    | _ => exact Nat.zero_le _
  have tasks : (s.tasks.map fun task => task.job.owed f).sum ≤
      (s.tasks.map fun task => task.job.tokens f).sum := List.sum_le_sum fun task _ => jobs task.job
  have workers : ∑ w, Pc.owed f (s.pc w) ≤ ∑ w, Pc.tokens f (s.pc w) :=
    Finset.sum_le_sum fun w _ => places (s.pc w)
  unfold World.owed World.tokens World.tally
  omega

end Invariant

/-- A sleeping fiber is requeued exactly once, in the runs whose steps meet `cond`: it is never in
`tasks_` twice, never on two workers, and each of its hooked sleeps has put it into `tasks_` once or
has its one wake-up still to come. -/
def RequeuesOnce (W F : Type) [DecidableEq W] [DecidableEq F] [Fintype W]
    (cond : World W F → Event W F → Prop) : Prop :=
  ∀ (fibers : List (Option W × F)) (events : List (Event W F)) (s : World W F),
    (fibers.map Prod.snd).Nodup → Run (Guarded Step cond) (init fibers) events s → ∀ f,
    s.queued f ≤ 1 ∧ (∀ w w', (s.pc w).Executes f → (s.pc w').Executes f → w = w') ∧
      s.slept f = s.requeued f + s.owed f ∧ s.owed f ≤ 1

/-- In every run of any number of workers whose steps are calm a sleeping fiber is requeued exactly
once. -/
theorem requeuesOnce_calm [Fintype W] : RequeuesOnce W F Calm := by
  intro fibers events s once run f
  have sound : Sound s :=
    run.invariant (I := Sound) (fun _ _ _ h step => h.step step.1 step.2) (sound_init once)
  exact ⟨(queued_le_tokens s f).trans (sound.tokens f), fun w w' => sound.placed.single w w' f,
    sound.booked f, (owed_le_tokens s f).trans (sound.tokens f)⟩

/-- A fiber that sleeps on one worker, is looked at there, and is then woken on the other. -/
theorem requeuesOnce_calm_one : ∃ s : World Bool Unit, s.queued () ≤ 1 ∧ s.slept () = 1 ∧
    s.requeued () = 1 ∧ s.tasks = [⟨none, .fiber ()⟩] := by
  refine ⟨_, (requeuesOnce_calm (W := Bool) (F := Unit) [(none, ())]
    [.take false, .inspect false, .activate false, .resume false (), .arm false true, .sleep false,
      .switch false, .deactivate false, .look false () .slept, .take true, .expire true [()], .fire true,
      .fire true, .take true, .inspect true, .wakeup true, .addWoken true] _ (by decide)
    (.cons ⟨.take rfl rfl, trivial⟩ <| .cons ⟨.inspectOther rfl (by decide) (by decide), trivial⟩ <|
      .cons ⟨.activate rfl, trivial⟩ <|
      .cons ⟨.resume rfl (by decide), fun w _ eq => by cases w <;> exact nomatch eq⟩ <|
      .cons ⟨.arm rfl true, rfl⟩ <| .cons ⟨.sleep rfl, trivial⟩ <| .cons ⟨.switch rfl, trivial⟩ <|
      .cons ⟨.deactivate rfl, trivial⟩ <| .cons ⟨.lookOther rfl (by decide), ⟨by decide, by decide⟩⟩ <|
      .cons ⟨.idle rfl rfl, trivial⟩ <| .cons ⟨.expire rfl (List.Subperm.refl _), trivial⟩ <|
      .cons ⟨.fire rfl, trivial⟩ <| .cons ⟨.fired rfl, trivial⟩ <| .cons ⟨.take rfl rfl, trivial⟩ <|
      .cons ⟨.inspectCallback rfl, trivial⟩ <| .cons ⟨.wakeup rfl, trivial⟩ <|
      .single ⟨.addWoken rfl, trivial⟩) ()).1, rfl, rfl, rfl⟩

/-- The callback wakes the fiber after its store of `SLEEPING` and before its worker's look: both add
it. -/
theorem not_requeuesOnce : ¬ RequeuesOnce Bool Unit fun _ _ => True := by
  intro all
  have twice := (all [(none, ())]
    [.take false, .inspect false, .activate false, .resume false (), .arm false true, .sleep false,
      .take true, .expire true [()], .fire true, .fire true, .take true, .inspect true, .wakeup true,
      .addWoken true, .switch false, .deactivate false, .look false () .slept, .requeue false] _
    (by decide)
    (.cons ⟨.take rfl rfl, trivial⟩ <| .cons ⟨.inspectOther rfl (by decide) (by decide), trivial⟩ <|
      .cons ⟨.activate rfl, trivial⟩ <| .cons ⟨.resume rfl (by decide), trivial⟩ <|
      .cons ⟨.arm rfl true, trivial⟩ <| .cons ⟨.sleep rfl, trivial⟩ <| .cons ⟨.idle rfl rfl, trivial⟩ <|
      .cons ⟨.expire rfl (List.Subperm.refl _), trivial⟩ <| .cons ⟨.fire rfl, trivial⟩ <|
      .cons ⟨.fired rfl, trivial⟩ <| .cons ⟨.take rfl rfl, trivial⟩ <|
      .cons ⟨.inspectCallback rfl, trivial⟩ <| .cons ⟨.wakeup rfl, trivial⟩ <|
      .cons ⟨.addWoken rfl, trivial⟩ <| .cons ⟨.switch rfl, trivial⟩ <|
      .cons ⟨.deactivate rfl, trivial⟩ <| .cons ⟨.lookReady rfl (by decide), trivial⟩ <|
      .single ⟨.requeue rfl, trivial⟩) ()).1
  exact absurd twice (by decide)

end Sylar.Scheduler
