import Sylar.Scheduler.Basic

/-!
# Tallies

Sums over the tasks, the armed timers and the workers, and what a step that moves one worker changes
in them. The invariants about how often a fiber occurs, and the one about the active count, are all
tallies.
-/

namespace Sylar.Scheduler

variable {W F : Type}

/-! ## Tallies -/

section Tally

variable [DecidableEq W] [Fintype W] (job : Job F → Nat) (pc : Pc F → Nat) (timer : List F → Nat)

/-- A sum over the tasks, the armed timers and the workers. -/
def World.tally (s : World W F) : Nat :=
  (s.tasks.map fun task => job task.job).sum + timer s.timers + ∑ w, pc (s.pc w)

/-- Moving one worker. -/
theorem sum_update (places : W → Pc F) (w : W) (p : Pc F) :
    ∑ v, pc (Function.update places w p v) + pc (places w) = ∑ v, pc (places v) + pc p := by
  have split : ∀ g : W → Nat, ∑ v, g v = g w + ∑ v ∈ Finset.univ.erase w, g v := fun g =>
    (Finset.add_sum_erase _ g (Finset.mem_univ w)).symm
  have others : ∑ v ∈ Finset.univ.erase w, pc (Function.update places w p v) =
      ∑ v ∈ Finset.univ.erase w, pc (places v) :=
    Finset.sum_congr rfl fun v mem => by rw [Function.update_of_ne (Finset.ne_of_mem_erase mem)]
  rw [split, split fun v => pc (places v), others, Function.update_self]
  omega

/-- A step that moves one worker changes a tally by what it moves. -/
theorem tally_goto (s s' : World W F) (w : W) (p : Pc F) (same : s'.pc = s.pc) :
    (s'.goto w p).tally job pc timer + pc (s.pc w) + (s.tasks.map fun task => job task.job).sum +
        timer s.timers =
      s.tally job pc timer + pc p + (s'.tasks.map fun task => job task.job).sum + timer s'.timers := by
  have moved := sum_update pc s.pc w p
  simp only [World.tally, World.goto, same]
  omega

/-- Two workers count separately. -/
theorem pair_le_tally (s : World W F) {w w' : W} (ne : w ≠ w') :
    pc (s.pc w) + pc (s.pc w') ≤ s.tally job pc timer := by
  have pair : ∑ v ∈ {w, w'}, pc (s.pc v) ≤ ∑ v, pc (s.pc v) :=
    Finset.sum_le_sum_of_subset (Finset.subset_univ _)
  rw [Finset.sum_pair ne] at pair
  simp only [World.tally]
  omega

end Tally

/-- Taking a task out of the list. -/
theorem sum_takeTask [DecidableEq W] (job : Job F → Nat) {w : W} {found : Job F} {tasks rest : List (Task W F)}
    (take : takeTask w tasks = some (found, rest)) :
    (tasks.map fun task => job task.job).sum = job found + (rest.map fun task => job task.job).sum := by
  induction tasks generalizing rest with
  | nil => cases take
  | cons task tasks ih =>
    rw [takeTask] at take
    split at take
    · obtain ⟨rfl, rfl⟩ := Prod.mk.inj (Option.some.inj take)
      rw [List.map_cons, List.sum_cons]
    · obtain ⟨⟨found', rest'⟩, inner, eq⟩ := Option.map_eq_some_iff.mp take
      obtain ⟨rfl, rfl⟩ := Prod.mk.inj eq
      rw [List.map_cons, List.sum_cons, ih inner, List.map_cons, List.sum_cons]
      omega

theorem sum_addFiber (job : Job F → Nat) (s : World W F) (new : Job F) :
    ((s.addFiber new).tasks.map fun task => job task.job).sum =
      (s.tasks.map fun task => job task.job).sum + job new := by
  simp only [World.addFiber, List.map_append, List.map_cons, List.map_nil, List.sum_append,
    List.sum_cons, List.sum_nil, Nat.add_zero]

/-! ## Occurrences -/

variable [DecidableEq F]

/-- One for the fiber in question. -/
def one (f g : F) : Nat := if g = f then 1 else 0

theorem one_self (f : F) : one f f = 1 := if_pos rfl

/-- How often a fiber is in `tasks_`. -/
def World.queued (s : World W F) (f : F) : Nat :=
  (s.tasks.map Task.job).count (.fiber f)

/-! ## Stores -/

/-- A fiber that leaves stores a state and nothing else. -/
theorem leaveState_eq (s : World W F) (f : F) (new : FiberState) :
    s.leaveState f new = { s with state := (s.leaveState f new).state } := by
  unfold World.leaveState
  split <;> rfl

theorem fiberWakeup_eq (s : World W F) (f : F) :
    s.fiberWakeup f = { s with state := (s.fiberWakeup f).state } := by
  unfold World.fiberWakeup
  split <;> rfl

theorem bookRequeue_eq (s : World W F) (f : F) (slept : Prop) [Decidable slept] :
    (if slept then s.bookRequeue f else s) =
      { s with requeued := (if slept then s.bookRequeue f else s).requeued } := by
  split <;> rfl

/-- The states after `fiber_wakeup`: only a sleeping fiber changes. -/
theorem fiberWakeup_state (s : World W F) (f g : F) :
    (s.fiberWakeup f).state g = s.state g ∨ s.state g = .sleeping ∧ (s.fiberWakeup f).state g = .suspended := by
  unfold World.fiberWakeup
  split
  · rename_i asleep
    by_cases eq : g = f
    · subst eq
      exact .inr ⟨asleep, Function.update_self ..⟩
    · exact .inl (Function.update_of_ne eq ..)
  · exact .inl rfl

/-- The states after a fiber on its stack has stored that it leaves. -/
theorem leaveState_state {s : World W F} {f : F} (new : FiberState) (running : s.state f = .running) :
    (s.leaveState f new).state f = new ∧ ∀ g, g ≠ f → (s.leaveState f new).state g = s.state g := by
  unfold World.leaveState
  rw [if_pos running]
  exact ⟨Function.update_self .., fun g ne => Function.update_of_ne ne ..⟩

end Sylar.Scheduler
