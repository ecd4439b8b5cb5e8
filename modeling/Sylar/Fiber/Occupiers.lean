import Sylar.Fiber.Cyclic
import Sylar.Fiber.Shared

/-!
# Taking over a shared stack

`change_occupier` asserts that the fiber that used the stack last is `SUSPENDED` or `TERMINATED`. By the
time another fiber of the stack is switched to, that fiber may be asleep, may have ended by an
exception, or may have been reset; and the current fiber may have used the stack last and go to sleep
or throw in the same operation. These are all the cases in which the assertion fails
(`occupierAllowed_of_clear`): no occupier is ever `READY` there, and none but the current fiber
`RUNNING`.

The fibers stay alive: no operation here destroys one, and `occupier_` is a plain pointer that nothing
resets when a fiber goes.
-/

namespace Sylar.FiberEnvironment

open Lib

variable {env env' : FiberEnvironment} {layout : Layout} {f g : FiberPtr}

/-- A fiber that sleeps, has thrown, or was reset and not resumed since. -/
def Absent (env : FiberEnvironment) (f : FiberPtr) : Prop :=
  env.state f = .sleeping ∨ env.state f = .exception ∨ env.state f = .initing

/-- The fiber an operation switches to, if it gets that far. -/
def Targets (env : FiberEnvironment) (new : FiberPtr) : Op → Prop
  | .resume f _ => ¬ env.Ended f ∧ new = f
  | .yield _ | .sleep _ | .finish .. => env.fiberCallStack[1]? = some new
  | .wakeup _ | .reset _ | .compute _ => False

/-- The current fiber goes to sleep or throws. -/
def Op.drops : Op → Bool
  | .sleep _ | .finish true _ => true
  | .finish false _ | .resume .. | .yield _ | .wakeup _ | .reset _ | .compute _ => false

/-- No fiber of a shared stack is switched to while another one occupies it that is absent, or that is
the current one and goes to sleep or throws. -/
def Clear (layout : Layout) (env : FiberEnvironment) (op : Op) : Prop :=
  ∀ new mem occupier, env.Targets new op → layout.stack new = .shared mem →
    env.occupier mem = some occupier → occupier ≠ new →
      ¬ env.Absent occupier ∧ (op.drops = true → env.fiberCallStack.head? ≠ some occupier)

/-- A fiber other than the current one is in a state that is not listed exactly if it is absent. -/
theorem Rooted.absent_iff (h : env.Rooted) (notTop : env.fiberCallStack.head? ≠ some f) :
    env.Absent f ↔ env.state f ≠ .suspended ∧ env.state f ≠ .terminated := by
  unfold Absent
  cases state : env.state f with
  | ready => exact absurd state (h.ready f)
  | running => exact absurd (h.running f state) notTop
  | initing => simp
  | suspended => simp
  | sleeping => simp
  | terminated => simp
  | exception => simp

theorem Rooted.not_absent (h : env.Rooted) (current : env.fiberCallStack.head? = some f) :
    ¬ env.Absent f := by
  unfold Absent
  rcases h.awake current with runs | waits
  · simp [runs]
  · simp [waits]

/-- An operation that leaves the current fiber in the state `left`, and switches to another, clears the
assertion unless it is blocked. -/
theorem Rooted.clear_iff (h : env.Rooted) {top new : FiberPtr} {left : FiberState} {op : Op}
    (current : env.fiberCallStack.head? = some top) (targets : ∀ g, env.Targets g op ↔ g = new)
    (drops : top ≠ new → (left ≠ .suspended ∧ left ≠ .terminated ↔ op.drops = true)) :
    Clear layout env op ↔ ¬ Blocked layout env (env.stored top left) new := by
  constructor
  · rintro clear ⟨mem, occupier, shared, here, other, state⟩
    obtain ⟨present, stays⟩ := clear new mem occupier ((targets new).mpr rfl) shared here other
    rw [stored_eq] at state
    split at state
    · rename_i isTop
      rw [isTop] at stays other
      exact stays ((drops other).mp state) current
    · rename_i isTop
      refine present ((h.absent_iff ?_).mpr state)
      rw [current]
      exact fun eq => isTop (Option.some.inj eq).symm
  · intro free new' mem occupier target shared here other
    obtain rfl := (targets new').mp target
    by_cases isTop : occupier = top
    · rw [isTop] at here other ⊢
      refine ⟨h.not_absent current, fun dropped => ?_⟩
      refine absurd ⟨mem, top, shared, here, other, ?_⟩ free
      rw [stored_eq, if_pos rfl]
      exact (drops other).mpr dropped
    · have notTop : env.fiberCallStack.head? ≠ some occupier := by
        rw [current]
        exact fun eq => isTop (Option.some.inj eq).symm
      refine ⟨fun absent => ?_, fun _ => notTop⟩
      refine free ⟨mem, occupier, shared, here, other, ?_⟩
      rw [stored_eq, if_neg isTop]
      exact (h.absent_iff notTop).mp absent

/-- An operation that is clear does not fail on the occupier, and one that is not clear fails. -/
def Decides (clear : Prop) (result : Except FiberFailure FiberEnvironment) : Prop :=
  (clear → result ≠ .error .occupier) ∧ (¬ clear → ∃ failure, result = .error failure)

theorem Switched.decides {top new : FiberPtr} {left : FiberState} {clear : Prop}
    {result : Except FiberFailure FiberEnvironment} (switched : Switched layout env top new left result)
    (free : clear ↔ ¬ Blocked layout env (env.stored top left) new) : Decides clear result := by
  rcases switched with ⟨blocked, rfl⟩ | ⟨notBlocked, result⟩
  · exact ⟨fun isClear => absurd blocked (free.mp isClear), fun _ => ⟨_, rfl⟩⟩
  · refine ⟨fun _ => ?_, fun notClear => absurd (free.mpr notBlocked) notClear⟩
    rcases result with rfl | ⟨env', rfl, -⟩
    · simp
    · simp

/-- A current fiber with another one below it is `RUNNING`, so that it is left in a state that is not
listed exactly by going to sleep or throwing. -/
theorem Rooted.drops_iff (h : env.Rooted) {top next : FiberPtr} {rest : List FiberPtr}
    (stack : env.fiberCallStack = top :: next :: rest) {op : Op} {left : FiberState}
    (leaves : env.leftAs top op = some left) (other : top ≠ next) :
    left ≠ .suspended ∧ left ≠ .terminated ↔ op.drops = true := by
  have runs : env.state top = .running := by
    obtain ⟨top', rest', stack', state⟩ := h.top
    obtain ⟨rfl, rfl⟩ := List.cons.inj (stack'.symm.trans stack)
    rcases state with runs | ⟨-, self⟩
    · exact runs
    · exact absurd (Option.some.inj self).symm other
  cases op with
  | yield rsp =>
    obtain rfl := Option.some.inj leaves
    simp [runs, leftIn, Op.drops]
  | sleep rsp =>
    obtain rfl := Option.some.inj leaves
    simp [runs, leftIn, Op.drops]
  | finish threw rsp =>
    obtain rfl := Option.some.inj leaves
    cases threw with
    | false => simp [Op.drops]
    | true => simp [Op.drops]
  | resume | wakeup | reset | compute => cases leaves

/-- Giving up control, with the fiber below as the target. -/
theorem Rooted.decides_givesUp (h : env.Rooted) {top : FiberPtr} {rest : List FiberPtr}
    (stack : env.fiberCallStack = top :: rest) {op : Op} {left : FiberState}
    (leaves : env.leftAs top op = some left)
    (targets : ∀ g, env.Targets g op ↔ env.fiberCallStack[1]? = some g) :
    Decides (Clear layout env op) (env.exec layout op) := by
  have current : env.fiberCallStack.head? = some top := by
    rw [stack]
    rfl
  cases rest with
  | nil =>
    rw [exec_alone layout stack leaves]
    exact ⟨fun _ => by simp, fun _ => ⟨_, rfl⟩⟩
  | cons next rest =>
    rcases h.givesUp layout stack leaves with ⟨-, failed⟩ | ⟨-, switched⟩
    · rw [failed]
      exact ⟨fun _ => by simp, fun _ => ⟨_, rfl⟩⟩
    · refine switched.decides (h.clear_iff current (fun g => ?_) (h.drops_iff stack leaves))
      rw [targets, stack]
      exact ⟨fun same => (Option.some.inj same).symm, fun same => same ▸ rfl⟩

/-- An operation that switches to no fiber is clear. -/
theorem decides_still {op : Op} (still : ∀ g, ¬ env.Targets g op) (ok : env.exec layout op = .ok env') :
    Decides (Clear layout env op) (env.exec layout op) := by
  rw [ok]
  refine ⟨fun _ => by simp, fun notClear => absurd ?_ notClear⟩
  intro new _ _ target
  exact absurd target (still new)

/-- In every state that resumes of any fibers, yields, sleeps, wake-ups, returns, exceptions and resets
of fibers off the call stack lead to, over any shared stacks: the next operation does not fail the
assertion of `change_occupier` if it is clear; and one that is not clear ends the thread. -/
theorem occupierAllowed_of_clear {buffers : MemPtr → List UInt8} {ops : List Op}
    (run : Run (FreeStep layout) (init buffers) ops env) (op : Op) :
    (Clear layout env op → env.exec layout op ≠ .error .occupier) ∧
      (¬ Clear layout env op → ∃ failure, env.exec layout op = .error failure) := by
  have h := rooted_of_run run
  obtain ⟨top, rest, stack, -⟩ := h.top
  have current : env.fiberCallStack.head? = some top := by
    rw [stack]
    rfl
  cases op with
  | resume f rsp =>
    by_cases ended : env.Ended f
    · have stays : env.exec layout (.resume f rsp) = .ok env := if_pos ended
      exact decides_still (fun _ both => both.1 ended) stays
    · refine (h.fiberResume layout stack ended rsp).decides (h.clear_iff current (fun g => ?_) fun _ => ?_)
      · exact ⟨And.right, fun same => ⟨ended, same⟩⟩
      · simp [Op.drops]
  | yield rsp => exact h.decides_givesUp stack rfl fun _ => Iff.rfl
  | sleep rsp => exact h.decides_givesUp stack rfl fun _ => Iff.rfl
  | finish threw rsp => exact h.decides_givesUp stack rfl fun _ => Iff.rfl
  | wakeup f => exact decides_still (fun _ => not_false) rfl
  | reset f => exact decides_still (fun _ => not_false) rfl
  | compute bytes =>
    obtain ⟨env', ok⟩ := h.compute layout bytes
    exact decides_still (fun _ => not_false) ok

/-- Fiber 1 goes to sleep and is woken; fiber 2 takes its stack over. -/
theorem occupierAllowed_of_clear_woken : ∃ env : FiberEnvironment,
    Run (FreeStep oneStack) (init fun _ => [0, 0]) [.resume 1 0, .sleep 0, .wakeup 1] env ∧
      env.occupier 0 = some 1 ∧ env.exec oneStack (.resume 2 0) ≠ .error .occupier := by
  have run : Run (FreeStep oneStack) (init fun _ => [0, 0]) [.resume 1 0, .sleep 0, .wakeup 1] _ :=
    .cons ⟨rfl, by simp⟩ (.cons ⟨rfl, by simp⟩ (.single ⟨rfl, by simp⟩))
  refine ⟨_, run, rfl, (occupierAllowed_of_clear run (.resume 2 0)).1 ?_⟩
  rintro new mem occupier ⟨-, rfl⟩ shared here -
  obtain rfl : 0 = mem := FiberStack.shared.inj shared
  obtain rfl : 1 = occupier := Option.some.inj here
  refine ⟨?_, fun dropped => by cases dropped⟩
  rintro (sleeps | threw | reset)
  · cases sleeps
  · cases threw
  · cases reset

/-- Fiber 1 throws; the main fiber resumes fiber 2, of the same stack. -/
theorem not_occupierAllowed_threw : ¬ ∀ (layout : Layout) (buffers : MemPtr → List UInt8) (ops : List Op)
    (env : FiberEnvironment), Run (FreeStep layout) (init buffers) ops env →
      ∀ op, env.exec layout op ≠ .error .occupier := by
  intro claim
  have run : Run (FreeStep oneStack) (init fun _ => [0, 0]) [.resume 1 0, .finish true 0] _ :=
    .cons ⟨rfl, by simp⟩ (.single ⟨rfl, by simp⟩)
  exact claim oneStack _ _ _ run (.resume 2 0) rfl

end Sylar.FiberEnvironment
