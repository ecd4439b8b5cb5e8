import Sylar.Fiber.Switch

/-!
# The call stack of fibers

A fiber on the call stack below the top is inside the `fiber_resume` of the fiber above it. This is the
invariant (`Nested`); the states follow it: the top is the only fiber that is `RUNNING`, the others on
the stack are `SUSPENDED`, and a fiber off the stack that can be resumed goes on in its `fiber_yield` or
`fiber_sleep`. So the assertions of `fiber_yield`, `fiber_sleep` and `get_current_fiber` hold, control
returns to the fiber that issued the resume, and a fiber that has ended does not run again
(`callStack_disciplined`).
-/

namespace Sylar.FiberEnvironment

open Lib

variable {env env' : FiberEnvironment} {layout : Layout} {f g : FiberPtr}

/-! ## The invariant -/

/-- A fiber below another on the call stack is inside the `fiber_resume` of that one. -/
structure Under (env : FiberEnvironment) (above below : FiberPtr) : Prop where
  state : env.state below = .suspended
  context : env.context below = .resuming above
  resumedBy : (env.fibers above).resumedBy = some below

/-- The fibers on the call stack are nested by their resumes down to the main fiber, the top is the
one that is `RUNNING`, and a fiber off the stack that can be resumed goes on in its yield or sleep. -/
structure Nested (env : FiberEnvironment) : Prop where
  last : env.fiberCallStack.getLast? = some mainFiber
  nodup : env.fiberCallStack.Nodup
  running : ∀ f, env.state f = .running ↔ env.fiberCallStack.head? = some f
  chain : env.fiberCallStack.IsChain env.Under
  off : ∀ f, f ∉ env.fiberCallStack → env.state f ≠ .ready ∧
    (env.state f = .suspended ∨ env.state f = .sleeping →
      env.context f = .yielding ∨ env.context f = .sleeping)

theorem nested_init (buffers : MemPtr → List UInt8) : (init buffers).Nested where
  last := rfl
  nodup := List.pairwise_singleton _ _
  running f := by
    by_cases main : f = mainFiber
    · simp [init, state, main]
    · simp [init, state, main, Ne.symm main]
  chain := List.isChain_singleton _
  off f outside := by
    have other : f ≠ mainFiber := by simpa [init] using outside
    simp [init, state, other]

theorem Nested.top (h : env.Nested) : ∃ top rest, env.fiberCallStack = top :: rest := by
  cases stack : env.fiberCallStack with
  | nil =>
    have last := h.last
    rw [stack] at last
    cases last
  | cons top rest => exact ⟨top, rest, rfl⟩

/-- The fibers below the top are `SUSPENDED`. -/
theorem Nested.below (h : env.Nested) {top : FiberPtr} {rest : List FiberPtr}
    (stack : env.fiberCallStack = top :: rest) (mem : f ∈ rest) : env.state f = .suspended := by
  have chain := h.chain
  rw [stack] at chain
  clear stack
  induction rest generalizing top with
  | nil => exact absurd mem List.not_mem_nil
  | cons next rest ih =>
    obtain ⟨under, chain⟩ := List.isChain_cons_cons.mp chain
    rcases List.mem_cons.mp mem with rfl | mem
    · exact under.state
    · exact ih mem chain

/-- The nesting only looks at the fibers it is about. -/
theorem isChain_under_congr {fibers : List FiberPtr} (chain : fibers.IsChain env.Under)
    (state : ∀ g ∈ fibers.tail, env'.state g = env.state g)
    (context : ∀ g ∈ fibers.tail, env'.context g = env.context g)
    (resumedBy : ∀ g ∈ fibers, (env'.fibers g).resumedBy = (env.fibers g).resumedBy) :
    fibers.IsChain env'.Under := by
  induction fibers with
  | nil => exact .nil
  | cons above fibers ih =>
    cases fibers with
    | nil => exact .singleton _
    | cons below fibers =>
      obtain ⟨under, rest⟩ := List.isChain_cons_cons.mp chain
      refine List.isChain_cons_cons.mpr ⟨⟨?_, ?_, ?_⟩, ih rest ?_ ?_ ?_⟩
      · rw [state below List.mem_cons_self]
        exact under.state
      · rw [context below List.mem_cons_self]
        exact under.context
      · rw [resumedBy above List.mem_cons_self]
        exact under.resumedBy
      · exact fun g mem => state g (List.mem_cons_of_mem _ mem)
      · exact fun g mem => context g (List.mem_cons_of_mem _ mem)
      · exact fun g mem => resumedBy g (List.mem_cons_of_mem _ mem)

/-- The nesting is a matter of control alone. -/
theorem Nested.sameControl (h : env.Nested) (same : SameControl env env') : env'.Nested := by
  constructor
  case last =>
    rw [same.stack]
    exact h.last
  case nodup =>
    rw [same.stack]
    exact h.nodup
  case running =>
    intro f
    rw [same.stack, same.state]
    exact h.running f
  case chain =>
    rw [same.stack]
    exact isChain_under_congr h.chain (fun g _ => same.state g) (fun g _ => same.context g)
      fun g _ => same.resumedBy g
  case off =>
    intro f outside
    rw [same.stack] at outside
    rw [same.state, same.context]
    exact h.off f outside

/-- The state of everyone else. -/
def SameBut (fs : List FiberPtr) (env env' : FiberEnvironment) : Prop :=
  ∀ g ∉ fs, env'.state g = env.state g ∧ env'.context g = env.context g

/-- A fiber that was off the stack is switched to. -/
theorem Nested.push (h : env.Nested) {top : FiberPtr} {rest : List FiberPtr}
    (stack : env.fiberCallStack = top :: rest) (outside : f ∉ env.fiberCallStack)
    (stack' : env'.fiberCallStack = f :: top :: rest) (same : SameBut [f, top] env env')
    (runs : env'.state f = .running) (under : env'.Under f top)
    (resumedBy : ∀ g, g ≠ f → (env'.fibers g).resumedBy = (env.fibers g).resumedBy) : env'.Nested := by
  have nodup := h.nodup
  have last := h.last
  have chain := h.chain
  rw [stack] at nodup last chain outside
  obtain ⟨notIn, nodupRest⟩ := List.nodup_cons.mp nodup
  have others : ∀ g ∈ rest, g ∉ [f, top] := by
    intro g mem
    simp only [List.mem_cons, List.not_mem_nil, or_false, not_or]
    exact ⟨fun eq => outside (eq ▸ List.mem_cons_of_mem _ mem), fun eq => notIn (eq ▸ mem)⟩
  constructor
  case last =>
    rw [stack', List.getLast?_cons_cons]
    exact last
  case nodup =>
    rw [stack']
    exact List.nodup_cons.mpr ⟨outside, nodup⟩
  case running =>
    intro g
    rw [stack', List.head?_cons, Option.some.injEq]
    by_cases isF : g = f
    · rw [isF]
      exact iff_of_true runs rfl
    · refine iff_of_false (fun running => ?_) fun eq => isF eq.symm
      by_cases isTop : g = top
      · rw [isTop, under.state] at running
        cases running
      · rw [(same g (by simp [isF, isTop])).1, h.running, stack, List.head?_cons,
          Option.some.injEq] at running
        exact isTop running.symm
  case chain =>
    rw [stack']
    refine List.isChain_cons_cons.mpr ⟨under, isChain_under_congr chain ?_ ?_ ?_⟩
    · exact fun g mem => (same g (others g mem)).1
    · exact fun g mem => (same g (others g mem)).2
    · exact fun g mem => resumedBy g fun eq => outside (eq ▸ mem)
  case off =>
    intro g notOn
    rw [stack'] at notOn
    obtain ⟨isF, notOld⟩ := not_or.mp fun mem => notOn (List.mem_cons.mpr mem)
    have isTop : g ≠ top := fun eq => notOld (eq ▸ List.mem_cons_self)
    obtain ⟨state, context⟩ := same g (by simp [isF, isTop])
    rw [state, context]
    exact h.off g (stack ▸ notOld)

/-- The top gives up control to the fiber below it. -/
theorem Nested.pop (h : env.Nested) {top next : FiberPtr} {rest : List FiberPtr}
    (stack : env.fiberCallStack = top :: next :: rest) (stack' : env'.fiberCallStack = next :: rest)
    (same : SameBut [top, next] env env') (runs : env'.state next = .running)
    (left : env'.state top ≠ .running ∧ env'.state top ≠ .ready)
    (goesOn : env'.state top = .suspended ∨ env'.state top = .sleeping →
      env'.context top = .yielding ∨ env'.context top = .sleeping)
    (resumedBy : ∀ g, (env'.fibers g).resumedBy = (env.fibers g).resumedBy) : env'.Nested := by
  have nodup := h.nodup
  have last := h.last
  have chain := h.chain
  rw [stack] at nodup last chain
  obtain ⟨topOut, nodup⟩ := List.nodup_cons.mp nodup
  obtain ⟨nextOut, -⟩ := List.nodup_cons.mp nodup
  have others : ∀ g ∈ rest, g ∉ [top, next] := by
    intro g mem
    simp only [List.mem_cons, List.not_mem_nil, or_false, not_or]
    exact ⟨fun eq => topOut (eq ▸ List.mem_cons_of_mem _ mem), fun eq => nextOut (eq ▸ mem)⟩
  constructor
  case last =>
    rw [stack']
    rw [List.getLast?_cons_cons] at last
    exact last
  case nodup =>
    rw [stack']
    exact nodup
  case running =>
    intro g
    rw [stack', List.head?_cons, Option.some.injEq]
    by_cases isNext : g = next
    · rw [isNext]
      exact iff_of_true runs rfl
    · refine iff_of_false (fun running => ?_) fun eq => isNext eq.symm
      by_cases isTop : g = top
      · rw [isTop] at running
        exact left.1 running
      · rw [(same g (by simp [isTop, isNext])).1, h.running, stack, List.head?_cons,
          Option.some.injEq] at running
        exact isTop running.symm
  case chain =>
    rw [stack']
    obtain ⟨-, chain⟩ := List.isChain_cons_cons.mp chain
    refine isChain_under_congr chain ?_ ?_ ?_
    · exact fun g mem => (same g (others g mem)).1
    · exact fun g mem => (same g (others g mem)).2
    · exact fun g _ => resumedBy g
  case off =>
    intro g notOn
    rw [stack'] at notOn
    by_cases isTop : g = top
    · rw [isTop]
      exact ⟨left.2, goesOn⟩
    · have isNext : g ≠ next := fun eq => notOn (eq ▸ List.mem_cons_self)
      obtain ⟨state, context⟩ := same g (by simp [isTop, isNext])
      rw [state, context]
      refine h.off g fun mem => ?_
      rw [stack] at mem
      rcases List.mem_cons.mp mem with eq | mem
      · exact isTop eq
      · exact notOn mem

/-! ## The operations -/

/-- What a resume does: nothing if the fiber has ended, else the fiber is on top and its resumer is
the fiber below it. -/
def Resumed (env : FiberEnvironment) (f : FiberPtr) (env' : FiberEnvironment) : Prop :=
  (env.Ended f ∧ env' = env) ∨
    (¬ env.Ended f ∧ ∃ top rest, env.fiberCallStack = top :: rest ∧
      env'.fiberCallStack = f :: top :: rest ∧ env'.Under f top ∧ SameBut [f, top] env env')

/-- What giving up control does: the fiber below the top, inside whose `fiber_resume` the top was, is
on top now. -/
def GaveUp (env env' : FiberEnvironment) : Prop :=
  ∃ top next rest, env.fiberCallStack = top :: next :: rest ∧ env'.fiberCallStack = next :: rest ∧
    env.Under top next ∧ SameBut [top, next] env env'

/-- A fiber off the stack that has started and not ended waits in its yield or sleep. -/
theorem Nested.waits_of_off (h : env.Nested) (outside : f ∉ env.fiberCallStack) (alive : ¬ env.Ended f)
    (started : env.state f ≠ .initing) : env.state f = .suspended ∨ env.state f = .sleeping := by
  obtain ⟨notTerminated, notException⟩ := not_or.mp alive
  cases state : env.state f with
  | initing => exact absurd state started
  | ready => exact absurd state (h.off f outside).1
  | running => exact absurd (List.mem_of_mem_head? ((h.running f).mp state)) outside
  | suspended => exact .inl rfl
  | sleeping => exact .inr rfl
  | terminated => exact absurd state notTerminated
  | exception => exact absurd state notException

/-- A fiber off the stack that has not ended has somewhere to go on once `fiber_resume` has looked at
it. -/
theorem Nested.calling_lands (h : env.Nested) (outside : f ∉ env.fiberCallStack) (alive : ¬ env.Ended f)
    {top : FiberPtr} (ne : f ≠ top) : Lands ((env.calling f top).context f) := by
  rw [calling_context env ne]
  split
  · exact ⟨by decide, by decide⟩
  · rename_i started
    rcases (h.off f outside).2 (h.waits_of_off outside alive started) with yields | sleeps
    · rw [yields]
      exact ⟨by decide, by decide⟩
    · rw [sleeps]
      exact ⟨by decide, by decide⟩

/-- `fiber_resume` of a fiber off the stack. -/
theorem Nested.fiberResume (h : env.Nested) (layout : Layout) (outside : f ∉ env.fiberCallStack) (rsp : Nat) :
    env.fiberResume layout f rsp = .error .occupier ∨
      ∃ env', env.fiberResume layout f rsp = .ok env' ∧ env'.Nested ∧ env.Resumed f env' := by
  by_cases ended : env.Ended f
  · exact .inr ⟨env, if_pos ended, h, .inl ⟨ended, rfl⟩⟩
  · obtain ⟨top, rest, stack⟩ := h.top
    have ne : f ≠ top := fun eq => outside (stack ▸ eq ▸ List.mem_cons_self)
    rw [fiberResume_eq ended stack]
    have runs : (env.calling f top).state f = .running := by simp [state, calling_fibers env ne]
    have lands := h.calling_lands outside ended ne
    rcases swapFiber_control layout ne runs lands rsp (.resuming f) with failed | ⟨env', ok, control⟩
    · exact .inl failed
    · have stack' : env'.fiberCallStack = f :: top :: rest := by
        rw [control.stack, modify_fiberCallStack, calling_fiberCallStack, stack]
      have fibers := calling_fibers env ne
      have under : env'.Under f top := by
        refine ⟨?_, ?_, ?_⟩
        · rw [control.state]
          simp [state, fibers, ne.symm]
        · rw [control.context]
          simp [context]
        · rw [control.resumedBy]
          simp [fibers, ne]
      have same : SameBut [f, top] env env' := by
        intro g other
        obtain ⟨isF, isTop⟩ : g ≠ f ∧ g ≠ top := by simpa using other
        rw [control.state, control.context]
        simp [state, context, fibers, isF, isTop]
      have runs' : env'.state f = .running := by
        rw [control.state]
        simp [state, fibers, ne]
      refine .inr ⟨env', ok, ?_, .inr ⟨ended, top, rest, stack, stack', under, same⟩⟩
      refine h.push stack outside stack' same runs' under fun g isF => ?_
      rw [control.resumedBy]
      by_cases isTop : g = top
      · subst isTop
        simp [fibers, isF]
      · simp [fibers, isF, isTop]

/-- The common body of `fiber_yield` and `fiber_sleep`. At the end of a fiber's function the state of
the fiber has just been set to `st`. -/
theorem Nested.leave (h : env.Nested) (layout : Layout) {top next : FiberPtr} {rest : List FiberPtr}
    (stack : env.fiberCallStack = top :: next :: rest) (st stored : FiberState) (site : FiberContext)
    (left : leftIn st stored ≠ .running ∧ leftIn st stored ≠ .ready)
    (goesOn : leftIn st stored = .suspended ∨ leftIn st stored = .sleeping →
      site = .yielding ∨ site = .sleeping) (rsp : Nat) :
    (env.setState top st).leave layout stored site rsp = .error .occupier ∨
      ∃ env', (env.setState top st).leave layout stored site rsp = .ok env' ∧ env'.Nested ∧
        env.GaveUp env' := by
  have nodup := h.nodup
  have chain := h.chain
  rw [stack] at nodup chain
  have ne : next ≠ top := fun eq => (List.nodup_cons.mp nodup).1 (eq ▸ List.mem_cons_self)
  have under : env.Under top next := (List.isChain_cons_cons.mp chain).1
  have below : (env.setState top st).state next = .suspended := by
    rw [setState_state, if_neg ne]
    exact under.state
  rw [leave_eq (show (env.setState top st).fiberCallStack = _ from stack) ne below]
  have fibers := leaving_setState_fibers env st stored ne
  have lands : Lands (((env.setState top st).leaving stored top next).context next) := by
    have context : ((env.setState top st).leaving stored top next).context next = .resuming top := by
      rw [← under.context]
      simp [FiberEnvironment.context, fibers]
    rw [context]
    exact ⟨by simp, by simp⟩
  rcases swapFiber_control layout ne (by simp [state, fibers]) lands rsp site with
    failed | ⟨env', ok, control⟩
  · exact .inl failed
  · have stack' : env'.fiberCallStack = next :: rest := by
      rw [control.stack, modify_fiberCallStack, leaving_fiberCallStack, setState, modify_fiberCallStack,
        stack, List.tail_cons]
    have same : SameBut [top, next] env env' := by
      intro g other
      obtain ⟨isTop, isNext⟩ : g ≠ top ∧ g ≠ next := by simpa using other
      rw [control.state, control.context]
      simp [state, context, fibers, isTop, isNext]
    have stateTop : env'.state top = leftIn st stored := by
      rw [control.state]
      simp [state, fibers, ne.symm]
    have contextTop : env'.context top = site := by
      rw [control.context]
      simp [context]
    refine .inr ⟨env', ok, ?_, top, next, rest, stack, stack', under, same⟩
    refine h.pop stack stack' same ?_ (stateTop ▸ left) (stateTop ▸ contextTop ▸ goesOn) fun g => ?_
    · rw [control.state]
      simp [state, fibers, ne]
    · rw [control.resumedBy]
      by_cases isNext : g = next
      · subst isNext
        simp [fibers, ne]
      · by_cases isTop : g = top
        · subst isTop
          simp [fibers, isNext]
        · simp [fibers, isNext, isTop]

/-- The top is not the main fiber, so there is a fiber below it. -/
theorem Nested.next (h : env.Nested) (notMain : env.fiberCallStack.head? ≠ some mainFiber) :
    ∃ top next rest, env.fiberCallStack = top :: next :: rest := by
  obtain ⟨top, rest, stack⟩ := h.top
  cases rest with
  | nil =>
    have last := h.last
    rw [stack] at last notMain
    exact absurd last notMain
  | cons next rest => exact ⟨top, next, rest, stack⟩

theorem Nested.fiberYield (h : env.Nested) (layout : Layout)
    (notMain : env.fiberCallStack.head? ≠ some mainFiber) (rsp : Nat) :
    env.fiberYield layout rsp = .error .occupier ∨
      ∃ env', env.fiberYield layout rsp = .ok env' ∧ env'.Nested ∧ env.GaveUp env' := by
  obtain ⟨top, next, rest, stack⟩ := h.next notMain
  have runs : env.state top = .running := (h.running top).mpr (by rw [stack]; rfl)
  have left := h.leave layout stack .running .suspended .yielding
    ⟨by decide, by decide⟩ (fun _ => .inl rfl) rsp
  rw [setState_self runs] at left
  exact left

theorem Nested.fiberSleep (h : env.Nested) (layout : Layout)
    (notMain : env.fiberCallStack.head? ≠ some mainFiber) (rsp : Nat) :
    env.fiberSleep layout rsp = .error .occupier ∨
      ∃ env', env.fiberSleep layout rsp = .ok env' ∧ env'.Nested ∧ env.GaveUp env' := by
  obtain ⟨top, next, rest, stack⟩ := h.next notMain
  have runs : env.state top = .running := (h.running top).mpr (by rw [stack]; rfl)
  have left := h.leave layout stack .running .sleeping .sleeping
    ⟨by decide, by decide⟩ (fun _ => .inr rfl) rsp
  rw [setState_self runs] at left
  exact left

theorem Nested.finish (h : env.Nested) (layout : Layout)
    (notMain : env.fiberCallStack.head? ≠ some mainFiber) (threw : Bool) (rsp : Nat) :
    env.finish layout threw rsp = .error .occupier ∨
      ∃ env', env.finish layout threw rsp = .ok env' ∧ env'.Nested ∧ env.GaveUp env' := by
  obtain ⟨top, next, rest, stack⟩ := h.next notMain
  have current : env.getCurrentFiber = .ok top := by rw [getCurrentFiber, stack]
  unfold FiberEnvironment.finish
  rw [current]
  refine h.leave layout stack _ .suspended .exiting ?_ ?_ rsp
  · cases threw with
    | false => exact ⟨by decide, by decide⟩
    | true => exact ⟨by decide, by decide⟩
  · cases threw with
    | false => exact fun waits => absurd waits (by decide)
    | true => exact fun waits => absurd waits (by decide)

/-- An operation on one fiber off the call stack. -/
theorem Nested.update (h : env.Nested) {change : Fiber → Fiber} (outside : f ∉ env.fiberCallStack)
    (state : (change (env.fibers f)).state ≠ .running ∧ (change (env.fibers f)).state ≠ .ready)
    (goesOn : (change (env.fibers f)).state = .suspended ∨ (change (env.fibers f)).state = .sleeping →
      (change (env.fibers f)).context = .yielding ∨ (change (env.fibers f)).context = .sleeping) :
    (env.modify f change).Nested := by
  have others : ∀ g ∈ env.fiberCallStack, (env.modify f change).fibers g = env.fibers g := by
    intro g mem
    have ne : g ≠ f := fun eq => outside (eq ▸ mem)
    simp [ne]
  constructor
  case last => exact h.last
  case nodup => exact h.nodup
  case running =>
    intro g
    by_cases same : g = f
    · subst same
      refine iff_of_false (by simpa [FiberEnvironment.state] using state.1) fun top => ?_
      exact outside (List.mem_of_mem_head? top)
    · rw [show (env.modify f change).state g = env.state g by simp [FiberEnvironment.state, same]]
      exact h.running g
  case chain =>
    refine isChain_under_congr h.chain (fun g mem => ?_) (fun g mem => ?_) fun g mem => ?_
    · exact congrArg Fiber.state (others g (List.mem_of_mem_tail mem))
    · exact congrArg Fiber.context (others g (List.mem_of_mem_tail mem))
    · exact congrArg Fiber.resumedBy (others g mem)
  case off =>
    intro g notOn
    by_cases same : g = f
    · subst same
      refine ⟨by simpa [FiberEnvironment.state] using state.2, fun waits => ?_⟩
      simp only [FiberEnvironment.state, FiberEnvironment.context, modify_fibers, if_true] at waits ⊢
      exact goesOn waits
    · have here : (env.modify f change).fibers g = env.fibers g := by simp [same]
      unfold FiberEnvironment.state FiberEnvironment.context
      rw [here]
      exact h.off g notOn

/-- A sleeping fiber is off the stack. -/
theorem Nested.off_of_sleeping (h : env.Nested) (sleeps : env.state f = .sleeping) :
    f ∉ env.fiberCallStack := by
  intro mem
  obtain ⟨top, rest, stack⟩ := h.top
  have runs : env.state top = .running := (h.running top).mpr (by rw [stack]; rfl)
  rw [stack] at mem
  rcases List.mem_cons.mp mem with rfl | below
  · rw [sleeps] at runs
    cases runs
  · have suspended := h.below stack below
    rw [sleeps] at suspended
    cases suspended

theorem Nested.fiberWakeup (h : env.Nested) (f : FiberPtr) : (env.fiberWakeup f).Nested := by
  unfold FiberEnvironment.fiberWakeup
  split
  · rename_i sleeps
    have outside := h.off_of_sleeping sleeps
    refine h.update outside ⟨by simp, by simp⟩ fun _ => ?_
    exact (h.off f outside).2 (.inr sleeps)
  · exact h

theorem Nested.reset (h : env.Nested) (layout : Layout) (outside : f ∉ env.fiberCallStack) :
    (env.reset layout f).Nested := by
  unfold FiberEnvironment.reset
  split
  · exact h
  · exact h.update outside ⟨by simp, by simp⟩ (by simp)

/-! ## Runs -/

/-- What an operation that is allowed does, unless the occupier assertion fails: the nesting is kept. -/
theorem Nested.exec (h : env.Nested) (layout : Layout) {op : Op} (allowed : env.Allowed op) :
    env.exec layout op = .error .occupier ∨ ∃ env', env.exec layout op = .ok env' ∧ env'.Nested := by
  cases op with
  | resume f rsp =>
    rcases h.fiberResume layout allowed.1 rsp with failed | ⟨env', ok, nested, -⟩
    · exact .inl failed
    · exact .inr ⟨env', ok, nested⟩
  | yield rsp =>
    rcases h.fiberYield layout allowed rsp with failed | ⟨env', ok, nested, -⟩
    · exact .inl failed
    · exact .inr ⟨env', ok, nested⟩
  | sleep rsp =>
    rcases h.fiberSleep layout allowed rsp with failed | ⟨env', ok, nested, -⟩
    · exact .inl failed
    · exact .inr ⟨env', ok, nested⟩
  | finish threw rsp =>
    rcases h.finish layout allowed threw rsp with failed | ⟨env', ok, nested, -⟩
    · exact .inl failed
    · exact .inr ⟨env', ok, nested⟩
  | wakeup f => exact .inr ⟨_, rfl, h.fiberWakeup f⟩
  | reset f => exact .inr ⟨_, rfl, h.reset layout allowed⟩
  | compute bytes =>
    obtain ⟨top, rest, stack⟩ := h.top
    have current : env.getCurrentFiber = .ok top := by rw [getCurrentFiber, stack]
    right
    show ∃ env', env.compute layout bytes = .ok env' ∧ env'.Nested
    unfold compute
    rw [current]
    dsimp only [bind, Except.bind]
    split
    · exact ⟨_, rfl, h.sameControl (sameControl_modifyMem ..)⟩
    · exact ⟨_, rfl, h⟩

theorem Nested.step (h : env.Nested) {op : Op} (step : Step layout env op env') : env'.Nested := by
  rcases h.exec layout step.2 with failed | ⟨env'', ok, nested⟩
  · rw [step.1] at failed
    cases failed
  · rw [step.1] at ok
    obtain rfl := Except.ok.inj ok
    exact nested

theorem nested_of_run {buffers : MemPtr → List UInt8} {ops : List Op}
    (run : Run (Step layout) (init buffers) ops env) : env.Nested :=
  run.invariant (I := Nested) (fun _ _ _ h step => h.step step) (nested_init buffers)

/-- The operations by which the current fiber gives up control. -/
def Op.givesUp : Op → Bool
  | .yield _ | .sleep _ | .finish .. => true
  | .resume .. | .wakeup _ | .reset _ | .compute _ => false

theorem Nested.gaveUp (h : env.Nested) {op : Op} (givesUp : op.givesUp = true)
    (step : Step layout env op env') : env.GaveUp env' := by
  obtain ⟨ok, allowed⟩ := step
  have spec : env.exec layout op = .error .occupier ∨
      ∃ env', env.exec layout op = .ok env' ∧ env'.Nested ∧ env.GaveUp env' := by
    cases op with
    | yield rsp => exact h.fiberYield layout allowed rsp
    | sleep rsp => exact h.fiberSleep layout allowed rsp
    | finish threw rsp => exact h.finish layout allowed threw rsp
    | resume | wakeup | reset | compute => cases givesUp
  rcases spec with failed | ⟨env'', ok', -, gaveUp⟩
  · rw [ok] at failed
    cases failed
  · rw [ok] at ok'
    obtain rfl := Except.ok.inj ok'
    exact gaveUp

theorem Nested.resumed (h : env.Nested) {rsp : Nat} (step : Step layout env (.resume f rsp) env') :
    env.Resumed f env' := by
  obtain ⟨ok, allowed⟩ := step
  rcases h.fiberResume layout allowed.1 rsp with failed | ⟨env'', ok', -, resumed⟩
  · rw [show env.fiberResume layout f rsp = _ from ok] at failed
    cases failed
  · rw [show env.fiberResume layout f rsp = _ from ok] at ok'
    obtain rfl := Except.ok.inj ok'
    exact resumed

/-- An ended fiber stays ended until it is reset. -/
theorem Nested.ended_step (h : env.Nested) (ended : env.Ended f) {op : Op} (step : Step layout env op env')
    (quiet : op ≠ .reset f) : env'.state f = env.state f := by
  have notTop : ∀ top, env.state top = .running ∨ env.state top = .suspended → f ≠ top := by
    rintro top state rfl
    rcases ended with ended | ended
    · rw [ended] at state
      exact absurd state (by decide)
    · rw [ended] at state
      exact absurd state (by decide)
  have top : ∀ {top rest}, env.fiberCallStack = top :: rest → f ≠ top := fun {top rest} stack =>
    notTop top (.inl ((h.running top).mpr (by rw [stack]; rfl)))
  have leaves : env.GaveUp env' → env'.state f = env.state f := by
    rintro ⟨top', next, rest, stack, -, under, same⟩
    exact (same f (by simp [top stack, notTop next (.inr under.state)])).1
  cases op with
  | resume g rsp =>
    rcases h.resumed step with ⟨-, rfl⟩ | ⟨alive, top', rest, stack, -, -, same⟩
    · rfl
    · have ne : f ≠ g := fun eq => alive (eq ▸ ended)
      exact (same f (by simp [ne, top stack])).1
  | yield rsp => exact leaves (h.gaveUp rfl step)
  | sleep rsp => exact leaves (h.gaveUp rfl step)
  | finish threw rsp => exact leaves (h.gaveUp rfl step)
  | wakeup g =>
    obtain rfl : env.fiberWakeup g = env' := Except.ok.inj step.1
    unfold FiberEnvironment.fiberWakeup
    split
    · rename_i sleeps
      rw [setState_state, if_neg]
      rintro rfl
      rcases ended with ended | ended
      · cases sleeps.symm.trans ended
      · cases sleeps.symm.trans ended
    · rfl
  | reset g =>
    obtain rfl : env.reset layout g = env' := Except.ok.inj step.1
    have ne : f ≠ g := fun eq => quiet (eq ▸ rfl)
    unfold FiberEnvironment.reset
    split
    · rfl
    · simp [state, ne]
  | compute bytes =>
    have ok : env.compute layout bytes = .ok env' := step.1
    unfold compute getCurrentFiber at ok
    obtain ⟨top', rest, stack⟩ := h.top
    rw [stack] at ok
    dsimp only [bind, Except.bind] at ok
    split at ok
    · obtain rfl := Except.ok.inj ok
      rfl
    · obtain rfl := Except.ok.inj ok
      rfl

/-- The call stack as the source indexes it, and the states of the fibers on it. -/
structure Disciplined (env : FiberEnvironment) : Prop where
  main : env.fiberCallStack.reverse[0]? = some mainFiber
  distinct : env.fiberCallStack.Nodup
  top : ∃ top rest, env.fiberCallStack = top :: rest ∧ (∀ f, env.state f = .running ↔ f = top) ∧
    ∀ f ∈ rest, env.state f = .suspended

theorem Nested.disciplined (h : env.Nested) : env.Disciplined := by
  obtain ⟨top, rest, stack⟩ := h.top
  refine ⟨?_, h.nodup, top, rest, stack, fun f => ?_, fun f mem => h.below stack mem⟩
  · rw [← List.head?_eq_getElem?, List.head?_reverse]
    exact h.last
  · rw [h.running, stack, List.head?_cons, Option.some.injEq]
    exact eq_comm

/-- In every state that a thread reaches by resuming fibers off its call stack, yielding, sleeping,
returning, throwing, waking and resetting: the call stack is disciplined; the assertions of
`get_current_fiber`, `fiber_yield` and `fiber_sleep` hold, and no switch goes astray (only the assertion
of `change_occupier` can stop an operation); a fiber that gives up control gives it to the one that
issued its resume, inside that resume; and a fiber that has ended is not switched to, in any later
state, before it is reset. -/
theorem callStack_disciplined {buffers : MemPtr → List UInt8} {ops : List Op}
    (run : Run (Step layout) (init buffers) ops env) :
    env.Disciplined ∧ (∃ f, env.getCurrentFiber = .ok f) ∧
      (∀ op, env.Allowed op →
        env.exec layout op = .error .occupier ∨ ∃ env', env.exec layout op = .ok env') ∧
      (∀ op env', op.givesUp = true → Step layout env op env' →
        ∃ f g, env.getCurrentFiber = .ok f ∧ env'.getCurrentFiber = .ok g ∧
          (env.fibers f).resumedBy = some g ∧ env.context g = .resuming f) ∧
      (∀ f rsp env', Step layout env (.resume f rsp) env' →
        (env.Ended f ∧ env' = env) ∨ (¬ env.Ended f ∧ env'.getCurrentFiber = .ok f ∧
          ∃ g, env.getCurrentFiber = .ok g ∧ (env'.fibers f).resumedBy = some g)) ∧
      ∀ f, env.Ended f → ∀ later env', Run (Step layout) env later env' →
        (∀ op ∈ later, op ≠ .reset f) → env'.Ended f ∧ env'.getCurrentFiber ≠ .ok f := by
  have h := nested_of_run run
  have current : ∀ {env : FiberEnvironment} {top rest}, env.fiberCallStack = top :: rest →
      env.getCurrentFiber = .ok top := fun stack => by rw [getCurrentFiber, stack]
  refine ⟨h.disciplined, ?_, fun op allowed => ?_, fun op env' givesUp step => ?_,
    fun f rsp env' step => ?_, fun f ended later env' rest quiet => ?_⟩
  · obtain ⟨top, rest, stack⟩ := h.top
    exact ⟨top, current stack⟩
  · rcases h.exec layout allowed with failed | ⟨env', ok, -⟩
    · exact .inl failed
    · exact .inr ⟨env', ok⟩
  · obtain ⟨top, next, rest, stack, stack', under, -⟩ := h.gaveUp givesUp step
    exact ⟨top, next, current stack, current stack', under.resumedBy, under.context⟩
  · rcases h.resumed step with same | ⟨alive, top, rest, stack, stack', under, -⟩
    · exact .inl same
    · exact .inr ⟨alive, current stack', top, current stack, under.resumedBy⟩
  · have kept := rest.invariant_of_labels
      (I := fun e => e.Nested ∧ e.state f = env.state f)
      (fun s op s' inv step quiet => ⟨inv.1.step step, by
        have ended' : s.Ended f := by rw [Ended, inv.2]; exact ended
        exact (inv.1.ended_step ended' step quiet).trans inv.2⟩) ⟨h, rfl⟩ quiet
    obtain ⟨nested, same⟩ := kept
    have ended' : env'.Ended f := by rw [Ended, same]; exact ended
    refine ⟨ended', fun runs => ?_⟩
    obtain ⟨top, rest', stack⟩ := nested.top
    rw [current stack] at runs
    obtain rfl := Except.ok.inj runs
    have running : env'.state top = .running := (nested.running top).mpr (by rw [stack]; rfl)
    rcases ended' with ended | ended
    · rw [running] at ended
      cases ended
    · rw [running] at ended
      cases ended

/-- Every fiber on a stack of its own. -/
def ownStacks : Layout where
  stack f := if f = mainFiber then .thread else .own f
  main := rfl
  others f other := by simp [other]
  apart f mem own g same := by
    by_cases mainF : f = mainFiber
    · simp [mainF] at own
    · by_cases mainG : g = mainFiber
      · simp [mainG, FiberStack.mem] at same
      · simp only [mainF, mainG, if_false, FiberStack.mem, FiberStack.own.injEq,
          Option.some.injEq] at own same
        rw [same, own]

/-- The main fiber resumes one fiber, this one another, which yields. -/
theorem callStack_disciplined_nested : ∃ env : FiberEnvironment,
    Run (Step ownStacks) (init fun _ => []) [.resume 1 0, .resume 2 0, .yield 0] env ∧
      env.fiberCallStack = [1, 0] ∧ env.Disciplined := by
  have run : Run (Step ownStacks) (init fun _ => []) [.resume 1 0, .resume 2 0, .yield 0] _ :=
    .cons ⟨rfl, by decide⟩ (.cons ⟨rfl, by decide⟩ (.single ⟨rfl, by decide⟩))
  exact ⟨_, run, rfl, (callStack_disciplined run).1⟩

end Sylar.FiberEnvironment
