import Sylar.Fiber.Basic

/-!
# Switching between fibers

What a switch does to control and what it leaves alone. `fiber_resume`, and the common body of
`fiber_yield` and `fiber_sleep`, are each brought into the form of one update of the thread followed by
`swap_fiber` (`fiberResume_eq`, `leave_eq`). `swap_fiber` stores the context of the fiber it leaves;
its work on the stacks does not touch the call stack, a state or another context
(`swapFiber_control`).
-/

namespace Sylar.FiberEnvironment

variable {env env' : FiberEnvironment} {layout : Layout} {f g : FiberPtr}

/-! ## Updates -/

@[simp] theorem modify_mems (change : Fiber → Fiber) : (env.modify f change).mems = env.mems :=
  rfl

@[simp] theorem modify_fibers (change : Fiber → Fiber) :
    (env.modify f change).fibers g = if g = f then change (env.fibers g) else env.fibers g := by
  unfold modify
  by_cases same : g = f
  · rw [same]
    simp
  · simp [same]

@[simp] theorem modify_fiberCallStack (change : Fiber → Fiber) :
    (env.modify f change).fiberCallStack = env.fiberCallStack :=
  rfl

theorem setState_state (new : FiberState) :
    (env.setState f new).state g = if g = f then new else env.state g := by
  unfold state setState
  rw [modify_fibers]
  split
  · rfl
  · rfl

theorem setState_self {st : FiberState} (here : env.state f = st) : env.setState f st = env := by
  have same : { env.fibers f with state := st } = env.fibers f := by rw [← here]; rfl
  unfold setState modify
  dsimp only
  rw [same, Function.update_eq_self]

@[simp] theorem setState_context (new : FiberState) : (env.setState f new).context g = env.context g := by
  unfold context setState
  rw [modify_fibers]
  split
  · rfl
  · rfl

/-! ## What a switch leaves alone -/

/-- Everything that decides where control goes: the call stack, and of every fiber its state, its
context and who resumed it. -/
structure SameControl (env env' : FiberEnvironment) : Prop where
  stack : env'.fiberCallStack = env.fiberCallStack
  state : ∀ f, env'.state f = env.state f
  context : ∀ f, env'.context f = env.context f
  resumedBy : ∀ f, (env'.fibers f).resumedBy = (env.fibers f).resumedBy

theorem SameControl.refl (env : FiberEnvironment) : SameControl env env :=
  ⟨rfl, fun _ => rfl, fun _ => rfl, fun _ => rfl⟩

theorem SameControl.trans {env₁ env₂ env₃ : FiberEnvironment} (first : SameControl env₁ env₂)
    (second : SameControl env₂ env₃) : SameControl env₁ env₃ :=
  ⟨second.stack.trans first.stack, fun f => (second.state f).trans (first.state f),
    fun f => (second.context f).trans (first.context f),
    fun f => (second.resumedBy f).trans (first.resumedBy f)⟩

/-- An update of a fiber's stack data. -/
theorem sameControl_modify {change : Fiber → Fiber} (state : ∀ x, (change x).state = x.state)
    (context : ∀ x, (change x).context = x.context)
    (resumedBy : ∀ x, (change x).resumedBy = x.resumedBy) : SameControl env (env.modify f change) := by
  refine ⟨rfl, fun g => ?_, fun g => ?_, fun g => ?_⟩
  · unfold FiberEnvironment.state
    rw [modify_fibers]
    split
    · exact state _
    · rfl
  · unfold FiberEnvironment.context
    rw [modify_fibers]
    split
    · exact context _
    · rfl
  · rw [modify_fibers]
    split
    · exact resumedBy _
    · rfl

theorem sameControl_modifyMem (mem : MemPtr) (change : FiberMem → FiberMem) :
    SameControl env (env.modifyMem mem change) :=
  ⟨rfl, fun _ => rfl, fun _ => rfl, fun _ => rfl⟩

theorem sameControl_changeOccupier (env : FiberEnvironment) (layout : Layout) (mem : MemPtr) (new : FiberPtr) :
    env.changeOccupier layout mem new = .error .occupier ∨
      ∃ env', env.changeOccupier layout mem new = .ok env' ∧ SameControl env env' := by
  unfold changeOccupier
  split
  · exact .inr ⟨_, rfl, sameControl_modifyMem ..⟩
  · split
    · exact .inr ⟨_, rfl, sameControl_modifyMem ..⟩
    · split
      · refine .inr ⟨_, rfl, SameControl.trans ?_ (sameControl_modifyMem ..)⟩
        exact sameControl_modify (fun _ => rfl) (fun _ => rfl) fun _ => rfl
      · exact .inl rfl

theorem sameControl_takeStack (env : FiberEnvironment) (layout : Layout) (new : FiberPtr) :
    env.takeStack layout new = .error .occupier ∨
      ∃ env', env.takeStack layout new = .ok env' ∧ SameControl env env' := by
  unfold takeStack
  split
  · rename_i mem _
    rcases sameControl_changeOccupier { env with
      swapInFiber := some new
      swapOutFiber := (env.mems mem).occupier } layout mem new with failed | ⟨env', ok, same⟩
    · exact .inl failed
    · exact .inr ⟨env', ok, ⟨same.stack, same.state, same.context, same.resumedBy⟩⟩
  · exact .inr ⟨_, rfl, ⟨rfl, fun _ => rfl, fun _ => rfl, fun _ => rfl⟩⟩
  · exact .inr ⟨_, rfl, ⟨rfl, fun _ => rfl, fun _ => rfl, fun _ => rfl⟩⟩

theorem sameControl_resumeStack (layout : Layout) : SameControl env (env.resumeStack layout) := by
  have copied : ∀ f, SameControl env (env.copyBack layout f) := by
    intro f
    unfold copyBack
    split
    · split
      · exact sameControl_modifyMem ..
      · exact .refl env
    · exact .refl env
  have cleared : ∀ {env' : FiberEnvironment}, SameControl env env' →
      SameControl env { env' with swapInFiber := none, swapOutFiber := none } :=
    fun inner => ⟨inner.stack, inner.state, inner.context, inner.resumedBy⟩
  unfold resumeStack
  refine cleared ?_
  split
  · split
    · exact copied _
    · exact .refl env
  · exact .refl env

/-- Whether a context has somewhere to go on. -/
def Lands (c : FiberContext) : Prop :=
  c ≠ .unset ∧ c ≠ .exiting

theorem sameControl_land (layout : Layout) (running : env.state f = .running) (lands : Lands (env.context f)) :
    ∃ env', env.land layout f = .ok env' ∧ SameControl env env' := by
  unfold land
  split
  · refine ⟨_, rfl, rfl, fun g => ?_, fun g => setState_context _, fun g => ?_⟩
    · rw [setState_state]
      split
      · rename_i same
        rw [same, running]
      · rfl
    · unfold setState
      rw [modify_fibers]
      split
      · rfl
      · rfl
  · exact ⟨_, rfl, sameControl_resumeStack layout⟩
  · exact ⟨_, rfl, sameControl_resumeStack layout⟩
  · exact ⟨_, rfl, sameControl_resumeStack layout⟩
  · rename_i unset
    exact absurd unset lands.1
  · rename_i exiting
    exact absurd exiting lands.2

/-- A switch from `old`, at `site`, to a fiber that is `RUNNING` by now and has somewhere to go on:
unless the occupier assertion fails, it stores the context of `old` and changes nothing else that
decides where control goes. -/
theorem swapFiber_control (layout : Layout) {old new : FiberPtr} (ne : new ≠ old)
    (running : env.state new = .running) (lands : Lands (env.context new)) (rsp : Nat) (site : FiberContext) :
    env.swapFiber layout old new rsp site = .error .occupier ∨
      ∃ env', env.swapFiber layout old new rsp site = .ok env' ∧
        SameControl (env.modify old fun fiber => { fiber with context := site }) env' := by
  unfold swapFiber
  dsimp only
  have stored : SameControl env (env.modify old fun fiber =>
      { fiber with stackBufferTop := rsp, held := env.region layout old rsp }) :=
    sameControl_modify (fun _ => rfl) (fun _ => rfl) fun _ => rfl
  rcases sameControl_takeStack (env.modify old fun fiber =>
      { fiber with stackBufferTop := rsp, held := env.region layout old rsp }) layout new with
    failed | ⟨taken, ok, same⟩
  · exact .inl (by rw [failed]; rfl)
  · right
    have both := stored.trans same
    have written : SameControl (env.modify old fun fiber => { fiber with context := site })
        (taken.modify old fun fiber => { fiber with context := site }) := by
      refine ⟨both.stack, fun g => ?_, fun g => ?_, fun g => ?_⟩
      · have here := both.state g
        unfold state at here ⊢
        rw [modify_fibers, modify_fibers]
        split
        · exact here
        · exact here
      · have here := both.context g
        unfold context at here ⊢
        rw [modify_fibers, modify_fibers]
        split
        · rfl
        · exact here
      · have here := both.resumedBy g
        rw [modify_fibers, modify_fibers]
        split
        · exact here
        · exact here
    have state : (taken.modify old fun fiber => { fiber with context := site }).state new = .running := by
      rw [written.state, FiberEnvironment.state, modify_fibers, if_neg ne]
      exact running
    have context : (taken.modify old fun fiber => { fiber with context := site }).context new =
        env.context new := by
      rw [written.context, FiberEnvironment.context, modify_fibers, if_neg ne]
      rfl
    obtain ⟨env', landed, after⟩ := sameControl_land layout state (context ▸ lands)
    refine ⟨env', ?_, written.trans after⟩
    rw [ok]
    exact landed

/-! ## What is handed to a switch -/

/-- A fiber that has ended. -/
def Ended (env : FiberEnvironment) (f : FiberPtr) : Prop :=
  env.state f = .terminated ∨ env.state f = .exception

/-- The thread as `fiber_resume` hands it to `swap_fiber`. -/
def calling (env : FiberEnvironment) (f top : FiberPtr) : FiberEnvironment :=
  ((((if env.state f = .initing then env.makeContext f else env).pushFiber f).setState f .running).setState
    top .suspended).modify f fun fiber => { fiber with resumedBy := some top }

theorem fiberResume_eq (alive : ¬ env.Ended f) {top : FiberPtr} {rest : List FiberPtr}
    (stack : env.fiberCallStack = top :: rest) (rsp : Nat) :
    env.fiberResume layout f rsp = (env.calling f top).swapFiber layout top f rsp (.resuming f) := by
  have current : (if env.state f = .initing then env.makeContext f else env).getCurrentFiber = .ok top := by
    split
    · simp [getCurrentFiber, makeContext, stack]
    · simp [getCurrentFiber, stack]
  unfold fiberResume
  rw [if_neg (show ¬ (env.state f = .terminated ∨ env.state f = .exception) from alive)]
  dsimp only
  rw [current]
  rfl

section Calling

variable {top : FiberPtr}

theorem calling_fibers (env : FiberEnvironment) (ne : f ≠ top) (g : FiberPtr) :
    (env.calling f top).fibers g =
      if g = f then
        { env.fibers f with
          state := .running
          context := if env.state f = .initing then .wrapper else env.context f
          resumedBy := some top }
      else if g = top then { env.fibers top with state := .suspended } else env.fibers g := by
  unfold calling setState
  by_cases isF : g = f
  · subst isF
    by_cases initing : env.state g = .initing
    · simp [initing, makeContext, ne, pushFiber]
    · simp [initing, ne, pushFiber, context]
  · by_cases isTop : g = top
    · subst isTop
      split
      · simp [makeContext, pushFiber, isF]
      · simp [pushFiber, isF]
    · split
      · simp [makeContext, pushFiber, isF, isTop]
      · simp [pushFiber, isF, isTop]

theorem calling_context (env : FiberEnvironment) (ne : f ≠ top) :
    (env.calling f top).context f = if env.state f = .initing then .wrapper else env.context f := by
  unfold context
  rw [calling_fibers env ne, if_pos rfl]
  rfl

theorem calling_fiberCallStack : (env.calling f top).fiberCallStack = f :: env.fiberCallStack := by
  unfold calling
  split
  · rfl
  · rfl

theorem calling_mems : (env.calling f top).mems = env.mems := by
  unfold calling
  split
  · rfl
  · rfl

end Calling

/-- The state a fiber has once `fiber_yield` or `fiber_sleep` has looked at it. -/
def leftIn (st stored : FiberState) : FiberState :=
  if st = .running then stored else st

/-- The thread as `fiber_yield` and `fiber_sleep` hand it to `swap_fiber`. -/
def leaving (env : FiberEnvironment) (stored : FiberState) (top next : FiberPtr) : FiberEnvironment :=
  (if env.state top = .running then env.popFiber.setState top stored else env.popFiber).setState next .running

theorem leave_eq {top next : FiberPtr} {rest : List FiberPtr}
    (stack : env.fiberCallStack = top :: next :: rest) (ne : next ≠ top)
    (below : env.state next = .suspended) (stored : FiberState) (site : FiberContext) (rsp : Nat) :
    env.leave layout stored site rsp =
      (env.leaving stored top next).swapFiber layout top next rsp site := by
  have current : env.getCurrentFiber = .ok top := by rw [getCurrentFiber, stack]
  have popped : env.popFiber.getCurrentFiber = .ok next := by
    simp [getCurrentFiber, popFiber, stack]
  have asserted : (if env.popFiber.state top = .running then env.popFiber.setState top stored
      else env.popFiber).state next = .suspended := by
    split
    · rw [setState_state, if_neg ne]
      exact below
    · exact below
  unfold leave
  rw [current]
  dsimp only [bind, Except.bind]
  rw [popped]
  dsimp only
  rw [if_pos asserted]
  rfl

section Leaving

variable {stored : FiberState} {top next : FiberPtr}

theorem leaving_fibers (ne : next ≠ top) :
    (env.leaving stored top next).fibers g =
      if g = next then { env.fibers next with state := .running }
      else if g = top then
        { env.fibers top with state := leftIn (env.state top) stored }
      else env.fibers g := by
  unfold leaving setState
  by_cases isNext : g = next
  · subst isNext
    split
    · simp [popFiber, ne]
    · simp [popFiber]
  · by_cases isTop : g = top
    · subst isTop
      split
      · rename_i runs
        simp [popFiber, isNext, leftIn, runs]
      · rename_i ended
        have stays : leftIn (env.state g) stored = env.state g := if_neg ended
        simp [popFiber, isNext, stays]
        rfl
    · split
      · simp [popFiber, isNext, isTop]
      · simp [popFiber, isNext]

theorem leaving_setState_fibers (env : FiberEnvironment) (st stored : FiberState) (ne : next ≠ top)
    (g : FiberPtr) :
    ((env.setState top st).leaving stored top next).fibers g =
      if g = next then { env.fibers next with state := .running }
      else if g = top then { env.fibers top with state := leftIn st stored }
      else env.fibers g := by
  rw [leaving_fibers ne]
  by_cases isNext : g = next
  · simp [isNext, setState, ne]
  · by_cases isTop : g = top
    · subst isTop
      simp [isNext, setState, state, leftIn]
    · simp [isNext, isTop, setState]

theorem leaving_fiberCallStack :
    (env.leaving stored top next).fiberCallStack = env.fiberCallStack.tail := by
  unfold leaving
  split
  · rfl
  · rfl

theorem leaving_mems : (env.leaving stored top next).mems = env.mems := by
  unfold leaving
  split
  · rfl
  · rfl

end Leaving

end Sylar.FiberEnvironment
