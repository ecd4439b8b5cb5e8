import Sylar.Fiber.CallStack
import Sylar.Fiber.Stacks

/-!
# Resuming fibers that are on the call stack

`fiber_resume` looks only at whether the fiber has ended: it checks neither that the fiber is off the
call stack nor that there is room on it. The runs here are of any operations on any fibers
(`FreeStep`). What is left of the discipline of the call stack is `Rooted`; it decides when the
assertion of `fiber_yield` and `fiber_sleep` holds (`staysInside_iff`). A fiber with two entries on the
call stack that ends, or falls asleep, through the upper one leaves the lower one for a later
`fiber_yield` to run into.
-/

namespace Sylar.FiberEnvironment

open Lib

variable {env env' : FiberEnvironment} {layout : Layout} {f g : FiberPtr}

/-- One operation as a step, on any fiber, at any depth. A fiber is reset off the call stack. -/
def FreeStep (layout : Layout) (env : FiberEnvironment) (op : Op) (env' : FiberEnvironment) : Prop :=
  env.exec layout op = .ok env' ∧ ∀ f, op = .reset f → f ∉ env.fiberCallStack

/-! ## A switch between any two fibers -/

/-- The assertion of `change_occupier` fails for a fiber that is switched to: its shared stack is
occupied by another fiber, in a state that is not listed. The states are those at the switch. -/
def Blocked (layout : Layout) (env : FiberEnvironment) (state : FiberPtr → FiberState) (new : FiberPtr) :
    Prop :=
  ∃ mem occupier, layout.stack new = .shared mem ∧ env.occupier mem = some occupier ∧ occupier ≠ new ∧
    state occupier ≠ .suspended ∧ state occupier ≠ .terminated

/-- Only the states of the other fibers matter. -/
theorem Blocked.congr {states states' : FiberPtr → FiberState} {new : FiberPtr}
    (h : Blocked layout env states new) (mems : env'.mems = env.mems)
    (same : ∀ g, g ≠ new → states' g = states g) : Blocked layout env' states' new := by
  obtain ⟨mem, occupier, shared, here, other, state⟩ := h
  refine ⟨mem, occupier, shared, ?_, other, ?_⟩
  · rw [FiberEnvironment.occupier, mems]
    exact here
  · rw [same occupier other]
    exact state

/-- The same call stack, and everyone in the same state. -/
structure SameStates (env env' : FiberEnvironment) : Prop where
  stack : env'.fiberCallStack = env.fiberCallStack
  state : ∀ g, env'.state g = env.state g

theorem SameControl.sameStates (same : SameControl env env') : SameStates env env' :=
  ⟨same.stack, same.state⟩

theorem changeOccupier_error_iff {mem : MemPtr} {new : FiberPtr} {failure : FiberFailure} :
    env.changeOccupier layout mem new = .error failure ↔ failure = .occupier ∧
      ∃ occupier, env.occupier mem = some occupier ∧ occupier ≠ new ∧
        env.state occupier ≠ .suspended ∧ env.state occupier ≠ .terminated := by
  unfold changeOccupier FiberEnvironment.occupier
  constructor
  · intro failed
    split at failed
    · cases failed
    · rename_i occupier here
      split at failed
      · cases failed
      · rename_i other
        split at failed
        · cases failed
        · rename_i state
          obtain rfl := Except.error.inj failed
          exact ⟨rfl, occupier, here, other, not_or.mp state⟩
  · rintro ⟨rfl, occupier, here, other, state⟩
    rw [here]
    dsimp only
    rw [if_neg other, if_neg (not_or.mpr state)]

theorem takeStack_error_iff {new : FiberPtr} {failure : FiberFailure} :
    env.takeStack layout new = .error failure ↔ failure = .occupier ∧ Blocked layout env env.state new := by
  unfold takeStack Blocked
  split
  · rename_i mem shared
    rw [changeOccupier_error_iff]
    constructor
    · rintro ⟨rfl, occupier, here, blocked⟩
      exact ⟨rfl, mem, occupier, shared, here, blocked⟩
    · rintro ⟨rfl, mem', occupier, shared', here, blocked⟩
      obtain rfl := FiberStack.shared.inj (shared.symm.trans shared')
      exact ⟨rfl, occupier, here, blocked⟩
  · rename_i own
    constructor
    · intro failed
      cases failed
    · rintro ⟨-, mem, -, shared, -⟩
      cases own.symm.trans shared
  · rename_i thread
    constructor
    · intro failed
      cases failed
    · rintro ⟨-, mem, -, shared, -⟩
      cases thread.symm.trans shared

/-- Landing changes no state: the wrapper makes a fiber `RUNNING` that is so already. -/
theorem land_cases (layout : Layout) (runs : env.context f = .wrapper → env.state f = .running) :
    env.land layout f = .error .lost ∨ ∃ env', env.land layout f = .ok env' ∧ SameStates env env' := by
  unfold land
  split
  · rename_i wrapper
    rw [setState_self (runs wrapper)]
    exact .inr ⟨env, rfl, rfl, fun _ => rfl⟩
  · exact .inr ⟨_, rfl, (sameControl_resumeStack layout).sameStates⟩
  · exact .inr ⟨_, rfl, (sameControl_resumeStack layout).sameStates⟩
  · exact .inr ⟨_, rfl, (sameControl_resumeStack layout).sameStates⟩
  · exact .inl rfl
  · exact .inl rfl

/-- A switch fails on the occupier, or for want of a place to go on, or leaves the call stack and the
states as they are. The fibers may be one and the same. -/
theorem swapFiber_cases (layout : Layout) {old new : FiberPtr} (runs : new ≠ old → env.state new = .running)
    (rsp : Nat) (site : FiberContext) (placed : site ≠ .wrapper) :
    (Blocked layout env env.state new ∧ env.swapFiber layout old new rsp site = .error .occupier) ∨
      (¬ Blocked layout env env.state new ∧ (env.swapFiber layout old new rsp site = .error .lost ∨
        ∃ env', env.swapFiber layout old new rsp site = .ok env' ∧ SameStates env env')) := by
  unfold swapFiber
  dsimp only
  generalize noted : env.modify old (fun fiber =>
    { fiber with stackBufferTop := rsp, held := env.region layout old rsp }) = env₁
  have same : SameControl env env₁ := noted ▸ sameControl_modify (fun _ => rfl) (fun _ => rfl) fun _ => rfl
  have mems : env₁.mems = env.mems := by rw [← noted, modify_mems]
  rcases sameControl_takeStack env₁ layout new with failed | ⟨taken, ok, after⟩
  · left
    refine ⟨(takeStack_error_iff.mp failed).2.congr mems.symm fun g _ => (same.state g).symm, ?_⟩
    rw [failed]
    rfl
  · right
    refine ⟨fun blocked => ?_, ?_⟩
    · have failed := takeStack_error_iff.mpr ⟨rfl, blocked.congr mems fun g _ => same.state g⟩
      cases ok.symm.trans failed
    · have both := (same.trans after).sameStates
      rw [ok]
      dsimp only [bind, Except.bind]
      generalize left : taken.modify old (fun fiber => { fiber with context := site }) = env₂
      have kept : SameStates env env₂ := by
        refine ⟨by rw [← left]; exact both.stack, fun g => ?_⟩
        rw [← both.state g, ← left]
        unfold state
        rw [modify_fibers]
        split
        · rfl
        · rfl
      have lands : env₂.context new = .wrapper → env₂.state new = .running := by
        intro wrapper
        rw [kept.state]
        refine runs fun eq => placed ?_
        rw [← wrapper, ← left, eq]
        simp [context]
      rcases land_cases layout lands with lost | ⟨env', landed, last⟩
      · exact .inl lost
      · exact .inr ⟨env', landed, last.stack.trans kept.stack,
          fun g => (last.state g).trans (kept.state g)⟩

/-! ## What is handed to the switch -/

/-- The resumer is made `SUSPENDED` last, also where it resumes itself. -/
theorem calling_state (top : FiberPtr) : (env.calling f top).state g =
    if g = top then .suspended else if g = f then .running else env.state g := by
  have made : g ≠ f → (if env.state f = .initing then env.makeContext f else env).state g =
      env.state g := by
    intro isF
    split
    · rw [makeContext, state, modify_fibers, if_neg isF]
      rfl
    · rfl
  have stored : (env.calling f top).state g = ((((if env.state f = .initing then env.makeContext f
      else env).pushFiber f).setState f .running).setState top .suspended).state g := by
    unfold calling
    rw [state, modify_fibers]
    split
    · rename_i isF
      rw [isF]
      rfl
    · rfl
  rw [stored, setState_state, setState_state]
  split
  · rfl
  · split
    · rfl
    · rename_i isF
      exact made isF

/-- The states once the current fiber has stored its own. -/
def stored (env : FiberEnvironment) (top : FiberPtr) (left : FiberState) : FiberPtr → FiberState :=
  Function.update env.state top left

theorem stored_eq (env : FiberEnvironment) (top : FiberPtr) (left : FiberState) (g : FiberPtr) :
    env.stored top left g = if g = top then left else env.state g :=
  Function.update_apply ..

/-- The current fiber stores its state, unless its function has ended. -/
theorem leaves_state (env : FiberEnvironment) (st kept : FiberState) (top g : FiberPtr) :
    (if (env.setState top st).popFiber.state top = .running then
      (env.setState top st).popFiber.setState top kept
    else (env.setState top st).popFiber).state g = env.stored top (leftIn st kept) g := by
  have set : ∀ g, (env.setState top st).popFiber.state g = if g = top then st else env.state g :=
    fun g => setState_state st
  rw [stored_eq, leftIn]
  split
  · rename_i runs
    rw [set, if_pos rfl] at runs
    rw [setState_state, set, if_pos runs]
    split
    · rfl
    · rfl
  · rename_i ended
    rw [set, if_pos rfl] at ended
    rw [set, if_neg ended]

/-- The common body of `fiber_yield` and `fiber_sleep`, with a fiber below the current one. At the end
of a fiber's function the state of the fiber has just been set to `st`. -/
theorem leave_next {top next : FiberPtr} {rest : List FiberPtr}
    (stack : env.fiberCallStack = top :: next :: rest) (st kept : FiberState) (site : FiberContext)
    (rsp : Nat) :
    (env.setState top st).leave layout kept site rsp =
      if env.stored top (leftIn st kept) next = .suspended then
        ((env.setState top st).leaving kept top next).swapFiber layout top next rsp site
      else .error .nextFiber := by
  have current : (env.setState top st).getCurrentFiber = .ok top := by
    simp [getCurrentFiber, setState, stack]
  have popped : (env.setState top st).popFiber.getCurrentFiber = .ok next := by
    simp [getCurrentFiber, popFiber, setState, stack]
  unfold leave
  rw [current]
  dsimp only [bind, Except.bind]
  rw [popped]
  dsimp only
  rw [leaves_state]
  rfl

theorem leaving_state (env : FiberEnvironment) (st kept : FiberState) (top next : FiberPtr) (g : FiberPtr) :
    ((env.setState top st).leaving kept top next).state g =
      if g = next then .running else env.stored top (leftIn st kept) g := by
  unfold leaving
  rw [setState_state]
  split
  · rfl
  · exact leaves_state env st kept top g

/-! ## The invariant -/

/-- What any operations leave of the discipline of the call stack: only the top is `RUNNING`, unless it
has resumed itself, and a fiber on the call stack has been started. -/
structure Rooted (env : FiberEnvironment) : Prop where
  top : ∃ top rest, env.fiberCallStack = top :: rest ∧
    (env.state top = .running ∨ env.state top = .suspended ∧ rest.head? = some top)
  running : ∀ f, env.state f = .running → env.fiberCallStack.head? = some f
  ready : ∀ f, env.state f ≠ .ready
  entered : ∀ f ∈ env.fiberCallStack, env.state f ≠ .initing

theorem rooted_init (buffers : MemPtr → List UInt8) : (init buffers).Rooted where
  top := ⟨mainFiber, [], rfl, .inl rfl⟩
  running f := by
    by_cases main : f = mainFiber
    · simp [init, main]
    · simp [init, state, main]
  ready f := by
    by_cases main : f = mainFiber
    · simp [init, state, main]
    · simp [init, state, main]
  entered f entry := by
    obtain rfl : f = mainFiber := List.mem_singleton.mp entry
    simp [init, state]

/-- The current fiber has left with the state `left` and `new` is on top. -/
theorem Rooted.switched (h : env.Rooted) {top new : FiberPtr} (left : FiberState) {rest : List FiberPtr}
    (current : env.fiberCallStack.head? = some top) (stack : env'.fiberCallStack = new :: rest)
    (others : ∀ g ∈ rest, g = top ∨ g ∈ env.fiberCallStack)
    (states : ∀ g, g ≠ new → env'.state g = env.stored top left g)
    (runs : env'.state new = .running ∨ env'.state new = .suspended ∧ rest.head? = some new)
    (leaves : left ≠ .running ∧ left ≠ .ready ∧ left ≠ .initing) : env'.Rooted := by
  have started : env'.state new ≠ .ready ∧ env'.state new ≠ .initing := by
    rcases runs with runs | ⟨waits, -⟩
    · simp [runs]
    · simp [waits]
  refine ⟨⟨new, rest, stack, runs⟩, fun g running => ?_, fun g => ?_, fun g entry => ?_⟩
  · by_cases isNew : g = new
    · rw [isNew, stack]
      rfl
    · rw [states g isNew, stored_eq] at running
      split at running
      · exact absurd running leaves.1
      · rename_i notTop
        have first := h.running g running
        rw [current] at first
        exact absurd (Option.some.inj first).symm notTop
  · by_cases isNew : g = new
    · rw [isNew]
      exact started.1
    · rw [states g isNew, stored_eq]
      split
      · exact leaves.2.1
      · exact h.ready g
  · by_cases isNew : g = new
    · rw [isNew]
      exact started.2
    · rw [states g isNew, stored_eq]
      split
      · exact leaves.2.2
      · rename_i notTop
        rw [stack] at entry
        have below := (List.mem_cons.mp entry).resolve_left isNew
        exact h.entered g ((others g below).resolve_left notTop)

/-- What comes of a switch to `new` by the current fiber, whose state is `left` by then. -/
def Switched (layout : Layout) (env : FiberEnvironment) (top new : FiberPtr) (left : FiberState)
    (result : Except FiberFailure FiberEnvironment) : Prop :=
  (Blocked layout env (env.stored top left) new ∧ result = .error .occupier) ∨
    (¬ Blocked layout env (env.stored top left) new ∧
      (result = .error .lost ∨ ∃ env', result = .ok env' ∧ env'.Rooted))

/-! ## The operations -/

theorem Rooted.fiberResume (h : env.Rooted) (layout : Layout) {top : FiberPtr} {rest : List FiberPtr}
    (stack : env.fiberCallStack = top :: rest) (alive : ¬ env.Ended f) (rsp : Nat) :
    Switched layout env top f .suspended (env.fiberResume layout f rsp) := by
  rw [fiberResume_eq alive stack]
  have states : ∀ g, g ≠ f → (env.calling f top).state g = env.stored top .suspended g := by
    intro g isF
    rw [calling_state, stored_eq, if_neg isF]
  have runs : f ≠ top → (env.calling f top).state f = .running := by
    intro notTop
    rw [calling_state, if_neg notTop, if_pos rfl]
  rcases swapFiber_cases layout runs rsp (.resuming f) (by simp) with
    ⟨blocked, failed⟩ | ⟨free, lost | ⟨env', ok, same⟩⟩
  · exact .inl ⟨blocked.congr calling_mems.symm fun g isF => (states g isF).symm, failed⟩
  · exact .inr ⟨fun blocked => free (blocked.congr calling_mems states), .inl lost⟩
  · refine .inr ⟨fun blocked => free (blocked.congr calling_mems states), .inr ⟨env', ok, ?_⟩⟩
    have current : env.fiberCallStack.head? = some top := by
      rw [stack]
      rfl
    have stack' : env'.fiberCallStack = f :: top :: rest := by
      rw [same.stack, calling_fiberCallStack, stack]
    refine h.switched .suspended current stack' ?_ ?_ ?_ ⟨by simp, by simp, by simp⟩
    · intro g entry
      rw [stack]
      exact .inr entry
    · exact fun g isF => (same.state g).trans (states g isF)
    · rw [same.state]
      by_cases self : f = top
      · exact .inr ⟨by rw [calling_state, if_pos self], by rw [self]; rfl⟩
      · exact .inl (runs self)

theorem Rooted.leave (h : env.Rooted) (layout : Layout) {top next : FiberPtr} {rest : List FiberPtr}
    (stack : env.fiberCallStack = top :: next :: rest) (st kept : FiberState) (site : FiberContext)
    (placed : site ≠ .wrapper)
    (leaves : leftIn st kept ≠ .running ∧ leftIn st kept ≠ .ready ∧ leftIn st kept ≠ .initing) (rsp : Nat) :
    (env.stored top (leftIn st kept) next ≠ .suspended ∧
      (env.setState top st).leave layout kept site rsp = .error .nextFiber) ∨
    (env.stored top (leftIn st kept) next = .suspended ∧ Switched layout env top next (leftIn st kept)
      ((env.setState top st).leave layout kept site rsp)) := by
  rw [leave_next stack]
  by_cases asserted : env.stored top (leftIn st kept) next = .suspended
  · rw [if_pos asserted]
    refine .inr ⟨asserted, ?_⟩
    have states := leaving_state env st kept top next
    have mems : ((env.setState top st).leaving kept top next).mems = env.mems := leaving_mems
    have runs : ((env.setState top st).leaving kept top next).state next = .running := by
      rw [states, if_pos rfl]
    have others : ∀ g, g ≠ next → ((env.setState top st).leaving kept top next).state g =
        env.stored top (leftIn st kept) g := by
      intro g isNext
      rw [states, if_neg isNext]
    rcases swapFiber_cases layout (fun _ => runs) rsp site placed with
      ⟨blocked, failed⟩ | ⟨free, lost | ⟨env', ok, same⟩⟩
    · exact .inl ⟨blocked.congr mems.symm fun g isNext => (others g isNext).symm, failed⟩
    · exact .inr ⟨fun blocked => free (blocked.congr mems others), .inl lost⟩
    · refine .inr ⟨fun blocked => free (blocked.congr mems others), .inr ⟨env', ok, ?_⟩⟩
      have current : env.fiberCallStack.head? = some top := by
        rw [stack]
        rfl
      have stack' : env'.fiberCallStack = next :: rest := by
        rw [same.stack, leaving_fiberCallStack]
        show env.fiberCallStack.tail = _
        rw [stack]
        rfl
      refine h.switched (leftIn st kept) current stack' ?_ ?_ ?_ leaves
      · intro g entry
        rw [stack]
        exact .inr (List.mem_cons_of_mem _ (List.mem_cons_of_mem _ entry))
      · exact fun g isNext => (same.state g).trans (others g isNext)
      · rw [same.state]
        exact .inl runs
  · rw [if_neg asserted]
    exact .inl ⟨asserted, rfl⟩

/-- The state in which an operation by which the current fiber gives up control leaves it. -/
def leftAs (env : FiberEnvironment) (top : FiberPtr) : Op → Option FiberState
  | .yield _ => some (leftIn (env.state top) .suspended)
  | .sleep _ => some (leftIn (env.state top) .sleeping)
  | .finish threw _ => some (if threw then .exception else .terminated)
  | .resume .. | .wakeup _ | .reset _ | .compute _ => none

theorem Rooted.givesUp (h : env.Rooted) (layout : Layout) {top next : FiberPtr} {rest : List FiberPtr}
    (stack : env.fiberCallStack = top :: next :: rest) {op : Op} {left : FiberState}
    (leaves : env.leftAs top op = some left) :
    (env.stored top left next ≠ .suspended ∧ env.exec layout op = .error .nextFiber) ∨
    (env.stored top left next = .suspended ∧ Switched layout env top next left (env.exec layout op)) := by
  have current : env.state top = .running ∨ env.state top = .suspended := by
    obtain ⟨top', rest', stack', state⟩ := h.top
    obtain ⟨rfl, -⟩ := List.cons.inj (stack'.symm.trans stack)
    exact state.imp_right And.left
  cases op with
  | yield rsp =>
    obtain rfl := Option.some.inj leaves
    have spec := h.leave layout stack (env.state top) .suspended .yielding (by simp) (by
      rcases current with runs | waits
      · simp [runs, leftIn]
      · simp [waits, leftIn]) rsp
    rw [setState_self rfl] at spec
    exact spec
  | sleep rsp =>
    obtain rfl := Option.some.inj leaves
    have spec := h.leave layout stack (env.state top) .sleeping .sleeping (by simp) (by
      rcases current with runs | waits
      · simp [runs, leftIn]
      · simp [waits, leftIn]) rsp
    rw [setState_self rfl] at spec
    exact spec
  | finish threw rsp =>
    obtain rfl := Option.some.inj leaves
    have currentFiber : env.getCurrentFiber = .ok top := by rw [getCurrentFiber, stack]
    have ended : leftIn (if threw then .exception else .terminated) .suspended =
        if threw then .exception else .terminated := by
      cases threw with
      | false => rfl
      | true => rfl
    have spec := h.leave layout stack (if threw then .exception else .terminated) .suspended
      .exiting (by simp) (by
        rw [ended]
        cases threw with
        | false => simp
        | true => simp) rsp
    rw [ended] at spec
    have executed : env.exec layout (.finish threw rsp) = (env.setState top
        (if threw then .exception else .terminated)).leave layout .suspended .exiting rsp := by
      show env.finish layout threw rsp = _
      unfold FiberEnvironment.finish
      rw [currentFiber]
      rfl
    rw [executed]
    exact spec
  | resume | wakeup | reset | compute => cases leaves

/-- With no fiber below the current one there is none to give control to. -/
theorem exec_alone (layout : Layout) {top : FiberPtr} (stack : env.fiberCallStack = [top]) {op : Op}
    {left : FiberState} (leaves : env.leftAs top op = some left) :
    env.exec layout op = .error .currentFiber := by
  have current : env.getCurrentFiber = .ok top := by rw [getCurrentFiber, stack]
  have alone : ∀ {env₁ : FiberEnvironment}, env₁.fiberCallStack = [top] → ∀ kept site rsp,
      env₁.leave layout kept site rsp = .error .currentFiber := by
    intro env₁ stack₁ kept site rsp
    simp [FiberEnvironment.leave, getCurrentFiber, popFiber, stack₁, bind, Except.bind]
  cases op with
  | yield rsp => exact alone stack ..
  | sleep rsp => exact alone stack ..
  | finish threw rsp =>
    show env.finish layout threw rsp = _
    unfold FiberEnvironment.finish
    rw [current]
    exact alone (show (env.setState top _).fiberCallStack = _ from stack) ..
  | resume | wakeup | reset | compute => cases leaves

/-- A fiber that is not the current one has changed its state. -/
theorem Rooted.update (h : env.Rooted) (f : FiberPtr) (stack : env'.fiberCallStack = env.fiberCallStack)
    (others : ∀ g, g ≠ f → env'.state g = env.state g) (notTop : env.fiberCallStack.head? ≠ some f)
    (quiet : env'.state f ≠ .running ∧ env'.state f ≠ .ready)
    (entered : f ∈ env.fiberCallStack → env'.state f ≠ .initing) : env'.Rooted := by
  obtain ⟨top, rest, eq, current⟩ := h.top
  have isTop : top ≠ f := by
    intro same
    rw [eq, same] at notTop
    exact notTop rfl
  refine ⟨⟨top, rest, stack.trans eq, ?_⟩, fun g => ?_, fun g => ?_, fun g entry => ?_⟩
  · rw [others top isTop]
    exact current
  · rw [stack]
    by_cases isF : g = f
    · rw [isF]
      exact fun runs => absurd runs quiet.1
    · rw [others g isF]
      exact h.running g
  · by_cases isF : g = f
    · rw [isF]
      exact quiet.2
    · rw [others g isF]
      exact h.ready g
  · rw [stack] at entry
    by_cases isF : g = f
    · rw [isF]
      exact entered (isF ▸ entry)
    · rw [others g isF]
      exact h.entered g entry

/-- The current fiber is not asleep. -/
theorem Rooted.awake (h : env.Rooted) (current : env.fiberCallStack.head? = some f) :
    env.state f = .running ∨ env.state f = .suspended := by
  obtain ⟨top, rest, stack, state⟩ := h.top
  rw [stack] at current
  obtain rfl := Option.some.inj current
  exact state.imp_right And.left

theorem Rooted.fiberWakeup (h : env.Rooted) (f : FiberPtr) : (env.fiberWakeup f).Rooted := by
  unfold FiberEnvironment.fiberWakeup
  split
  · rename_i sleeps
    have woken : (env.setState f .suspended).state f = .suspended := by rw [setState_state, if_pos rfl]
    refine h.update f rfl (fun g isF => ?_) (fun current => ?_) ?_ fun _ => ?_
    · rw [setState_state, if_neg isF]
    · rcases h.awake current with runs | waits
      · cases sleeps.symm.trans runs
      · cases sleeps.symm.trans waits
    · rw [woken]
      exact ⟨by decide, by decide⟩
    · rw [woken]
      decide
  · exact h

theorem Rooted.reset (h : env.Rooted) (layout : Layout) (outside : f ∉ env.fiberCallStack) :
    (env.reset layout f).Rooted := by
  unfold FiberEnvironment.reset
  split
  · exact h
  · refine h.update f rfl (fun g isF => ?_) (fun current => outside (List.mem_of_mem_head? current)) ?_
      fun entry => absurd entry outside
    · simp [state, isF]
    · simp [state]

theorem compute_sameStates {bytes : Nat → UInt8} (ok : env.compute layout bytes = .ok env') :
    SameStates env env' := by
  unfold compute at ok
  cases current : env.getCurrentFiber with
  | error failure =>
    rw [current] at ok
    cases ok
  | ok top =>
    rw [current] at ok
    dsimp only [bind, Except.bind] at ok
    split at ok
    · obtain rfl := Except.ok.inj ok
      exact ⟨rfl, fun _ => rfl⟩
    · obtain rfl := Except.ok.inj ok
      exact ⟨rfl, fun _ => rfl⟩

theorem Rooted.compute (h : env.Rooted) (layout : Layout) (bytes : Nat → UInt8) :
    ∃ env', env.exec layout (.compute bytes) = .ok env' := by
  obtain ⟨top, rest, stack, -⟩ := h.top
  show ∃ env', env.compute layout bytes = .ok env'
  unfold FiberEnvironment.compute getCurrentFiber
  rw [stack]
  dsimp only [bind, Except.bind]
  split
  · exact ⟨_, rfl⟩
  · exact ⟨_, rfl⟩

theorem Rooted.sameStates (h : env.Rooted) (same : SameStates env env') : env'.Rooted := by
  obtain ⟨top, rest, stack, current⟩ := h.top
  refine ⟨⟨top, rest, same.stack.trans stack, ?_⟩, fun g => ?_, fun g => ?_, fun g => ?_⟩
  · rw [same.state]
    exact current
  · rw [same.state, same.stack]
    exact h.running g
  · rw [same.state]
    exact h.ready g
  · rw [same.state, same.stack]
    exact h.entered g

theorem Switched.rooted {top new : FiberPtr} {left : FiberState}
    {result : Except FiberFailure FiberEnvironment} (switched : Switched layout env top new left result)
    (ok : result = .ok env') : env'.Rooted := by
  rcases switched with ⟨-, failed⟩ | ⟨-, lost | ⟨env'', ok', rooted⟩⟩
  · cases ok.symm.trans failed
  · cases ok.symm.trans lost
  · obtain rfl := Except.ok.inj (ok.symm.trans ok')
    exact rooted

theorem Rooted.step (h : env.Rooted) {op : Op} (step : FreeStep layout env op env') : env'.Rooted := by
  obtain ⟨ok, resets⟩ := step
  obtain ⟨top, rest, stack, -⟩ := h.top
  have gives : ∀ left, env.leftAs top op = some left → env'.Rooted := by
    intro left leaves
    cases rest with
    | nil => cases ok.symm.trans (exec_alone layout stack leaves)
    | cons next rest =>
      rcases h.givesUp layout stack leaves with ⟨-, failed⟩ | ⟨-, switched⟩
      · cases ok.symm.trans failed
      · exact switched.rooted ok
  cases op with
  | resume f rsp =>
    by_cases ended : env.Ended f
    · have stays : env.exec layout (.resume f rsp) = .ok env := if_pos ended
      obtain rfl := Except.ok.inj (ok.symm.trans stays)
      exact h
    · exact (h.fiberResume layout stack ended rsp).rooted ok
  | yield rsp => exact gives _ rfl
  | sleep rsp => exact gives _ rfl
  | finish threw rsp => exact gives _ rfl
  | wakeup f =>
    obtain rfl : env.fiberWakeup f = env' := Except.ok.inj ok
    exact h.fiberWakeup f
  | reset f =>
    obtain rfl : env.reset layout f = env' := Except.ok.inj ok
    exact h.reset layout (resets f rfl)
  | compute bytes => exact h.sameStates (compute_sameStates ok)

theorem rooted_of_run {buffers : MemPtr → List UInt8} {ops : List Op}
    (run : Run (FreeStep layout) (init buffers) ops env) : env.Rooted :=
  run.invariant (I := Rooted) (fun _ _ _ h step => h.step step) (rooted_init buffers)

/-! ## The call stack and the assertions -/

/-- `push_fiber` stays inside `fiber_call_stack_`, and the assertions of `fiber_yield` and
`fiber_sleep`, with those of `get_current_fiber` in them, hold. -/
structure StaysInside (layout : Layout) (env : FiberEnvironment) (op : Op) : Prop where
  push : ∀ f rsp, op = .resume f rsp → ¬ env.Ended f → env.fiberCallStack.length < maxCallStackDepth
  current : env.exec layout op ≠ .error .currentFiber
  next : env.exec layout op ≠ .error .nextFiber

/-- A fiber that has ended, or has gone to sleep and was not woken. -/
def Dormant (env : FiberEnvironment) (f : FiberPtr) : Prop :=
  env.Ended f ∨ env.state f = .sleeping

/-- A fiber that has not ended is resumed with room on the call stack. There is a fiber below the one
that gives up control, and it has neither ended nor gone to sleep through another entry; where it is
the same fiber, this one neither ends nor, unless it has just resumed itself, goes to sleep. -/
def Fitting (env : FiberEnvironment) : Op → Prop
  | .resume f _ => env.Ended f ∨ env.fiberCallStack.length < maxCallStackDepth
  | .yield _ => ∃ next, env.fiberCallStack[1]? = some next ∧ ¬ env.Dormant next
  | .sleep _ => ∃ next, env.fiberCallStack[1]? = some next ∧ ¬ env.Dormant next ∧
      (env.fiberCallStack.head? = some next → env.state next = .suspended)
  | .finish .. => ∃ next, env.fiberCallStack[1]? = some next ∧ ¬ env.Dormant next ∧
      env.fiberCallStack.head? ≠ some next
  | .wakeup _ | .reset _ | .compute _ => True

/-- Where no fiber on the call stack is resumed, the operations that are allowed are fitting. -/
theorem Nested.fitting (h : env.Nested) {op : Op} (allowed : env.Allowed op) : env.Fitting op := by
  have below : env.fiberCallStack.head? ≠ some mainFiber → ∃ next, env.fiberCallStack[1]? = some next ∧
      ¬ env.Dormant next ∧ env.fiberCallStack.head? ≠ some next := by
    intro notMain
    obtain ⟨top, next, rest, stack⟩ := h.next notMain
    have waits : env.state next = .suspended := h.below stack List.mem_cons_self
    have nodup := h.nodup
    rw [stack] at nodup
    refine ⟨next, by rw [stack]; rfl, by simp [Dormant, Ended, waits], ?_⟩
    rw [stack]
    intro same
    obtain rfl : top = next := Option.some.inj same
    exact (List.nodup_cons.mp nodup).1 List.mem_cons_self
  cases op with
  | resume f rsp => exact .inr allowed.2
  | yield rsp =>
    obtain ⟨next, entry, awake, -⟩ := below allowed
    exact ⟨next, entry, awake⟩
  | sleep rsp =>
    obtain ⟨next, entry, awake, other⟩ := below allowed
    exact ⟨next, entry, awake, fun same => absurd same other⟩
  | finish threw rsp => exact below allowed
  | wakeup | reset | compute => trivial

/-- A fiber on the call stack below the current one waits in a `fiber_resume` of it, unless it has ended
or sleeps. -/
theorem Rooted.suspended_iff (h : env.Rooted) (entry : f ∈ env.fiberCallStack)
    (notTop : env.fiberCallStack.head? ≠ some f) : env.state f = .suspended ↔ ¬ env.Dormant f := by
  unfold Dormant Ended
  cases state : env.state f with
  | initing => exact absurd state (h.entered f entry)
  | ready => exact absurd state (h.ready f)
  | running => exact absurd (h.running f state) notTop
  | suspended => simp
  | sleeping => simp
  | terminated => simp
  | exception => simp

theorem Rooted.not_dormant (h : env.Rooted) (current : env.fiberCallStack.head? = some f) :
    ¬ env.Dormant f := by
  unfold Dormant Ended
  rcases h.awake current with runs | waits
  · simp [runs]
  · simp [waits]

/-- What a switch comes to is not a failure of these assertions. -/
theorem Switched.inside {top new : FiberPtr} {left : FiberState}
    {result : Except FiberFailure FiberEnvironment} (switched : Switched layout env top new left result) :
    result ≠ .error .currentFiber ∧ result ≠ .error .nextFiber := by
  rcases switched with ⟨-, rfl⟩ | ⟨-, rfl | ⟨env', rfl, -⟩⟩
  · exact ⟨by simp, by simp⟩
  · exact ⟨by simp, by simp⟩
  · exact ⟨by simp, by simp⟩

/-- Giving up control goes well if the fiber below is `SUSPENDED` once the current one has stored its
state. -/
theorem Rooted.staysInside_givesUp (h : env.Rooted) {top : FiberPtr}
    (current : env.fiberCallStack.head? = some top) {op : Op} {left : FiberState}
    (leaves : env.leftAs top op = some left) :
    env.StaysInside layout op ↔
      ∃ next, env.fiberCallStack[1]? = some next ∧ env.stored top left next = .suspended := by
  have noPush : ∀ f rsp, op = .resume f rsp → ¬ env.Ended f →
      env.fiberCallStack.length < maxCallStackDepth := by
    rintro f rsp rfl
    cases leaves
  cases stack : env.fiberCallStack with
  | nil =>
    rw [stack] at current
    cases current
  | cons top' rest =>
    rw [stack] at current
    obtain rfl := Option.some.inj current
    cases rest with
    | nil =>
      constructor
      · intro inside
        exact absurd (exec_alone layout stack leaves) inside.current
      · rintro ⟨next, below, -⟩
        cases below
    | cons next rest =>
      rcases h.givesUp layout stack leaves with ⟨notWaiting, failed⟩ | ⟨waits, switched⟩
      · constructor
        · intro inside
          exact absurd failed inside.next
        · rintro ⟨next', below, waits⟩
          obtain rfl : next = next' := Option.some.inj below
          exact absurd waits notWaiting
      · constructor
        · intro _
          exact ⟨next, rfl, waits⟩
        · intro _
          exact ⟨noPush, switched.inside.1, switched.inside.2⟩

/-- The fiber below the current one, once this one has stored its state. -/
theorem Rooted.stored_iff (h : env.Rooted) {top next : FiberPtr}
    (current : env.fiberCallStack.head? = some top) (below : env.fiberCallStack[1]? = some next)
    (left : FiberState) : env.stored top left next = .suspended ↔
      ¬ env.Dormant next ∧ (env.fiberCallStack.head? = some next → left = .suspended) := by
  have entry : next ∈ env.fiberCallStack := List.mem_of_getElem? below
  rw [stored_eq]
  split
  · rename_i same
    rw [same]
    exact ⟨fun waits => ⟨h.not_dormant current, fun _ => waits⟩, fun both => both.2 current⟩
  · rename_i other
    have notTop : env.fiberCallStack.head? ≠ some next := by
      rw [current]
      exact fun eq => other (Option.some.inj eq).symm
    rw [h.suspended_iff entry notTop]
    exact ⟨fun waits => ⟨waits, fun eq => absurd eq notTop⟩, fun both => both.1⟩

/-- In every state that any operations on any fibers lead to, cyclic resumes at any depth among them,
the next operation stays inside the call stack, with its assertions, exactly if it is fitting. -/
theorem staysInside_iff {buffers : MemPtr → List UInt8} {ops : List Op}
    (run : Run (FreeStep layout) (init buffers) ops env) (op : Op) :
    env.StaysInside layout op ↔ env.Fitting op := by
  have h := rooted_of_run run
  obtain ⟨top, rest, stack, -⟩ := h.top
  have current : env.fiberCallStack.head? = some top := by
    rw [stack]
    rfl
  cases op with
  | resume f rsp =>
    have asserted : env.exec layout (.resume f rsp) ≠ .error .currentFiber ∧
        env.exec layout (.resume f rsp) ≠ .error .nextFiber := by
      by_cases ended : env.Ended f
      · have stays : env.exec layout (.resume f rsp) = .ok env := if_pos ended
        rw [stays]
        exact ⟨by simp, by simp⟩
      · exact (h.fiberResume layout stack ended rsp).inside
    constructor
    · intro inside
      exact or_iff_not_imp_left.mpr (inside.push f rsp rfl)
    · intro fitting
      refine ⟨?_, asserted.1, asserted.2⟩
      rintro _ _ same alive
      obtain ⟨rfl, -⟩ := Op.resume.inj same
      exact fitting.resolve_left alive
  | yield rsp =>
    have stays : leftIn (env.state top) .suspended = .suspended := by
      rcases h.awake current with runs | waits
      · rw [runs]
        rfl
      · rw [waits]
        rfl
    rw [h.staysInside_givesUp current rfl]
    refine exists_congr fun next => and_congr_right fun below => ?_
    rw [h.stored_iff current below]
    exact ⟨And.left, fun awake => ⟨awake, fun _ => stays⟩⟩
  | sleep rsp =>
    have stays : leftIn (env.state top) .sleeping = .suspended ↔ env.state top = .suspended := by
      rcases h.awake current with runs | waits
      · rw [runs]
        exact ⟨by decide, by decide⟩
      · rw [waits]
        exact ⟨fun _ => rfl, fun _ => rfl⟩
    rw [h.staysInside_givesUp current rfl]
    refine exists_congr fun next => and_congr_right fun below => ?_
    rw [h.stored_iff current below, stays, current]
    refine and_congr_right fun _ => forall_congr' fun same => ?_
    obtain rfl := Option.some.inj same
    exact Iff.rfl
  | finish threw rsp =>
    have ended : (if threw then FiberState.exception else .terminated) ≠ .suspended := by
      cases threw with
      | false => decide
      | true => decide
    rw [h.staysInside_givesUp current rfl]
    refine exists_congr fun next => and_congr_right fun below => ?_
    rw [h.stored_iff current below]
    exact and_congr_right fun _ => forall_congr' fun _ => iff_of_false ended not_false
  | wakeup f => exact ⟨fun _ => trivial, fun _ => ⟨by simp, by simp [exec], by simp [exec]⟩⟩
  | reset f => exact ⟨fun _ => trivial, fun _ => ⟨by simp, by simp [exec], by simp [exec]⟩⟩
  | compute bytes =>
    obtain ⟨env', ok⟩ := h.compute layout bytes
    refine ⟨fun _ => trivial, fun _ => ⟨by simp, ?_, ?_⟩⟩
    · rw [ok]
      simp
    · rw [ok]
      simp

/-- Fibers 1 and 2 resume each other; the second entry of fiber 1 yields. -/
theorem staysInside_iff_cycle : ∃ env : FiberEnvironment,
    Run (FreeStep ownStacks) (init fun _ => []) [.resume 1 0, .resume 2 0, .resume 1 0] env ∧
      env.fiberCallStack = [1, 2, 1, 0] ∧ env.StaysInside ownStacks (.yield 0) := by
  have run : Run (FreeStep ownStacks) (init fun _ => []) [.resume 1 0, .resume 2 0, .resume 1 0] _ :=
    .cons ⟨rfl, by simp⟩ (.cons ⟨rfl, by simp⟩ (.single ⟨rfl, by simp⟩))
  refine ⟨_, run, rfl, (staysInside_iff run (.yield 0)).mpr ⟨2, rfl, ?_⟩⟩
  rintro ((ended | ended) | sleeps)
  · cases ended
  · cases ended
  · cases sleeps

/-- Fibers 1 and 2 resume each other; fiber 1 goes to sleep at its second entry, and fiber 2 yields to
the first. -/
theorem not_staysInside_cycle : ¬ ∀ (layout : Layout) (buffers : MemPtr → List UInt8) (ops : List Op)
    (env : FiberEnvironment), Run (FreeStep layout) (init buffers) ops env →
      ∀ op, env.StaysInside layout op := by
  intro claim
  have run : Run (FreeStep ownStacks) (init fun _ => [])
      [.resume 1 0, .resume 2 0, .resume 1 0, .sleep 0] _ :=
    .cons ⟨rfl, by simp⟩ (.cons ⟨rfl, by simp⟩ (.cons ⟨rfl, by simp⟩ (.single ⟨rfl, by simp⟩)))
  exact (claim ownStacks _ _ _ run (.yield 0)).next rfl

end Sylar.FiberEnvironment
