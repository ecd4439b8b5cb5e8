import Sylar.Fiber.CallStack
import Sylar.Fiber.Stacks

/-!
# Fibers that share stacks

A suspended fiber of a shared stack always has its frames safe, in place or in its save buffer
(`Kept`): each operation is one switch, and the user code of the current fiber writes a shared stack
only while it is the occupier. So in every run of resumes, yields and returns a fiber that regains
control finds what its part of the stack held when it was switched out (`frames_preserved`). The fiber
objects stay alive throughout: no operation destroys one.
-/

namespace Sylar

namespace FiberEnvironment

open Lib

variable {env env' : FiberEnvironment} {layout : Layout} {f g : FiberPtr} {mem : MemPtr}

/-! ## The invariant -/

/-- The stacks of a thread whose fibers resume, yield, return and run: every occupier is a fiber of its
stack that runs, waits or has returned, a shared stack that is run on is its runner's, and the frames
of the fibers that wait are safe. -/
structure Kept (layout : Layout) (env : FiberEnvironment) : Prop where
  nested : env.Nested
  awake : ∀ f, env.state f ≠ .sleeping
  known : ∀ mem g, env.occupier mem = some g → layout.stack g = .shared mem
  settled : ∀ mem g, env.occupier mem = some g →
    env.state g = .running ∨ env.state g = .suspended ∨ env.state g = .terminated
  current : ∀ f, env.fiberCallStack.head? = some f → ∀ mem, layout.stack f = .shared mem →
    env.occupier mem = some f
  safe : ∀ f, env.state f = .suspended → Safe layout env f

theorem kept_init (layout : Layout) (buffers : MemPtr → List UInt8) : Kept layout (init buffers) where
  nested := nested_init buffers
  awake f := by
    by_cases main : f = mainFiber
    · simp [init, state, main]
    · simp [init, state, main]
  known _ _ here := by cases here
  settled _ _ here := by cases here
  current f top mem shared := by
    obtain rfl : mainFiber = f := Option.some.inj top
    cases layout.main.symm.trans shared
  safe f suspended := by
    by_cases main : f = mainFiber
    · simp [init, state, main] at suspended
    · simp [init, state, main] at suspended

/-- A switch from the top to a fiber that has been suspended or starts. -/
theorem Kept.switch (h : Kept layout env) {env₁ : FiberEnvironment} {top new : FiberPtr}
    (current : env.fiberCallStack.head? = some top) (same : SameStacks env env₁) (ne : new ≠ top)
    (others : ∀ g, g ≠ new → g ≠ top → env₁.state g = env.state g) (runs : env₁.state new = .running)
    (leaves : env₁.state top = .suspended ∨ env₁.state top = .terminated)
    (lands : Lands (env₁.context new))
    (waits : env₁.context new ≠ .wrapper → env.state new = .suspended) (rsp : Nat) (site : FiberContext) :
    ∃ env', env₁.swapFiber layout top new rsp site = .ok env' ∧
      SwitchedStacks layout env₁ top new rsp env' ∧
      (env'.Nested → env'.fiberCallStack.head? = some new → Kept layout env') := by
  have occupier : ∀ mem, env₁.occupier mem = env.occupier mem := fun mem => by
    unfold FiberEnvironment.occupier
    rw [same.mems]
  have settled : ∀ mem g, env₁.occupier mem = some g →
      g = new ∨ env₁.state g = .suspended ∨ env₁.state g = .terminated := by
    intro mem g here
    rw [occupier] at here
    by_cases isNew : g = new
    · exact .inl isNew
    · by_cases isTop : g = top
      · rw [isTop]
        exact .inr leaves
      · rw [others g isNew isTop]
        refine .inr ((h.settled mem g here).resolve_left fun running => isTop ?_)
        exact Option.some.inj (((h.nested.running g).mp running).symm.trans current)
  obtain ⟨env', ok, switched⟩ := swapFiber_stacks ne lands
    (fun started => (h.safe new (waits started)).congr same)
    (fun mem g here => h.known mem g ((occupier mem).symm.trans here)) settled
    (fun mem shared => (occupier mem).trans (h.current top current mem shared)) rsp site
  refine ⟨env', ok, switched, fun nested current' => ?_⟩
  have states : ∀ g, env'.state g = env₁.state g := by
    intro g
    rcases swapFiber_control layout ne runs lands rsp site with failed | ⟨env'', ok', control⟩
    · cases ok.symm.trans failed
    · obtain rfl := Except.ok.inj (ok.symm.trans ok')
      rw [control.state]
      by_cases isTop : g = top
      · simp [state, isTop]
      · simp [state, isTop]
  constructor
  case nested => exact nested
  case awake =>
    intro g sleeps
    rw [states] at sleeps
    by_cases isNew : g = new
    · rw [isNew, runs] at sleeps
      cases sleeps
    · by_cases isTop : g = top
      · rw [isTop] at sleeps
        rcases leaves with left | left
        · cases left.symm.trans sleeps
        · cases left.symm.trans sleeps
      · rw [others g isNew isTop] at sleeps
        exact h.awake g sleeps
  case known =>
    intro mem g here
    rcases switched.occupiers mem g here with ⟨rfl, shared⟩ | before
    · exact shared
    · exact h.known mem g ((occupier mem).symm.trans before)
  case settled =>
    intro mem g here
    rw [states]
    rcases switched.occupiers mem g here with ⟨rfl, -⟩ | before
    · exact .inl runs
    · rcases settled mem g before with rfl | waits
      · exact .inl runs
      · exact .inr waits
  case current =>
    intro f top' mem shared
    obtain rfl : new = f := Option.some.inj (current'.symm.trans top')
    exact switched.occupies mem shared
  case safe =>
    intro f suspended
    rw [states] at suspended
    have isNew : f ≠ new := fun eq => by
      rw [eq, runs] at suspended
      cases suspended
    by_cases isTop : f = top
    · rw [isTop]
      exact switched.left
    · rw [others f isNew isTop] at suspended
      exact switched.others f isNew isTop ((h.safe f suspended).congr same)

/-! ## The operations -/

/-- The stack pointer at which an operation switches away from the current fiber. -/
def Op.rsp : Op → Option Nat
  | .resume _ rsp | .yield rsp | .sleep rsp | .finish _ rsp => some rsp
  | .wakeup _ | .reset _ | .compute _ => none

/-- What an operation does with frames. A suspended fiber of a shared stack that regains control finds
in `[stack_buffer_top_, stack_bottom_)` what was recorded for it; what is recorded for the fiber that is
switched out is what this region holds; and nothing is recorded for a fiber while it is suspended. -/
structure FramesPreserved (layout : Layout) (env : FiberEnvironment) (op : Op) (env' : FiberEnvironment) :
    Prop where
  regained : ∀ f mem, layout.stack f = .shared mem → env.state f = .suspended →
    env'.getCurrentFiber = .ok f → env'.frames layout f = (env.fibers f).held
  recorded : ∀ f, env.getCurrentFiber = .ok f → env'.state f = .suspended → ∃ rsp, op.rsp = some rsp ∧
    (env'.fibers f).held = env.region layout f rsp ∧ (env'.fibers f).stackBufferTop = rsp
  remembered : ∀ f, env.state f = .suspended → (env'.fibers f).held = (env.fibers f).held ∧
    (env'.fibers f).stackBufferTop = (env.fibers f).stackBufferTop

theorem getCurrentFiber_eq (current : env.getCurrentFiber = .ok f) : env.fiberCallStack.head? = some f := by
  unfold getCurrentFiber at current
  split at current
  · rename_i stack
    rw [stack]
    exact congrArg some (Except.ok.inj current)
  · cases current

theorem framesPreserved_switch (h : Kept layout env) {env₁ : FiberEnvironment} {op : Op} {rsp : Nat}
    {top new : FiberPtr} (pointer : op.rsp = some rsp) (current : env.fiberCallStack.head? = some top)
    (same : SameStacks env env₁) (switched : SwitchedStacks layout env₁ top new rsp env')
    (current' : env'.fiberCallStack.head? = some new)
    (waits : env.state new = .suspended → env₁.context new ≠ .wrapper) :
    FramesPreserved layout env op env' where
  regained f mem shared suspended regains := by
    obtain rfl : new = f := Option.some.inj (current'.symm.trans (getCurrentFiber_eq regains))
    exact (switched.returned (waits suspended) mem shared).trans (same.held new)
  recorded f leaves suspended := by
    obtain rfl : top = f := Option.some.inj (current.symm.trans (getCurrentFiber_eq leaves))
    refine ⟨rsp, pointer, switched.recorded.1.trans ?_, switched.recorded.2⟩
    unfold region
    rw [same.mems]
  remembered f suspended := by
    have isTop : f ≠ top := fun eq => by
      rw [← eq] at current
      cases suspended.symm.trans ((h.nested.running f).mpr current)
    obtain ⟨held, top'⟩ := switched.remembered f isTop
    exact ⟨held.trans (same.held f), top'.trans (same.top f)⟩

/-- An operation that keeps the current fiber and everyone's states and stack data. -/
theorem framesPreserved_still (h : Kept layout env) {op : Op}
    (stack : env'.fiberCallStack = env.fiberCallStack) (fibers : env'.fibers = env.fibers) :
    FramesPreserved layout env op env' where
  regained f mem shared suspended regains := by
    have top := getCurrentFiber_eq regains
    rw [stack] at top
    cases suspended.symm.trans ((h.nested.running f).mpr top)
  recorded f leaves suspended := by
    have runs := (h.nested.running f).mpr (getCurrentFiber_eq leaves)
    unfold state at suspended runs
    rw [fibers, runs] at suspended
    cases suspended
  remembered f _ := by rw [fibers]; exact ⟨rfl, rfl⟩

theorem sameStacks_calling {top : FiberPtr} (ne : f ≠ top) : SameStacks env (env.calling f top) := by
  have fibers := calling_fibers env ne
  refine ⟨calling_mems, fun g => ?_, fun g => ?_, fun g => ?_⟩ <;>
  · rw [fibers]
    split
    · rename_i isF
      rw [isF]
    · split
      · rename_i isTop
        rw [isTop]
      · rfl

theorem sameStacks_leaving (st stored : FiberState) {top next : FiberPtr} (ne : next ≠ top) :
    SameStacks env ((env.setState top st).leaving stored top next) := by
  have fibers := leaving_setState_fibers env st stored ne
  refine ⟨leaving_mems, fun g => ?_, fun g => ?_, fun g => ?_⟩ <;>
  · rw [fibers]
    split
    · rename_i isNext
      rw [isNext]
    · split
      · rename_i isTop
        rw [isTop]
      · rfl

theorem Kept.fiberResume (h : Kept layout env) (outside : f ∉ env.fiberCallStack) (rsp : Nat) :
    ∃ env', env.fiberResume layout f rsp = .ok env' ∧ Kept layout env' ∧
      FramesPreserved layout env (.resume f rsp) env' := by
  by_cases ended : env.Ended f
  · exact ⟨env, if_pos ended, h, framesPreserved_still h rfl rfl⟩
  · obtain ⟨top, rest, stack⟩ := h.nested.top
    have current : env.fiberCallStack.head? = some top := by rw [stack]; rfl
    have ne : f ≠ top := fun eq => outside (stack ▸ eq ▸ List.mem_cons_self)
    have fibers := calling_fibers env ne
    have lands := h.nested.calling_lands outside ended ne
    have waits : (env.calling f top).context f ≠ .wrapper → env.state f = .suspended := by
      intro notWrapper
      rw [calling_context env ne] at notWrapper
      have started : env.state f ≠ .initing := fun initing => notWrapper (if_pos initing)
      exact (h.nested.waits_of_off outside ended started).resolve_right (h.awake f)
    have goesOn : env.state f = .suspended → (env.calling f top).context f ≠ .wrapper := by
      intro suspended
      rw [calling_context env ne, if_neg (by simp [suspended])]
      rcases (h.nested.off f outside).2 (.inl suspended) with yields | sleeps
      · simp [yields]
      · simp [sleeps]
    obtain ⟨env', ok, switched, kept⟩ := h.switch current (sameStacks_calling ne) ne
      (fun g isF isTop => by simp [state, fibers, isF, isTop]) (by simp [state, fibers])
      (by simp [state, fibers, ne.symm]) lands waits rsp (.resuming f)
    rw [← fiberResume_eq ended stack] at ok
    rcases h.nested.fiberResume layout outside rsp with failed | ⟨env'', ok', nested, resumed⟩
    · cases ok.symm.trans failed
    · obtain rfl := Except.ok.inj (ok.symm.trans ok')
      have current' : env'.fiberCallStack.head? = some f := by
        rcases resumed with ⟨dead, -⟩ | ⟨-, top', rest', -, stack', -⟩
        · exact absurd dead ended
        · rw [stack']
          rfl
      exact ⟨env', ok, kept nested current',
        framesPreserved_switch h rfl current (sameStacks_calling ne) switched current' goesOn⟩

/-- `fiber_yield`, also at the end of a fiber's function. -/
theorem Kept.leave (h : Kept layout env) {op : Op} {rsp : Nat} (pointer : op.rsp = some rsp)
    (notMain : env.fiberCallStack.head? ≠ some mainFiber) {top : FiberPtr}
    (current : env.fiberCallStack.head? = some top) (st : FiberState) (site : FiberContext)
    (leaves : leftIn st .suspended = .suspended ∨ leftIn st .suspended = .terminated)
    (goesOn : leftIn st .suspended = .suspended → site = .yielding) :
    ∃ env', (env.setState top st).leave layout .suspended site rsp = .ok env' ∧ Kept layout env' ∧
      FramesPreserved layout env op env' := by
  obtain ⟨top', next, rest, stack⟩ := h.nested.next notMain
  obtain rfl : top' = top := by
    rw [stack] at current
    exact Option.some.inj current
  have chain := h.nested.chain
  have nodup := h.nested.nodup
  rw [stack] at chain nodup
  have ne : next ≠ top' := fun eq => (List.nodup_cons.mp nodup).1 (eq ▸ List.mem_cons_self)
  have under : env.Under top' next := (List.isChain_cons_cons.mp chain).1
  have fibers := leaving_setState_fibers env st .suspended ne
  have context : ((env.setState top' st).leaving .suspended top' next).context next = .resuming top' := by
    rw [← under.context]
    simp [FiberEnvironment.context, fibers]
  obtain ⟨env', ok, switched, kept⟩ := h.switch current (sameStacks_leaving st .suspended ne) ne
    (fun g isNext isTop => by simp [state, fibers, isNext, isTop]) (by simp [state, fibers])
    (by simpa [state, fibers, ne.symm] using leaves) (by rw [context]; exact ⟨by simp, by simp⟩)
    (fun _ => under.state) rsp site
  have below : (env.setState top' st).state next = .suspended := by
    rw [setState_state, if_neg ne]
    exact under.state
  rw [← leave_eq (show (env.setState top' st).fiberCallStack = _ from stack) ne below] at ok
  have left : leftIn st .suspended ≠ .running ∧ leftIn st .suspended ≠ .ready := by
    rcases leaves with left | left
    · rw [left]
      exact ⟨by decide, by decide⟩
    · rw [left]
      exact ⟨by decide, by decide⟩
  rcases h.nested.leave layout stack st .suspended site left (fun waits => by
      rcases waits with suspended | sleeping
      · exact .inl (goesOn suspended)
      · rcases leaves with left | left
        · cases left.symm.trans sleeping
        · cases left.symm.trans sleeping) rsp with failed | ⟨env'', ok', nested, gaveUp⟩
  · cases ok.symm.trans failed
  · obtain rfl := Except.ok.inj (ok.symm.trans ok')
    have current' : env'.fiberCallStack.head? = some next := by
      obtain ⟨top'', next', rest', before, after, -⟩ := gaveUp
      obtain ⟨-, same⟩ := List.cons.inj (stack.symm.trans before)
      obtain ⟨rfl, -⟩ := List.cons.inj same
      rw [after]
      rfl
    exact ⟨env', ok, kept nested current',
      framesPreserved_switch h pointer current (sameStacks_leaving st .suspended ne) switched current'
        fun _ => by rw [context]; simp⟩

theorem Kept.fiberYield (h : Kept layout env) (notMain : env.fiberCallStack.head? ≠ some mainFiber)
    (rsp : Nat) :
    ∃ env', env.fiberYield layout rsp = .ok env' ∧ Kept layout env' ∧
      FramesPreserved layout env (.yield rsp) env' := by
  obtain ⟨top, rest, stack⟩ := h.nested.top
  have current : env.fiberCallStack.head? = some top := by rw [stack]; rfl
  have left := h.leave (show (Op.yield rsp).rsp = some rsp from rfl) notMain current .running .yielding
    (.inl rfl) fun _ => rfl
  rw [setState_self ((h.nested.running top).mpr current)] at left
  exact left

theorem Kept.finish (h : Kept layout env) (notMain : env.fiberCallStack.head? ≠ some mainFiber)
    (rsp : Nat) :
    ∃ env', env.finish layout false rsp = .ok env' ∧ Kept layout env' ∧
      FramesPreserved layout env (.finish false rsp) env' := by
  obtain ⟨top, rest, stack⟩ := h.nested.top
  have current : env.fiberCallStack.head? = some top := by rw [stack]; rfl
  have currentFiber : env.getCurrentFiber = .ok top := by rw [getCurrentFiber, stack]
  unfold FiberEnvironment.finish
  rw [currentFiber]
  exact h.leave rfl notMain current .terminated .exiting (.inr rfl) fun waits => by cases waits

/-- The current fiber's writes to its stack reach no frames of a fiber that waits. -/
theorem Kept.rewritten_safe (h : Kept layout env) {top : FiberPtr}
    (current : env.fiberCallStack.head? = some top) (on : (layout.stack top).mem = some mem)
    (rewritten : Rewritten env mem env') (suspended : env.state f = .suspended) : Safe layout env' f := by
  have ne : f ≠ top := fun eq => by
    rw [← eq] at current
    cases suspended.symm.trans ((h.nested.running f).mpr current)
  cases stack : layout.stack top with
  | thread =>
    rw [stack] at on
    cases on
  | own mem' =>
    -- no other fiber is on a fiber's own stack
    rw [stack] at on
    obtain rfl : mem' = mem := Option.some.inj on
    intro mem'' shared
    have other : mem'' ≠ mem' := fun eq => by
      refine ne (layout.apart top mem' stack f ?_)
      rw [shared, eq]
      rfl
    exact (h.safe f suspended mem'' shared).congr (rewritten.others mem'' other) (by rw [rewritten.fibers])
      (by rw [rewritten.fibers]) (by rw [rewritten.fibers])
  | shared mem' =>
    rw [stack] at on
    obtain rfl : mem' = mem := Option.some.inj on
    exact rewritten.safe (h.current top current mem' stack) ne (h.safe f suspended)

/-- The user code of the current fiber. -/
theorem Kept.compute (h : Kept layout env) (bytes : Nat → UInt8) :
    ∃ env', env.compute layout bytes = .ok env' ∧ Kept layout env' ∧
      FramesPreserved layout env (.compute bytes) env' := by
  obtain ⟨top, rest, stack⟩ := h.nested.top
  have current : env.fiberCallStack.head? = some top := by rw [stack]; rfl
  have currentFiber : env.getCurrentFiber = .ok top := by rw [getCurrentFiber, stack]
  unfold FiberEnvironment.compute
  rw [currentFiber]
  dsimp only [bind, Except.bind]
  cases on : (layout.stack top).mem with
  | none => exact ⟨_, rfl, h, framesPreserved_still h rfl rfl⟩
  | some mem =>
    have rewritten : Rewritten env mem (env.modifyMem mem fun m =>
        { m with stackBuffer := m.stackBuffer.mapIdx fun i _ => bytes i }) := by
      refine ⟨rfl, fun mem' other => ?_, ?_, ?_⟩
      · simp [modifyMem, other]
      · simp [modifyMem, occupier]
      · simp [modifyMem]
    have occupier : ∀ mem', (env.modifyMem mem fun m =>
        { m with stackBuffer := m.stackBuffer.mapIdx fun i _ => bytes i }).occupier mem' =
        env.occupier mem' := by
      intro mem'
      by_cases same : mem' = mem
      · rw [same]
        exact rewritten.occupier
      · exact congrArg FiberMem.occupier (rewritten.others mem' same)
    refine ⟨_, rfl, ?_, framesPreserved_still h rfl rfl⟩
    constructor
    case nested => exact h.nested.sameControl (sameControl_modifyMem ..)
    case awake => exact h.awake
    case known => exact fun mem' g here => h.known mem' g ((occupier mem').symm.trans here)
    case settled => exact fun mem' g here => h.settled mem' g ((occupier mem').symm.trans here)
    case current =>
      exact fun f top' mem' shared => (occupier mem').trans (h.current f top' mem' shared)
    case safe => exact fun f suspended => h.rewritten_safe current on rewritten suspended

/-! ## Runs -/

/-- Resuming, yielding, returning and running. -/
def Op.Plain : Op → Prop
  | .resume .. | .yield _ | .finish false _ | .compute _ => True
  | .finish true _ | .sleep _ | .wakeup _ | .reset _ => False

/-- The steps of a thread whose fibers only resume, yield, return and run. -/
def PlainStep (layout : Layout) : FiberEnvironment → Op → FiberEnvironment → Prop :=
  Guarded (Step layout) fun _ op => op.Plain

/-- Such a step never fails, and preserves frames. -/
theorem Kept.exec (h : Kept layout env) {op : Op} (plain : op.Plain) (allowed : env.Allowed op) :
    ∃ env', env.exec layout op = .ok env' ∧ Kept layout env' ∧ FramesPreserved layout env op env' := by
  cases op with
  | resume f rsp => exact h.fiberResume allowed.1 rsp
  | yield rsp => exact h.fiberYield allowed rsp
  | finish threw rsp =>
    cases threw with
    | false => exact h.finish allowed rsp
    | true => exact absurd plain not_false
  | compute bytes => exact h.compute bytes
  | sleep | wakeup | reset => exact absurd plain not_false

theorem Kept.step (h : Kept layout env) {op : Op} (step : PlainStep layout env op env') :
    Kept layout env' ∧ FramesPreserved layout env op env' := by
  obtain ⟨⟨ok, allowed⟩, plain⟩ := step
  obtain ⟨env'', ok', kept, preserved⟩ := h.exec plain allowed
  obtain rfl := Except.ok.inj (ok.symm.trans ok')
  exact ⟨kept, preserved⟩

/-- In every run of resumes, yields and returns, over any stacks: the frames of a suspended fiber of a
shared stack are in place with it as the occupier or in its save buffer; no operation fails; and a
suspended fiber that regains control finds the bytes that its part of the stack held when it was
switched out. -/
theorem frames_preserved {buffers : MemPtr → List UInt8} {ops : List Op}
    (run : Run (PlainStep layout) (init buffers) ops env) :
    (∀ f mem, layout.stack f = .shared mem → env.state f = .suspended →
      (env.occupier mem = some f ∧ env.frames layout f = (env.fibers f).held) ∨
        (env.fibers f).saveBuffer = some (env.fibers f).held) ∧
      (∀ op, op.Plain → env.Allowed op → ∃ env', env.exec layout op = .ok env') ∧
      ∀ op env', PlainStep layout env op env' → FramesPreserved layout env op env' := by
  have h : Kept layout env :=
    run.invariant (I := Kept layout) (fun _ _ _ h step => (h.step step).1) (kept_init layout buffers)
  refine ⟨fun f mem shared suspended => ?_, fun op plain allowed => ?_, fun op env' step => (h.step step).2⟩
  · rw [frames_shared shared]
    exact (h.safe f suspended mem shared).kept.imp_right And.right
  · obtain ⟨env', ok, -⟩ := h.exec plain allowed
    exact ⟨env', ok⟩

/-- Every fiber but the main one on one stack. -/
def oneStack : Layout where
  stack f := if f = mainFiber then .thread else .shared 0
  main := rfl
  others f other := by simp [other]
  apart f mem own g same := by
    by_cases main : f = mainFiber
    · simp [main] at own
    · simp [main] at own

/-- A fiber writes its stack and resumes another of the same stack, which overwrites it and yields. -/
theorem frames_preserved_nested : ∃ env env' : FiberEnvironment,
    Run (PlainStep oneStack) (init fun _ => [0, 0, 0, 0]) [.resume 1 0, .compute fun i => UInt8.ofNat i,
      .resume 2 1, .compute fun _ => 9] env ∧
    PlainStep oneStack env (.yield 2) env' ∧ env'.frames oneStack 1 = [1, 2, 3] := by
  have run : Run (PlainStep oneStack) (init fun _ => [0, 0, 0, 0]) [.resume 1 0,
      .compute fun i => UInt8.ofNat i, .resume 2 1, .compute fun _ => 9] _ :=
    .cons ⟨⟨rfl, by decide⟩, trivial⟩ (.cons ⟨⟨rfl, trivial⟩, trivial⟩
      (.cons ⟨⟨rfl, by decide⟩, trivial⟩ (.single ⟨⟨rfl, trivial⟩, trivial⟩)))
  refine ⟨_, _, run, ⟨⟨rfl, by decide⟩, trivial⟩, ?_⟩
  exact ((frames_preserved run).2.2 (.yield 2) _ ⟨⟨rfl, by decide⟩, trivial⟩).regained 1 0 rfl rfl rfl

end FiberEnvironment

end Sylar
