import Sylar.Lib.Blocks
import Sylar.Lib.Run

/-!
# Fibers on one thread

The model of `fiber.h` and `fiber.cpp`: the call stack of fibers of a thread, the switches between
them, and the stacks that several fibers share. Fibers and stacks are shared objects and are named by
their places. An operation runs from the user code of one fiber to the user code of the next, so a
switch is followed by what the fiber switched to still has to do inside `swap_fiber`; where it goes on
is what its `context_` holds.

A failed assertion ends the thread. A switch to a context that has nowhere to go on fails too
(`lost`): one that was never made, or that of a fiber whose function has ended.

`resumedBy` and `held` are history: who issued the last `fiber_resume` that switched to a fiber, and
what a fiber's part of its stack held when it was last switched out. No function reads them.
-/

namespace Sylar

inductive FiberState where
  | initing
  | ready
  | running
  | suspended
  | sleeping
  | terminated
  | exception
  deriving DecidableEq, Repr

/-- A fiber object, named by its place. -/
abbrev FiberPtr := Nat

/-- A `FiberMem` object, named by its place. -/
abbrev MemPtr := Nat

/-- The main fiber of the thread. -/
def mainFiber : FiberPtr := 0

/-- `SYLAR_FIBER_MAX_CALL_STACK_DEPTH`. -/
def maxCallStackDepth : Nat := 128

/-- What a fiber runs on: the thread's stack, where `running_mem_` is null, a stack of its own, or one
of a `FiberSharedStackPool`. -/
inductive FiberStack where
  | thread
  | own (mem : MemPtr)
  | shared (mem : MemPtr)
  deriving DecidableEq, Repr

def FiberStack.mem : FiberStack → Option MemPtr
  | .thread => none
  | .own mem => some mem
  | .shared mem => some mem

/-- What the constructors fix: the stack of every fiber. Only the main fiber is on the thread's stack,
and a fiber's own stack is no other fiber's. -/
structure Layout where
  stack : FiberPtr → FiberStack
  main : stack mainFiber = .thread
  others : ∀ f, f ≠ mainFiber → stack f ≠ .thread
  apart : ∀ f mem, stack f = .own mem → ∀ g, (stack g).mem = some mem → g = f

/-- Where a fiber goes on when it is switched to. -/
inductive FiberContext where
  /-- Nothing has been stored yet. -/
  | unset
  /-- At the start of `fiber_func_wrapper`, as `make_context` leaves it. -/
  | wrapper
  /-- In the `swap_fiber` of another fiber's `fiber_resume`. -/
  | resuming (f : FiberPtr)
  /-- In the `swap_fiber` of `fiber_yield`. -/
  | yielding
  /-- In the `swap_fiber` of `fiber_sleep`. -/
  | sleeping
  /-- In the `swap_fiber` of the `fiber_yield` that ends `fiber_func_wrapper`. -/
  | exiting
  deriving DecidableEq, Repr

structure Fiber where
  state : FiberState
  context : FiberContext
  /-- As an offset in the fiber's stack. -/
  stackBufferTop : Nat
  /-- `save_buffer_` with its `save_size_` bytes. -/
  saveBuffer : Option (List UInt8)
  resumedBy : Option FiberPtr
  held : List UInt8
  deriving DecidableEq, Repr

/-- A stack: its lowest address is offset 0 and `stack_bottom_` is its length. -/
structure FiberMem where
  occupier : Option FiberPtr
  stackBuffer : List UInt8
  deriving DecidableEq, Repr

/-- Why a thread stops. -/
inductive FiberFailure where
  /-- `SYLAR_ASSERT` of `get_current_fiber`. -/
  | currentFiber
  /-- `SYLAR_ASSERT` of `fiber_yield` and `fiber_sleep`. -/
  | nextFiber
  /-- `SYLAR_ASSERT` of `change_occupier`. -/
  | occupier
  /-- The context switched to has nowhere to go on. -/
  | lost
  deriving DecidableEq, Repr

/-- A thread: its fibers and stacks and its `FiberEnvironment`. -/
structure FiberEnvironment where
  fibers : FiberPtr → Fiber
  mems : MemPtr → FiberMem
  /-- From the top down; the entry at index 0 of `fiber_call_stack_` is the last one. -/
  fiberCallStack : List FiberPtr
  swapInFiber : Option FiberPtr
  swapOutFiber : Option FiberPtr

namespace FiberEnvironment

/-- A thread at its start, with whatever bytes are in its stacks: the main fiber runs, and the others
have been constructed. -/
def init (buffers : MemPtr → List UInt8) : FiberEnvironment where
  fibers f := ⟨if f = mainFiber then .running else .initing, .unset, 0, none, none, []⟩
  mems mem := ⟨none, buffers mem⟩
  fiberCallStack := [mainFiber]
  swapInFiber := none
  swapOutFiber := none

variable (env : FiberEnvironment)

def modify (f : FiberPtr) (change : Fiber → Fiber) : FiberEnvironment :=
  { env with fibers := Function.update env.fibers f (change (env.fibers f)) }

def modifyMem (mem : MemPtr) (change : FiberMem → FiberMem) : FiberEnvironment :=
  { env with mems := Function.update env.mems mem (change (env.mems mem)) }

def setState (f : FiberPtr) (state : FiberState) : FiberEnvironment :=
  env.modify f fun fiber => { fiber with state := state }

def state (f : FiberPtr) : FiberState := (env.fibers f).state

def context (f : FiberPtr) : FiberContext := (env.fibers f).context

def pushFiber (f : FiberPtr) : FiberEnvironment :=
  { env with fiberCallStack := f :: env.fiberCallStack }

def popFiber : FiberEnvironment :=
  { env with fiberCallStack := env.fiberCallStack.tail }

def getCurrentFiber : Except FiberFailure FiberPtr :=
  match env.fiberCallStack with
  | f :: _ => .ok f
  | [] => .error .currentFiber

def makeContext (f : FiberPtr) : FiberEnvironment :=
  env.modify f fun fiber => { fiber with context := .wrapper, state := .ready }

/-! ## Switching -/

variable (layout : Layout)

/-- The bytes of a fiber's stack from `top` to `stack_bottom_`. -/
def region (f : FiberPtr) (top : Nat) : List UInt8 :=
  match (layout.stack f).mem with
  | some mem => (env.mems mem).stackBuffer.drop top
  | none => []

/-- The frames a switched-out fiber has in its stack: `[stack_buffer_top_, stack_bottom_)`. -/
def frames (f : FiberPtr) : List UInt8 :=
  env.region layout f (env.fibers f).stackBufferTop

def saveFiberStack (f : FiberPtr) : FiberEnvironment :=
  env.modify f fun fiber => { fiber with saveBuffer := some (env.frames layout f) }

def setOccupier (mem : MemPtr) (f : FiberPtr) : FiberEnvironment :=
  env.modifyMem mem fun m => { m with occupier := some f }

def changeOccupier (mem : MemPtr) (newOccupier : FiberPtr) : Except FiberFailure FiberEnvironment :=
  match (env.mems mem).occupier with
  | none => .ok (env.setOccupier mem newOccupier)
  | some occupier =>
    if occupier = newOccupier then .ok (env.setOccupier mem newOccupier)
    else if env.state occupier = .suspended ∨ env.state occupier = .terminated then
      .ok ((env.saveFiberStack layout occupier).setOccupier mem newOccupier)
    else .error .occupier

/-- `memcpy` of a fiber's saved bytes to its place in its stack. -/
def copyBack (f : FiberPtr) : FiberEnvironment :=
  match (env.fibers f).saveBuffer, (layout.stack f).mem with
  | some bytes, some mem =>
    if 0 < bytes.length then
      env.modifyMem mem fun m =>
        { m with stackBuffer := Lib.splice m.stackBuffer (env.fibers f).stackBufferTop bytes }
    else env
  | _, _ => env

/-- What `swap_fiber` does after the switch back. -/
def resumeStack : FiberEnvironment :=
  let copied :=
    match env.swapInFiber, env.swapOutFiber with
    | some newFiber, some oldFiber => if newFiber ≠ oldFiber then env.copyBack layout newFiber else env
    | _, _ => env
  { copied with swapInFiber := none, swapOutFiber := none }

/-- The switched-to fiber, up to its user code. A fiber that starts does not come through the rest of
`swap_fiber`. -/
def land (f : FiberPtr) : Except FiberFailure FiberEnvironment :=
  match env.context f with
  | .wrapper => .ok (env.setState f .running)
  | .resuming _ | .yielding | .sleeping => .ok (env.resumeStack layout)
  | .unset | .exiting => .error .lost

/-- What `swap_fiber` does for the stack of the fiber it switches to: note both fibers of the switch,
and take a shared stack over. -/
def takeStack (newFiber : FiberPtr) : Except FiberFailure FiberEnvironment :=
  match layout.stack newFiber with
  | .shared mem =>
    let noted := { env with swapInFiber := some newFiber, swapOutFiber := (env.mems mem).occupier }
    noted.changeOccupier layout mem newFiber
  | .own _ | .thread => .ok { env with swapInFiber := none, swapOutFiber := none }

/-- `swap_fiber`, called at `site` with the stack pointer at `rsp`. -/
def swapFiber (oldFiber newFiber : FiberPtr) (rsp : Nat) (site : FiberContext) :
    Except FiberFailure FiberEnvironment := do
  let env := env.modify oldFiber fun fiber =>
    { fiber with stackBufferTop := rsp, held := env.region layout oldFiber rsp }
  let env ← env.takeStack layout newFiber
  let env := env.modify oldFiber fun fiber => { fiber with context := site }
  env.land layout newFiber

/-! ## Operations -/

def fiberResume (f : FiberPtr) (rsp : Nat) : Except FiberFailure FiberEnvironment :=
  if env.state f = .terminated ∨ env.state f = .exception then .ok env
  else do
    let env := if env.state f = .initing then env.makeContext f else env
    let curFiber ← env.getCurrentFiber
    let env := ((env.pushFiber f).setState f .running).setState curFiber .suspended
    (env.modify f fun fiber => { fiber with resumedBy := some curFiber }).swapFiber layout curFiber f rsp
      (.resuming f)

/-- The common body of `fiber_yield` and `fiber_sleep`, which differ in the state they store. -/
def leave (stored : FiberState) (site : FiberContext) (rsp : Nat) :
    Except FiberFailure FiberEnvironment := do
  let curFiber ← env.getCurrentFiber
  let env := env.popFiber
  let nextFiber ← env.getCurrentFiber
  let env := if env.state curFiber = .running then env.setState curFiber stored else env
  if env.state nextFiber = .suspended then
    (env.setState nextFiber .running).swapFiber layout curFiber nextFiber rsp site
  else .error .nextFiber

def fiberYield (rsp : Nat) : Except FiberFailure FiberEnvironment :=
  env.leave layout .suspended .yielding rsp

def fiberSleep (rsp : Nat) : Except FiberFailure FiberEnvironment :=
  env.leave layout .sleeping .sleeping rsp

/-- The end of `fiber_func_wrapper`, after the function has returned or thrown. -/
def finish (threw : Bool) (rsp : Nat) : Except FiberFailure FiberEnvironment := do
  let fiber ← env.getCurrentFiber
  (env.setState fiber (if threw then .exception else .terminated)).leave layout .suspended .exiting rsp

def fiberWakeup (f : FiberPtr) : FiberEnvironment :=
  if env.state f = .sleeping then env.setState f .suspended else env

def reset (f : FiberPtr) : FiberEnvironment :=
  if layout.stack f = .thread then env
  else env.modify f fun fiber => { fiber with saveBuffer := none, state := .initing }

/-- The user code of the current fiber has written its stack, `bytes i` at offset `i`. -/
def compute (bytes : Nat → UInt8) : Except FiberFailure FiberEnvironment := do
  let curFiber ← env.getCurrentFiber
  match (layout.stack curFiber).mem with
  | some mem =>
    .ok (env.modifyMem mem fun m => { m with stackBuffer := m.stackBuffer.mapIdx fun i _ => bytes i })
  | none => .ok env

/-! ## Runs -/

/-- What happens on the thread. A switch carries the stack pointer of the fiber it leaves. -/
inductive Op where
  | resume (f : FiberPtr) (rsp : Nat)
  | yield (rsp : Nat)
  | sleep (rsp : Nat)
  | finish (threw : Bool) (rsp : Nat)
  | wakeup (f : FiberPtr)
  | reset (f : FiberPtr)
  | compute (bytes : Nat → UInt8)

def exec : Op → Except FiberFailure FiberEnvironment
  | .resume f rsp => env.fiberResume layout f rsp
  | .yield rsp => env.fiberYield layout rsp
  | .sleep rsp => env.fiberSleep layout rsp
  | .finish threw rsp => env.finish layout threw rsp
  | .wakeup f => .ok (env.fiberWakeup f)
  | .reset f => .ok (env.reset layout f)
  | .compute bytes => env.compute layout bytes

/-- What a thread may do: it resumes and resets fibers that are not on the call stack, resumes with
room on it, and the main fiber neither yields nor ends. -/
def Allowed : Op → Prop
  | .resume f _ => f ∉ env.fiberCallStack ∧ env.fiberCallStack.length < maxCallStackDepth
  | .yield _ | .sleep _ | .finish .. => env.fiberCallStack.head? ≠ some mainFiber
  | .reset f => f ∉ env.fiberCallStack
  | .wakeup _ | .compute _ => True

instance : DecidablePred env.Allowed
  | .resume .. => inferInstanceAs (Decidable (_ ∧ _))
  | .yield _ | .sleep _ | .finish .. => inferInstanceAs (Decidable (env.fiberCallStack.head? ≠ some mainFiber))
  | .reset f => inferInstanceAs (Decidable (f ∉ env.fiberCallStack))
  | .wakeup _ | .compute _ => isTrue trivial

/-- One operation as a step. -/
def Step (layout : Layout) (env : FiberEnvironment) (op : Op) (env' : FiberEnvironment) : Prop :=
  env.exec layout op = .ok env' ∧ env.Allowed op

end FiberEnvironment

end Sylar
