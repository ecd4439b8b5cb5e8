import Sylar.Lib.OrderedSet
import Sylar.Lib.Run

/-!
# Timers

The model of `timer.h` and `timer.cpp`. Timers are shared objects, so they live in a heap and are
named by their place in it. `timers_` is a `std::set` of pointers whose comparator looks at
`next_expiration_` only; it is the ordered set of `Lib.OrderedSet` at that key. Expirations are
`uint64_t` milliseconds and every sum wraps as the source's does. A call takes the clock reading it
makes as an argument.

`on_timer_insert_at_front` is pure virtual here; the model counts its calls.
-/

namespace Sylar

open Lib

/-- What a timer calls: a plain callback, or one bound with a `weak_ptr` by the second overload of
`add_timer`. -/
inductive Callback (φ ω : Type) where
  | plain (cb : φ)
  | bound (cb : φ) (cond : ω)
  deriving DecidableEq, Repr

/-- `cond_timer_cb`: the call a timer makes, given which conditions can still be locked. -/
def Callback.run {φ ω : Type} (lock : ω → Bool) : Callback φ ω → Option φ
  | .plain cb => some cb
  | .bound cb cond => if lock cond then some cb else none

/-- A timer object is named by its place in the heap. -/
abbrev TimerPtr := Nat

structure Timer (φ ω : Type) where
  isRecurring : Bool
  periodTime : UInt64
  nextExpiration : UInt64
  cb : Callback φ ω
  /-- Whether `manager_` is still set; `cancel` clears it. -/
  managed : Bool
  deriving DecidableEq, Repr

/-- The constructor of a timer, at clock reading `now`. -/
def Timer.create {φ ω : Type} (now : UInt64) (recurring : Bool) (ms : UInt64) (cb : Callback φ ω) :
    Timer φ ω where
  isRecurring := recurring
  periodTime := ms
  nextExpiration := now + ms
  cb := cb
  managed := true

structure TimerManager (φ ω : Type) where
  heap : List (Timer φ ω)
  timers : List TimerPtr
  needTickle : Bool
  /-- Calls of `on_timer_insert_at_front` so far. -/
  insertedAtFront : Nat
  deriving DecidableEq, Repr

namespace TimerManager

variable {φ ω : Type}

/-- A manager as constructed. -/
def init : TimerManager φ ω where
  heap := []
  timers := []
  needTickle := false
  insertedAtFront := 0

/-- What the comparator looks at. -/
def expirationIn (heap : List (Timer φ ω)) (t : TimerPtr) : Nat :=
  (heap[t]?.map fun timer => timer.nextExpiration.toNat).getD 0

def expiration (m : TimerManager φ ω) : TimerPtr → Nat :=
  expirationIn m.heap

def setExpiration (m : TimerManager φ ω) (t : TimerPtr) (e : UInt64) : TimerManager φ ω :=
  { m with heap := m.heap.modify t fun timer => { timer with nextExpiration := e } }

/-- `add_timer(Timer::ptr)`, the private overload: insert, and call the hook when the position is the
front and a waiter wants to know. -/
def addTimerPtr (m : TimerManager φ ω) (t : TimerPtr) : Bool × TimerManager φ ω :=
  let it := OrderedSet.insert m.expiration t m.timers
  let isFront := it.elements.head? == some it.position && m.needTickle
  (it.fresh,
    { m with
      timers := it.elements
      needTickle := if isFront then false else m.needTickle
      insertedAtFront := if isFront then m.insertedAtFront + 1 else m.insertedAtFront })

/-- Allocate a timer, at the next place of the heap. -/
def alloc (m : TimerManager φ ω) (timer : Timer φ ω) : TimerPtr × TimerManager φ ω :=
  (m.heap.length, { m with heap := m.heap ++ [timer] })

/-- The two public overloads of `add_timer`; they differ in the callback they bind. -/
def addTimer (m : TimerManager φ ω) (now : UInt64) (recurring : Bool) (ms : UInt64)
    (cb : Callback φ ω) : Option TimerPtr × TimerManager φ ω :=
  let (t, m) := m.alloc (.create now recurring ms cb)
  let (ret, m) := m.addTimerPtr t
  (if ret then some t else none, m)

/-- `del_timer`: find by expiration and erase what was found. -/
def delTimer (m : TimerManager φ ω) (t : TimerPtr) : Bool × TimerManager φ ω :=
  match OrderedSet.find m.expiration (m.expiration t) m.timers with
  | some _ => (true, { m with timers := OrderedSet.erase m.expiration (m.expiration t) m.timers })
  | none => (false, m)

/-- `get_next_timer`: milliseconds until the first expiration. -/
def getNextTimer (m : TimerManager φ ω) (now : UInt64) : UInt64 × TimerManager φ ω :=
  match m.timers with
  | [] => (~~~0, m)
  | t :: _ =>
    let next := (m.heap[t]?.map Timer.nextExpiration).getD 0
    (if now ≥ next then 0 else next - now, { m with needTickle := true })

/-- The loop of `get_expired_timers` over the expired timers: re-arm the recurring ones. -/
def rearm (now : UInt64) : List TimerPtr → TimerManager φ ω → TimerManager φ ω
  | [], m => m
  | t :: expired, m =>
    match m.heap[t]? with
    | some timer =>
      if timer.isRecurring then
        let m := m.setExpiration t (now + timer.periodTime)
        rearm now expired { m with timers := (OrderedSet.insert m.expiration t m.timers).elements }
      else rearm now expired m
    | none => rearm now expired m

/-- `get_expired_timers`: the caller's vector is only replaced when something has expired. -/
def getExpiredTimers (m : TimerManager φ ω) (now : UInt64) (expiredTimers : List TimerPtr) :
    List TimerPtr × TimerManager φ ω :=
  let expired := OrderedSet.upTo m.expiration now.toNat m.timers
  if expired.isEmpty then (expiredTimers, m)
  else
    let rest := OrderedSet.beyond m.expiration now.toNat m.timers
    (expired, rearm now expired { m with timers := rest, needTickle := true })

/-- `Timer::cancel`. -/
def cancel (m : TimerManager φ ω) (t : TimerPtr) : Bool × TimerManager φ ω :=
  match m.heap[t]? with
  | some timer =>
    if timer.managed then
      let (ret, m) := m.delTimer t
      (ret, { m with heap := m.heap.modify t fun timer => { timer with managed := false } })
    else (false, m)
  | none => (false, m)

/-- `Timer::refresh`, at clock reading `now`. -/
def refresh (m : TimerManager φ ω) (now : UInt64) (t : TimerPtr) : Bool × TimerManager φ ω :=
  match m.heap[t]? with
  | some timer =>
    if timer.managed then
      let (ret, m) := m.delTimer t
      if ret then (m.setExpiration t (now + timer.periodTime)).addTimerPtr t else (ret, m)
    else (false, m)
  | none => (false, m)

/-- `Timer::reset`; the clock is only read when `fromNow` is set. -/
def reset (m : TimerManager φ ω) (clock : UInt64) (t : TimerPtr) (ms : UInt64) (fromNow : Bool) :
    Bool × TimerManager φ ω :=
  match m.heap[t]? with
  | some timer =>
    if timer.managed then
      let now := if fromNow then clock else timer.nextExpiration - timer.periodTime
      let m := { m with heap := m.heap.modify t fun timer => { timer with periodTime := ms } }
      let newExpiration := now + ms
      if newExpiration ≠ timer.nextExpiration then
        let (ret, m) := m.delTimer t
        if ret then (m.setExpiration t newExpiration).addTimerPtr t else (ret, m)
      else (false, m)
    else (false, m)
  | none => (false, m)

/-- The calls on a manager and its timers, with the clock readings they make. -/
inductive Call (φ ω : Type) where
  | addTimer (now : UInt64) (recurring : Bool) (ms : UInt64) (cb : Callback φ ω)
  | delTimer (t : TimerPtr)
  | cancel (t : TimerPtr)
  | refresh (now : UInt64) (t : TimerPtr)
  | reset (clock : UInt64) (t : TimerPtr) (ms : UInt64) (fromNow : Bool)
  | getNextTimer (now : UInt64)
  | getExpiredTimers (now : UInt64)
  deriving DecidableEq, Repr

/-- What a call answers. -/
inductive Answer where
  | timer (t : Option TimerPtr)
  | flag (ret : Bool)
  | wait (ms : UInt64)
  | expired (timers : List TimerPtr)
  deriving DecidableEq, Repr

def call (m : TimerManager φ ω) : Call φ ω → Answer × TimerManager φ ω
  | .addTimer now recurring ms cb => (m.addTimer now recurring ms cb).map .timer id
  | .delTimer t => (m.delTimer t).map .flag id
  | .cancel t => (m.cancel t).map .flag id
  | .refresh now t => (m.refresh now t).map .flag id
  | .reset clock t ms fromNow => (m.reset clock t ms fromNow).map .flag id
  | .getNextTimer now => (m.getNextTimer now).map .wait id
  | .getExpiredTimers now => (m.getExpiredTimers now []).map .expired id

/-- One call with its answer, as a step between managers. -/
def Step (m : TimerManager φ ω) (event : Call φ ω × Answer) (m' : TimerManager φ ω) : Prop :=
  m.call event.1 = (event.2, m')

end TimerManager

end Sylar
