import Sylar.Hook.Basic
import Sylar.Hook.Fds

/-!
# Durations

The conversions to milliseconds in `sleep`, `usleep`, `nanosleep` and `setsockopt`. The product of
`sleep` is one of `unsigned int`s, the divisions of the others drop what is left, and a `timeval` of
zero, which asks for no timeout, becomes a timeout of zero. A hooked wait is as long as it should be
exactly when the request is a whole number of milliseconds, nothing overflows, and it is no timeout of
zero (`longEnough_iff`).

The products and sums of `nanosleep` and `setsockopt` are of type `long`: the conversion is undefined
where they overflow.
-/

namespace Sylar.Hook

/-- A valid `timespec`. -/
structure Timespec where
  tvSec : Nat
  tvNsec : Nat
  sec_lt : tvSec < 2 ^ 63
  nsec_lt : tvNsec < 1000000000

/-- A valid `timeval`. -/
structure Timeval where
  tvSec : Nat
  tvUsec : Nat
  sec_lt : tvSec < 2 ^ 63
  usec_lt : tvUsec < 1000000

/-- `tv_sec * 1000 + part` of `long`s that are not negative, as a `uint64_t`; `none` where it overflows. -/
def milliseconds (tvSec part : Nat) : Option UInt64 :=
  if tvSec * 1000 + part < 2 ^ 63 then some (UInt64.ofNat (tvSec * 1000 + part)) else none

/-! ## Sleeping -/

/-- A call that sleeps; `useconds_t` is an `unsigned int`. -/
inductive Nap where
  | sleep (seconds : UInt32)
  | usleep (usec : UInt32)
  | nanosleep (req : Timespec)

namespace Nap

/-- The time asked for, in nanoseconds. -/
def requested : Nap → Nat
  | sleep seconds => seconds.toNat * 1000000000
  | usleep usec => usec.toNat * 1000
  | nanosleep req => req.tvSec * 1000000000 + req.tvNsec

/-- The `ms` given to `add_timer`. -/
def ms : Nap → Option UInt64
  | sleep seconds => some (seconds * 1000).toUInt64
  | usleep usec => some (usec / 1000).toUInt64
  | nanosleep req => milliseconds req.tvSec (req.tvNsec / 1000000)

variable {φ ω : Type}

/-- The timers after the call has armed its own, at clock reading `now`. -/
def arm (m : TimerManager φ ω) (now : UInt64) (cb : φ) (nap : Nap) : Option (TimerManager φ ω) :=
  nap.ms.map fun ms => (m.addTimer now false ms (.plain cb)).2

/-- The timer that is armed runs at least as long as was asked for. -/
def LongEnough (m : TimerManager φ ω) (now : UInt64) (cb : φ) (nap : Nap) : Prop :=
  ∃ m' timer, nap.arm m now cb = some m' ∧ m'.heap[m.heap.length]? = some timer ∧
    nap.requested ≤ timer.periodTime.toNat * 1000000

/-- The request is a whole number of milliseconds that the conversion can hold. -/
def Whole : Nap → Prop
  | sleep seconds => seconds.toNat * 1000 < 2 ^ 32
  | usleep usec => 1000 ∣ usec.toNat
  | nanosleep req => 1000000 ∣ req.tvNsec ∧ req.tvSec * 1000 + req.tvNsec / 1000000 < 2 ^ 63

end Nap

/-- The timer that `add_timer` makes. -/
theorem getElem?_heap_addTimer {φ ω : Type} (m : TimerManager φ ω) (now : UInt64) (recurring : Bool)
    (ms : UInt64) (cb : Callback φ ω) :
    (m.addTimer now recurring ms cb).2.heap[m.heap.length]? = some (.create now recurring ms cb) :=
  List.getElem?_concat_length

theorem Nap.longEnough_iff_ms {φ ω : Type} (m : TimerManager φ ω) (now : UInt64) (cb : φ) (nap : Nap) :
    nap.LongEnough m now cb ↔ ∃ ms, nap.ms = some ms ∧ nap.requested ≤ ms.toNat * 1000000 := by
  constructor
  · rintro ⟨m', timer, armed, here, long⟩
    obtain ⟨ms, converted, rfl⟩ := Option.map_eq_some_iff.mp armed
    rw [getElem?_heap_addTimer] at here
    obtain rfl := Option.some.inj here
    exact ⟨ms, converted, long⟩
  · rintro ⟨ms, converted, long⟩
    refine ⟨_, _, ?_, getElem?_heap_addTimer m now false ms (.plain cb), long⟩
    rw [arm, converted]
    rfl

/-- A conversion that keeps whole milliseconds and drops the rest: it is exact if there is no rest. -/
theorem exists_milliseconds_iff {tvSec part unit : Nat} :
    (∃ ms, milliseconds tvSec (part / unit) = some ms ∧ tvSec * (1000 * unit) + part ≤ ms.toNat * unit) ↔
      unit ∣ part ∧ tvSec * 1000 + part / unit < 2 ^ 63 := by
  unfold milliseconds
  by_cases fits : tvSec * 1000 + part / unit < 2 ^ 63
  · have value : (UInt64.ofNat (tvSec * 1000 + part / unit)).toNat = tvSec * 1000 + part / unit :=
      UInt64.toNat_ofNat_of_lt (Nat.lt_of_lt_of_le fits (by decide))
    have product : (tvSec * 1000 + part / unit) * unit = tvSec * (1000 * unit) + part / unit * unit := by
      rw [Nat.add_mul, Nat.mul_assoc]
    rw [if_pos fits, and_iff_left fits]
    constructor
    · rintro ⟨ms, converted, long⟩
      obtain rfl := Option.some.inj converted
      rw [value, product] at long
      exact Nat.dvd_of_mod_eq_zero (by have := Nat.div_add_mod' part unit; omega)
    · intro whole
      refine ⟨_, rfl, ?_⟩
      rw [value, product, Nat.div_mul_cancel whole]
  · rw [if_neg fits]
    refine iff_of_false ?_ fun both => fits both.2
    rintro ⟨ms, converted, -⟩
    cases converted

theorem Nap.longEnough_iff_whole {φ ω : Type} (m : TimerManager φ ω) (now : UInt64) (cb : φ) (nap : Nap) :
    nap.LongEnough m now cb ↔ nap.Whole := by
  rw [longEnough_iff_ms]
  cases nap with
  | sleep seconds =>
    have value : (seconds * 1000).toUInt64.toNat = seconds.toNat * 1000 % 2 ^ 32 := by
      rw [UInt32.toNat_toUInt64, UInt32.toNat_mul]
      rfl
    simp only [ms, requested, Whole, Option.some.injEq, exists_eq_left', value]
    omega
  | usleep usec =>
    have value : (usec / 1000).toUInt64.toNat = usec.toNat / 1000 := by
      rw [UInt32.toNat_toUInt64, UInt32.toNat_div]
      rfl
    simp only [ms, requested, Whole, Option.some.injEq, exists_eq_left', value]
    omega
  | nanosleep req => exact exists_milliseconds_iff

/-! ## Timeouts -/

/-- `get_timeout`. -/
def FdCtx.getTimeout (ctx : FdCtx) : TimeoutType → UInt64
  | .recv => ctx.recvTimeout
  | .send => ctx.sendTimeout

theorem FdCtx.getTimeout_setTimeout (ctx : FdCtx) (type : TimeoutType) (timeout : UInt64) (here : List Nat) :
    (ctx.setTimeout type timeout here).getTimeout type = timeout := by
  cases type with
  | recv => rfl
  | send => rfl

/-- The direction of the calls that a timeout is for. -/
def TimeoutType.direction : TimeoutType → Direction
  | .recv => .read
  | .send => .write

/-- What `setsockopt` does to the context of the fd. -/
def FdCtx.setsockopt (ctx : FdCtx) (type : TimeoutType) (v : Timeval) (here : List Nat) : Option FdCtx :=
  (milliseconds v.tvSec (v.tvUsec / 1000)).map fun timeout => ctx.setTimeout type timeout here

namespace Timeval

/-- The time asked for, in microseconds. -/
def requested (v : Timeval) : Nat := v.tvSec * 1000000 + v.tvUsec

variable {K F : Type} [DecidableEq F]

/-- A call that would block and waits with the timeout of this `timeval`: no timer is armed if it is zero,
and otherwise one that runs at least as long. -/
def Honoured (s : World K F) (f : F) (fd : Fd) (now : UInt64) (ctx : FdCtx) (type : TimeoutType) (here : List Nat)
    (v : Timeval) : Prop :=
  ∃ ctx', ctx.setsockopt type v here = some ctx' ∧
    (v.requested = 0 → (s.arm f fd type.direction now (ctx'.getTimeout type)).timers = s.timers) ∧
    (0 < v.requested → ∃ timer, (s.arm f fd type.direction now (ctx'.getTimeout type)).timers.heap[
      s.timers.heap.length]? = some timer ∧ v.requested ≤ timer.periodTime.toNat * 1000)

/-- Some whole number of milliseconds that the conversion can hold. -/
def Whole (v : Timeval) : Prop :=
  0 < v.requested ∧ 1000 ∣ v.tvUsec ∧ v.tvSec * 1000 + v.tvUsec / 1000 < 2 ^ 63

/-- The timers of a wait with a timeout. -/
theorem timers_arm (s : World K F) (f : F) (fd : Fd) (d : Direction) (now : UInt64) {timeout : UInt64}
    (some : timeout ≠ ~~~0) : (s.arm f fd d now timeout).timers =
      (s.timers.addTimer now false timeout (.bound ⟨fd, d, f⟩ s.infos.length)).2 := by
  unfold World.arm
  dsimp only
  rw [if_pos some]
  rfl

/-- A converted timeout is never the sentinel for none. -/
theorem ne_sentinel_of_milliseconds {tvSec part : Nat} {ms : UInt64} (converted : milliseconds tvSec part = some ms) :
    ms ≠ ~~~0 := by
  unfold milliseconds at converted
  split at converted
  · rename_i fits
    obtain rfl := Option.some.inj converted
    intro sentinel
    have value : tvSec * 1000 + part = (~~~0 : UInt64).toNat := by
      rw [← sentinel]
      exact (UInt64.toNat_ofNat_of_lt (Nat.lt_of_lt_of_le fits (by decide))).symm
    have top : (~~~0 : UInt64).toNat = 2 ^ 64 - 1 := by decide
    omega
  · cases converted

theorem honoured_iff (s : World K F) (f : F) (fd : Fd) (now : UInt64) (ctx : FdCtx) (type : TimeoutType)
    (here : List Nat) (v : Timeval) : v.Honoured s f fd now ctx type here ↔ v.Whole := by
  have exact : (∃ ms, milliseconds v.tvSec (v.tvUsec / 1000) = some ms ∧ v.requested ≤ ms.toNat * 1000) ↔
      1000 ∣ v.tvUsec ∧ v.tvSec * 1000 + v.tvUsec / 1000 < 2 ^ 63 := exists_milliseconds_iff
  rw [Whole, ← exact]
  constructor
  · rintro ⟨ctx', set, zero, long⟩
    obtain ⟨ms, converted, rfl⟩ := Option.map_eq_some_iff.mp set
    rw [FdCtx.getTimeout_setTimeout, timers_arm s f fd type.direction now (ne_sentinel_of_milliseconds converted)]
      at zero long
    have pos : 0 < v.requested := by
      refine Nat.pos_of_ne_zero fun none => ?_
      -- a timer is armed where none should be
      have same := congrArg (fun m => m.heap.length) (zero none)
      have more : (s.timers.heap ++ [_]).length = s.timers.heap.length := same
      rw [List.length_append] at more
      simp at more
    obtain ⟨timer, found, enough⟩ := long pos
    rw [getElem?_heap_addTimer] at found
    obtain rfl := Option.some.inj found
    exact ⟨pos, ms, converted, enough⟩
  · rintro ⟨pos, ms, converted, enough⟩
    refine ⟨ctx.setTimeout type ms here, by rw [FdCtx.setsockopt, converted]; rfl, fun zero => by omega, fun _ => ?_⟩
    rw [FdCtx.getTimeout_setTimeout, timers_arm s f fd type.direction now (ne_sentinel_of_milliseconds converted)]
    exact ⟨_, getElem?_heap_addTimer .., enough⟩

end Timeval

/-- A hooked sleep is never shorter than asked for if and only if the request is a whole number of
milliseconds that the conversion can hold; a timeout of hooked I/O is right if and only if moreover it is
not zero. -/
theorem longEnough_iff {φ ω K F : Type} [DecidableEq F] :
    (∀ (m : TimerManager φ ω) (now : UInt64) (cb : φ) (nap : Nap), nap.LongEnough m now cb ↔ nap.Whole) ∧
      ∀ (s : World K F) (f : F) (fd : Fd) (now : UInt64) (ctx : FdCtx) (type : TimeoutType) (here : List Nat)
        (v : Timeval), v.Honoured s f fd now ctx type here ↔ v.Whole :=
  ⟨Nap.longEnough_iff_whole, Timeval.honoured_iff⟩

/-- Forty-nine days and some hours become 704 milliseconds, half a millisecond becomes none, and so does
a nanosecond less than one; and a timeout of zero arms a timer. -/
theorem not_longEnough :
    ¬ (Nap.sleep 4294968).LongEnough (.init : TimerManager Unit Unit) 0 () ∧
      ¬ (Nap.usleep 500).LongEnough (.init : TimerManager Unit Unit) 0 () ∧
      ¬ (Nap.nanosleep ⟨0, 999999, by decide, by decide⟩).LongEnough (.init : TimerManager Unit Unit) 0 () ∧
      ¬ Timeval.Honoured (.init () : World Unit Unit) () 5 0 ⟨true, false, false, -1, -1, []⟩ .recv []
        ⟨0, 0, by decide, by decide⟩ := by
  refine ⟨?_, ?_, ?_, ?_⟩
  · rintro ⟨m, timer, armed, here, long⟩
    obtain rfl := Option.some.inj armed
    obtain rfl := Option.some.inj here
    exact absurd long (by decide)
  · rintro ⟨m, timer, armed, here, long⟩
    obtain rfl := Option.some.inj armed
    obtain rfl := Option.some.inj here
    exact absurd long (by decide)
  · rintro ⟨m, timer, armed, here, long⟩
    obtain rfl := Option.some.inj armed
    obtain rfl := Option.some.inj here
    exact absurd long (by decide)
  · rintro ⟨ctx, set, zero, -⟩
    obtain rfl := Option.some.inj set
    exact absurd (zero rfl) (by decide)

end Sylar.Hook
