import Sylar.IOManager.Basic
import Sylar.Lib.Run

/-!
# Sockets and their contexts

The model of `fdmanager.cpp` and of the wrappers that make, change and close sockets: `socket`, `accept`,
`fcntl`, `ioctl`, `setsockopt` and `close`. A socket with an `FdCtx` is meant to be non-blocking in the
kernel, while `user_nonblock_` keeps what the user asked for. Which number the kernel gives to a new socket
is not determined, except that it is not in use.

A context is found by the number alone, and only a `close` on a thread with hooks takes it out. A number
that another thread closed and the kernel gave out again meets the context of the earlier socket. And
`ioctl` passes `FIONBIO` on as it is, where `fcntl` adds `O_NONBLOCK` to what it passes on. `Safe` names
the calls that go wrong so.

`id`, `asked` and `setOn` only record what happened; no wrapper reads them.
-/

namespace Sylar.Hook

open Lib

/-! ## File status flags -/

def oNonblock : BitVec 32 := 0x800#32

/-- What `F_SETFL` can change: `O_APPEND`, `O_NONBLOCK`, `O_ASYNC`, `O_DIRECT` and `O_NOATIME`. -/
def setflMask : BitVec 32 := 0x46c00#32

/-- `flags & O_NONBLOCK`, as a condition. -/
def isNonblock (flags : BitVec 32) : Bool := flags &&& oNonblock != 0

/-- The kernel's `F_SETFL`. -/
def setfl (flags arg : BitVec 32) : BitVec 32 := (flags &&& ~~~setflMask) ||| (arg &&& setflMask)

/-- The kernel's `FIONBIO`. -/
def fionbio (flags : BitVec 32) (on : Bool) : BitVec 32 :=
  if on then flags ||| oNonblock else flags &&& ~~~oNonblock

theorem isNonblock_eq (flags : BitVec 32) : isNonblock flags = flags.getLsbD 11 := by
  have bit : oNonblock = BitVec.twoPow 32 11 := rfl
  rw [isNonblock, bit, BitVec.and_twoPow]
  cases flags.getLsbD 11 <;> rfl

theorem isNonblock_setfl (flags arg : BitVec 32) : isNonblock (setfl flags arg) = isNonblock arg := by
  simp [isNonblock_eq, setfl, setflMask]

theorem isNonblock_or (flags : BitVec 32) : isNonblock (flags ||| oNonblock) = true := by
  simp [isNonblock_eq, oNonblock]

theorem isNonblock_andNot (flags : BitVec 32) : isNonblock (flags &&& ~~~oNonblock) = false := by
  simp [isNonblock_eq, oNonblock]

theorem isNonblock_fionbio (flags : BitVec 32) (on : Bool) : isNonblock (fionbio flags on) = on := by
  cases on with
  | true => exact isNonblock_or flags
  | false => exact isNonblock_andNot flags

/-! ## The state -/

/-- A socket the kernel has open: which one it is, its flags, and whether the user's latest request on it
asked for `O_NONBLOCK`. -/
structure OpenSocket where
  id : Nat
  flags : BitVec 32
  asked : Bool
  deriving DecidableEq, Repr

inductive TimeoutType where
  | recv
  | send
  deriving DecidableEq, Repr

/-- An `FdCtx`, with the sockets that were open under its number when its values were set. -/
structure FdCtx where
  isSocket : Bool
  isClosed : Bool
  userNonblock : Bool
  recvTimeout : UInt64
  sendTimeout : UInt64
  setOn : List Nat
  deriving DecidableEq, Repr

namespace FdCtx

/-- `setOn` is what is open under the number. -/
def setUserNonblock (ctx : FdCtx) (v : Bool) (here : List Nat) : FdCtx :=
  { ctx with userNonblock := v, setOn := here ++ ctx.setOn }

def setTimeout (ctx : FdCtx) (type : TimeoutType) (timeout : UInt64) (here : List Nat) : FdCtx :=
  match type with
  | .recv => { ctx with recvTimeout := timeout, setOn := here ++ ctx.setOn }
  | .send => { ctx with sendTimeout := timeout, setOn := here ++ ctx.setOn }

/-- The contexts `fcntl` and `ioctl` heed. -/
def manages (ctx : FdCtx) : Bool := !ctx.isClosed && ctx.isSocket

end FdCtx

/-- The sockets the kernel has open, the contexts of the `FdManager`, and the next socket's name. -/
structure Fds where
  sockets : Fd → Option OpenSocket
  fdCtxs : Fd → Option FdCtx
  next : Nat

namespace Fds

def init : Fds := ⟨fun _ => none, fun _ => none, 0⟩

/-- The socket open under a number. -/
def here (s : Fds) (fd : Fd) : List Nat := ((s.sockets fd).map OpenSocket.id).toList

/-- The kernel changes a socket's flags. -/
def withSocket (s : Fds) (fd : Fd) (f : OpenSocket → OpenSocket) : Fds :=
  { s with sockets := Function.update s.sockets fd ((s.sockets fd).map f) }

def withCtx (s : Fds) (fd : Fd) (ctx : Option FdCtx) : Fds :=
  { s with fdCtxs := Function.update s.fdCtxs fd ctx }

/-- `fcntl_f(fd, F_SETFL, arg)`. -/
def rawSetfl (s : Fds) (fd : Fd) (arg : BitVec 32) : Fds :=
  s.withSocket fd fun k => { k with flags := setfl k.flags arg }

/-- `ioctl_f(fd, FIONBIO, &on)`. -/
def rawFionbio (s : Fds) (fd : Fd) (on : Bool) : Fds :=
  s.withSocket fd fun k => { k with flags := fionbio k.flags on }

/-- The user asks for `O_NONBLOCK`, or for it to be taken away. -/
def ask (s : Fds) (fd : Fd) (on : Bool) : Fds :=
  s.withSocket fd fun k => { k with asked := on }

/-- The constructor of `FdCtx`, and what it does to the kernel's flags. There is no context of the number
yet, so its `fcntl` calls reach the kernel as they are. -/
def createFdCtx (s : Fds) (fd : Fd) : Fds × FdCtx :=
  match s.sockets fd with
  | some k =>
    (if isNonblock k.flags then s else s.rawSetfl fd (k.flags ||| oNonblock),
      ⟨true, false, false, -1, -1, [k.id]⟩)
  | none => (s, ⟨false, true, false, -1, -1, []⟩)

/-- `get_fdctx(fd, true)`. -/
def getFdctx (s : Fds) (fd : Fd) : Fds :=
  match s.fdCtxs fd with
  | some _ => s
  | none =>
    let (s, ctx) := s.createFdCtx fd
    s.withCtx fd (some ctx)

/-- The kernel opens a socket under a number. -/
def opened (s : Fds) (fd : Fd) (nonblock : Bool) : Fds :=
  { s with
    sockets := Function.update s.sockets fd (some ⟨s.next, if nonblock then oNonblock else 0, nonblock⟩)
    next := s.next + 1 }

/-- The context `fcntl` and `ioctl` heed. -/
def managing (s : Fds) (fd : Fd) : Option FdCtx := (s.fdCtxs fd).filter FdCtx.manages

/-- `fcntl(fd, F_GETFL)`; `none` for a closed number. -/
def getfl (s : Fds) (fd : Fd) : Option (BitVec 32) :=
  (s.sockets fd).map fun k =>
    match s.managing fd with
    | none => k.flags
    | some ctx => if ctx.userNonblock then k.flags ||| oNonblock else k.flags &&& ~~~oNonblock

end Fds

/-- The calls, with whether the calling thread has hooks enabled where that matters. -/
inductive FdCall where
  /-- `socket`, with or without `SOCK_NONBLOCK`, and the number it returns. -/
  | socket (hook nonblock : Bool) (fd : Fd)
  /-- An `accept` that returns a number. -/
  | accept (fd : Fd)
  | setfl (fd : Fd) (flags : BitVec 32)
  | fionbio (fd : Fd) (on : Bool)
  /-- `setsockopt` of `SO_RCVTIMEO` or `SO_SNDTIMEO`. -/
  | setsockopt (hook : Bool) (fd : Fd) (type : TimeoutType) (timeout : UInt64)
  | close (hook : Bool) (fd : Fd)
  deriving DecidableEq, Repr

namespace Fds

/-- A call; `none` when the kernel cannot give out the number. -/
def exec (s : Fds) : FdCall → Option Fds
  | .socket hook nonblock fd =>
    if (s.sockets fd).isSome then none
    else
      let s := s.opened fd nonblock
      some (if hook then s.getFdctx fd else s)
  -- the context is made with hooks or without
  | .accept fd =>
    if (s.sockets fd).isSome then none else some ((s.opened fd false).getFdctx fd)
  | .setfl fd flags =>
    let asked := s.ask fd (isNonblock flags)
    match s.managing fd with
    | none => some (asked.rawSetfl fd flags)
    | some ctx => some ((asked.withCtx fd (some (ctx.setUserNonblock (isNonblock flags) (s.here fd)))).rawSetfl fd
        (flags ||| oNonblock))
  | .fionbio fd on =>
    let asked := s.ask fd on
    match s.managing fd with
    | none => some (asked.rawFionbio fd on)
    | some ctx => some ((asked.withCtx fd (some (ctx.setUserNonblock on (s.here fd)))).rawFionbio fd on)
  | .setsockopt hook fd type timeout =>
    match s.fdCtxs fd with
    | some ctx => some (if hook then s.withCtx fd (some (ctx.setTimeout type timeout (s.here fd))) else s)
    | none => some s
  | .close hook fd =>
    let s := if hook then s.withCtx fd none else s
    some { s with sockets := Function.update s.sockets fd none }

def Step (s : Fds) (c : FdCall) (s' : Fds) : Prop := s.exec c = some s'

/-- Every open socket with a context is non-blocking in the kernel, its context was set on this socket
alone, and `F_GETFL` reports what the user asked for. -/
def Managed (s : Fds) : Prop :=
  ∀ fd k, s.sockets fd = some k →
    (∀ ctx, s.fdCtxs fd = some ctx → isNonblock k.flags = true ∧ ∀ id ∈ ctx.setOn, id = k.id) ∧
    ∃ flags, s.getfl fd = some flags ∧ isNonblock flags = k.asked

/-- Sockets stay managed in the runs whose calls meet `cond`. -/
def StaysManaged (cond : Fds → FdCall → Prop) : Prop :=
  ∀ (calls : List FdCall) (s : Fds), Run (Guarded Step cond) init calls s → s.Managed

/-- The calls that keep kernel and context together: no `SOCK_NONBLOCK` on a thread with hooks, no `FIONBIO`
off on a number with a context, and no close of such a number on a thread without hooks. -/
def Safe (s : Fds) : FdCall → Prop
  | .socket hook nonblock _ => hook = true → nonblock = false
  | .fionbio fd on => on = false → s.fdCtxs fd = none
  | .close hook fd => hook = false → s.fdCtxs fd = none
  | .accept _ | .setfl .. | .setsockopt .. => True

/-! ## One number -/

/-- What is kept of the socket and the context of a number: a closed number has no context. -/
def SlotSound : Option OpenSocket → Option FdCtx → Prop
  | none, ctx => ctx = none
  | some k, none => isNonblock k.flags = k.asked
  | some k, some ctx => ctx.manages = true ∧ isNonblock k.flags = true ∧ (∀ id ∈ ctx.setOn, id = k.id) ∧
      ctx.userNonblock = k.asked

def Sound (s : Fds) : Prop := ∀ fd, SlotSound (s.sockets fd) (s.fdCtxs fd)

/-- Nothing but one number has changed. -/
structure Only (fd : Fd) (s s' : Fds) : Prop where
  sockets : ∀ fd', fd' ≠ fd → s'.sockets fd' = s.sockets fd'
  fdCtxs : ∀ fd', fd' ≠ fd → s'.fdCtxs fd' = s.fdCtxs fd'

variable {s s' s'' : Fds} {fd : Fd}

theorem Only.refl (s : Fds) (fd : Fd) : Only fd s s := ⟨fun _ _ => rfl, fun _ _ => rfl⟩

theorem Only.trans (first : Only fd s s') (second : Only fd s' s'') : Only fd s s'' where
  sockets fd' ne := (second.sockets fd' ne).trans (first.sockets fd' ne)
  fdCtxs fd' ne := (second.fdCtxs fd' ne).trans (first.fdCtxs fd' ne)

theorem Only.withSocket (f : OpenSocket → OpenSocket) (only : Only fd s s') : Only fd s (s'.withSocket fd f) :=
  only.trans ⟨fun _ ne => Function.update_of_ne ne .., fun _ _ => rfl⟩

theorem Only.withCtx (ctx : Option FdCtx) (only : Only fd s s') : Only fd s (s'.withCtx fd ctx) :=
  only.trans ⟨fun _ _ => rfl, fun _ ne => Function.update_of_ne ne ..⟩

theorem Only.opened (s : Fds) (fd : Fd) (nonblock : Bool) : Only fd s (s.opened fd nonblock) :=
  ⟨fun _ ne => Function.update_of_ne ne .., fun _ _ => rfl⟩

theorem Sound.of_only (h : s.Sound) (only : Only fd s s') (new : SlotSound (s'.sockets fd) (s'.fdCtxs fd)) :
    s'.Sound := by
  intro fd'
  by_cases same : fd' = fd
  · rw [same]
    exact new
  · rw [only.sockets fd' same, only.fdCtxs fd' same]
    exact h fd'

@[simp] theorem withSocket_sockets (s : Fds) (fd : Fd) (f : OpenSocket → OpenSocket) :
    (s.withSocket fd f).sockets fd = (s.sockets fd).map f :=
  Function.update_self ..

@[simp] theorem withSocket_fdCtxs (s : Fds) (fd : Fd) (f : OpenSocket → OpenSocket) :
    (s.withSocket fd f).fdCtxs = s.fdCtxs :=
  rfl

@[simp] theorem withCtx_sockets (s : Fds) (fd : Fd) (ctx : Option FdCtx) :
    (s.withCtx fd ctx).sockets = s.sockets :=
  rfl

@[simp] theorem withCtx_fdCtxs (s : Fds) (fd : Fd) (ctx : Option FdCtx) :
    (s.withCtx fd ctx).fdCtxs fd = ctx :=
  Function.update_self ..

/-! ## Calls -/

theorem Sound.fdCtxs_none (h : s.Sound) (closed : s.sockets fd = none) : s.fdCtxs fd = none := by
  have slot := h fd
  rw [closed] at slot
  exact slot

/-- A new socket gets a context of its own, since its number has none. -/
theorem Sound.getFdctx (h : s.Sound) (closed : s.sockets fd = none) :
    ((s.opened fd false).getFdctx fd).Sound := by
  have absent : (s.opened fd false).fdCtxs fd = none := h.fdCtxs_none closed
  have sock : (s.opened fd false).sockets fd = some ⟨s.next, 0, false⟩ := Function.update_self ..
  have run : (s.opened fd false).getFdctx fd =
      ((s.opened fd false).rawSetfl fd (0 ||| oNonblock)).withCtx fd
        (some ⟨true, false, false, -1, -1, [s.next]⟩) := by
    have blocking : ¬ isNonblock 0 = true := by decide
    unfold Fds.getFdctx createFdCtx
    rw [absent, sock]
    dsimp only
    rw [if_neg blocking]
  rw [run]
  refine h.of_only (((Only.opened s fd false).withSocket _).withCtx _) ?_
  rw [withCtx_sockets, withCtx_fdCtxs, rawSetfl, withSocket_sockets, sock]
  refine ⟨rfl, ?_, fun id mem => List.mem_singleton.mp mem, rfl⟩
  exact (isNonblock_setfl ..).trans (isNonblock_or 0)

theorem Sound.opened (h : s.Sound) (closed : s.sockets fd = none) (nonblock : Bool) :
    (s.opened fd nonblock).Sound := by
  refine h.of_only (Only.opened s fd nonblock) ?_
  have absent : (s.opened fd nonblock).fdCtxs fd = none := h.fdCtxs_none closed
  have sock : (s.opened fd nonblock).sockets fd =
      some ⟨s.next, if nonblock then oNonblock else 0, nonblock⟩ := Function.update_self ..
  rw [absent, sock]
  cases nonblock with
  | true => exact (by decide : isNonblock oNonblock = true)
  | false => exact (by decide : isNonblock 0 = false)

/-- In a sound state a context is heeded. -/
theorem Sound.managing (h : s.Sound) (fd : Fd) : s.managing fd = s.fdCtxs fd := by
  unfold Fds.managing
  cases found : s.fdCtxs fd with
  | none => rfl
  | some ctx =>
    have slot := h fd
    rw [found] at slot
    cases sock : s.sockets fd with
    | none =>
      rw [sock] at slot
      cases slot
    | some k =>
      rw [sock] at slot
      exact if_pos slot.1

/-- A request on a number without a context: the kernel's flags become what was asked. -/
theorem Sound.request (h : s.Sound) (found : s.fdCtxs fd = none) {on : Bool} {raw : BitVec 32 → BitVec 32}
    (plain : ∀ flags, isNonblock (raw flags) = on) :
    ((s.ask fd on).withSocket fd fun k => { k with flags := raw k.flags }).Sound := by
  refine h.of_only (((Only.refl s fd).withSocket _).withSocket _) ?_
  rw [withSocket_sockets, withSocket_fdCtxs, ask, withSocket_sockets, withSocket_fdCtxs, found]
  cases s.sockets fd with
  | none => rfl
  | some k => exact plain k.flags

/-- What is set on a context is set on the socket that is open. -/
theorem Sound.noted (h : s.Sound) {ctx : FdCtx} (found : s.fdCtxs fd = some ctx) {k : OpenSocket}
    (sock : s.sockets fd = some k) : ∀ id ∈ s.here fd ++ ctx.setOn, id = k.id := by
  have slot := h fd
  rw [found, sock] at slot
  intro id mem
  rcases List.mem_append.mp mem with now | before
  · rw [here, sock] at now
    exact List.mem_singleton.mp now
  · exact slot.2.2.1 id before

theorem Sound.exists_socket (h : s.Sound) {ctx : FdCtx} (found : s.fdCtxs fd = some ctx) :
    ∃ k, s.sockets fd = some k := by
  cases sock : s.sockets fd with
  | none =>
    rw [h.fdCtxs_none sock] at found
    cases found
  | some k => exact ⟨k, rfl⟩

/-- A request on a number with a context: the context notes it and the kernel stays non-blocking. -/
theorem Sound.requestManaged (h : s.Sound) {ctx : FdCtx} (found : s.fdCtxs fd = some ctx) {on : Bool}
    {raw : BitVec 32 → BitVec 32} (managed : ∀ flags, isNonblock (raw flags) = true) :
    (((s.ask fd on).withCtx fd (some (ctx.setUserNonblock on (s.here fd)))).withSocket fd
      fun k => { k with flags := raw k.flags }).Sound := by
  obtain ⟨k, sock⟩ := h.exists_socket found
  have slot := h fd
  have noted := h.noted found sock
  rw [found, sock] at slot
  refine h.of_only ((((Only.refl s fd).withSocket _).withCtx _).withSocket _) ?_
  rw [withSocket_sockets, withSocket_fdCtxs, withCtx_sockets, withCtx_fdCtxs, ask, withSocket_sockets, sock]
  exact ⟨slot.1, managed k.flags, noted, rfl⟩

theorem Sound.setTimeout (h : s.Sound) {ctx : FdCtx} (found : s.fdCtxs fd = some ctx) (type : TimeoutType)
    (timeout : UInt64) : (s.withCtx fd (some (ctx.setTimeout type timeout (s.here fd)))).Sound := by
  obtain ⟨k, sock⟩ := h.exists_socket found
  have slot := h fd
  have noted := h.noted found sock
  rw [found, sock] at slot
  refine h.of_only ((Only.refl s fd).withCtx _) ?_
  rw [withCtx_sockets, withCtx_fdCtxs, sock]
  cases type with
  | recv => exact ⟨slot.1, slot.2.1, noted, slot.2.2.2⟩
  | send => exact ⟨slot.1, slot.2.1, noted, slot.2.2.2⟩

theorem Sound.close (h : s.Sound) {hook : Bool} (safe : hook = false → s.fdCtxs fd = none) :
    Sound { if hook then s.withCtx fd none else s with
      sockets := Function.update (if hook then s.withCtx fd none else s).sockets fd none } := by
  have only : ∀ {s' : Fds}, Only fd s s' →
      Only fd s { s' with sockets := Function.update s'.sockets fd none } := fun only =>
    only.trans ⟨fun _ ne => Function.update_of_ne ne .., fun _ _ => rfl⟩
  cases hook with
  | true =>
    refine h.of_only (only ((Only.refl s fd).withCtx none)) ?_
    dsimp only
    rw [Function.update_self]
    exact withCtx_fdCtxs s fd none
  | false =>
    refine h.of_only (only (Only.refl s fd)) ?_
    dsimp only
    rw [Function.update_self]
    exact safe rfl

theorem Sound.step {c : FdCall} (h : s.Sound) (step : Step s c s') (safe : s.Safe c) : s'.Sound := by
  unfold Step exec at step
  cases c with
  | socket hook nonblock fd =>
    dsimp only at step
    split at step
    · cases step
    · rename_i unused
      have closed : s.sockets fd = none := Option.not_isSome_iff_eq_none.mp unused
      obtain rfl := Option.some.inj step
      cases hook with
      | true =>
        rw [safe rfl]
        exact h.getFdctx closed
      | false => exact h.opened closed nonblock
  | accept fd =>
    dsimp only at step
    split at step
    · cases step
    · rename_i unused
      obtain rfl := Option.some.inj step
      exact h.getFdctx (Option.not_isSome_iff_eq_none.mp unused)
  | setfl fd flags =>
    dsimp only at step
    rw [h.managing] at step
    cases found : s.fdCtxs fd with
    | none =>
      rw [found] at step
      obtain rfl := Option.some.inj step
      exact h.request found fun k => isNonblock_setfl k flags
    | some ctx =>
      rw [found] at step
      obtain rfl := Option.some.inj step
      exact h.requestManaged found fun k => (isNonblock_setfl k _).trans (isNonblock_or flags)
  | fionbio fd on =>
    dsimp only at step
    rw [h.managing] at step
    cases found : s.fdCtxs fd with
    | none =>
      rw [found] at step
      obtain rfl := Option.some.inj step
      exact h.request found fun k => isNonblock_fionbio k on
    | some ctx =>
      rw [found] at step
      obtain rfl := Option.some.inj step
      have isOn : on = true := by
        by_contra off
        rw [safe (Bool.eq_false_iff.mpr off)] at found
        cases found
      exact h.requestManaged found fun k => (isNonblock_fionbio k on).trans isOn
  | setsockopt hook fd type timeout =>
    dsimp only at step
    split at step
    · rename_i ctx found
      obtain rfl := Option.some.inj step
      cases hook with
      | true => exact h.setTimeout found type timeout
      | false => exact h
    · obtain rfl := Option.some.inj step
      exact h
  | close hook fd =>
    obtain rfl := Option.some.inj step
    exact h.close safe

theorem Sound.managed (h : s.Sound) : s.Managed := by
  intro fd k sock
  have slot := h fd
  cases found : s.fdCtxs fd with
  | none =>
    rw [found, sock] at slot
    refine ⟨fun ctx present => ?_, k.flags, ?_, slot⟩
    · cases present
    · rw [getfl, sock, h.managing, found]
      rfl
  | some ctx =>
    rw [found, sock] at slot
    obtain ⟨-, nonblock, noted, asked⟩ := slot
    refine ⟨fun ctx' present => ?_, if ctx.userNonblock then k.flags ||| oNonblock else k.flags &&& ~~~oNonblock,
      ?_, ?_⟩
    · obtain rfl := Option.some.inj present
      exact ⟨nonblock, noted⟩
    · rw [getfl, sock, h.managing, found]
      rfl
    · rw [← asked]
      cases ctx.userNonblock with
      | true => exact isNonblock_or k.flags
      | false => exact isNonblock_andNot k.flags

theorem sound_init : init.Sound := fun _ => rfl

/-- In every run of safe calls the sockets stay managed. -/
theorem staysManaged_safe {calls : List FdCall} (run : Run (Guarded Step Safe) init calls s) : s.Managed := by
  have h : s.Sound := run.invariant (I := Sound) (fun _ _ _ h step => h.step step.1 step.2) sound_init
  exact h.managed

/-- A socket of a thread with hooks, and a connection accepted. -/
theorem staysManaged_safe_accept : ∃ s : Fds, (s.sockets 3).isSome = true ∧ (s.sockets 4).isSome = true ∧
    s.Managed := by
  have run : Run (Guarded Step Safe) init [.socket true false 3, .accept 4] _ :=
    .cons ⟨rfl, fun _ => rfl⟩ (.single ⟨rfl, trivial⟩)
  exact ⟨_, rfl, rfl, staysManaged_safe run⟩

/-- `ioctl` turns `FIONBIO` off on a socket with a context: the kernel's socket blocks. -/
theorem not_staysManaged : ¬ StaysManaged fun _ _ => True := by
  intro all
  have managed := all [.socket true false 3, .fionbio 3 false] _
    (.cons ⟨rfl, trivial⟩ (.single ⟨rfl, trivial⟩)) 3 ⟨0, 0, false⟩ (by decide)
  have blocks := (managed.1 ⟨true, false, false, -1, -1, [0, 0]⟩ (by decide)).1
  exact absurd blocks (by decide)

end Fds

end Sylar.Hook
