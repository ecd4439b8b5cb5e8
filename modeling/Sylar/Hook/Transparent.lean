import Sylar.Hook.Fds

/-!
# Threads without hooks

Every wrapper of `hook.cpp`, as a thread calls it that may have hooks disabled. Most test the flag, or
leave that to `hook_iofunc`. `accept` makes a context for the number it returns whether or not there are
hooks, and `fcntl` and `ioctl` do not test the flag at all: `F_SETFL` adds `O_NONBLOCK` and stores what
the user asked for, `F_GETFL` reports what was stored, and `FIONBIO` stores. For a command it does not
know, `fcntl` drops the argument; what the system function then reads as its argument is undefined. And
`FIONBIO` reads what its argument points to before it asks whether that is any of its business, so a null
pointer, which the system function refuses, ends the process.

`transparent_iff` says for each call on a thread without hooks when none of this shows. The system
functions are those of a `Kernel`, which is any kernel with the few documented properties of `fcntl`
that the comparison needs. What a wrapper does with hooks enabled is a parameter; no result looks at it.
-/

namespace Sylar.Hook

/-! ## Calls -/

/-- The functions that transfer data. -/
inductive Transfer where
  | read | readv | recv | recvfrom | recvmsg
  | write | writev | send | sendto | sendmsg
  deriving DecidableEq, Repr

/-- The commands of `fcntl` that are passed on with their argument. -/
inductive ArgCmd where
  | dupfd | dupfdCloexec | setfd | setown | setsig | setlease | notify | setpipeSz
  | setlk | setlkw | getlk | getownEx | setownEx
  deriving DecidableEq, Repr

/-- The commands of `fcntl` that take no argument. -/
inductive PlainCmd where
  | getfd | getown | getsig | getlease | getpipeSz
  deriving DecidableEq, Repr

/-- The commands of `fcntl`, with the arguments they take. -/
inductive FcntlCmd (A : Type) where
  | setfl (arg : BitVec 32)
  | getfl
  | withArg (cmd : ArgCmd) (arg : A)
  | plain (cmd : PlainCmd)
  /-- A command the wrapper does not know, such as `F_OFD_SETLK` or `F_GET_SEALS`. -/
  | other (cmd : Int) (arg : Option A)

/-- The requests of `ioctl`. The argument of `FIONBIO` is a pointer: what it points to counts as zero or
not, and is `none` where nothing can be read there. -/
inductive IoctlRequest (A : Type) where
  | fionbio (on : Option Bool)
  | other (request : Nat) (arg : A)

/-- The hooked functions. Arguments that no wrapper looks at without hooks are of a type `A`. -/
inductive SysCall (A : Type) where
  | sleep (seconds : UInt32)
  | usleep (usec : UInt32)
  | nanosleep (args : A)
  | socket (args : A)
  | connect (fd : Fd) (args : A)
  | accept (fd : Fd) (args : A)
  | transfer (f : Transfer) (fd : Fd) (args : A)
  | close (fd : Fd)
  | fcntl (fd : Fd) (cmd : FcntlCmd A)
  | ioctl (fd : Fd) (request : IoctlRequest A)
  | getsockopt (fd : Fd) (args : A)
  | setsockopt (fd : Fd) (args : A)

/-- The system functions, and what can be seen of their state: the file status flags of each open number.
`fcntl` returns an `int`; `F_SETFL` that fails leaves the flags, and one that does not makes `O_NONBLOCK`
what its argument says; whether it fails does not depend on that bit. -/
structure Kernel (K A : Type) where
  sys : SysCall A → K → Int × K
  flags : K → Fd → Option (BitVec 32)
  /-- `fstat`, and whether the number is a socket. -/
  fstat : K → Fd → Option Bool
  fcntl_int : ∀ fd cmd k, (BitVec.ofInt 32 (sys (.fcntl fd cmd) k).1).toInt = (sys (.fcntl fd cmd) k).1
  setfl_failed : ∀ fd arg k, (sys (.fcntl fd (.setfl arg)) k).1 ≠ 0 →
    flags (sys (.fcntl fd (.setfl arg)) k).2 = flags k
  setfl_done : ∀ fd arg k, (sys (.fcntl fd (.setfl arg)) k).1 = 0 →
    ∃ w, flags (sys (.fcntl fd (.setfl arg)) k).2 fd = some w ∧ isNonblock w = isNonblock arg
  setfl_nonblock : ∀ fd arg k,
    (sys (.fcntl fd (.setfl (arg ||| oNonblock))) k).1 = (sys (.fcntl fd (.setfl arg)) k).1

/-- The state of the system functions and the contexts of the `FdManager`. -/
structure Shared (K : Type) where
  kernel : K
  fdCtxs : Fd → Option FdCtx

namespace Shared

variable {K A : Type}

/-! ## The wrappers -/

/-- A system function, called as it is. -/
def raw (kernel : Kernel K A) (s : Shared K) (c : SysCall A) : Int × Shared K :=
  let (rt, k) := kernel.sys c s.kernel
  (rt, { s with kernel := k })

/-- The constructor of `FdCtx`. Its `fcntl` calls find no context of the number and reach the kernel. -/
def createFdCtx (kernel : Kernel K A) (k : K) (fd : Fd) : FdCtx × K :=
  match kernel.fstat k fd with
  | none => (⟨false, true, false, -1, -1, []⟩, k)
  | some isSocket =>
    let k :=
      if isSocket then
        let (rt, k) := kernel.sys (.fcntl fd .getfl) k
        let flags := BitVec.ofInt 32 rt
        if isNonblock flags then k else (kernel.sys (.fcntl fd (.setfl (flags ||| oNonblock))) k).2
      else k
    (⟨isSocket, false, false, -1, -1, []⟩, k)

/-- `get_fdctx(fd, true)`. -/
def getFdctx (kernel : Kernel K A) (s : Shared K) (fd : Fd) : Shared K :=
  match s.fdCtxs fd with
  | some _ => s
  | none =>
    let (ctx, k) := createFdCtx kernel s.kernel fd
    ⟨k, Function.update s.fdCtxs fd (some ctx)⟩

/-- The context `fcntl` and `ioctl` heed. -/
def managing (s : Shared K) (fd : Fd) : Option FdCtx := (s.fdCtxs fd).filter FdCtx.manages

def setUserNonblock (s : Shared K) (fd : Fd) (ctx : FdCtx) (v : Bool) : Shared K :=
  { s with fdCtxs := Function.update s.fdCtxs fd (some (ctx.setUserNonblock v [])) }

/-- `accept`: the `hook_iofunc` call, and the context of what it returned. -/
def accept (kernel : Kernel K A) (answer : Int × Shared K) : Int × Shared K :=
  let (rt, s) := answer
  if rt = -1 then (rt, s) else (rt, s.getFdctx kernel (BitVec.ofInt 32 rt))

/-- The case `F_SETFL` of `fcntl`. -/
def fcntlSetfl (kernel : Kernel K A) (s : Shared K) (fd : Fd) (arg : BitVec 32) : Int × Shared K :=
  match s.managing fd with
  | none => s.raw kernel (.fcntl fd (.setfl arg))
  | some ctx => (s.setUserNonblock fd ctx (isNonblock arg)).raw kernel (.fcntl fd (.setfl (arg ||| oNonblock)))

/-- The case `F_GETFL` of `fcntl`. -/
def fcntlGetfl (kernel : Kernel K A) (s : Shared K) (fd : Fd) : Int × Shared K :=
  let (rt, s') := s.raw kernel (.fcntl fd .getfl)
  match s.managing fd with
  | none => (rt, s')
  | some ctx =>
    let arg := BitVec.ofInt 32 rt
    ((if ctx.userNonblock then arg ||| oNonblock else arg &&& ~~~oNonblock).toInt, s')

/-- `fcntl`; `none` where the system function is called without the argument that its command takes. -/
def fcntl (kernel : Kernel K A) (s : Shared K) (fd : Fd) : FcntlCmd A → Option (Int × Shared K)
  | .setfl arg => some (s.fcntlSetfl kernel fd arg)
  | .getfl => some (s.fcntlGetfl kernel fd)
  | .withArg cmd arg => some (s.raw kernel (.fcntl fd (.withArg cmd arg)))
  | .plain cmd => some (s.raw kernel (.fcntl fd (.plain cmd)))
  | .other cmd none => some (s.raw kernel (.fcntl fd (.other cmd none)))
  | .other _ (some _) => none

/-- The case `FIONBIO` of `ioctl`, behind `!!*(int*)arg`. -/
def ioctlFionbio (kernel : Kernel K A) (s : Shared K) (fd : Fd) (on : Bool) : Int × Shared K :=
  match s.managing fd with
  | none => s.raw kernel (.ioctl fd (.fionbio (some on)))
  | some ctx => (s.setUserNonblock fd ctx on).raw kernel (.ioctl fd (.fionbio (some on)))

/-- `ioctl`; `none` where it reads through a pointer that cannot be read. -/
def ioctl (kernel : Kernel K A) (s : Shared K) (fd : Fd) : IoctlRequest A → Option (Int × Shared K)
  | .fionbio on => on.map (s.ioctlFionbio kernel fd)
  | .other request arg => some (s.raw kernel (.ioctl fd (.other request arg)))

/-- A call of a hooked function on a thread with hooks enabled or not; `none` where it is undefined.
`hooked` is what is done where the flag is tested and set. -/
def call (kernel : Kernel K A) (hookEnable : Bool) (hooked : SysCall A → Shared K → Int × Shared K)
    (s : Shared K) (c : SysCall A) : Option (Int × Shared K) :=
  match c with
  | .accept _ _ => some (accept kernel (if hookEnable then hooked c s else s.raw kernel c))
  | .fcntl fd cmd => s.fcntl kernel fd cmd
  | .ioctl fd request => s.ioctl kernel fd request
  | _ => some (if hookEnable then hooked c s else s.raw kernel c)

/-! ## Transparency -/

/-- An answer is that of the system function: the same result and the same flags, and no context touched. -/
structure Same (kernel : Kernel K A) (s : Shared K) (c : SysCall A) (answer : Int × Shared K) : Prop where
  rt : answer.1 = (kernel.sys c s.kernel).1
  flags : kernel.flags answer.2.kernel = kernel.flags (kernel.sys c s.kernel).2
  fdCtxs : answer.2.fdCtxs = s.fdCtxs

/-- A call on a thread without hooks is as good as one of the system function. -/
def Transparent (kernel : Kernel K A) (hooked : SysCall A → Shared K → Int × Shared K) (s : Shared K)
    (c : SysCall A) : Prop :=
  ∃ answer, s.call kernel false hooked c = some answer ∧ Same kernel s c answer

/-- When no part of the wrapper shows. -/
def Unnoticed (kernel : Kernel K A) (s : Shared K) : SysCall A → Prop
  -- nothing is accepted, or its number has a context already
  | .accept fd args =>
    let rt := (kernel.sys (.accept fd args) s.kernel).1
    rt = -1 ∨ (s.fdCtxs (BitVec.ofInt 32 rt)).isSome = true
  -- no context, or one that agrees with a call that sets the bit or fails
  | .fcntl fd (.setfl arg) => ∀ ctx, s.managing fd = some ctx →
    ctx.userNonblock = isNonblock arg ∧
      (isNonblock arg = true ∨ (kernel.sys (.fcntl fd (.setfl arg)) s.kernel).1 ≠ 0)
  -- no context, or one that agrees with the kernel
  | .fcntl fd .getfl => ∀ ctx, s.managing fd = some ctx →
    ctx.userNonblock = isNonblock (BitVec.ofInt 32 (kernel.sys (.fcntl fd .getfl) s.kernel).1)
  -- the command takes no argument
  | .fcntl _ (.other _ arg) => arg = none
  -- the argument can be read, and there is no context, or one that agrees
  | .ioctl fd (.fionbio arg) => ∃ on, arg = some on ∧ ∀ ctx, s.managing fd = some ctx → ctx.userNonblock = on
  | _ => True

variable {kernel : Kernel K A} {hooked : SysCall A → Shared K → Int × Shared K} {s : Shared K}

theorem same_raw (kernel : Kernel K A) (s : Shared K) (c : SysCall A) : Same kernel s c (s.raw kernel c) :=
  ⟨rfl, rfl, rfl⟩

theorem transparent_of_eq {c : SysCall A} {answer : Int × Shared K}
    (eq : s.call kernel false hooked c = some answer) :
    s.Transparent kernel hooked c ↔ Same kernel s c answer := by
  refine ⟨fun ⟨answer', eq', same⟩ => ?_, fun same => ⟨answer, eq, same⟩⟩
  obtain rfl := Option.some.inj (eq.symm.trans eq')
  exact same

/-- A context that is written back as it was. -/
theorem setUserNonblock_fdCtxs {fd : Fd} {ctx : FdCtx} (found : s.managing fd = some ctx) (v : Bool) :
    (s.setUserNonblock fd ctx v).fdCtxs = s.fdCtxs ↔ ctx.userNonblock = v := by
  have there : s.fdCtxs fd = some ctx := (Option.filter_eq_some_iff.mp found).1
  constructor
  · intro same
    have here := congrFun same fd
    rw [there] at here
    have written : (s.setUserNonblock fd ctx v).fdCtxs fd = some (ctx.setUserNonblock v []) :=
      Function.update_self ..
    rw [written] at here
    exact (congrArg FdCtx.userNonblock (Option.some.inj here)).symm
  · rintro rfl
    funext fd'
    by_cases here : fd' = fd
    · rw [here, there]
      exact Function.update_self ..
    · exact Function.update_of_ne here ..

/-! ## The wrappers that show -/

theorem same_accept_iff (fd : Fd) (args : A) :
    Same kernel s (.accept fd args) (accept kernel (s.raw kernel (.accept fd args))) ↔
      s.Unnoticed kernel (.accept fd args) := by
  have answer : accept kernel (s.raw kernel (.accept fd args)) =
      if (kernel.sys (.accept fd args) s.kernel).1 = -1 then s.raw kernel (.accept fd args)
      else ((kernel.sys (.accept fd args) s.kernel).1,
        (s.raw kernel (.accept fd args)).2.getFdctx kernel
          (BitVec.ofInt 32 (kernel.sys (.accept fd args) s.kernel).1)) := rfl
  rw [answer, Unnoticed]
  by_cases refused : (kernel.sys (.accept fd args) s.kernel).1 = -1
  · rw [if_pos refused]
    exact iff_of_true (same_raw ..) (.inl refused)
  · rw [if_neg refused, or_iff_right refused]
    generalize BitVec.ofInt 32 (kernel.sys (.accept fd args) s.kernel).1 = made
    unfold getFdctx
    have ctxs : (s.raw kernel (.accept fd args)).2.fdCtxs = s.fdCtxs := rfl
    rw [ctxs]
    cases found : s.fdCtxs made with
    | some ctx => exact iff_of_true (same_raw ..) rfl
    | none =>
      refine iff_of_false (fun same => ?_) (by simp)
      have here := congrFun same.fdCtxs made
      rw [found] at here
      exact absurd ((Function.update_self ..).symm.trans here) (Option.some_ne_none _)

/-- Setting a bit that is set. -/
theorem or_nonblock_eq_iff (x : BitVec 32) : x ||| oNonblock = x ↔ isNonblock x = true := by
  constructor
  · intro same
    rw [← same]
    exact isNonblock_or x
  · intro on
    rw [isNonblock_eq] at on
    refine BitVec.eq_of_getLsbD_eq fun i lt => ?_
    have bit : oNonblock = BitVec.twoPow 32 11 := rfl
    rw [BitVec.getLsbD_or, bit, BitVec.getLsbD_twoPow]
    by_cases eleven : 11 = i
    · rw [← eleven, on]
      rfl
    · simp [eleven]

/-- Taking away a bit that is not set. -/
theorem andNot_nonblock_eq_iff (x : BitVec 32) : x &&& ~~~oNonblock = x ↔ isNonblock x = false := by
  constructor
  · intro same
    rw [← same]
    exact isNonblock_andNot x
  · intro off
    rw [isNonblock_eq] at off
    refine BitVec.eq_of_getLsbD_eq fun i lt => ?_
    have bit : oNonblock = BitVec.twoPow 32 11 := rfl
    rw [BitVec.getLsbD_and, BitVec.getLsbD_not, bit, BitVec.getLsbD_twoPow]
    by_cases eleven : 11 = i
    · rw [← eleven, off]
      rfl
    · simp [eleven, lt]

theorem same_setfl_iff (fd : Fd) (arg : BitVec 32) :
    Same kernel s (.fcntl fd (.setfl arg)) (s.fcntlSetfl kernel fd arg) ↔
      s.Unnoticed kernel (.fcntl fd (.setfl arg)) := by
  unfold fcntlSetfl
  cases found : s.managing fd with
  | none => exact iff_of_true (same_raw ..) fun ctx some => by rw [found] at some; cases some
  | some ctx =>
    have written := setUserNonblock_fdCtxs found (isNonblock arg)
    constructor
    · intro same ctx' some
      obtain rfl := Option.some.inj (found.symm.trans some)
      refine ⟨written.mp same.fdCtxs, Classical.or_iff_not_imp_right.mpr fun done => ?_⟩
      -- both calls succeed, and only one of them is asked to set the bit
      have done : (kernel.sys (.fcntl fd (.setfl arg)) s.kernel).1 = 0 := not_not.mp done
      obtain ⟨w, flags, bit⟩ := kernel.setfl_done fd arg s.kernel done
      obtain ⟨w', flags', bit'⟩ := kernel.setfl_done fd (arg ||| oNonblock) s.kernel
        ((kernel.setfl_nonblock fd arg s.kernel).trans done)
      have both : w' = w := Option.some.inj (flags'.symm.trans ((congrFun same.flags fd).trans flags))
      rw [← bit, ← both, bit', isNonblock_or]
    · intro unnoticed
      obtain ⟨agrees, on | failed⟩ := unnoticed ctx found
      · dsimp only
        rw [(or_nonblock_eq_iff arg).mpr on]
        exact ⟨rfl, rfl, written.mpr agrees⟩
      · refine ⟨kernel.setfl_nonblock fd arg s.kernel, ?_, written.mpr agrees⟩
        rw [kernel.setfl_failed fd arg s.kernel failed]
        exact kernel.setfl_failed fd (arg ||| oNonblock) s.kernel
          ((kernel.setfl_nonblock fd arg s.kernel).symm ▸ failed)

/-- A result of `F_GETFL` with the stored bit put in. -/
theorem reported_eq_iff {value : Int} (int : (BitVec.ofInt 32 value).toInt = value) (on : Bool) :
    (if on then BitVec.ofInt 32 value ||| oNonblock else BitVec.ofInt 32 value &&& ~~~oNonblock).toInt = value ↔
      on = isNonblock (BitVec.ofInt 32 value) := by
  nth_rewrite 3 [← int]
  rw [BitVec.toInt_inj]
  cases on with
  | true => exact (or_nonblock_eq_iff _).trans eq_comm
  | false => exact (andNot_nonblock_eq_iff _).trans eq_comm

theorem same_getfl_iff (fd : Fd) :
    Same kernel s (.fcntl fd .getfl) (s.fcntlGetfl kernel fd) ↔ s.Unnoticed kernel (.fcntl fd .getfl) := by
  unfold fcntlGetfl
  cases found : s.managing fd with
  | none => exact iff_of_true (same_raw ..) fun ctx some => by rw [found] at some; cases some
  | some ctx =>
    have reported := reported_eq_iff (kernel.fcntl_int fd .getfl s.kernel) ctx.userNonblock
    constructor
    · intro same ctx' some
      obtain rfl := Option.some.inj (found.symm.trans some)
      exact reported.mp same.rt
    · intro unnoticed
      exact ⟨reported.mpr (unnoticed ctx found), rfl, rfl⟩

theorem same_fionbio_iff (kernel : Kernel K A) (s : Shared K) (fd : Fd) (on : Bool) :
    Same kernel s (.ioctl fd (.fionbio (some on))) (s.ioctlFionbio kernel fd on) ↔
      ∀ ctx, s.managing fd = some ctx → ctx.userNonblock = on := by
  unfold ioctlFionbio
  cases found : s.managing fd with
  | none =>
    refine iff_of_true (same_raw ..) ?_
    intro ctx there
    cases there
  | some ctx =>
    have written := setUserNonblock_fdCtxs found on
    constructor
    · intro same ctx' there
      obtain rfl := Option.some.inj there
      exact written.mp same.fdCtxs
    · intro agrees
      exact ⟨rfl, rfl, written.mpr (agrees ctx rfl)⟩

/-! ## Every call -/

/-- For every kernel, every content of the `FdManager` and every call: on a thread without hooks it is
transparent if and only if nothing of its wrapper shows. -/
theorem transparent_iff (kernel : Kernel K A) (hooked : SysCall A → Shared K → Int × Shared K) (s : Shared K)
    (c : SysCall A) : s.Transparent kernel hooked c ↔ s.Unnoticed kernel c := by
  cases c with
  | accept fd args => exact (transparent_of_eq rfl).trans (same_accept_iff fd args)
  | fcntl fd cmd =>
    cases cmd with
    | setfl arg => exact (transparent_of_eq rfl).trans (same_setfl_iff fd arg)
    | getfl => exact (transparent_of_eq rfl).trans (same_getfl_iff fd)
    | withArg cmd arg => exact iff_of_true ⟨_, rfl, same_raw ..⟩ trivial
    | plain cmd => exact iff_of_true ⟨_, rfl, same_raw ..⟩ trivial
    | other cmd arg =>
      cases arg with
      | none => exact iff_of_true ⟨_, rfl, same_raw ..⟩ rfl
      | some arg =>
        refine iff_of_false ?_ (Option.some_ne_none arg)
        rintro ⟨answer, undefined, -⟩
        cases undefined
  | ioctl fd request =>
    cases request with
    | fionbio arg =>
      cases arg with
      | none =>
        refine iff_of_false ?_ ?_
        · rintro ⟨answer, crashed, -⟩
          cases crashed
        · rintro ⟨on, read, -⟩
          cases read
      | some on =>
        refine (transparent_of_eq rfl).trans ((same_fionbio_iff kernel s fd on).trans ?_)
        refine ⟨fun agrees => ⟨on, rfl, agrees⟩, ?_⟩
        rintro ⟨on', read, agrees⟩
        obtain rfl := Option.some.inj read
        exact agrees
    | other request arg => exact iff_of_true ⟨_, rfl, same_raw ..⟩ trivial
  | sleep seconds => exact iff_of_true ⟨_, rfl, same_raw ..⟩ trivial
  | usleep usec => exact iff_of_true ⟨_, rfl, same_raw ..⟩ trivial
  | nanosleep args => exact iff_of_true ⟨_, rfl, same_raw ..⟩ trivial
  | socket args => exact iff_of_true ⟨_, rfl, same_raw ..⟩ trivial
  | connect fd args => exact iff_of_true ⟨_, rfl, same_raw ..⟩ trivial
  | transfer f fd args => exact iff_of_true ⟨_, rfl, same_raw ..⟩ trivial
  | close fd => exact iff_of_true ⟨_, rfl, same_raw ..⟩ trivial
  | getsockopt fd args => exact iff_of_true ⟨_, rfl, same_raw ..⟩ trivial
  | setsockopt fd args => exact iff_of_true ⟨_, rfl, same_raw ..⟩ trivial

/-- A kernel whose open numbers are sockets, and where `accept` returns 7. -/
def sockets : Kernel (Fd → Option (BitVec 32)) Unit where
  sys c k :=
    match c with
    | .accept _ _ => (7, Function.update k 7 (some 0))
    | .fcntl fd (.setfl arg) =>
      match k fd with
      | some w => (0, Function.update k fd (some (setfl w arg)))
      | none => (-1, k)
    | .fcntl fd .getfl =>
      match k fd with
      | some w => (w.toInt, k)
      | none => (-1, k)
    | _ => (0, k)
  flags k := k
  fstat k fd := (k fd).map fun _ => true
  fcntl_int fd cmd k := by
    cases cmd with
    | setfl arg =>
      dsimp only
      cases k fd <;> rfl
    | getfl =>
      dsimp only
      cases k fd with
      | none => rfl
      | some w => exact congrArg BitVec.toInt BitVec.ofInt_toInt
    | withArg | plain | other => rfl
  setfl_failed fd arg k failed := by
    dsimp only at failed ⊢
    cases found : k fd with
    | none => rfl
    | some w =>
      rw [found] at failed
      exact absurd rfl failed
  setfl_done fd arg k done := by
    dsimp only at done ⊢
    cases found : k fd with
    | none =>
      rw [found] at done
      have minusOne : (-1 : Int) = 0 := done
      cases minusOne
    | some w => exact ⟨setfl w arg, Function.update_self .., isNonblock_setfl w arg⟩
  setfl_nonblock fd arg k := by
    dsimp only
    cases k fd <;> rfl

/-- A thread without hooks accepts a connection: a context is made, and the socket is made non-blocking. And
it asks for blocking reads on a socket that has a context: the socket stays non-blocking. And it passes
`FIONBIO` a null pointer. -/
theorem not_transparent_accept :
    ¬ Transparent sockets (fun _ s => (0, s)) ⟨fun _ => none, fun _ => none⟩ (.accept 5 ()) ∧
      ¬ Transparent sockets (fun _ s => (0, s))
        ⟨fun _ => some oNonblock, fun _ => some ⟨true, false, false, -1, -1, []⟩⟩ (.fcntl 5 (.setfl 0)) ∧
      ¬ Transparent sockets (fun _ s => (0, s)) ⟨fun _ => none, fun _ => none⟩ (.ioctl 5 (.fionbio none)) := by
  refine ⟨?_, ?_, ?_⟩
  · rintro ⟨answer, eq, same⟩
    obtain rfl := Option.some.inj eq
    exact absurd (congrFun same.fdCtxs 7) (by decide)
  · rintro ⟨answer, eq, same⟩
    obtain rfl := Option.some.inj eq
    exact absurd (congrFun same.flags 5) (by decide)
  · rintro ⟨answer, eq, -⟩
    cases eq

end Shared

end Sylar.Hook
