import Sylar.Hook.Changes

/-!
# Connecting

The model of `connect` on the worker of `Hook.Basic`, with what the kernel knows of each socket's connection. While the
kernel is connecting, the fiber waits as in `hook_iofunc`, for writing and with a timer whatever the timeout. A wake
that is no timeout is followed by one look at `SO_ERROR`, which is zero while nothing has failed, for a connection that
is still in progress as well.

So it depends on what ended the wait. A report ends it only behind the kernel's answer, and the timer leaves its mark in
the `timer_info`. But after a `cancel_event` of another fiber `connect` returns 0 for a socket that is not connected
(`connect_zero_iff`).
-/

namespace Sylar.Hook

def einprogress : Nat := 115

/-- A socket's connection in the kernel. -/
inductive Link where
  | none
  | inProgress
  | connected
  /-- The attempt has failed, or the connection has broken. -/
  | failed (error : Nat)
  deriving DecidableEq, Repr

namespace Link

/-- `SO_ERROR`. -/
def error : Link → Nat
  | failed error => error
  | _ => 0

/-- `SO_ERROR` is cleared when it is read. -/
def read : Link → Link
  | failed _ => none
  | link => link

theorem read_ne_failed (link : Link) (error : Nat) : link.read ≠ failed error := by
  cases link <;> exact nofun

/-- What can become of a connection by itself. -/
def settles : Link → Link → Bool
  | inProgress, connected => true
  | inProgress, failed error | connected, failed error => error != 0
  | _, _ => false

/-- A connection settles by being there or by failing. -/
theorem settled {link link' : Link} (settles : link.settles link' = true) :
    link' = .connected ∨ ∃ error, link' = .failed error ∧ error ≠ 0 := by
  cases link <;> cases link' <;> simp_all [Link.settles]

/-- What `connect_f` leaves behind when it answers `r`. -/
def begin (link : Link) (r : SysResult) : Link :=
  if r.rt = 0 then connected else if r.errno = einprogress then inProgress else link

end Link

namespace World

variable {K F : Type} [DecidableEq F]

/-- `connect_f` has begun a connection; the wait is next. -/
def beginConnect (s : World K F) (f : F) (fd : Fd) : World K F :=
  { s with seen := Function.update s.seen f [] }.goto f (.arming fd .write)

/-- `tinfo` and the timer, which `connect` always adds. -/
def armConnect (s : World K F) (f : F) (fd : Fd) (now timeout : UInt64) : World K F :=
  let info := s.infos.length
  let s := { s with infos := s.infos ++ [some 0], lastWait := Function.update s.lastWait f info }
  let (timer, timers) := s.timers.addTimer now false timeout (.bound ⟨fd, .write, f⟩ info)
  { s with timers := timers }.goto f (.registering fd .write ⟨info, timer⟩)

end World

/-- The worker and the kernel's connections. -/
structure Net (K F : Type) where
  world : World K F
  link : Fd → Link
  /-- Whether the fiber is in a `connect` that waits, or has waited. -/
  inConnect : F → Bool
  /-- What the fiber's last `connect` returned. -/
  answer : F → Option Outcome
  /-- Whether writing on the descriptor was cancelled since its last connection began; no step reads it. -/
  cancelled : Fd → Bool

inductive NetEvent (F : Type) where
  /-- The kernel has something to say about a connection. -/
  | settle (fd : Fd) (link : Link)
  /-- A step of the worker outside `connect`. -/
  | world (e : Event F)
  /-- The running fiber calls `connect`, and `connect_f` answers. -/
  | connect (fd : Fd) (r : SysResult)
  | arm (now timeout : UInt64)
  | register
  | wake
  /-- `getsockopt`, which fails with an `errno` or reads `SO_ERROR`. -/
  | check (fails : Option Nat)
  deriving DecidableEq, Repr

namespace Net

variable {K F : Type} [DecidableEq F]

def init (k : K) : Net K F where
  world := .init k
  link _ := .none
  inConnect _ := false
  answer _ := none
  cancelled _ := false

/-- `connect` returns. -/
def answered (s : Net K F) (f : F) (out : Outcome) : Net K F :=
  { s with inConnect := Function.update s.inConnect f false, answer := Function.update s.answer f (some out) }

/-- The call of `connect_f`: an answer that is not `EINPROGRESS` is returned. -/
def connect (s : Net K F) (f : F) (fd : Fd) (r : SysResult) : Net K F :=
  let s := { s with link := Function.update s.link fd ((s.link fd).begin r) }
  if r.rt = 0 ∨ r.errno ≠ einprogress then s.answered f (.result r)
  else
    { s with
      world := s.world.beginConnect f fd
      inConnect := Function.update s.inConnect f true
      cancelled := Function.update s.cancelled fd false }

/-- The wait goes on, or `connect` returns because it is over. -/
def waited (s : Net K F) (f : F) (world : World K F) : Net K F :=
  match world.point f with
  | .returned _ _ out => { s with world := world }.answered f out
  | _ => { s with world := world }

/-- The look at the socket's error, and the return. -/
def check (s : Net K F) (f : F) (fd : Fd) : Option Nat → Net K F
  | some errno => { s with world := s.world.goto f .user }.answered f (.result ⟨-1, errno⟩)
  | none =>
    let error := (s.link fd).error
    let s := { s with world := s.world.goto f .user, link := Function.update s.link fd (s.link fd).read }
    s.answered f (.result (if error ≠ 0 then ⟨-1, error⟩ else ⟨0, 0⟩))

/-- Whether the worker is free to do something else: only the fiber that runs can be in the way. -/
def free (s : Net K F) : Event F → Bool
  | .spawn _ => true
  | _ =>
    match s.world.worker with
    | .running f => !s.inConnect f
    | _ => true

/-- What is noted of a step of the worker. -/
def note (cancelled : Fd → Bool) : Event F → Fd → Bool
  | .cancelEvent fd event => if event.epollout then Function.update cancelled fd true else cancelled
  | _ => cancelled

/-- What the running fiber does in `connect`. -/
def act (owner : Fd → F) (ctl : EpollCtl K) (s : Net K F) (f : F) : NetEvent F → Option (Net K F)
  | .connect fd r =>
    if s.inConnect f = false ∧ s.world.point f = .user ∧ owner fd = f then some (s.connect f fd r) else none
  | .arm now timeout =>
    match s.inConnect f, s.world.point f with
    | true, .arming fd .write => some { s with world := s.world.armConnect f fd now timeout }
    | _, _ => none
  | .register =>
    match s.inConnect f, s.world.point f with
    | true, .registering fd .write wait => some (s.waited f (s.world.register ctl f fd .write wait))
    | _, _ => none
  | .wake =>
    match s.inConnect f, s.world.point f with
    | true, .asleep fd .write wait => some (s.waited f (s.world.wake f fd .write wait))
    | _, _ => none
  | .check fails =>
    match s.inConnect f, s.world.point f with
    | true, .trying fd .write => some (s.check f fd fails)
    | _, _ => none
  | _ => none

def exec (owner : Fd → F) (ctl : EpollCtl K) (s : Net K F) (e : NetEvent F) : Option (Net K F) :=
  match e, s.world.worker with
  | .settle fd link, _ =>
    if (s.link fd).settles link then some { s with link := Function.update s.link fd link } else none
  | .world e, _ =>
    if s.free e then
      (s.world.exec owner ctl e).map fun world => { s with world := world, cancelled := note s.cancelled e }
    else none
  | e, .running f => s.act owner ctl f e
  | _, _ => none

def Step (owner : Fd → F) (ctl : EpollCtl K) (s : Net K F) (e : NetEvent F) (s' : Net K F) : Prop :=
  s.exec owner ctl e = some s'

/-- The kernel does not report a socket for writing while it is connecting it, and `cancel_event` calls are clean. -/
def Fair (s : Net K F) : NetEvent F → Prop
  | .world (.idle _ _ reports) => ∀ report ∈ reports, report.2.delivered.epollout = true → s.link report.1 ≠ .inProgress
  | .world e => s.world.CleanCancel e
  | _ => True

end Net

namespace World

variable {K F : Type} [DecidableEq F]

/-! ## The steps of `connect` -/

namespace Inv

variable {owner : Fd → F} {s : World K F} {f : F} {fd : Fd}

theorem beginConnect (h : Inv owner s) (running : s.worker = .running f) (at_ : s.point f = .user)
    (own : owner fd = f) : Inv owner (s.beginConnect f fd) := by
  refine h.move running (by rw [at_]; rfl) (fun g ne => Function.update_of_ne ne ..) (fun fd' d on => ?_) rfl nofun
    (fun _ x mem => ?_) nofun
  · rw [← (Prod.mk.inj (Option.some.inj on)).1]
    exact own
  · rw [Function.update_self] at mem
    cases mem

theorem armConnect (h : Inv owner s) (running : s.worker = .running f) (at_ : s.point f = .arming fd .write)
    (now timeout : UInt64) : Inv owner (s.armConnect f fd now timeout) := by
  have own : owner fd = f := h.tokens.owned f fd .write (by rw [at_]; rfl)
  have outside : (s.point f).waiting = none := by rw [at_]; rfl
  have before : ∀ x ∈ s.seen f, x.retried = true := h.calls.retried f (by rw [at_]; rfl)
  refine ⟨h.timers.addTimer outside now timeout s.infos.length, h.calls.move (fun i found => ?_) (List.Subset.refl _)
    (fun g ne => ⟨goto_point_of_ne s ne _, rfl, Function.update_of_ne ne .., rfl⟩) (fun fd' d wait waits => ?_)
    (fun _ => before) (fun fd' d out back => ?_), ?_⟩
  · have found : (s.infos ++ [some 0])[i]? = some (some etimedout) := found
    rcases Nat.lt_trichotomy i s.infos.length with old | rfl | beyond
    · rw [List.getElem?_append_left old] at found
      exact h.calls.ran i found
    · rw [List.getElem?_concat_length] at found
      cases found
    · rw [List.getElem?_eq_none (by rw [List.length_append, List.length_singleton]; exact beyond)] at found
      cases found
  · have waits := (congrArg Point.waiting (goto_point_self ..)).symm.trans waits
    obtain ⟨-, same⟩ := Prod.mk.inj (Option.some.inj waits)
    rw [← (Prod.mk.inj same).2]
    exact Function.update_self ..
  · cases (goto_point_self ..).symm.trans back
  · have moved := h.tokens.goto running (p := .registering fd .write ⟨s.infos.length,
        (s.timers.addTimer now false timeout (.bound ⟨fd, .write, f⟩ s.infos.length)).1⟩)
      (fun fd' d on => by
        rw [← (Prod.mk.inj (Option.some.inj on)).1]
        exact own) rfl nofun
    exact moved.congr rfl rfl rfl rfl rfl rfl

/-- `connect` returns to its caller. -/
theorem toUser (h : Inv owner s) (running : s.worker = .running f) (outside : (s.point f).waiting = none) :
    Inv owner (s.goto f .user) :=
  h.move running outside (fun _ _ => rfl) nofun rfl nofun nofun nofun

end Inv

theorem change_armConnect {ended : Fd → Direction → Prop} {s : World K F} {f : F} {fd : Fd}
    (running : s.worker = .running f) (at_ : s.point f = .arming fd .write) (now timeout : UInt64) :
    Change ended s (s.armConnect f fd now timeout) := by
  refine .begins f fd .write _ _ running (by rw [at_]; rfl) rfl rfl rfl rfl (fun t => ?_) fun _ _ set => set
  refine (em (t = s.timers.heap.length)).symm.imp (fun ne => ?_) fun eq => ?_
  · exact (TimerManager.addTimer_callback ..).trans (if_neg ne)
  · exact (TimerManager.addTimer_callback ..).trans (if_pos eq)

end World

namespace Net

open Lib

variable {K F : Type} [DecidableEq F] {owner : Fd → F} {ctl : EpollCtl K} {s s' : Net K F} {f : F} {fd : Fd}

/-! ## The invariant -/

/-- The kernel is done with the connection, or somebody has cancelled the wait for it. -/
def Excused (s : Net K F) (fd : Fd) : Prop := s.link fd ≠ .inProgress ∨ s.cancelled fd = true

/-- A fiber in `connect` has begun a connection. It sleeps registered, or has timed out, or is excused; and only if it
is excused it comes to look at the error. -/
structure Due (s : Net K F) (f : F) : Prop where
  begun : ∃ fd, (s.world.point f).on = some (fd, .write) ∧ s.link fd ≠ .none
  sleeps : ∀ fd wait, s.world.point f = .asleep fd .write wait → s.world.io.bit fd .write = true ∨
    s.world.infos[wait.tinfo]? = some (some etimedout) ∨ s.Excused fd
  checks : ∀ fd, s.world.point f = .trying fd .write → s.Excused fd

structure Inv (owner : Fd → F) (s : Net K F) : Prop where
  world : World.Inv owner s.world
  held : s.world.Held
  failed : ∀ fd error, s.link fd = .failed error → error ≠ 0
  due : ∀ f, s.inConnect f = true → s.Due f

theorem inv_init (owner : Fd → F) (k : K) : Inv owner (init k : Net K F) where
  world := World.inv_init owner k
  held :=
    { allocated := fun _ _ _ _ waits => nomatch waits
      own := fun _ _ _ _ _ _ _ _ waits => nomatch waits
      bound := fun _ _ _ found => nomatch found }
  failed := fun _ _ broken => nomatch broken
  due := fun _ inside => nomatch inside

omit [DecidableEq F] in
/-- A step that leaves the fiber where it is. -/
theorem Due.keep (due : s.Due f) (point : s'.world.point f = s.world.point f)
    (links : ∀ fd, (s.world.point f).on = some (fd, .write) →
      (s.link fd ≠ .none → s'.link fd ≠ .none) ∧ (s.Excused fd → s'.Excused fd))
    (sleeps : ∀ fd wait, s.world.point f = .asleep fd .write wait →
      (s.world.infos[wait.tinfo]? = some (some etimedout) → s'.world.infos[wait.tinfo]? = some (some etimedout)) ∧
      (s.world.io.bit fd .write = true → s'.world.io.bit fd .write = true ∨
        s'.world.infos[wait.tinfo]? = some (some etimedout) ∨ s'.Excused fd)) : s'.Due f where
  begun := by
    obtain ⟨fd, on, begun⟩ := due.begun
    exact ⟨fd, by rw [point]; exact on, (links fd on).1 begun⟩
  sleeps fd wait at_ := by
    rw [point] at at_
    rcases due.sleeps fd wait at_ with set | expired | excused
    · exact (sleeps fd wait at_).2 set
    · exact .inr (.inl ((sleeps fd wait at_).1 expired))
    · exact .inr (.inr ((links fd (by rw [at_]; rfl)).2 excused))
  checks fd at_ := by
    rw [point] at at_
    exact (links fd (by rw [at_]; rfl)).2 (due.checks fd at_)

omit [DecidableEq F] in
theorem Due.begun_ne (due : s.Due f) : s.world.point f ≠ .fresh := by
  intro fresh
  obtain ⟨fd, on, -⟩ := due.begun
  rw [fresh] at on
  cases on

/-- A change of somebody else. -/
theorem Due.change {ended : Fd → Direction → Prop} (due : s.Due f) (held : s.world.Held)
    (inv : World.Inv owner s.world) (change : World.Change ended s.world s'.world) (off : s.world.worker ≠ .running f)
    (links : ∀ fd, owner fd = f →
      (s.link fd ≠ .none → s'.link fd ≠ .none) ∧ (s.Excused fd → s'.Excused fd))
    (stops : ∀ fd, ended fd .write → s'.Excused fd) : s'.Due f := by
  refine due.keep (change.point_eq off due.begun_ne) (fun fd on => ?_) fun fd wait at_ => ⟨?_, fun set => ?_⟩
  · exact links fd (inv.tokens.owned f fd .write on)
  · have inWait : (s.world.point f).waiting = some (fd, .write, wait) := by rw [at_]; rfl
    exact change.expired held off inWait
  · exact (change.registered held inv at_ set).imp_right (.imp_right (stops fd))

namespace Inv

/-- A step of the fiber on the worker in `connect`: what concerns other fibers stays. -/
theorem moved (h : s.Inv owner) (running : s.world.worker = .running f) (world : World.Inv owner s'.world)
    (change : World.Change (fun _ _ => False) s.world s'.world) (others : ∀ g ≠ f, s'.inConnect g = s.inConnect g)
    (links : ∀ fd, owner fd ≠ f → s'.link fd = s.link fd ∧ s'.cancelled fd = s.cancelled fd)
    (failed : ∀ fd error, s'.link fd = .failed error → error ≠ 0) (self : s'.inConnect f = true → s'.Due f) :
    s'.Inv owner := by
  refine ⟨world, change.held h.held, failed, fun g inside => ?_⟩
  by_cases eq : g = f
  · subst eq
    exact self inside
  · rw [others g eq] at inside
    have off : s.world.worker ≠ .running g := fun runs => eq (Worker.running.inj (running.symm.trans runs)).symm
    refine (h.due g inside).change h.held h.world change off (fun fd own => ?_) fun fd ended => ended.elim
    obtain ⟨link, cancelled⟩ := links fd (own ▸ eq)
    rw [Excused, Excused, link, cancelled]
    exact ⟨id, id⟩

theorem settle (h : s.Inv owner) {link : Link} (settles : (s.link fd).settles link = true) :
    Inv owner { s with link := Function.update s.link fd link } := by
  have settled := Link.settled settles
  have done : ∀ fd', (s.link fd' ≠ .none → Function.update s.link fd link fd' ≠ .none) ∧
      (s.link fd' ≠ .inProgress → Function.update s.link fd link fd' ≠ .inProgress) := by
    intro fd'
    by_cases eq : fd' = fd
    · rw [eq, Function.update_self]
      rcases settled with rfl | ⟨error, rfl, -⟩ <;> exact ⟨fun _ => nofun, fun _ => nofun⟩
    · rw [Function.update_of_ne eq]
      exact ⟨id, id⟩
  refine ⟨h.world, h.held, fun fd' error broken => ?_, fun f inside => ?_⟩
  · by_cases eq : fd' = fd
    · dsimp only at broken
      rw [eq, Function.update_self] at broken
      rcases settled with rfl | ⟨error', rfl, nonzero⟩
      · cases broken
      · cases broken
        exact nonzero
    · exact h.failed fd' error ((Function.update_of_ne eq ..).symm.trans broken)
  · refine (h.due f inside).keep rfl (fun fd' on => ⟨(done fd').1, ?_⟩) fun fd' wait at_ => ⟨id, .inl⟩
    exact Or.imp_left (done fd').2

/-! ### The steps of the worker -/

omit [DecidableEq F] in
theorem fair_clean {e : Event F} (fair : s.Fair (.world e)) : s.world.CleanCancel e := by
  cases e with
  | idle before now reports => trivial
  | _ => exact fair

omit [DecidableEq F] in
theorem off_of_free {e : Event F} (free : s.free e = true) (notSpawn : ∀ g, e ≠ .spawn g)
    (inside : s.inConnect f = true) : s.world.worker ≠ .running f := by
  intro running
  rw [Net.free, running] at free
  · have free : (!s.inConnect f) = true := free
    rw [inside] at free
    cases free
  · exact notSpawn

omit [DecidableEq F] in
theorem note_keeps {cancelled : Fd → Bool} (e : Event F) (before : cancelled fd = true) : note cancelled e fd = true := by
  cases e with
  | cancelEvent fd' event =>
    change (if event.epollout then Function.update cancelled fd' true else cancelled) fd = true
    split
    · by_cases eq : fd = fd'
      · rw [eq, Function.update_self]
      · rw [Function.update_of_ne eq]
        exact before
    · exact before
  | _ => exact before

omit [DecidableEq F] in
/-- A report of writing comes behind the kernel's answer, and a cancellation is noted. -/
theorem excused_of_ends {e : Event F} (fair : s.Fair (.world e)) (ends : World.Ends e fd .write) :
    s.link fd ≠ .inProgress ∨ note s.cancelled e fd = true := by
  cases e with
  | idle before now reports =>
    obtain ⟨report, mem, rfl, ready⟩ := ends
    exact .inl (fair report mem ready)
  | cancelEvent fd' event =>
    obtain ⟨rfl, inside⟩ := ends
    refine .inr ?_
    rw [note, if_pos (by exact inside), Function.update_self]
  | _ => exact ends.elim

theorem worldStep (h : s.Inv owner) {e : Event F} {world : World K F} (fair : s.Fair (.world e))
    (free : s.free e = true) (step : World.Step owner ctl s.world e world) :
    Inv owner { s with world := world, cancelled := note s.cancelled e } := by
  have change := step.change h.world
  refine ⟨h.world.step (fair_clean fair) step, change.held h.held, h.failed, fun f inside => ?_⟩
  have due := h.due f inside
  have links : ∀ fd, (s.link fd ≠ .none → s.link fd ≠ .none) ∧ (s.Excused fd →
      Excused { s with world := world, cancelled := note s.cancelled e } fd) :=
    fun fd => ⟨id, Or.imp_right (note_keeps e)⟩
  by_cases spawns : ∃ g, e = .spawn g
  · obtain ⟨g, rfl⟩ := spawns
    have step : (if s.world.point g = .fresh then some ((s.world.goto g .user).addFibers [g]) else none) = some world :=
      step
    split at step
    · rename_i new
      cases step
      have ne : f ≠ g := fun eq => due.begun_ne (eq ▸ new)
      exact due.keep (World.goto_point_of_ne s.world ne _) (fun fd _ => links fd) fun fd wait at_ => ⟨id, .inl⟩
    · cases step
  · have off := off_of_free free (fun g eq => spawns ⟨g, eq⟩) inside
    exact due.change h.held h.world change off (fun fd _ => links fd) fun fd ends => excused_of_ends fair ends

/-! ### The steps in `connect` -/

theorem connect (h : s.Inv owner) (running : s.world.worker = .running f)
    (at_ : s.world.point f = .user) (own : owner fd = f) (r : SysResult) : Inv owner (s.connect f fd r) := by
  have failed : ∀ fd' error, Function.update s.link fd ((s.link fd).begin r) fd' = .failed error → error ≠ 0 := by
    intro fd' error broken
    by_cases eq : fd' = fd
    · rw [eq, Function.update_self, Link.begin] at broken
      split at broken
      · cases broken
      · split at broken
        · cases broken
        · exact h.failed fd error broken
    · exact h.failed fd' error ((Function.update_of_ne eq ..).symm.trans broken)
  have away : ∀ fd', owner fd' ≠ f → fd' ≠ fd := by
    intro fd' other eq
    rw [eq] at other
    exact other own
  unfold Net.connect
  dsimp only
  split
  · refine h.moved running h.world ?_ (fun g ne => Function.update_of_ne ne ..) (fun fd' other => ⟨?_, rfl⟩) failed
      fun inside => ?_
    · exact .stays rfl rfl (fun _ => rfl) fun _ _ set => .inl set
    · exact Function.update_of_ne (away fd' other) ..
    · cases (Function.update_self ..).symm.trans inside
  · rename_i begins
    obtain ⟨notDone, begins⟩ := not_or.mp begins
    have here : Function.update s.link fd ((s.link fd).begin r) fd = .inProgress := by
      rw [Function.update_self, Link.begin, if_neg notDone, if_pos (not_not.mp begins)]
    have point : (s.world.beginConnect f fd).point f = .arming fd .write := World.goto_point_self ..
    refine h.moved running (h.world.beginConnect running at_ own) ?_ (fun g ne => Function.update_of_ne ne ..)
      (fun fd' other => ⟨?_, ?_⟩) failed fun _ => ⟨⟨fd, ?_, ?_⟩, fun fd' wait asleep => ?_, fun fd' trying => ?_⟩
    · exact World.change_goto running (p := .arming fd .write) (by rw [at_]; rfl) rfl rfl rfl rfl
    · exact Function.update_of_ne (away fd' other) ..
    · exact Function.update_of_ne (away fd' other) ..
    · exact congrArg Point.on point
    · exact fun none => nomatch here.symm.trans none
    · cases point.symm.trans asleep
    · cases point.symm.trans trying

theorem arm (h : s.Inv owner) (running : s.world.worker = .running f) (inside : s.inConnect f = true)
    (at_ : s.world.point f = .arming fd .write) (now timeout : UInt64) :
    Inv owner { s with world := s.world.armConnect f fd now timeout } := by
  have point : ∃ wait, (s.world.armConnect f fd now timeout).point f = .registering fd .write wait :=
    ⟨_, World.goto_point_self ..⟩
  obtain ⟨wait, point⟩ := point
  refine h.moved running (h.world.armConnect running at_ now timeout) (World.change_armConnect running at_ now timeout)
    (fun _ _ => rfl) (fun _ _ => ⟨rfl, rfl⟩) h.failed fun _ => ⟨?_, fun fd' wait' asleep => ?_, fun fd' trying => ?_⟩
  · obtain ⟨fd', on, begun⟩ := (h.due f inside).begun
    rw [at_] at on
    cases on
    exact ⟨fd, congrArg Point.on point, begun⟩
  · cases point.symm.trans asleep
  · cases point.symm.trans trying

/-- The wait goes on, or is over and `connect` with it. -/
theorem waited (h : s.Inv owner) (running : s.world.worker = .running f) {world : World K F}
    (inv : World.Inv owner world) (change : World.Change (fun _ _ => False) s.world world)
    (self : (∀ fd d out, world.point f ≠ .returned fd d out) → Due { s with world := world } f) :
    Inv owner (s.waited f world) := by
  unfold Net.waited
  split
  · refine h.moved running inv change (fun g ne => Function.update_of_ne ne ..) (fun _ _ => ⟨rfl, rfl⟩) h.failed
      fun inside => ?_
    cases (Function.update_self ..).symm.trans inside
  · rename_i goesOn
    show Inv owner { s with world := world }
    refine h.moved running inv change (fun _ _ => rfl) (fun _ _ => ⟨rfl, rfl⟩) h.failed fun _ => self ?_
    exact fun fd d out back => goesOn fd d out back

theorem register (h : s.Inv owner) (running : s.world.worker = .running f) (inside : s.inConnect f = true)
    {wait : Wait} (at_ : s.world.point f = .registering fd .write wait) :
    Inv owner (s.waited f (s.world.register ctl f fd .write wait)) := by
  refine h.waited running (h.world.register running at_) (World.change_register h.world running at_) fun goesOn => ?_
  rcases World.register_cases ctl h.world running fd .write wait with ⟨point, set⟩ | back
  · refine ⟨?_, fun fd' wait' asleep => ?_, fun fd' trying => ?_⟩
    · obtain ⟨fd', on, begun⟩ := (h.due f inside).begun
      rw [at_] at on
      cases on
      exact ⟨fd, congrArg Point.on point, begun⟩
    · cases point.symm.trans asleep
      exact .inl set
    · cases point.symm.trans trying
  · exact absurd back (goesOn fd .write .refused)

theorem wake (h : s.Inv owner) (running : s.world.worker = .running f) (inside : s.inConnect f = true)
    {wait : Wait} (at_ : s.world.point f = .asleep fd .write wait) :
    Inv owner (s.waited f (s.world.wake f fd .write wait)) := by
  refine h.waited running (h.world.wake running at_) (World.change_wake running at_) fun goesOn => ?_
  rcases World.wake_cases (s := s.world) f fd .write wait with ⟨-, back⟩ | ⟨inTime, point⟩
  · exact absurd back (goesOn fd .write .timedOut)
  · have due := h.due f inside
    have own : owner fd = f := h.world.tokens.owned f fd .write (by rw [at_]; rfl)
    -- on the worker, so no longer registered; and not timed out
    have clear : s.world.io.bit fd .write = false := h.world.tokens.not_bit_of_running (own ▸ running)
    have excused : s.Excused fd := by
      rcases due.sleeps fd wait at_ with set | expired | excused
      · cases clear.symm.trans set
      · exact absurd expired inTime
      · exact excused
    refine ⟨?_, fun fd' wait' asleep => ?_, fun fd' trying => ?_⟩
    · obtain ⟨fd', on, begun⟩ := due.begun
      rw [at_] at on
      cases on
      exact ⟨fd, congrArg Point.on point, begun⟩
    · cases point.symm.trans asleep
    · cases point.symm.trans trying
      exact excused

theorem check (h : s.Inv owner) (running : s.world.worker = .running f)
    (at_ : s.world.point f = .trying fd .write) (fails : Option Nat) : Inv owner (s.check f fd fails) := by
  have own : owner fd = f := h.world.tokens.owned f fd .write (by rw [at_]; rfl)
  have outside : (s.world.point f).waiting = none := by rw [at_]; rfl
  have world := h.world.toUser running outside
  have change : World.Change (fun _ _ => False) s.world (s.world.goto f .user) :=
    World.change_goto running (p := .user) outside.symm rfl rfl rfl rfl
  cases fails with
  | some errno =>
    refine h.moved running world change (fun g ne => Function.update_of_ne ne ..) (fun _ _ => ⟨rfl, rfl⟩) h.failed
      fun inside => ?_
    cases (Function.update_self ..).symm.trans inside
  | none =>
    refine h.moved running world change (fun g ne => Function.update_of_ne ne ..) (fun fd' other => ⟨?_, rfl⟩)
      (fun fd' error broken => ?_) fun inside => ?_
    · apply Function.update_of_ne
      intro eq
      exact other (eq ▸ own)
    · have broken : Function.update s.link fd (s.link fd).read fd' = .failed error := broken
      by_cases eq : fd' = fd
      · rw [eq, Function.update_self] at broken
        exact absurd broken (Link.read_ne_failed _ _)
      · exact h.failed fd' error ((Function.update_of_ne eq ..).symm.trans broken)
    · cases (Function.update_self ..).symm.trans inside

/-! ### Runs -/

theorem act (h : s.Inv owner) (running : s.world.worker = .running f) {e : NetEvent F}
    (act : s.act owner ctl f e = some s') : s'.Inv owner := by
  cases e with
  | settle fd link => cases act
  | world e => cases act
  | connect fd r =>
    simp only [Net.act] at act
    split at act
    · rename_i here
      obtain ⟨-, at_, own⟩ := here
      cases act
      exact h.connect running at_ own r
    · cases act
  | arm now timeout =>
    simp only [Net.act] at act
    split at act
    · cases act
      exact h.arm running ‹_› ‹_› now timeout
    · cases act
  | register =>
    simp only [Net.act] at act
    split at act
    · cases act
      exact h.register running ‹_› ‹_›
    · cases act
  | wake =>
    simp only [Net.act] at act
    split at act
    · cases act
      exact h.wake running ‹_› ‹_›
    · cases act
  | check fails =>
    simp only [Net.act] at act
    split at act
    · cases act
      exact h.check running ‹_› fails
    · cases act

theorem step (h : s.Inv owner) {e : NetEvent F} (fair : s.Fair e) (step : Step owner ctl s e s') : s'.Inv owner := by
  unfold Step exec at step
  split at step
  · split at step
    · cases step
      exact h.settle ‹_›
    · cases step
  · split at step
    · obtain ⟨world, steps, rfl⟩ := Option.map_eq_some_iff.mp step
      exact h.worldStep fair ‹_› steps
    · cases step
  · exact h.act ‹_› step
  · cases step

end Inv

/-- The look at the error is one of the running fiber, behind its wait for a connection. -/
theorem check_of_step {fails : Option Nat} (step : Step owner ctl s (.check fails) s') :
    ∃ f fd, s.world.worker = .running f ∧ s.inConnect f = true ∧ s.world.point f = .trying fd .write ∧
      s' = s.check f fd fails := by
  cases worker : s.world.worker with
  | running f =>
    have act : s.act owner ctl f (.check fails) = some s' := by
      unfold Step exec at step
      rwa [worker] at step
    simp only [Net.act] at act
    split at act
    · cases act
      exact ⟨f, _, rfl, ‹_›, ‹_›, rfl⟩
    · cases act
  | loop => simp [Step, exec, worker] at step
  | back f => simp [Step, exec, worker] at step
  | idle => simp [Step, exec, worker] at step

/-- What the look at the error answers. -/
theorem check_zero_iff (fails : Option Nat) :
    (s.check f fd fails).answer f = some (.result ⟨0, 0⟩) ↔ fails = none ∧ (s.link fd).error = 0 := by
  cases fails with
  | some errno =>
    refine iff_of_false (fun zero => ?_) (fun both => nomatch both.1)
    cases (Function.update_self ..).symm.trans zero
  | none =>
    have answer : (s.check f fd none).answer f =
        some (.result (if (s.link fd).error ≠ 0 then ⟨-1, (s.link fd).error⟩ else ⟨0, 0⟩)) := Function.update_self ..
    rw [answer]
    split
    · rename_i broken
      refine iff_of_false (fun zero => ?_) (fun both => broken both.2)
      cases zero
    · rename_i fine
      exact iff_of_true rfl ⟨rfl, not_not.mp fine⟩

/-- In every run, a `connect` that has waited returns 0 exactly if there is a connection, or one is still in progress
and somebody has cancelled the wait for it. -/
theorem connect_zero_iff (owner : Fd → F) (ctl : EpollCtl K) (k : K) {events : List (NetEvent F)} {fails : Option Nat}
    (run : Run (Guarded (Step owner ctl) Fair) (init k) events s) (check : Step owner ctl s (.check fails) s') :
    ∃ f fd, s.world.worker = .running f ∧ s.world.point f = .trying fd .write ∧
      (s'.answer f = some (.result ⟨0, 0⟩) ↔
        fails = none ∧ (s.link fd = .connected ∨ s.link fd = .inProgress ∧ s.cancelled fd = true)) := by
  have inv : s.Inv owner :=
    run.invariant (I := Inv owner) (fun _ _ _ h step => h.step step.2 step.1) (inv_init owner k)
  obtain ⟨f, fd, running, inside, at_, rfl⟩ := check_of_step check
  refine ⟨f, fd, running, at_, (check_zero_iff fails).trans (and_congr_right fun _ => ?_)⟩
  have due := inv.due f inside
  have excused := due.checks fd at_
  obtain ⟨fd', on, begun⟩ := due.begun
  rw [at_] at on
  cases on
  cases link : s.link fd with
  | none => exact absurd link begun
  | inProgress =>
    have cancelled : s.cancelled fd = true := excused.resolve_left (absurd link)
    exact iff_of_true rfl (.inr ⟨rfl, cancelled⟩)
  | connected => exact iff_of_true rfl (.inl rfl)
  | failed error =>
    refine iff_of_false (inv.failed fd error link) ?_
    rintro (connected | ⟨inProgress, -⟩)
    · cases connected
    · cases inProgress

/-- Another fiber cancels the wait: `connect` returns 0 for a connection that is still in progress. -/
theorem connect_zero_iff_cancelled :
    ∃ s s' : Net Unit Nat, s.link 5 = .inProgress ∧ s'.answer 0 = some (.result ⟨0, 0⟩) ∧
      ∃ f fd, s.world.worker = .running f ∧ s.world.point f = .trying fd .write ∧
        (s'.answer f = some (.result ⟨0, 0⟩) ↔ none = (none : Option Nat) ∧
          (s.link fd = .connected ∨ s.link fd = .inProgress ∧ s.cancelled fd = true)) := by
  have run : Run (Step (fun _ => 0) fun k _ => (true, k)) (init ()) _ _ :=
    Run.of_foldlM [.world (.spawn 0), .world (.spawn 1), .world .take, .connect 5 ⟨-1, 115⟩, .arm 0 5000, .register,
      .world .look, .world .take, .world (.cancelEvent 5 (.only .write)), .world .yield, .world .look, .world .take,
      .wake] rfl
  have fair := run.guard Fair (by simp [Fair, World.CleanCancel, IOManager.clean_only])
  exact ⟨_, _, rfl, rfl, connect_zero_iff _ _ () fair (show Step _ _ _ (.check none) _ from rfl)⟩

end Net

end Sylar.Hook
