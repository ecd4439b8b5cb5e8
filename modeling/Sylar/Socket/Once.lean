import Sylar.Lib.Run
import Sylar.Socket.Sound

/-!
# One close for each descriptor

A socket that gets a descriptor ought to pass it to `::close` once, and to nothing after that. Whether
`close` acts is decided by `is_connected_`, which is only set on a socket that connected or was
accepted; a listening socket, or one whose connects all failed, keeps its descriptor for ever. And
`close` does not forget the descriptor, so that most calls go on passing it to the system afterwards.

`closedOnce_iff` says for every life of a socket, with any sequence of calls and any answers of the
system, when its descriptor is closed once and left alone after that.
-/

namespace Sylar.Socket

open Lib
open Relation (ReflTransGen)

variable {sys : System} {s s' : Socket}

/-! ## Calls on a closed descriptor -/

/-- The calls that leave a closed descriptor alone. Receiving and sending on a connection do, since they
look at `is_connected_`; so does the `send_to` that answers -1 on every valid socket. The log lines print
the local address, and `::getsockname` is called for it unless it is known. -/
def Quiet (sys : System) (s : Socket) : Op → Prop
  | .bind addr | .connect addr => addr.map Address.family ≠ some s.family ∧
    (sys.logs s.calls = false ∨ s.localAddress.isSome = true)
  | .listen | .accept | .getOption | .setOption => False
  | .sendToIov addr | .recvFrom addr | .recvFromIov addr => addr = none
  | .getLocalAddress | .toString => s.localAddress.isSome = true
  | .reconnect | .close | .send | .sendIov | .sendTo _ | .recv | .recvIov | .getRemoteAddress => True

section Closed

variable {addr : Option Address}

theorem isValid_iff : s.isValid = true ↔ s.sockfd ≠ -1 := by
  simp [isValid]

theorem ensure_valid (valid : s.sockfd ≠ -1) : ensure sys s = .done () s := by
  show (if s.isValid then _ else _ : M Unit) s = _
  rw [if_pos (isValid_iff.mpr valid)]
  rfl

theorem getLocalAddress_known (valid : s.sockfd ≠ -1) (known : s.localAddress.isSome = true) :
    getLocalAddress sys s = .done s.localAddress s := by
  show (if s.sockfd = -1 then _ else _ : M (Option Address)) s = _
  rw [if_neg valid, if_pos known]
  rfl

theorem getRemoteAddress_down (down : s.isConnected = false) : getRemoteAddress sys s = .done none s := by
  show (if s.sockfd = -1 ∨ s.isConnected = false then _ else _ : M (Option Address)) s = _
  rw [if_pos (.inr down)]
  rfl

theorem toString_known (valid : s.sockfd ≠ -1) (down : s.isConnected = false)
    (known : s.localAddress.isSome = true) : toString sys s = .done () s := by
  rw [toString, Proc.bind_done _ (getLocalAddress_known valid known),
    Proc.bind_done _ (getRemoteAddress_down down)]
  rfl

theorem complain_quiet (valid : s.sockfd ≠ -1) (down : s.isConnected = false)
    (quiet : sys.logs s.calls = false ∨ s.localAddress.isSome = true) {u : Unit}
    (run : complain sys addr s = .done u s') : s' = s := by
  rw [complain, Proc.read_bind_apply] at run
  split at run
  · rename_i logs
    have known := quiet.resolve_left fun off => absurd (logs.symm.trans off) Bool.true_eq_false.mp
    rw [Proc.bind_done _ (toString_known valid down known)] at run
    cases addr with
    | none => cases run
    | some a =>
      cases run
      rfl
  · cases run
    rfl

/-- A quiet call on a socket that is not connected leaves it as it is. -/
theorem eq_of_quiet {op : Op} (valid : s.sockfd ≠ -1) (down : s.isConnected = false)
    (quiet : Quiet sys s op) (step : Step sys s op s') : s' = s := by
  have same : ∀ {α : Type} {p : M α} {a : α}, p s = .done a s → void p s = .done () s' → s' = s := by
    intro α p a stays run
    obtain ⟨b, run⟩ := void_done run
    rw [stays] at run
    cases run
    rfl
  have unchecked : ∀ {check : Socket → Bool} {c : FdCall}, check s = false →
      transfer sys check c s = .done (-1) s := by
    intro check c fails
    show (if check s then _ else _ : M Int) s = _
    rw [fails]
    rfl
  cases op with
  | bind addr =>
    obtain ⟨rt, run⟩ := void_done step
    rw [bind, Proc.bind_done _ (ensure_valid valid), Proc.read_bind_apply,
      if_pos (isValid_iff.mpr valid)] at run
    cases addr with
    | none => cases run
    | some a =>
      rw [Proc.demand_some_bind_apply, if_pos fun eq => quiet.1 (congrArg some eq)] at run
      obtain ⟨_, s₁, complained, done⟩ := Proc.bind_eq_done run
      cases done
      exact complain_quiet valid down quiet.2 complained
  | connect addr =>
    obtain ⟨rt, run⟩ := void_done step
    rw [connect, Proc.bind_done _ (ensure_valid valid), Proc.read_bind_apply,
      if_neg fun fits => quiet.1 fits.2] at run
    obtain ⟨_, s₁, complained, done⟩ := Proc.bind_eq_done run
    cases done
    exact complain_quiet valid down quiet.2 complained
  | reconnect =>
    refine same (a := false) ?_ step
    rw [reconnect, Proc.bind_done _ (getRemoteAddress_down down)]
    rfl
  | close =>
    refine same (a := true) ?_ step
    rw [close_eq, if_pos (.inr down)]
  | getLocalAddress => exact same (getLocalAddress_known valid quiet) step
  | getRemoteAddress => exact same (getRemoteAddress_down down) step
  | toString =>
    have stays : toString sys s = .done () s := toString_known valid down quiet
    exact (Outcome.done.inj (step.symm.trans stays)).2
  | send | sendIov | recv | recvIov => exact same (unchecked down) step
  | sendTo addr => exact same (unchecked (by simp [isValid_iff.mpr valid])) step
  | sendToIov addr | recvFrom addr | recvFromIov addr =>
    exact same (unchecked (by rw [show addr = none from quiet]; simp)) step
  | listen | accept | getOption | setOption => exact quiet.elim

/-- The descriptor is passed to the system. -/
def Speaks (s s' : Socket) : Prop :=
  ∃ c rt, s.calls ++ [(.onFd c s.sockfd, rt)] <+: s'.calls

theorem Speaks.trans {s₁ : Socket} (first : Speaks s s₁) (grows : s₁.calls <+: s'.calls) : Speaks s s' := by
  obtain ⟨c, rt, spoken⟩ := first
  exact ⟨c, rt, spoken.trans grows⟩

/-- A procedure that begins with a system call on the descriptor. -/
theorem speaks_of_call {α : Type} {c : FdCall} {f : Int → M α} {a : α}
    (run : (onFd sys c >>= f) s = .done a s')
    (rest : ∀ rt s₁, f rt s₁ = .done a s' → s₁.calls <+: s'.calls) : Speaks s s' := by
  obtain ⟨rt, s₁, called, run⟩ := Proc.bind_eq_done run
  cases called
  exact ⟨c, _, rest _ _ run⟩

/-- The same, where only questions follow. -/
theorem speaks_of_asks {α : Type} {c : FdCall} {f : Int → M α} {a : α}
    (run : (onFd sys c >>= f) s = .done a s')
    (rest : ∀ rt, Proc.Keeps (ReflTransGen Ask) (f rt)) : Speaks s s' :=
  speaks_of_call run fun rt _ run => (asked_of_asks ((rest rt).done run)).grows

theorem getLocalAddress_speaks (valid : s.sockfd ≠ -1) (unknown : ¬ s.localAddress.isSome = true)
    {a : Option Address} (run : getLocalAddress sys s = .done a s') : Speaks s s' := by
  rw [getLocalAddress, Proc.read_bind_apply, if_neg valid, if_neg unknown, Proc.update_bind_apply] at run
  refine speaks_of_asks (s := { s with localAddress := some (.create s.family) }) run fun rt => ?_
  refine .bind asks_trans (setAddresses_asks _ remoteAddress) fun _ => ?_
  exact .read_bind fun _ => asks_pure _

theorem toString_speaks (valid : s.sockfd ≠ -1) (unknown : ¬ s.localAddress.isSome = true)
    (run : toString sys s = .done () s') : Speaks s s' := by
  obtain ⟨a, s₁, first, run⟩ := Proc.bind_eq_done run
  refine (getLocalAddress_speaks valid unknown first).trans (asked_of_asks (Proc.Keeps.done ?_ run)).grows
  exact .bind asks_trans getRemoteAddress_asks fun _ => asks_pure _

theorem complain_speaks (valid : s.sockfd ≠ -1)
    (loud : ¬ (sys.logs s.calls = false ∨ s.localAddress.isSome = true)) {u : Unit}
    (run : complain sys addr s = .done u s') : Speaks s s' := by
  obtain ⟨logs, unknown⟩ := not_or.mp loud
  rw [complain, Proc.read_bind_apply, if_pos (Bool.eq_true_of_not_eq_false logs)] at run
  obtain ⟨_, s₁, first, run⟩ := Proc.bind_eq_done run
  refine (toString_speaks valid unknown first).trans (asked_of_asks (Proc.Keeps.done ?_ run)).grows
  exact .bind asks_trans (.demand (fun _ => .refl) addr) fun _ => asks_pure _

theorem bind_speaks (valid : s.sockfd ≠ -1) (loud : ¬ Quiet sys s (.bind addr)) {rt : Bool}
    (run : bind sys addr s = .done rt s') : Speaks s s' := by
  rw [bind, Proc.bind_done _ (ensure_valid valid), Proc.read_bind_apply,
    if_pos (isValid_iff.mpr valid)] at run
  cases addr with
  | none => cases run
  | some a =>
    rw [Proc.demand_some_bind_apply] at run
    split at run
    · rename_i other
      obtain ⟨_, s₁, complained, done⟩ := Proc.bind_eq_done run
      cases done
      refine complain_speaks valid (fun quiet => loud ⟨fun same => ?_, quiet⟩) complained
      exact other (Option.some.inj same)
    · apply speaks_of_asks run
      intro rt
      split
      · exact .bind asks_trans (complain_asks _) fun _ => asks_pure _
      · exact asks_pure _

theorem connect_speaks (valid : s.sockfd ≠ -1) (loud : ¬ Quiet sys s (.connect addr)) {rt : Bool}
    (run : connect sys addr s = .done rt s') : Speaks s s' := by
  rw [connect, Proc.bind_done _ (ensure_valid valid), Proc.read_bind_apply] at run
  split at run
  · apply speaks_of_call run
    intro rt s₁ run
    split at run
    · obtain ⟨_, s₂, complained, run⟩ := Proc.bind_eq_done run
      obtain ⟨_, s₃, closed, done⟩ := Proc.bind_eq_done run
      cases done
      exact (asked_of_asks ((complain_asks addr).done complained)).grows.trans (close_acts closed).grows
    · cases run
      exact List.prefix_rfl
  · rename_i unfit
    obtain ⟨_, s₁, complained, done⟩ := Proc.bind_eq_done run
    cases done
    refine complain_speaks valid (fun quiet => loud ⟨fun same => ?_, quiet⟩) complained
    exact unfit ⟨isValid_iff.mpr valid, same⟩

theorem transfer_speaks {check : Socket → Bool} {c : FdCall} (passes : check s = true)
    {rt : Int} (run : transfer sys check c s = .done rt s') : Speaks s s' := by
  rw [transfer, Proc.read_bind_apply, if_pos passes] at run
  cases run
  exact ⟨c, _, List.prefix_rfl⟩

/-- Every other call on a valid socket passes the descriptor to the system. -/
theorem speaks_of_not_quiet {op : Op} (valid : s.sockfd ≠ -1) (loud : ¬ Quiet sys s op)
    (step : Step sys s op s') : Speaks s s' := by
  have here := isValid_iff.mpr valid
  have given : ∀ {addr : Option Address}, addr ≠ none → addr.isNone = false := by
    intro addr some
    cases addr with
    | none => exact absurd rfl some
    | some a => rfl
  cases op with
  | bind addr =>
    obtain ⟨rt, run⟩ := void_done step
    exact bind_speaks valid loud run
  | listen =>
    obtain ⟨rt, run⟩ := void_done step
    rw [listen, Proc.read_bind_apply, if_pos here] at run
    apply speaks_of_asks run
    intro rt
    split
    · exact .bind asks_trans report_asks fun _ => asks_pure _
    · exact asks_pure _
  | accept =>
    obtain ⟨rt, run⟩ := void_done step
    rw [accept, Proc.read_bind_apply] at run
    exact speaks_of_asks run fun fd => .read_bind fun _ => asks_pure _
  | connect addr =>
    obtain ⟨rt, run⟩ := void_done step
    exact connect_speaks valid loud run
  | getOption | setOption =>
    obtain ⟨rt, run⟩ := void_done step
    exact speaks_of_asks run fun rt => asks_pure _
  | getLocalAddress =>
    obtain ⟨rt, run⟩ := void_done step
    exact getLocalAddress_speaks valid loud run
  | toString => exact toString_speaks valid loud step
  | sendToIov addr | recvFrom addr | recvFromIov addr =>
    obtain ⟨rt, run⟩ := void_done step
    exact transfer_speaks (by simp [here, given loud]) run
  | _ => exact absurd trivial loud

end Closed

/-! ## Lives -/

variable {s₀ : Socket}

/-- The socket that `accept` hands to `init`. -/
theorem accept_fresh {commSock : Socket} {fd : Int} (answer : accept sys s = .done (some (fd, commSock)) s') :
    fd ≠ -1 ∧ commSock.calls = [] ∧ commSock.obtained = [] := by
  obtain ⟨fd', s₁, called, run⟩ := Proc.bind_eq_done (by simpa only [accept, Proc.read_bind_apply] using answer)
  rw [Proc.read_bind_apply] at run
  have value := (Outcome.done.inj run).1
  split at value
  · cases value
  · rename_i valid
    obtain ⟨rfl, rfl⟩ := Prod.mk.inj (Option.some.inj value)
    exact ⟨valid, rfl, rfl⟩

/-- `init` with a descriptor, on a fresh object. -/
theorem init_sound {fd : Int} {rt : Bool} (valid : fd ≠ -1) (none : s.calls = [] ∧ s.obtained = [])
    (run : init sys fd s = .done rt s') : s'.isConnected = true ∧ s'.Sound True ∧ ¬ s'.HungUp := by
  rw [init, if_neg valid, Proc.update_bind_apply] at run
  obtain ⟨_, s₁, options, done⟩ := Proc.bind_eq_done run
  cases done
  have asked := asked_of_asks (initOptions_asks.done options)
  refine ⟨asked.isConnected, asked.sound ?_, fun closed => ?_⟩
  swap
  · obtain ⟨fd, rt, mem⟩ := closed
    replace mem := (asked.hungUp fd rt).mp mem
    rw [none.1] at mem
    cases mem
  constructor
  case free => exact fun free => absurd free valid
  case held => exact fun _ => by rw [none.2]; rfl
  case own => exact fun c mem => by rw [none.1] at mem; cases mem
  case closes => exact fun fd rt mem => by rw [none.1] at mem; cases mem
  case linked => exact iff_of_true (.inl rfl) (.inl trivial)

theorem Born.sound (born : Born sys s₀) : s₀.Sound (s₀.isConnected = true) ∧ ¬ s₀.HungUp := by
  cases born with
  | constructed family type protocol =>
    refine ⟨?_, fun closed => by simp [HungUp, create] at closed⟩
    constructor
    case free => exact fun _ => ⟨rfl, rfl⟩
    case held => exact fun valid => absurd rfl valid
    case own => exact fun c mem => nomatch mem
    case closes => exact fun fd rt mem => nomatch mem
    case linked => simp [HungUp, Linked, create]
  | accepted answer start =>
    obtain ⟨valid, fresh⟩ := accept_fresh answer
    obtain ⟨up, sound, never⟩ := init_sound valid fresh start
    refine ⟨?_, never⟩
    rwa [up, show (true = true) = True from eq_self true]

theorem sound_of_life {accepted : Prop} {ops : List Op} (life : Run (Step sys) s ops s')
    (h : s.Sound accepted) : s'.Sound accepted :=
  life.invariant (I := Sound accepted) (fun _ _ _ h step => (step_acts step).sound h) h

theorem life_grows {ops : List Op} (life : Run (Step sys) s ops s') : s.calls <+: s'.calls := by
  induction life with
  | nil => exact List.prefix_rfl
  | cons step _ ih => exact (step_acts step).grows.trans ih

/-- The call leaves a closed descriptor alone. -/
def Careful (sys : System) (s : Socket) (op : Op) : Prop :=
  s.HungUp → Quiet sys s op

/-- A careful life is tidy: the descriptor is not closed yet, or it was closed once. -/
theorem Tidy.of_careful {accepted : Prop} {ops : List Op}
    (life : Run (Guarded (Step sys) (Careful sys)) s ops s') (h : s.Sound accepted) (tidy : s.Tidy) :
    s'.Tidy := by
  have both : s'.Sound accepted ∧ s'.Tidy := by
    refine life.invariant (I := fun s => s.Sound accepted ∧ s.Tidy) ?_ ⟨h, tidy⟩
    intro s op s' both step
    obtain ⟨h, tidy⟩ := both
    obtain ⟨step, careful⟩ := step
    refine ⟨(step_acts step).sound h, ?_⟩
    by_cases closed : s.HungUp
    · obtain ⟨down, once⟩ := tidy.resolve_left (not_not_intro closed)
      have valid : s.sockfd ≠ -1 := fun free => h.not_hungUp free closed
      rw [eq_of_quiet valid down (careful closed) step]
      exact .inr ⟨down, once⟩
    · exact (step_acts step).tidy closed
  exact both.2

/-- A life that ends with the descriptor closed once was careful. -/
theorem careful_of_closedOnce {accepted : Prop} {ops : List Op} {calls : List (Syscall × Int)}
    (life : Run (Step sys) s ops s') (h : s.Sound accepted) (later : s'.calls <+: calls)
    (once : ∀ d rt, (.onFd .close d, rt) ∈ s'.calls → ClosedOnce calls d) :
    Run (Guarded (Step sys) (Careful sys)) s ops s' := by
  induction life with
  | nil => exact .nil _
  | @cons s next s' op ops step rest ih =>
    refine .cons ⟨step, fun closed => ?_⟩ (ih ((step_acts step).sound h) later once)
    by_contra loud
    obtain ⟨fd, rt, mem⟩ := closed
    obtain ⟨own, valid⟩ := h.closes fd rt mem
    -- the call comes after the close and before the end
    obtain ⟨c, rt', spoken⟩ := speaks_of_not_quiet (own ▸ valid) loud step
    have grown := (step_acts step).grows.trans (life_grows rest)
    rw [← own] at spoken
    exact (once fd rt (grown.mem mem)).silent mem (spoken.trans ((life_grows rest).trans later))

/-- In every life of a socket, constructed or accepted, with any sequence of calls and any answers of the
system, the destructor returns; and every descriptor that the socket had has then been passed to
`::close` once and to no call after that, exactly when it had none, or it was accepted or connected at some
time, and no call after the `::close` was one that passes the descriptor on. -/
theorem closedOnce_iff (born : Born sys s₀) {ops : List Op} (life : Run (Step sys) s₀ ops s) :
    ∃ rt s', close sys s = .done rt s' ∧ ((∀ d ∈ s'.obtained, ClosedOnce s'.calls d) ↔
      (s.obtained = [] ∨ s₀.isConnected = true ∨ s.Linked) ∧
        Run (Guarded (Step sys) (Careful sys)) s₀ ops s) := by
  obtain ⟨start, never⟩ := born.sound
  have h := sound_of_life life start
  obtain ⟨rt, s', closed, what⟩ := close_returns sys s
  have h' := (close_acts closed).sound h
  have ends : s'.obtained = s.obtained ∧ (s'.Linked ↔ s.Linked) := by
    rcases what with ⟨-, rfl⟩ | hangs
    · exact ⟨rfl, .rfl⟩
    · exact ⟨hangs.closed.obtained, hangs.closed.linked⟩
  refine ⟨rt, s', closed, fun once => ⟨?_, ?_⟩, fun ⟨linked, careful⟩ d mem => ?_⟩
  · rw [← ends.1, ← ends.2]
    by_cases free : s'.sockfd = -1
    · exact .inl (h'.free free).2
    · obtain ⟨before, rt, after, calls, -⟩ := once s'.sockfd (by rw [h'.held free]; exact List.mem_cons_self)
      refine .inr (h'.linked.mp (.inr ⟨s'.sockfd, rt, ?_⟩))
      rw [calls]
      exact List.mem_append_right _ List.mem_cons_self
  · apply careful_of_closedOnce life start (close_acts closed).grows
    intro d rt mem
    obtain ⟨own, valid⟩ := h'.closes d rt ((close_acts closed).grows.mem mem)
    apply once
    rw [h'.held (own ▸ valid), own]
    exact List.mem_cons_self
  · have valid : s.sockfd ≠ -1 := fun free => by
      rw [ends.1, (h.free free).2] at mem
      cases mem
    have had : s.obtained ≠ [] := by rw [h.held valid]; exact List.cons_ne_nil _ _
    have up := h.linked.mpr (linked.resolve_left had)
    rw [ends.1, h.held valid] at mem
    rw [List.mem_singleton.mp mem]
    rcases Tidy.of_careful careful start (.inl never) with open_ | ⟨down, once⟩
    · rcases what with ⟨idle, -⟩ | hangs
      · have down := idle.resolve_left valid
        rw [up.resolve_right open_] at down
        cases down
      · rw [← hangs.closed.sockfd]
        exact hangs.closed.once open_
    · rcases what with ⟨-, rfl⟩ | hangs
      · exact once
      · rw [hangs.2.1] at down
        cases down

/-- A system where every call succeeds, and `::socket` gives 3. -/
def obliging : System where
  answer _ c := if c.fd = none then 3 else 0
  written _ := 2
  hasFdCtx _ _ := false
  logs _ := true

/-- A stream socket of that system that is not connected, after the given calls. -/
def opened (calls : List FdCall) : Socket :=
  { create 2 1 0 with
    sockfd := 3
    calls := (.socket 2 1 0, 3) :: calls.map fun c => (.onFd c 3, 0)
    obtained := [3] }

/-- A stream that connects, sends and is closed: the descriptor is closed once. -/
theorem closedOnce_iff_stream : ∃ rt s', close obliging { opened [.connect, .send, .getsockname, .close] with
      localAddress := some ⟨2⟩ } = .done rt s' ∧ s'.obtained = [3] ∧ ClosedOnce s'.calls 3 := by
  have first : Step obliging (create 2 1 0) (.connect (some ⟨2⟩))
    { opened [.connect] with isConnected := true } := rfl
  have second : Step obliging { opened [.connect] with isConnected := true } .send
    { opened [.connect, .send] with isConnected := true } := rfl
  have third : Step obliging { opened [.connect, .send] with isConnected := true } .close
    { opened [.connect, .send, .getsockname, .close] with localAddress := some ⟨2⟩ } := rfl
  have careful : Run (Guarded (Step obliging) (Careful obliging)) _ _ _ :=
    .cons ⟨first, fun closed => by simp [HungUp, create] at closed⟩
      (.cons ⟨second, fun _ => trivial⟩ (.single ⟨third, fun _ => trivial⟩))
  obtain ⟨rt, s', closed, iff⟩ := closedOnce_iff (.constructed 2 1 0) (.cons first (.cons second (.single third)))
  have same : s' = { opened [.connect, .send, .getsockname, .close] with localAddress := some ⟨2⟩ } :=
    (Outcome.done.inj (closed.symm.trans rfl)).2
  refine ⟨rt, s', closed, by rw [same]; rfl, iff.mpr ⟨.inr (.inr ⟨3, by decide⟩), careful⟩ 3 ?_⟩
  rw [same]
  exact List.mem_cons_self

/-- Every descriptor of every socket is closed once, and left alone after that. -/
def ClosesOnce : Prop :=
  ∀ (sys : System) (s₀ : Socket), Born sys s₀ → ∀ (ops : List Op) (s : Socket), Run (Step sys) s₀ ops s →
    ∀ rt s', close sys s = .done rt s' → ∀ d ∈ s'.obtained, ClosedOnce s'.calls d

/-- A socket that is bound and listens: its descriptor is never closed. -/
theorem not_closesOnce : ¬ ClosesOnce := by
  intro all
  have life : Run (Step obliging) (create 2 1 0) [.bind (some ⟨2⟩), .listen] (opened [.bind, .listen]) :=
    .cons (t := opened [.bind]) rfl (.single rfl)
  have closed : close obliging (opened [.bind, .listen]) = .done true (opened [.bind, .listen]) := rfl
  obtain ⟨before, rt, after, calls, -⟩ :=
    all obliging _ (.constructed 2 1 0) _ _ life _ _ closed 3 List.mem_cons_self
  have mem : ((.onFd .close 3, rt) : Syscall × Int) ∈ (opened [.bind, .listen]).calls := by
    rw [calls]
    exact List.mem_append_right _ List.mem_cons_self
  simp [opened] at mem

end Sylar.Socket
