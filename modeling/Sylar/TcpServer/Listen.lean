import Sylar.Socket.Once

/-!
# The listening sockets of a server

The model of `TcpServer::bind`, with the sockets it makes. It goes on behind an address that fails, and returns
whether none did. `stop` calls `close` on the listening sockets, and so does the destructor of a socket, but `close`
looks at `is_connected_`, which a socket that listens never has: its descriptor is never closed (`stays_open`).
-/

namespace Sylar

open Lib
open Relation (ReflTransGen)

namespace Socket

variable {sys : System} {s s' : Socket}

/-- The calls of a socket that nobody connects. -/
def Op.Unconnected : Op → Prop
  | .connect _ | .reconnect => False
  | _ => True

/-- Not connected, and never closed. -/
structure Down (s : Socket) : Prop where
  isConnected : s.isConnected = false
  neverClosed : ¬ s.HungUp

theorem down_create (family type protocol : Int) : Down (create family type protocol) :=
  ⟨rfl, fun ⟨_, _, mem⟩ => nomatch mem⟩

theorem Down.asks (down : s.Down) (asks : ReflTransGen Ask s s') : s'.Down := by
  have asked := asked_of_asks asks
  refine ⟨asked.isConnected.trans down.isConnected, ?_⟩
  rintro ⟨fd, rt, mem⟩
  exact down.neverClosed ⟨fd, rt, (asked.hungUp fd rt).mp mem⟩

theorem Down.initOwn (down : s.Down) {rt : Bool} (run : initOwn sys s = .done rt s') : s'.Down := by
  have opened : ∀ (fd : Int) (obtained : List Int) (family type protocol : Int), Down
      { s with
        calls := s.calls ++ [(.socket family type protocol, fd)]
        sockfd := fd
        isConnected := false
        obtained := obtained } := by
    refine fun fd obtained family type protocol => ⟨rfl, ?_⟩
    rintro ⟨d, rt, mem⟩
    refine down.neverClosed ⟨d, rt, (mem_concat_call fun same => ?_).mp mem⟩
    cases congrArg Prod.fst same
  rw [initOwn_eq] at run
  split at run
  · cases run
    exact opened _ _ _ _ _
  · obtain ⟨_, s₁, options, done⟩ := Proc.bind_eq_done run
    cases done
    exact (opened _ _ _ _ _).asks (initOptions_asks.done options)

theorem Down.ensure (down : s.Down) {u : Unit} (run : ensure sys s = .done u s') : s'.Down := by
  have start : Socket.ensure sys s = (if s.isValid then pure () else do
    let _ ← init sys (-1)
    pure () : M Unit) s := rfl
  rw [start] at run
  split at run
  · cases run
    exact down
  · obtain ⟨rt, s₁, opened, done⟩ := Proc.bind_eq_done run
    cases done
    exact down.initOwn opened

theorem close_down (sys : System) (down : s.Down) : close sys s = .done true s := by
  rw [close_eq, if_pos (.inr down.isConnected)]

/-- A socket that has a descriptor and is not connected only asks, whatever is called but `connect`. -/
theorem step_asks (valid : s.sockfd ≠ -1) (down : s.Down) {op : Op} (step : Step sys s op s')
    (plain : op.Unconnected) : ReflTransGen Ask s s' := by
  have asks : ∀ {α : Type} {p : M α}, Proc.Keeps (ReflTransGen Ask) p → void p s = .done () s' →
      ReflTransGen Ask s s' := by
    intro α p keeps run
    obtain ⟨a, run⟩ := void_done run
    exact keeps.done run
  cases op with
  | bind addr =>
    obtain ⟨rt, run⟩ := void_done step
    obtain ⟨mid, opened, asks⟩ := bind_asks run
    rw [ensure_valid valid] at opened
    cases opened
    exact asks
  | listen => exact asks listen_asks step
  | accept => exact asks accept_asks step
  | connect addr | reconnect => exact plain.elim
  | close =>
    obtain ⟨rt, run⟩ := void_done step
    rw [close_down sys down] at run
    cases run
    exact .refl
  | getOption => exact asks (.bind asks_trans (onFd_asks (by decide)) fun _ => asks_pure _) step
  | setOption => exact asks setOption_asks step
  | getLocalAddress => exact asks getLocalAddress_asks step
  | getRemoteAddress => exact asks getRemoteAddress_asks step
  | toString => exact toString_asks.done step
  | _ => exact asks (transfer_asks _ (by decide)) step

/-- The descriptor of such a socket stays as it is, and is never closed. -/
theorem down_of_run {ops : List Op} (valid : s.sockfd ≠ -1) (down : s.Down) (run : Run (Step sys) s ops s')
    (plain : ∀ op ∈ ops, op.Unconnected) : s'.sockfd = s.sockfd ∧ s'.Down := by
  refine run.invariant_of_labels (I := fun t => t.sockfd = s.sockfd ∧ t.Down) (fun t op u kept step plain => ?_)
    ⟨rfl, down⟩ plain
  obtain ⟨same, down⟩ := kept
  have asks := step_asks (same ▸ valid) down step plain
  exact ⟨(asked_of_asks asks).sockfd.trans same, down.asks asks⟩

/-! ## The calls return -/

section Returns

variable (sys : System)

theorem onFd_returns (call : FdCall) : (onFd sys call).Returns :=
  .read_bind fun _ => .read_bind fun _ => .bind (.update _) fun _ => .pure _

theorem toString_total : (toString sys).Returns := fun s => ⟨(), toString_returns sys s⟩

theorem initOptions_returns : (initOptions sys).Returns := by
  have setOption : (setOption sys).Returns := .bind (onFd_returns sys _) fun _ => .pure _
  refine .read_bind fun s => .ite (.bind setOption fun _ => .ite (.bind setOption fun _ => .pure _) (.pure _)) (.pure _)

theorem ensure_returns : (ensure sys).Returns := by
  have initOwn : (initOwn sys).Returns :=
    .read_bind fun s => .bind (.read_bind fun _ => .bind (.update _) fun _ => .pure _) fun fd =>
      .bind (.update _) fun _ => .ite (.pure _) (.bind (initOptions_returns sys) fun _ => .pure _)
  exact .read_bind fun s => .ite (.pure _) (.bind initOwn fun _ => .pure _)

theorem complain_returns (a : Address) : (complain sys (some a)).Returns :=
  .read_bind fun _ => .ite (.bind (toString_total sys) fun _ => .bind (.demand a) fun _ => .pure _) (.pure _)

theorem bind_returns (a : Address) : (bind sys (some a)).Returns :=
  .bind (ensure_returns sys) fun _ => .read_bind fun _ =>
    .ite (.bind (.demand a) fun _ => .ite (.bind (complain_returns sys a) fun _ => .pure _)
      (.bind (onFd_returns sys _) fun _ => .ite (.bind (complain_returns sys a) fun _ => .pure _) (.pure _)))
      (.bind (complain_returns sys a) fun _ => .pure _)

theorem listen_returns : (listen sys).Returns := by
  have report : (report sys).Returns := .read_bind fun _ => .ite (toString_total sys) (.pure _)
  exact .read_bind fun _ => .ite
    (.bind (onFd_returns sys _) fun _ => .ite (.bind report fun _ => .pure _) (.pure _)) (.bind report fun _ => .pure _)

end Returns

/-! ## Why a socket listens -/

/-- The system has refused one of the calls that make a socket listen. -/
def Refused (s : Socket) : Prop :=
  ∃ c ∈ s.calls, (∃ family type protocol, c = (.socket family type protocol, -1)) ∨
    ∃ fd rt, rt ≠ 0 ∧ (c = (.onFd .bind fd, rt) ∨ c = (.onFd .listen fd, rt))

theorem Refused.asks (refused : s.Refused) (asks : ReflTransGen Ask s s') : s'.Refused := by
  obtain ⟨c, mem, why⟩ := refused
  exact ⟨c, (asked_of_asks asks).grows.mem mem, why⟩

theorem family_of_asks (asks : ReflTransGen Ask s s') : s'.family = s.family := by
  induction asks with
  | refl => rfl
  | tail _ ask ih => cases ask <;> exact ih

/-- The system call on the descriptor is the last one. -/
theorem onFd_done {call : FdCall} {rt : Int} (run : onFd sys call s = .done rt s') :
    s'.sockfd = s.sockfd ∧ (.onFd call s.sockfd, rt) ∈ s'.calls := by
  cases run
  exact ⟨rfl, List.mem_append_right _ (List.mem_singleton.mpr rfl)⟩

/-- A socket without a descriptor gets one, or the system has refused it. -/
theorem ensure_opens (free : s.sockfd = -1) {u : Unit} (run : ensure sys s = .done u s') :
    s'.family = s.family ∧ (s'.sockfd = -1 → s'.Refused) := by
  have invalid : ¬ s.isValid = true := fun valid => isValid_iff.mp valid free
  have start : Socket.ensure sys s = (if s.isValid then pure () else do
    let _ ← init sys (-1)
    pure () : M Unit) s := rfl
  rw [start, if_neg invalid] at run
  obtain ⟨rt, s₁, opened, done⟩ := Proc.bind_eq_done run
  cases done
  change initOwn sys s = .done rt s' at opened
  rw [initOwn_eq] at opened
  split at opened
  · rename_i failed
    cases opened
    refine ⟨rfl, fun _ => ⟨_, List.mem_append_right _ (List.mem_singleton.mpr rfl), .inl ?_⟩⟩
    rw [failed]
    exact ⟨_, _, _, rfl⟩
  · rename_i valid
    obtain ⟨_, s₂, options, done⟩ := Proc.bind_eq_done opened
    cases done
    have asks := initOptions_asks.done options
    have family := family_of_asks asks
    exact ⟨family, fun none => absurd ((asked_of_asks asks).sockfd.symm.trans none) valid⟩

/-- What `bind` finds for a socket without a descriptor. -/
theorem bind_done {addr : Address} (free : s.sockfd = -1) (same : addr.family = s.family) {rt : Bool}
    (run : bind sys (some addr) s = .done rt s') :
    (rt = true → s'.sockfd ≠ -1 ∧ (.onFd .bind s'.sockfd, 0) ∈ s'.calls) ∧ (rt = false → s'.Refused) := by
  obtain ⟨_, s₁, opened, run⟩ := Proc.bind_eq_done run
  obtain ⟨family, refused⟩ := ensure_opens free opened
  rw [Proc.read_bind_apply] at run
  split at run
  · rename_i valid
    rw [Proc.demand_some_bind_apply, if_neg (not_not.mpr (same.trans family.symm))] at run
    obtain ⟨answer, s₂, called, run⟩ := Proc.bind_eq_done run
    obtain ⟨sockfd, made⟩ := onFd_done called
    split at run
    · rename_i failed
      obtain ⟨_, s₃, complained, done⟩ := Proc.bind_eq_done run
      cases done
      refine ⟨Bool.noConfusion, fun _ => ?_⟩
      exact Refused.asks ⟨_, made, .inr ⟨_, _, failed, .inl rfl⟩⟩ ((complain_asks _).done complained)
    · rename_i succeeded
      rw [not_not.mp succeeded] at made
      cases run
      refine ⟨fun _ => ?_, Bool.noConfusion⟩
      rw [sockfd]
      exact ⟨isValid_iff.mp valid, made⟩
  · rename_i invalid
    obtain ⟨_, s₂, complained, done⟩ := Proc.bind_eq_done run
    cases done
    refine ⟨Bool.noConfusion, fun _ => ?_⟩
    exact (refused (not_not.mp fun valid => invalid (isValid_iff.mpr valid))).asks ((complain_asks _).done complained)

/-- What `listen` finds for a socket with a descriptor. -/
theorem listen_done (valid : s.sockfd ≠ -1) {rt : Bool} (run : listen sys s = .done rt s') :
    (rt = true → (.onFd .listen s'.sockfd, 0) ∈ s'.calls) ∧ (rt = false → s'.Refused) := by
  rw [listen, Proc.read_bind_apply, if_pos (isValid_iff.mpr valid)] at run
  obtain ⟨answer, s₁, called, run⟩ := Proc.bind_eq_done run
  obtain ⟨sockfd, made⟩ := onFd_done called
  split at run
  · rename_i failed
    obtain ⟨_, s₂, reported, done⟩ := Proc.bind_eq_done run
    cases done
    refine ⟨Bool.noConfusion, fun _ => ?_⟩
    exact Refused.asks ⟨_, made, .inr ⟨_, _, failed, .inr rfl⟩⟩ (report_asks.done reported)
  · rename_i succeeded
    rw [not_not.mp succeeded] at made
    cases run
    rw [sockfd]
    exact ⟨fun _ => made, Bool.noConfusion⟩

end Socket

/-! ## Binding -/

namespace TcpServer

open Socket

/-- What `bind` leaves: whether no address failed, the addresses that did, and the sockets that listen. -/
structure Bound where
  ok : Bool
  fails : List Socket.Address
  socks : List Socket

/-- The loop for one address: a socket that listens, or none. -/
def listenOn (sys : System) (addr : Socket.Address) : M Bool := do
  if ← Socket.bind sys (some addr) then Socket.listen sys else pure false

/-- `bind`, with what each of the sockets finds around it. -/
def bind : List (Socket.Address × System) → Option Bound
  | [] => some ⟨true, [], []⟩
  | (addr, sys) :: rest =>
    match listenOn sys addr (Socket.create addr.family sockStream 0) with
    | .done true sock => (bind rest).map fun b => { b with socks := sock :: b.socks }
    | .done false _ => (bind rest).map fun b => ⟨false, addr :: b.fails, b.socks⟩
    | _ => none

/-- A socket of the server: it is bound and listens on its descriptor, for an address of its family. -/
structure Listens (addr : Socket.Address) (sock : Socket) : Prop where
  family : sock.family = addr.family
  valid : sock.sockfd ≠ -1
  bound : (.onFd .bind sock.sockfd, 0) ∈ sock.calls
  listening : (.onFd .listen sock.sockfd, 0) ∈ sock.calls
  down : sock.Down

/-- What becomes of an address: a socket that listens, or the system has refused one of the calls for it. -/
def Tried (x : Socket.Address × System) : Option Socket → Prop
  | some sock => Listens x.1 sock
  | none => ∃ sock, listenOn x.2 x.1 (Socket.create x.1.family sockStream 0) = .done false sock ∧ sock.Refused

/-- The addresses that have no socket. -/
def without : List (Socket.Address × System) → List (Option Socket) → List Socket.Address
  | x :: xs, none :: socks => x.1 :: without xs socks
  | _ :: xs, some _ :: socks => without xs socks
  | _, _ => []

theorem tried_of_listenOn {x : Socket.Address × System} {rt : Bool} {sock : Socket}
    (run : listenOn x.2 x.1 (Socket.create x.1.family sockStream 0) = .done rt sock) :
    Tried x (if rt then some sock else none) := by
  obtain ⟨bound, s₁, first, rest⟩ := Proc.bind_eq_done run
  obtain ⟨mid, opened, asks⟩ := bind_asks first
  obtain ⟨listens, refused⟩ := bind_done rfl rfl first
  cases bound with
  | false =>
    cases rest
    exact ⟨_, run, refused rfl⟩
  | true =>
    change listen x.2 s₁ = .done rt sock at rest
    obtain ⟨valid, bound⟩ := listens rfl
    obtain ⟨listening, refused⟩ := listen_done valid rest
    have more := listen_asks.done rest
    have sockfd := (asked_of_asks more).sockfd
    cases rt with
    | false => exact ⟨_, run, refused rfl⟩
    | true =>
      have family : mid.family = x.1.family := (ensure_opens rfl opened).1
      refine ⟨(family_of_asks more).trans ((family_of_asks asks).trans family), ?_, ?_, listening rfl, ?_⟩
      · rw [sockfd]
        exact valid
      · rw [sockfd]
        exact (asked_of_asks more).grows.mem bound
      · exact (((down_create x.1.family sockStream 0).ensure opened).asks asks).asks more

/-- `bind` returns, and says whether an address failed: those fail for which the system refused a call, in their order,
and every other address has a socket that listens. Its descriptor is not closed or changed by any call but `connect`:
not by `stop`, and not by the destructor. -/
theorem stays_open (addrs : List (Socket.Address × System)) : ∃ b socks, bind addrs = some b ∧
    List.Forall₂ Tried addrs socks ∧ b.fails = without addrs socks ∧ b.socks = socks.reduceOption ∧
    (b.ok = true ↔ b.fails = []) ∧
    ∀ sock ∈ b.socks, ∀ (sys : System) (ops : List Op) (sock' : Socket),
      Run (Socket.Step sys) sock ops sock' → (∀ op ∈ ops, op.Unconnected) →
      sock'.sockfd = sock.sockfd ∧ ¬ sock'.HungUp := by
  induction addrs with
  | nil => exact ⟨_, [], rfl, .nil, rfl, rfl, by simp, fun _ mem => absurd mem List.not_mem_nil⟩
  | cons x addrs ih =>
    obtain ⟨b, socks, bound, tried, fails, reduced, ok, all⟩ := ih
    have returns : (listenOn x.2 x.1).Returns := .bind (bind_returns x.2 x.1) fun rt => .ite (listen_returns x.2) (.pure _)
    obtain ⟨rt, sock, run⟩ := returns (Socket.create x.1.family sockStream 0)
    have first := tried_of_listenOn run
    rw [bind, run, bound]
    cases rt with
    | true =>
      have listens : Listens x.1 sock := first
      refine ⟨_, some sock :: socks, rfl, .cons first tried, fails, congrArg _ reduced, ok, fun other mem => ?_⟩
      rcases List.mem_cons.mp mem with rfl | mem
      · intro sys ops sock' later plain
        obtain ⟨same, down⟩ := down_of_run listens.valid listens.down later plain
        exact ⟨same, down.neverClosed⟩
      · exact all other mem
    | false => exact ⟨_, none :: socks, rfl, .cons first tried, congrArg _ fails, reduced, by simp, all⟩

end TcpServer

end Sylar
