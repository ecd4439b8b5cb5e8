import Sylar.Socket.Acts

/-!
# What holds over a socket's life

A socket has at most one descriptor in its life and passes no other to the system. It has been connected,
if it was accepted or a connect succeeded, until the descriptor is closed. Both are kept by every small
step, and so by every call (`Acts.sound`). `ClosedOnce` is what ought to become of a descriptor; a call
that closes it leaves it so (`Acts.tidy`).
-/

namespace Sylar.Socket

open Lib
open Relation (ReflTransGen)

variable {sys : System} {s s' : Socket}

/-! ## What holds over a life -/

/-- `::close` has been called. -/
def HungUp (s : Socket) : Prop :=
  ∃ fd rt, (.onFd .close fd, rt) ∈ s.calls

/-- `::connect` has succeeded. -/
def Linked (s : Socket) : Prop :=
  ∃ fd, (.onFd .connect fd, 0) ∈ s.calls

/-- The facts that every call keeps, on a socket that was accepted or not: it has at most one descriptor
in its life and passes no other to the system; and it has been connected, if it was accepted or a
connect succeeded, until it was closed. -/
structure Sound (accepted : Prop) (s : Socket) : Prop where
  free : s.sockfd = -1 → s.isConnected = false ∧ s.obtained = []
  held : s.sockfd ≠ -1 → s.obtained = [s.sockfd]
  own : ∀ c ∈ s.calls, ∀ fd, c.1.fd = some fd → fd = -1 ∨ fd = s.sockfd
  closes : ∀ fd rt, (.onFd .close fd, rt) ∈ s.calls → fd = s.sockfd ∧ fd ≠ -1
  linked : (s.isConnected = true ∨ s.HungUp) ↔ (accepted ∨ s.Linked)

theorem mem_concat_call {c d : Syscall × Int} {calls : List (Syscall × Int)} (other : d ≠ c) :
    c ∈ calls ++ [d] ↔ c ∈ calls := by
  rw [List.mem_append, List.mem_singleton]
  exact ⟨fun mem => mem.resolve_right fun same => other same.symm, .inl⟩

/-- What asking leaves as it was, and what it adds. -/
structure Asked (s s' : Socket) : Prop where
  sockfd : s'.sockfd = s.sockfd
  isConnected : s'.isConnected = s.isConnected
  obtained : s'.obtained = s.obtained
  grows : s.calls <+: s'.calls
  own : ∀ c ∈ s'.calls, c ∈ s.calls ∨ c.1.fd = some s.sockfd
  hungUp : ∀ fd rt, (.onFd .close fd, rt) ∈ s'.calls ↔ (.onFd .close fd, rt) ∈ s.calls
  linked : s'.Linked ↔ s.Linked

theorem Asked.refl (s : Socket) : Asked s s :=
  ⟨rfl, rfl, rfl, List.prefix_rfl, fun _ mem => .inl mem, fun _ _ => .rfl, .rfl⟩

theorem Asked.trans {s₁ s₂ s₃ : Socket} (first : Asked s₁ s₂) (second : Asked s₂ s₃) : Asked s₁ s₃ := by
  constructor
  case sockfd => exact second.sockfd.trans first.sockfd
  case isConnected => exact second.isConnected.trans first.isConnected
  case obtained => exact second.obtained.trans first.obtained
  case grows => exact first.grows.trans second.grows
  case own =>
    intro c mem
    rcases second.own c mem with old | new
    · exact first.own c old
    · exact .inr (new.trans (congrArg some first.sockfd))
  case hungUp => exact fun fd rt => (second.hungUp fd rt).trans (first.hungUp fd rt)
  case linked => exact second.linked.trans first.linked

theorem Ask.asked (ask : Ask s s') : Asked s s' := by
  cases ask with
  | @call c plain rt =>
    have other : ∀ (d : FdCall) fd rt', c ≠ d → ((.onFd c s.sockfd, rt) : Syscall × Int) ≠ (.onFd d fd, rt') := by
      intro d fd rt' ne same
      cases same
      exact ne rfl
    constructor
    case sockfd | isConnected | obtained => rfl
    case grows => exact List.prefix_append _ _
    case own =>
      intro d mem
      rcases List.mem_append.mp mem with old | new
      · exact .inl old
      · exact .inr (by rw [List.mem_singleton.mp new]; rfl)
    case hungUp => exact fun fd rt' => mem_concat_call (other _ _ _ plain.1)
    case linked => exact exists_congr fun fd => mem_concat_call (other _ _ _ plain.2)
  | addresses l r => exact ⟨rfl, rfl, rfl, List.prefix_rfl, fun _ mem => .inl mem, fun _ _ => .rfl, .rfl⟩

theorem asked_of_asks (asks : ReflTransGen Ask s s') : Asked s s' := by
  induction asks with
  | refl => exact .refl s
  | tail _ ask ih => exact ih.trans ask.asked

theorem Asked.sound {accepted : Prop} (asked : Asked s s') (h : s.Sound accepted) : s'.Sound accepted := by
  have hungUp : s'.HungUp ↔ s.HungUp := exists_congr fun fd => exists_congr fun rt => asked.hungUp fd rt
  constructor
  case free =>
    intro free
    rw [asked.isConnected, asked.obtained]
    exact h.free (asked.sockfd.symm.trans free)
  case held =>
    intro valid
    rw [asked.sockfd] at valid ⊢
    rw [asked.obtained]
    exact h.held valid
  case own =>
    intro c mem fd passed
    rw [asked.sockfd]
    rcases asked.own c mem with old | new
    · exact h.own c old fd passed
    · exact .inr (Option.some.inj (passed.symm.trans new))
  case closes =>
    intro fd rt mem
    rw [asked.sockfd]
    exact h.closes fd rt ((asked.hungUp fd rt).mp mem)
  case linked =>
    rw [asked.isConnected, hungUp, asked.linked]
    exact h.linked

/-- Whatever is added without being a `::close`. -/
theorem hungUp_concat {d : Syscall × Int} (other : ∀ fd, d.1 ≠ .onFd .close fd)
    (calls : s'.calls = s.calls ++ [d]) : s'.HungUp ↔ s.HungUp := by
  unfold HungUp
  rw [calls]
  refine exists_congr fun fd => exists_congr fun rt => mem_concat_call fun same => ?_
  exact other fd (congrArg Prod.fst same)

/-- Small steps only add to the calls, and close nothing. -/
theorem Act.grows (act : Act s s') : s.calls <+: s'.calls ∧ (s'.HungUp ↔ s.HungUp) := by
  cases act with
  | ask ask =>
    have asked := ask.asked
    exact ⟨asked.grows, exists_congr fun fd => exists_congr fun rt => asked.hungUp fd rt⟩
  | refused | opened | failed | connected => exact ⟨List.prefix_append _ _, hungUp_concat (by simp) rfl⟩

/-- Adding one call, on the socket's own descriptor or on none. -/
theorem own_concat {accepted : Prop} (h : s.Sound accepted) {d : Syscall × Int} {sockfd : Int}
    (kept : s.sockfd = -1 ∨ s.sockfd = sockfd) (new : ∀ fd, d.1.fd = some fd → fd = -1 ∨ fd = sockfd) :
    ∀ c ∈ s.calls ++ [d], ∀ fd, c.1.fd = some fd → fd = -1 ∨ fd = sockfd := by
  intro c mem fd passed
  rcases List.mem_append.mp mem with old | same
  · rcases h.own c old fd passed with none | own
    · exact .inl none
    · rw [own]
      exact kept
  · rw [List.mem_singleton.mp same] at passed
    exact new fd passed

theorem Sound.not_hungUp {accepted : Prop} (h : s.Sound accepted) (free : s.sockfd = -1) : ¬ s.HungUp := by
  intro closed
  obtain ⟨fd, rt, mem⟩ := closed
  obtain ⟨own, valid⟩ := h.closes fd rt mem
  exact valid (own.trans free)

theorem Act.sound {accepted : Prop} (act : Act s s') (h : s.Sound accepted) : s'.Sound accepted := by
  have hungUp := act.grows.2
  cases act with
  | ask ask => exact ask.asked.sound h
  | refused family type protocol free =>
    constructor
    case free => exact fun _ => ⟨rfl, (h.free free).2⟩
    case held => exact fun valid => absurd rfl valid
    case own => exact own_concat h (.inl free) (by simp [Syscall.fd])
    case closes => exact fun fd rt mem => absurd (hungUp.mp ⟨fd, rt, mem⟩) (h.not_hungUp free)
    case linked =>
      rw [hungUp, show Linked _ ↔ s.Linked from exists_congr fun fd => mem_concat_call (by simp), ← h.linked,
        (h.free free).1]
  | opened family type protocol free valid =>
    constructor
    case free => exact fun free' => absurd free' valid
    case held => exact fun _ => by rw [(h.free free).2]; rfl
    case own => exact own_concat h (.inl free) (by simp [Syscall.fd])
    case closes => exact fun fd rt mem => absurd (hungUp.mp ⟨fd, rt, mem⟩) (h.not_hungUp free)
    case linked =>
      rw [hungUp, show Linked _ ↔ s.Linked from exists_congr fun fd => mem_concat_call (by simp), ← h.linked,
        (h.free free).1]
  | @failed rt error =>
    have silent : ∀ fd, ((.onFd .connect s.sockfd, rt) : Syscall × Int) ≠ (.onFd .connect fd, 0) :=
      fun fd same => error (congrArg Prod.snd same)
    constructor
    case free => exact h.free
    case held => exact h.held
    case own => exact own_concat h (.inr rfl) fun fd passed => .inr (Option.some.inj passed).symm
    case closes =>
      intro fd rt' mem
      exact h.closes fd rt' ((mem_concat_call (by simp)).mp mem)
    case linked =>
      rw [hungUp, show Linked _ ↔ s.Linked from exists_congr fun fd => mem_concat_call (silent fd)]
      exact h.linked
  | connected valid =>
    constructor
    case free => exact fun free => absurd free valid
    case held => exact h.held
    case own => exact own_concat h (.inr rfl) fun fd passed => .inr (Option.some.inj passed).symm
    case closes =>
      intro fd rt mem
      exact h.closes fd rt ((mem_concat_call (by simp)).mp mem)
    case linked =>
      refine iff_of_true (.inl rfl) (.inr ⟨s.sockfd, ?_⟩)
      exact List.mem_append_right _ List.mem_cons_self

/-! ## Closing -/

/-- A descriptor is passed to `::close` once, and to no call after that. -/
def ClosedOnce (calls : List (Syscall × Int)) (d : Int) : Prop :=
  ∃ before rt after, calls = before ++ (.onFd .close d, rt) :: after ∧
    (∀ rt', (.onFd .close d, rt') ∉ before) ∧ ∀ c ∈ after, c.1.fd ≠ some d

/-- Nothing on the descriptor can follow a close that came before. -/
theorem ClosedOnce.silent {calls earlier : List (Syscall × Int)} {d rt rt' : Int} {c : FdCall}
    (once : ClosedOnce calls d) (closed : (.onFd .close d, rt) ∈ earlier)
    (later : earlier ++ [(.onFd c d, rt')] <+: calls) : False := by
  obtain ⟨before, rt₀, after, split, first, none⟩ := once
  obtain ⟨rest, whole⟩ := later
  rw [List.append_assoc, split] at whole
  rcases List.append_eq_append_iff.mp whole with ⟨more, eq, tail⟩ | ⟨more, eq, tail⟩
  · -- the earlier calls end before the first close
    exact first rt (eq ▸ List.mem_append_left more closed)
  · cases more with
    | nil =>
      rw [List.append_nil] at eq
      exact first rt (eq ▸ closed)
    | cons x more =>
      obtain ⟨-, after_eq⟩ := List.cons.inj tail
      refine none (.onFd c d, rt') ?_ rfl
      rw [after_eq]
      exact List.mem_append_right _ List.mem_cons_self

/-- What closing leaves as it was, and what it adds. -/
structure Closed (s s' : Socket) : Prop where
  isConnected : s'.isConnected = false
  obtained : s'.obtained = s.obtained
  sockfd : s'.sockfd = s.sockfd
  grows : s.calls <+: s'.calls
  linked : s'.Linked ↔ s.Linked
  once : ¬ s.HungUp → ClosedOnce s'.calls s'.sockfd

theorem HangsUp.closed (hangs : HangsUp s s') : Closed s s' := by
  obtain ⟨-, -, mid, rt, asks, rfl⟩ := hangs
  have asked := asked_of_asks asks
  constructor
  case isConnected => exact asked.isConnected
  case obtained => exact asked.obtained
  case sockfd => exact asked.sockfd
  case grows => exact asked.grows.trans (List.prefix_append _ _)
  case linked => exact Iff.trans (exists_congr fun fd => mem_concat_call (by simp)) asked.linked
  case once =>
    intro never
    refine ⟨mid.calls, rt, [], rfl, fun rt' mem => ?_, fun c mem => nomatch mem⟩
    exact never ⟨_, _, (asked.hungUp _ _).mp mem⟩

theorem HangsUp.sound {accepted : Prop} (hangs : HangsUp s s') (h : s.Sound accepted) : s'.Sound accepted := by
  have closed := hangs.closed
  obtain ⟨valid, up, mid, rt, asks, rfl⟩ := hangs
  have asked := asked_of_asks asks
  have sockfd : mid.sockfd = s.sockfd := asked.sockfd
  constructor
  case free => exact fun free => absurd (sockfd.symm.trans free) valid
  case held =>
    intro _
    rw [closed.obtained, closed.sockfd]
    exact h.held valid
  case own =>
    intro c mem fd passed
    show fd = -1 ∨ fd = mid.sockfd
    rw [sockfd]
    rcases List.mem_append.mp mem with old | new
    · rcases asked.own c old with old | new
      · exact h.own c old fd passed
      · exact .inr (Option.some.inj (passed.symm.trans new))
    · rw [List.mem_singleton.mp new] at passed
      exact .inr ((Option.some.inj passed).symm.trans sockfd)
  case closes =>
    intro fd rt' mem
    show fd = mid.sockfd ∧ fd ≠ -1
    rw [sockfd]
    rcases List.mem_append.mp mem with old | new
    · exact h.closes fd rt' ((asked.hungUp fd rt').mp old)
    · cases List.mem_singleton.mp new
      exact ⟨sockfd, sockfd ▸ valid⟩
  case linked =>
    refine iff_of_true (.inr ⟨_, rt, List.mem_append_right _ List.mem_cons_self⟩) ?_
    rw [closed.linked]
    exact h.linked.mp (.inl up)

/-! ## Calls -/

theorem acts_grows (acts : ReflTransGen Act s s') : s.calls <+: s'.calls ∧ (s'.HungUp ↔ s.HungUp) := by
  induction acts with
  | refl => exact ⟨List.prefix_rfl, .rfl⟩
  | tail _ act ih => exact ⟨ih.1.trans act.grows.1, act.grows.2.trans ih.2⟩

theorem acts_sound {accepted : Prop} (acts : ReflTransGen Act s s') (h : s.Sound accepted) :
    s'.Sound accepted := by
  induction acts with
  | refl => exact h
  | tail _ act ih => exact act.sound ih

theorem Acts.grows (acts : Acts s s') : s.calls <+: s'.calls := by
  rcases acts with acts | ⟨mid, acts, hangs⟩
  · exact (acts_grows acts).1
  · exact (acts_grows acts).1.trans hangs.closed.grows

theorem Acts.sound {accepted : Prop} (acts : Acts s s') (h : s.Sound accepted) : s'.Sound accepted := by
  rcases acts with acts | ⟨mid, acts, hangs⟩
  · exact acts_sound acts h
  · exact hangs.sound (acts_sound acts h)

/-- The descriptor has not been closed, or it has been closed once and left alone since. -/
def Tidy (s : Socket) : Prop :=
  ¬ s.HungUp ∨ s.isConnected = false ∧ ClosedOnce s.calls s.sockfd

theorem Acts.tidy (acts : Acts s s') (never : ¬ s.HungUp) : s'.Tidy := by
  rcases acts with acts | ⟨mid, acts, hangs⟩
  · exact .inl ((acts_grows acts).2.not.mpr never)
  · have closed := hangs.closed
    exact .inr ⟨closed.isConnected, closed.once ((acts_grows acts).2.not.mpr never)⟩

end Sylar.Socket
