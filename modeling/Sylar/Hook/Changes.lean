import Sylar.Hook.Safety

/-!
# What ends a wait

A step of the worker changes the waits of its fibers in few ways: one fiber moves outside a wait, or a wait begins, or
ends, or is timed out (`Step.change`). Each wait has its own `timer_info`, and a timer callback that can still lock one
is that of its wait; so a callback times out no wait but its own.

A registration that is there when a fiber goes to sleep is gone when it is back on the worker. In between its own timer
has run out, or `epoll_wait` has reported the direction, or somebody has cancelled it (`woken`).
-/

namespace Sylar.Hook

namespace World

open Lib

variable {K F : Type} [DecidableEq F]

/-! ## Who holds a `timer_info` -/

/-- Each wait has a `timer_info` of its own, and a callback that can still lock one is that of its wait. -/
structure InfosHeld (timers : TimerManager (Expiry F) InfoPtr) (infos : List (Option Nat)) (point : F → Point) :
    Prop where
  allocated : ∀ f fd d wait, (point f).waiting = some (fd, d, wait) → wait.tinfo < infos.length
  own : ∀ f g fd fd' d d' wait wait', (point f).waiting = some (fd, d, wait) →
    (point g).waiting = some (fd', d', wait') → wait.tinfo = wait'.tinfo → f = g
  bound : ∀ t e info, timers.callback t = some (.bound e info) → info < infos.length ∧
    (infos[info]?.join.isSome → ∃ wait, (point e.fiber).waiting = some (e.sockfd, e.event, wait) ∧ wait.tinfo = info)

namespace InfosHeld

variable {timers timers' : TimerManager (Expiry F) InfoPtr} {infos : List (Option Nat)} {point : F → Point} {f : F}
  {fd : Fd} {d : Direction} {wait : Wait} {p : Point}

omit [DecidableEq F] in
theorem congr (h : InfosHeld timers infos point) (calls : ∀ t, timers'.callback t = timers.callback t) :
    InfosHeld timers' infos point :=
  ⟨h.allocated, h.own, fun t e info found => h.bound t e info (calls t ▸ found)⟩

/-- A fiber goes on in the same wait, or outside any. -/
theorem goOn (h : InfosHeld timers infos point) (same : p.waiting = (point f).waiting) :
    InfosHeld timers infos (Function.update point f p) := by
  have waits : ∀ g, (Function.update point f p g).waiting = (point g).waiting := by
    intro g
    by_cases eq : g = f
    · rw [eq, Function.update_self, same]
    · rw [Function.update_of_ne eq]
  refine ⟨fun g fd d wait at_ => h.allocated g fd d wait (waits g ▸ at_), ?_, fun t e info found => ?_⟩
  · intro g g' fd fd' d d' wait wait' at_ at_'
    exact h.own g g' fd fd' d d' wait wait' (waits g ▸ at_) (waits g' ▸ at_')
  · rw [waits e.fiber]
    exact h.bound t e info found

/-- A wait begins. -/
theorem begins (h : InfosHeld timers infos point) (outside : (point f).waiting = none)
    (inWait : p.waiting = some (fd, d, wait)) (new : wait.tinfo = infos.length)
    (calls : ∀ t, timers'.callback t = timers.callback t ∨
      timers'.callback t = some (.bound ⟨fd, d, f⟩ infos.length)) :
    InfosHeld timers' (infos ++ [some 0]) (Function.update point f p) := by
  have self : (Function.update point f p f).waiting = some (fd, d, wait) := by rw [Function.update_self, inWait]
  have other : ∀ g ≠ f, (Function.update point f p g).waiting = (point g).waiting := fun g ne => by
    rw [Function.update_of_ne ne]
  have one : ∀ {fd' d' wait'}, (Function.update point f p f).waiting = some (fd', d', wait') →
      wait'.tinfo = infos.length := by
    intro fd' d' wait' at_
    cases self.symm.trans at_
    exact new
  have before : ∀ {g fd' d' wait'}, g ≠ f → (Function.update point f p g).waiting = some (fd', d', wait') →
      wait'.tinfo < infos.length :=
    fun ne at_ => h.allocated _ _ _ _ ((other _ ne).symm.trans at_)
  have more : (infos ++ [some 0]).length = infos.length + 1 := by rw [List.length_append, List.length_singleton]
  refine ⟨fun g fd' d' wait' at_ => ?_, fun g g' fd₁ fd₂ d₁ d₂ wait₁ wait₂ at₁ at₂ eq => ?_, fun t e info found => ?_⟩
  · rw [more]
    by_cases eq : g = f
    · subst eq
      rw [one at_]
      exact Nat.lt_succ_self _
    · exact Nat.lt_succ_of_lt (before eq at_)
  · by_cases here : g = f
    · by_cases there : g' = f
      · exact here.trans there.symm
      · subst here
        exact absurd (eq ▸ one at₁) (Nat.ne_of_lt (before there at₂))
    · by_cases there : g' = f
      · subst there
        exact absurd (eq ▸ one at₂) (Nat.ne_of_lt (before here at₁))
      · exact h.own g g' fd₁ fd₂ d₁ d₂ wait₁ wait₂ ((other g here).symm.trans at₁) ((other g' there).symm.trans at₂) eq
  · rw [more]
    rcases calls t with old | fresh
    · obtain ⟨lt, held⟩ := h.bound t e info (old.symm.trans found)
      refine ⟨Nat.lt_succ_of_lt lt, fun live => ?_⟩
      rw [List.getElem?_append_left lt] at live
      obtain ⟨wait', waits, same⟩ := held live
      have ne : e.fiber ≠ f := by
        intro eq
        rw [eq, outside] at waits
        cases waits
      exact ⟨wait', (other _ ne).trans waits, same⟩
    · cases found.symm.trans fresh
      exact ⟨Nat.lt_succ_self _, fun _ => ⟨wait, self, new⟩⟩

/-- A wait ends, and its `timer_info` goes. -/
theorem release (h : InfosHeld timers infos point) (inWait : (point f).waiting = some (fd, d, wait))
    (still : p.waiting = none) : InfosHeld timers (infos.set wait.tinfo none) (Function.update point f p) := by
  have self : (Function.update point f p f).waiting = none := by rw [Function.update_self, still]
  have other : ∀ g x, (Function.update point f p g).waiting = some x → g ≠ f ∧ (point g).waiting = some x := by
    intro g x at_
    have ne : g ≠ f := by
      intro eq
      rw [eq, self] at at_
      cases at_
    rw [Function.update_of_ne ne] at at_
    exact ⟨ne, at_⟩
  refine ⟨fun g fd' d' wait' at_ => ?_, fun g g' fd₁ fd₂ d₁ d₂ wait₁ wait₂ at₁ at₂ => ?_, fun t e info found => ?_⟩
  · rw [List.length_set]
    exact h.allocated g fd' d' wait' (other g _ at_).2
  · exact h.own g g' fd₁ fd₂ d₁ d₂ wait₁ wait₂ (other g _ at₁).2 (other g' _ at₂).2
  · obtain ⟨lt, held⟩ := h.bound t e info found
    refine ⟨by rwa [List.length_set], fun live => ?_⟩
    have ne : wait.tinfo ≠ info := by
      intro eq
      subst eq
      rw [List.getElem?_set_self lt] at live
      cases live
    rw [List.getElem?_set_ne ne] at live
    obtain ⟨wait', waits, same⟩ := held live
    have notF : e.fiber ≠ f := by
      intro eq
      rw [eq, inWait] at waits
      cases waits
      exact ne same
    refine ⟨wait', ?_, same⟩
    rw [Function.update_of_ne notF]
    exact waits

omit [DecidableEq F] in
/-- A callback marks a `timer_info` that it could lock. -/
theorem mark (h : InfosHeld timers infos point) {info : InfoPtr} (live : infos[info]?.join.isSome) (n : Nat) :
    InfosHeld timers (infos.set info (some n)) point := by
  refine ⟨fun g fd' d' wait' at_ => ?_, h.own, fun t e i found => ?_⟩
  · rw [List.length_set]
    exact h.allocated g fd' d' wait' at_
  · obtain ⟨lt, held⟩ := h.bound t e i found
    refine ⟨by rwa [List.length_set], fun now => ?_⟩
    by_cases eq : info = i
    · exact held (eq ▸ live)
    · rw [List.getElem?_set_ne eq] at now
      exact held now

end InfosHeld

/-! ## What a step changes -/

/-- What a step changes of the waits: nothing, or where one fiber is outside them, or a wait begins, or ends, or times
out. A registration goes with its wait, or because the step `ended` it. -/
inductive Change (ended : Fd → Direction → Prop) (s s' : World K F) : Prop where
  | stays (point : s'.point = s.point) (infos : s'.infos = s.infos)
      (calls : ∀ t, s'.timers.callback t = s.timers.callback t)
      (bits : ∀ fd d, s.io.bit fd d = true → s'.io.bit fd d = true ∨ ended fd d)
  | moves (f : F) (p : Point) (who : s.worker = .running f ∨ s.point f = .fresh)
      (same : p.waiting = (s.point f).waiting) (point : s'.point = Function.update s.point f p)
      (infos : s'.infos = s.infos) (calls : ∀ t, s'.timers.callback t = s.timers.callback t)
      (bits : ∀ fd d, s.io.bit fd d = true → s'.io.bit fd d = true)
  | begins (f : F) (fd : Fd) (d : Direction) (wait : Wait) (p : Point) (who : s.worker = .running f)
      (outside : (s.point f).waiting = none) (inWait : p.waiting = some (fd, d, wait))
      (new : wait.tinfo = s.infos.length) (point : s'.point = Function.update s.point f p)
      (infos : s'.infos = s.infos ++ [some 0])
      (calls : ∀ t, s'.timers.callback t = s.timers.callback t ∨
        s'.timers.callback t = some (.bound ⟨fd, d, f⟩ s.infos.length))
      (bits : ∀ fd d, s.io.bit fd d = true → s'.io.bit fd d = true)
  | ends (f : F) (fd : Fd) (d : Direction) (wait : Wait) (p : Point) (who : s.worker = .running f)
      (inWait : (s.point f).waiting = some (fd, d, wait)) (still : p.waiting = none)
      (point : s'.point = Function.update s.point f p) (infos : s'.infos = s.infos.set wait.tinfo none)
      (calls : ∀ t, s'.timers.callback t = s.timers.callback t)
      (bits : ∀ fd d, s.io.bit fd d = true → s'.io.bit fd d = true)
  | marks (t : TimerPtr) (e : Expiry F) (info : InfoPtr) (callback : s.timers.callback t = some (.bound e info))
      (live : s.lock info = true) (point : s'.point = s.point)
      (infos : s'.infos = s.infos.set info (some etimedout))
      (calls : ∀ t, s'.timers.callback t = s.timers.callback t)
      (bits : ∀ fd d, s.io.bit fd d = true → s'.io.bit fd d = true ∨ fd = e.sockfd ∧ d = e.event)

/-- Every `timer_info` is held as it should be. -/
def Held (s : World K F) : Prop := InfosHeld s.timers s.infos s.point

namespace Change

variable {ended : Fd → Direction → Prop} {s s' : World K F} {f : F} {fd : Fd} {d : Direction} {wait : Wait}

theorem held (h : s.Held) (change : Change ended s s') : s'.Held := by
  unfold Held at h ⊢
  cases change with
  | stays point infos calls bits =>
    rw [point, infos]
    exact h.congr calls
  | moves f p who same point infos calls bits =>
    rw [point, infos]
    exact (h.goOn same).congr calls
  | begins f fd d wait p who outside inWait new point infos calls bits =>
    rw [point, infos]
    exact h.begins outside inWait new calls
  | ends f fd d wait p who inWait still point infos calls bits =>
    rw [point, infos]
    exact (h.release inWait still).congr calls
  | marks t e info callback live point infos calls bits =>
    rw [point, infos]
    exact (h.mark live etimedout).congr calls

/-- A step moves no fiber that has begun and is not on the worker. -/
theorem point_eq (change : Change ended s s') (off : s.worker ≠ .running f) (begun : s.point f ≠ .fresh) :
    s'.point f = s.point f := by
  have other : ∀ {g p}, s.worker = .running g → Function.update s.point g p f = s.point f := by
    intro g p who
    apply Function.update_of_ne
    intro eq
    exact off (eq ▸ who)
  cases change with
  | stays point => rw [point]
  | moves g p who same point =>
    rw [point]
    rcases who with who | fresh
    · exact other who
    · apply Function.update_of_ne
      intro eq
      exact begun (eq ▸ fresh)
  | begins g fd d wait p who outside inWait new point =>
    rw [point]
    exact other who
  | ends g fd d wait p who inWait still point =>
    rw [point]
    exact other who
  | marks t e info callback live point => rw [point]

/-- A wait that has timed out has done so for good. -/
theorem expired (h : s.Held) (change : Change ended s s') (off : s.worker ≠ .running f)
    (inWait : (s.point f).waiting = some (fd, d, wait)) (out : s.infos[wait.tinfo]? = some (some etimedout)) :
    s'.infos[wait.tinfo]? = some (some etimedout) := by
  cases change with
  | stays point infos => rwa [infos]
  | moves g p who same point infos => rwa [infos]
  | begins g fd' d' wait' p who outside inWait' new point infos =>
    rw [infos, List.getElem?_append_left (h.allocated f fd d wait inWait)]
    exact out
  | ends g fd' d' wait' p who inWait' still point infos =>
    have ne : wait'.tinfo ≠ wait.tinfo := by
      intro eq
      have same := h.own g f fd' fd d' d wait' wait inWait' inWait eq
      exact off (same ▸ who)
    rw [infos, List.getElem?_set_ne ne]
    exact out
  | marks t e info callback live point infos =>
    rw [infos]
    by_cases eq : info = wait.tinfo
    · rw [eq, List.getElem?_set_self (h.allocated f fd d wait inWait)]
    · rw [List.getElem?_set_ne eq]
      exact out

/-- A fiber that sleeps stays registered, unless its wait is timed out or the step ended it. -/
theorem registered {owner : Fd → F} (h : s.Held) (inv : Inv owner s) (change : Change ended s s')
    (at_ : s.point f = .asleep fd d wait) (set : s.io.bit fd d = true) :
    s'.io.bit fd d = true ∨ s'.infos[wait.tinfo]? = some (some etimedout) ∨ ended fd d := by
  cases change with
  | stays point infos calls bits => exact (bits fd d set).imp_right .inr
  | moves g p who same point infos calls bits => exact .inl (bits fd d set)
  | begins g fd' d' wait' p who outside inWait' new point infos calls bits => exact .inl (bits fd d set)
  | ends g fd' d' wait' p who inWait' still point infos calls bits => exact .inl (bits fd d set)
  | marks t e info callback live point infos calls bits =>
    rcases bits fd d set with still | ⟨rfl, rfl⟩
    · exact .inl still
    · -- the callback is that of a wait on this direction, and only the owner waits on it
      have inWait : (s.point f).waiting = some (e.sockfd, e.event, wait) := by rw [at_]; rfl
      obtain ⟨wait', waits, same⟩ := (h.bound t e info callback).2 live
      have own : owner e.sockfd = f := inv.tokens.owned f _ e.event (by rw [at_]; rfl)
      have own' : owner e.sockfd = e.fiber := by
        refine inv.tokens.owned e.fiber _ e.event ?_
        cases here : s.point e.fiber <;> rw [here] at waits <;> cases waits <;> rfl
      rw [← own', own, inWait] at waits
      cases waits
      rw [infos, ← same, List.getElem?_set_self (h.allocated f _ _ wait inWait)]
      exact .inr (.inl rfl)

end Change

/-! ## The steps of the worker -/

/-- The events that end a registration: a report of the direction, and a cancellation. -/
def Ends : Event F → Fd → Direction → Prop
  | .idle _ _ reports, fd, d => ∃ report ∈ reports, report.1 = fd ∧ report.2.delivered.has d = true
  | .cancelEvent fd' event, fd, d => fd' = fd ∧ event.has d = true
  | _, _, _ => False

section Changes

variable {ended : Fd → Direction → Prop} {owner : Fd → F} {s s' : World K F} {f : F} {fd : Fd} {d : Direction}
  {wait : Wait} {ctl : EpollCtl K}

omit [DecidableEq F] in
/-- A cancellation takes out the directions of its mask and no others. -/
theorem bit_cancelled {m m' : IOManager K Unit F} {event : Events} (done : m.Cancelled fd event m') {fd' : Fd}
    (set : m.bit fd' d = true) : m'.bit fd' d = true ∨ fd = fd' ∧ event.has d = true := by
  by_cases eq : fd' = fd
  · subst eq
    rw [done.bit_self, set, Bool.true_and]
    cases inside : event.has d with
    | false => exact .inl rfl
    | true => exact .inr ⟨rfl, rfl⟩
  · rw [done.bit_other fd' eq]
    exact .inl set

theorem bit_deliver (s : World K F) (ready : Bool) (d' : Direction) {fd' : Fd} (set : s.io.bit fd' d = true) :
    (s.deliver ctl fd ready d').io.bit fd' d = true ∨ fd = fd' ∧ ready = true ∧ d = d' := by
  cases ready with
  | false => exact .inl set
  | true =>
    refine (bit_cancelled (IOManager.deliver_cancelled s.io fd d') set).imp_right ?_
    rintro ⟨here, inside⟩
    rw [Events.has_only, decide_eq_true_eq] at inside
    exact ⟨here, rfl, inside⟩

theorem bit_processEvents (reports : List (Fd × Revents)) : ∀ {s : World K F}, s.io.bit fd d = true →
    (s.processEvents ctl reports).io.bit fd d = true ∨
      ∃ report ∈ reports, report.1 = fd ∧ report.2.delivered.has d = true := by
  induction reports with
  | nil =>
    intro s set
    exact .inl set
  | cons report reports ih =>
    intro s set
    rcases s.bit_deliver report.2.delivered.epollin .read set with still | reported
    · rcases bit_deliver _ report.2.delivered.epollout .write still with still | reported
      · rcases ih still with still | ⟨other, mem, rest⟩
        · exact .inl still
        · exact .inr ⟨other, List.mem_cons_of_mem _ mem, rest⟩
      · obtain ⟨here, ready, rfl⟩ := reported
        exact .inr ⟨report, List.mem_cons_self, here, ready⟩
    · obtain ⟨here, ready, rfl⟩ := reported
      exact .inr ⟨report, List.mem_cons_self, here, ready⟩

theorem processEvents_rest (ctl : EpollCtl K) (reports : List (Fd × Revents)) : ∀ {s : World K F},
    (s.processEvents ctl reports).point = s.point ∧ (s.processEvents ctl reports).infos = s.infos ∧
      (s.processEvents ctl reports).timers = s.timers := by
  induction reports with
  | nil => exact ⟨rfl, rfl, rfl⟩
  | cons report reports ih => exact ih

omit [DecidableEq F] in
theorem cancelTimer_callback (timer : Option TimerPtr) (t : TimerPtr) :
    (s.cancelTimer timer).timers.callback t = s.timers.callback t := by
  cases timer with
  | none => rfl
  | some u => exact TimerManager.cancel_callback u t

omit [DecidableEq F] in
theorem cancelTimer_rest (timer : Option TimerPtr) :
    (s.cancelTimer timer).infos = s.infos ∧ (s.cancelTimer timer).point = s.point ∧
      (s.cancelTimer timer).io = s.io := by
  cases timer <;> exact ⟨rfl, rfl, rfl⟩

theorem leave_rest (f : F) (new : FiberState) :
    (s.leave f new).point = s.point ∧ (s.leave f new).infos = s.infos ∧ (s.leave f new).timers = s.timers ∧
      (s.leave f new).io = s.io := by
  unfold World.leave
  split <;> exact ⟨rfl, rfl, rfl, rfl⟩

/-- A step of the fiber on the worker outside a wait. -/
theorem change_goto (running : s.worker = .running f) {p : Point} (same : p.waiting = (s.point f).waiting)
    {s' : World K F} (point : s'.point = Function.update s.point f p) (infos : s'.infos = s.infos)
    (timers : s'.timers = s.timers) (io : s'.io = s.io) : Change ended s s' :=
  .moves f p (.inl running) same point infos (fun t => by rw [timers]) fun fd d set => by rwa [io]

/-- The end of a wait. -/
theorem change_endWait (running : s.worker = .running f) (inWait : (s.point f).waiting = some (fd, d, wait))
    {p : Point} (still : p.waiting = none) :
    Change ended s (((s.cancelTimer wait.timer).release wait).goto f p) := by
  obtain ⟨infos, point, io⟩ := s.cancelTimer_rest wait.timer
  refine .ends f fd d wait p running inWait still ?_ ?_ (fun t => cancelTimer_callback wait.timer t) fun fd d set => ?_
  · exact congrArg (Function.update · f p) point
  · exact congrArg (·.set wait.tinfo none) infos
  · exact (congrArg (·.bit fd d) io).trans set

theorem change_register (inv : Inv owner s) (running : s.worker = .running f) (at_ : s.point f = .registering fd d wait) :
    Change ended s (s.register ctl f fd d wait) := by
  have inWait : (s.point f).waiting = some (fd, d, wait) := by rw [at_]; rfl
  have added := IOManager.addEvent_added ctl s.io fd d (some ()) f
  unfold World.register
  generalize s.io.addEvent ctl fd (.only d) (some ()) (fun _ => f) = answer at added
  obtain ⟨ret, io⟩ := answer
  dsimp only at added ⊢
  have bits : ∀ fd' d', s.io.bit fd' d' = true → io.bit fd' d' = true := by
    intro fd' d' set
    by_cases eq : (fd', d') = (fd, d)
    · obtain ⟨rfl, rfl⟩ := Prod.mk.inj eq
      rw [added.bit_self, set, Bool.or_true]
    · rwa [added.bit_other fd' d' eq]
  cases ret with
  | true =>
    have runs : s.state f = .running := (inv.tokens.runs f).mpr running
    rw [if_pos rfl, World.leave, if_pos (by exact runs)]
    exact .moves f (.asleep fd d wait) (.inl running) inWait.symm rfl rfl (fun _ => rfl) bits
  | false =>
    rw [if_neg (by exact Bool.false_ne_true)]
    obtain ⟨infos, point, same⟩ := cancelTimer_rest (s := { s with
      io := io
      accepted := Function.update s.accepted f false }) wait.timer
    refine .ends f fd d wait (.returned fd d .refused) running inWait rfl ?_ ?_
      (fun t => cancelTimer_callback wait.timer t) fun fd' d' set => ?_
    · exact congrArg (Function.update · f _) point
    · exact congrArg (·.set wait.tinfo none) infos
    · exact (congrArg (·.bit fd' d') same).trans (bits fd' d' set)

theorem change_wake (running : s.worker = .running f) (at_ : s.point f = .asleep fd d wait) :
    Change ended s (s.wake f fd d wait) := by
  have inWait : (s.point f).waiting = some (fd, d, wait) := by rw [at_]; rfl
  unfold World.wake
  dsimp only
  split
  · exact change_endWait running inWait rfl
  · exact change_endWait running inWait rfl

theorem change_arm (running : s.worker = .running f) (at_ : s.point f = .arming fd d)
    (now timeout : UInt64) : Change ended s (s.arm f fd d now timeout) := by
  have outside : (s.point f).waiting = none := by rw [at_]; rfl
  unfold World.arm
  dsimp only
  split
  · refine .begins f fd d _ _ running outside rfl rfl rfl rfl (fun t => ?_) fun _ _ set => set
    refine (em (t = s.timers.heap.length)).symm.imp (fun ne => ?_) fun eq => ?_
    · exact (TimerManager.addTimer_callback ..).trans (if_neg ne)
    · exact (TimerManager.addTimer_callback ..).trans (if_pos eq)
  · exact .begins f fd d _ _ running outside rfl rfl rfl rfl (fun _ => .inl rfl) fun _ _ set => set

/-- A timer callback times its wait out, or cannot lock its `timer_info`. -/
theorem change_runCallback (rest : List (Job F)) (t : TimerPtr) :
    Change ended s ({ s with tasks := rest }.runCallback ctl t) := by
  have nothing : Change ended s { s with tasks := rest } := .stays rfl rfl (fun _ => rfl) fun _ _ set => .inl set
  unfold World.runCallback
  split
  · rename_i e info found
    split
    · rename_i e' ran
      have live : s.lock info = true ∧ e = e' := by
        have ran : (if s.lock info then some e else none) = some e' := ran
        split at ran
        · exact ⟨‹_›, Option.some.inj ran⟩
        · cases ran
      obtain ⟨live, rfl⟩ := live
      -- the wake-up touches a state only
      have woken : ∀ s : World K F, ∃ state, s.fiberWakeup e.fiber = { s with state := state } := by
        intro s
        unfold World.fiberWakeup
        split
        · exact ⟨_, rfl⟩
        · exact ⟨s.state, rfl⟩
      obtain ⟨state, same⟩ := woken { s with
        tasks := rest
        infos := s.infos.set info (some etimedout)
        ran := info :: s.ran }
      unfold World.timeOut
      dsimp only
      rw [same]
      refine .marks t e info found live rfl rfl (fun _ => rfl) fun fd d set => ?_
      refine (bit_cancelled (IOManager.cancelEvent_cancelled s.io e.sockfd (.only e.event)) set).imp_right ?_
      rintro ⟨here, inside⟩
      rw [Events.has_only, decide_eq_true_eq] at inside
      exact ⟨here.symm, inside⟩
    · exact nothing
  · exact nothing

theorem change_act (inv : Inv owner s) (running : s.worker = .running f) {e : Event F}
    (act : s.act owner ctl f e = some s') : Change (Ends e) s s' := by
  have quiet : ∀ {p : Point} {s' : World K F}, (s.point f).waiting = none → p.waiting = none →
      s'.point = Function.update s.point f p → s'.infos = s.infos → s'.timers = s.timers → s'.io = s.io →
      Change (Ends e) s s' :=
    fun outside still point infos timers io =>
      change_goto running (still.trans outside.symm) point infos timers io
  cases e with
  | call fd d =>
    simp only [World.act] at act
    split at act
    · rename_i here
      cases act
      exact quiet (by rw [here.1]; rfl) rfl rfl rfl rfl rfl
    · cases act
  | sysFun r =>
    simp only [World.act] at act
    split at act
    · rename_i at_
      cases act
      have outside : (s.point f).waiting = none := by rw [at_]; rfl
      unfold World.sysFun
      dsimp only
      split
      · exact quiet outside rfl rfl rfl rfl rfl
      · split <;> exact quiet outside rfl rfl rfl rfl rfl
    · cases act
  | arm now timeout =>
    simp only [World.act] at act
    split at act
    · cases act
      exact change_arm running ‹_› now timeout
    · cases act
  | register =>
    simp only [World.act] at act
    split at act
    · cases act
      exact change_register inv running ‹_›
    · cases act
  | wake =>
    simp only [World.act] at act
    split at act
    · cases act
      exact change_wake running ‹_›
    · cases act
  | proceed =>
    simp only [World.act] at act
    split at act
    · rename_i at_
      cases act
      exact quiet (by rw [at_]; rfl) rfl rfl rfl rfl rfl
    · cases act
  | cancelEvent fd event =>
    simp only [World.act] at act
    split at act
    · cases act
      refine .stays rfl rfl (fun _ => rfl) fun fd' d set => ?_
      exact bit_cancelled (IOManager.cancelEvent_cancelled s.io fd event) set
    · cases act
  | yield =>
    simp only [World.act] at act
    split at act
    · cases act
      unfold World.leave
      split <;> exact .stays rfl rfl (fun _ => rfl) fun _ _ set => .inl set
    · cases act
  | finish threw =>
    simp only [World.act] at act
    split at act
    · rename_i at_
      cases act
      obtain ⟨point, infos, timers, io⟩ :=
        ((s.goto f .ended).setState f (if threw then .exception else .terminated)).leave_rest f .suspended
      exact quiet (by rw [at_]; rfl) rfl point infos timers io
    · cases act
  | spawn g => cases act
  | take => cases act
  | look => cases act
  | idle before now reports => cases act

/-- Every step of the worker is one of these changes. -/
theorem Step.change (inv : Inv owner s) {e : Event F} (step : Step owner ctl s e s') : Change (Ends e) s s' := by
  unfold Step exec at step
  split at step
  · split at step
    · rename_i g fresh
      cases step
      exact .moves g .user (.inr fresh) (by rw [fresh]; rfl) rfl rfl (fun _ => rfl) fun _ _ set => set
    · cases step
  · cases step
    unfold World.take
    split
    · exact .stays rfl rfl (fun _ => rfl) fun _ _ set => .inl set
    · rename_i t rest tasks
      exact change_runCallback rest t
    · dsimp only
      split
      · exact .stays rfl rfl (fun _ => rfl) fun _ _ set => .inl set
      · split <;> exact .stays rfl rfl (fun _ => rfl) fun _ _ set => .inl set
  · cases step
    unfold World.look
    split <;> exact .stays rfl rfl (fun _ => rfl) fun _ _ set => .inl set
  · rename_i before now reports idle
    cases step
    obtain ⟨point, infos, timers⟩ := processEvents_rest ctl reports (s := s.processTimers before now)
    refine .stays point infos (fun t => ?_) fun fd d set => ?_
    · obtain ⟨-, -, calls⟩ := (inv.timers.sound.getNextTimer before).getExpiredTimers now
      refine (congrArg (·.callback t) timers).trans ((calls t).trans ?_)
      exact TimerManager.getNextTimer_callback before t
    · exact bit_processEvents reports (s := s.processTimers before now) set
  · exact change_act inv ‹_› step
  · cases step

/-- Where a registration leads. -/
theorem register_cases (ctl : EpollCtl K) (inv : Inv owner s) (running : s.worker = .running f) (fd : Fd) (d : Direction)
    (wait : Wait) :
    (s.register ctl f fd d wait).point f = .asleep fd d wait ∧ (s.register ctl f fd d wait).io.bit fd d = true ∨
      (s.register ctl f fd d wait).point f = .returned fd d .refused := by
  have added := IOManager.addEvent_added ctl s.io fd d (some ()) f
  unfold World.register
  generalize s.io.addEvent ctl fd (.only d) (some ()) (fun _ => f) = answer at added
  obtain ⟨ret, io⟩ := answer
  dsimp only at added ⊢
  cases ret with
  | true =>
    have runs : s.state f = .running := (inv.tokens.runs f).mpr running
    rw [if_pos rfl, World.leave, if_pos (by exact runs)]
    refine .inl ⟨Function.update_self .., ?_⟩
    exact added.bit_self
  | false =>
    rw [if_neg (by exact Bool.false_ne_true)]
    exact .inr (Function.update_self ..)

/-- Where a wake leads. -/
theorem wake_cases (f : F) (fd : Fd) (d : Direction) (wait : Wait) :
    s.infos[wait.tinfo]? = some (some etimedout) ∧ (s.wake f fd d wait).point f = .returned fd d .timedOut ∨
      s.infos[wait.tinfo]? ≠ some (some etimedout) ∧ (s.wake f fd d wait).point f = .trying fd d := by
  have infos : (s.cancelTimer wait.timer).infos = s.infos := (cancelTimer_rest wait.timer).1
  unfold World.wake
  dsimp only
  rw [infos]
  split
  · exact .inl ⟨‹_›, Function.update_self ..⟩
  · exact .inr ⟨‹_›, Function.update_self ..⟩

end Changes

/-! ## Waking -/

variable {owner : Fd → F} {ctl : EpollCtl K} {f : F} {fd : Fd} {d : Direction} {wait : Wait}

omit [DecidableEq F] in
theorem held_init (k : K) : (init k : World K F).Held where
  allocated _ _ _ _ waits := nomatch waits
  own _ _ _ _ _ _ _ _ waits := nomatch waits
  bound _ _ _ found := nomatch found

/-- Steps with clean cancellations that another fiber takes, or the loop. -/
def Elsewhere (f : F) (s : World K F) (e : Event F) : Prop := s.CleanCancel e ∧ s.worker ≠ .running f

/-- A fiber that sleeps stays where it is, and its registration until something ends it. -/
theorem sleeps_of_run {s t : World K F} {events : List (Event F)} {ended : Prop} (inv : Inv owner s) (held : s.Held)
    (at_ : s.point f = .asleep fd d wait)
    (sleeps : s.io.bit fd d = true ∨ s.infos[wait.tinfo]? = some (some etimedout) ∨ ended)
    (run : Run (Guarded (Step owner ctl) (Elsewhere f)) s events t) :
    Inv owner t ∧ t.point f = .asleep fd d wait ∧ (t.io.bit fd d = true ∨
      t.infos[wait.tinfo]? = some (some etimedout) ∨ ended ∨ ∃ e ∈ events, Ends e fd d) := by
  induction run generalizing ended with
  | nil => exact ⟨inv, at_, sleeps.imp_right (.imp_right .inl)⟩
  | cons first rest ih =>
    rename_i s u t e events
    obtain ⟨step, clean, off⟩ := first
    have change := step.change inv
    have inWait : (s.point f).waiting = some (fd, d, wait) := by rw [at_]; rfl
    have begun : s.point f ≠ .fresh := fun fresh => nomatch at_.symm.trans fresh
    have next : u.io.bit fd d = true ∨ u.infos[wait.tinfo]? = some (some etimedout) ∨ (ended ∨ Ends e fd d) := by
      rcases sleeps with set | expired | done
      · exact (change.registered held inv at_ set).imp_right (.imp_right .inr)
      · exact .inr (.inl (change.expired held off inWait expired))
      · exact .inr (.inr (.inl done))
    obtain ⟨inv', point, last⟩ :=
      ih (inv.step clean step) (change.held held) ((change.point_eq off begun).trans at_) next
    refine ⟨inv', point, last.imp_right (.imp_right ?_)⟩
    rintro ((done | ends) | ⟨e', mem, ends⟩)
    · exact .inl done
    · exact .inr ⟨e, List.mem_cons_self, ends⟩
    · exact .inr ⟨e', List.mem_cons_of_mem _ mem, ends⟩

/-- A fiber that was registered when it went to sleep comes back to the worker only because its wait was timed out, or
the direction was reported or cancelled while it slept. -/
theorem woken (owner : Fd → F) (ctl : EpollCtl K) (k : K) {before after : List (Event F)} {s t : World K F}
    (run : Run (Guarded (Step owner ctl) CleanCancel) (init k) before s) (at_ : s.point f = .asleep fd d wait)
    (registered : s.io.bit fd d = true) (sleeps : Run (Guarded (Step owner ctl) (Elsewhere f)) s after t)
    (woken : t.worker = .running f) :
    t.point f = .asleep fd d wait ∧
      (t.infos[wait.tinfo]? = some (some etimedout) ∨ ∃ e ∈ after, Ends e fd d) := by
  have both := run.invariant (I := fun s => Inv owner s ∧ s.Held)
    (fun _ _ _ h step => ⟨h.1.step step.2 step.1, (step.1.change h.1).held h.2⟩) ⟨inv_init owner k, held_init k⟩
  have set : s.io.bit fd d = true ∨ s.infos[wait.tinfo]? = some (some etimedout) ∨ False := .inl registered
  obtain ⟨inv, point, last⟩ := sleeps_of_run both.1 both.2 at_ set sleeps
  have own : owner fd = f := inv.tokens.owned f fd d (by rw [point]; rfl)
  have clear : t.io.bit fd d = false := inv.tokens.not_bit_of_running (own ▸ woken)
  refine ⟨point, ?_⟩
  rcases last with set | expired | no | ends
  · cases clear.symm.trans set
  · exact .inl expired
  · exact no.elim
  · exact .inr ends

/-- A read that is reported. -/
theorem woken_reported :
    ∃ (after : List (Event Nat)) (t : World Unit Nat), t.worker = .running 0 ∧
      t.point 0 = .asleep 5 .read ⟨0, some 0⟩ ∧
        (t.infos[0]? = some (some etimedout) ∨ ∃ e ∈ after, Ends e 5 .read) := by
  have run : Run (Step (fun _ => 0) fun k _ => (true, k)) (init ()) _ _ :=
    Run.of_foldlM [.spawn 0, .take, .call 5 .read, .sysFun ⟨-1, 11⟩, .arm 0 1000, .register] rfl
  have clean := run.guard CleanCancel (by simp [CleanCancel])
  refine ⟨[.look, .take, .idle 1 10 [(5, ⟨true, false, false, false⟩)], .take], _, and_comm.mp
    ⟨woken _ _ () clean rfl rfl (.cons ⟨rfl, trivial, ?_⟩ <| .cons ⟨rfl, trivial, ?_⟩ <|
      .cons ⟨rfl, trivial, ?_⟩ <| .cons ⟨rfl, trivial, ?_⟩ <| .nil _) rfl, rfl⟩⟩
  -- the fiber is off the worker until it is taken again
  all_goals
    intro runs
    cases runs

end World

end Sylar.Hook
