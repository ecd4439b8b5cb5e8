import Sylar.Hook.Wait

/-!
# Hooked I/O is safe on one worker

The invariants of `Hook.Wait` hold in every state a run reaches: one lemma for each thing the loop of
the scheduler does and for each piece of `hook_iofunc`, then the run. A run keeps the promise as long
as no `cancel_event` of both directions meets a fiber that a refused `add_event` left behind.
-/

namespace Sylar.Hook.World

open Lib

variable {K F : Type} [DecidableEq F]

/-! ## The invariant -/

structure Inv (owner : Fd → F) (s : World K F) : Prop where
  timers : TimersHeld s.timers s.point
  calls : s.CallsRight
  tokens : Tokens owner s

theorem inv_init (owner : Fd → F) (k : K) : Inv owner (init k : World K F) where
  timers := ⟨TimerManager.sound_init, fun _ mem => nomatch mem⟩
  calls :=
    { ran := fun _ found => nomatch found
      lastWait := fun _ _ _ _ waits => nomatch waits
      retried := fun _ inCall => nomatch inCall
      right := fun _ _ _ _ back => nomatch back }
  tokens :=
    { owned := fun _ _ _ at_ => nomatch at_
      contexts := fun fd d => .inl (IOManager.context_init k fd d)
      registered := fun fd d set => nomatch (IOManager.bit_init k fd d).symm.trans set
      handed := rfl
      queued_le := fun _ => Nat.zero_le _
      fresh := fun _ _ => ⟨rfl, nofun, nofun⟩
      current := fun _ _ => rfl
      asleep := fun _ _ sleeps => nomatch sleeps
      runs := fun _ => iff_of_false nofun nofun
      sleeping := fun _ _ _ sleeps => nomatch sleeps
      alive := fun _ _ sleeps => nomatch sleeps }

namespace Inv

variable {owner : Fd → F} {s : World K F} {f : F} {ctl : EpollCtl K}

/-- The promise follows. -/
theorem safe (h : Inv owner s) : s.Safe where
  right := h.calls.right
  noEvent f fd d out back := by
    rw [IOManager.events_eq_entry]
    have own : owner fd = f := h.tokens.owned f fd d (by rw [back]; rfl)
    by_contra set
    have sleeps := (h.tokens.registered fd d (Bool.of_not_eq_false set)).2.1
    rw [own, back] at sleeps
    cases sleeps
  noTimer f fd d out back t mem timer found := by
    obtain ⟨g, fd', d', wait, waits, -, calls⟩ := h.timers.held t mem
    rw [TimerManager.callback, found] at calls
    rw [Option.some.inj calls]
    intro eq
    have eq : g = f := eq
    rw [eq, back] at waits
    cases waits
  once f fd d wait at_ := (h.tokens.asleep f (fd, d) (by rw [at_]; rfl)).1

/-! ### The loop of the scheduler -/

/-- A clean cancellation. -/
theorem handOver (h : Inv owner s) {fd : Fd} {event : Events} {io : IOManager K Unit F}
    (clean : s.io.Clean fd event) (done : s.io.Cancelled fd event io)
    (notBack : ∀ g, s.worker ≠ .back g) : Inv owner (s.handOver io) where
  timers := h.timers
  calls := h.calls.stay h.calls.ran (List.Subset.refl _) rfl rfl rfl rfl
  tokens := h.tokens.handOver clean done notBack

theorem deliver (h : Inv owner s) (idle : s.worker = .idle) (fd : Fd) (ready : Bool) (d : Direction) :
    Inv owner (s.deliver ctl fd ready d) := by
  have notBack : ∀ g, s.worker ≠ .back g := fun g back => nomatch idle.symm.trans back
  cases ready with
  | true => exact h.handOver (IOManager.clean_only s.io fd d) (IOManager.deliver_cancelled s.io fd d) notBack
  | false =>
    have nothing : s.io.Cancelled fd .none s.io :=
      IOManager.cancelled_of_none (Events.inter_none fun d => by cases d <;> exact Bool.and_false _)
    have clean : s.io.Clean fd .none := fun d d' inside => by
      cases d <;> exact nomatch inside
    exact h.handOver clean nothing notBack

theorem processEvents (ctl : EpollCtl K) (reports : List (Fd × Revents)) :
    ∀ {s : World K F}, Inv owner s → s.worker = .idle →
    Inv owner (s.processEvents ctl reports) ∧ (s.processEvents ctl reports).worker = .idle := by
  induction reports with
  | nil =>
    intro s h idle
    exact ⟨h, idle⟩
  | cons report reports ih =>
    intro s h idle
    exact ih ((h.deliver idle ..).deliver idle ..) idle

theorem processTimers (h : Inv owner s) (before now : UInt64) : Inv owner (s.processTimers before now) where
  timers := h.timers.expire before now
  calls := h.calls.stay h.calls.ran (List.Subset.refl _) rfl rfl rfl rfl
  tokens := by
    refine (h.tokens.setTasks fun g => ?_).congr rfl rfl rfl rfl rfl rfl
    refine (List.count_append ..).trans ?_
    rw [queued, Nat.add_eq_left, List.count_eq_zero]
    intro mem
    obtain ⟨t, -, eq⟩ := List.mem_map.mp mem
    cases eq

theorem fiberWakeup (h : Inv owner s) (loop : s.worker = .loop) (f : F) : Inv owner (s.fiberWakeup f) := by
  have tokens := h.tokens.fiberWakeup loop f
  unfold World.fiberWakeup at tokens ⊢
  split at tokens
  · rename_i sleeps
    rw [if_pos sleeps]
    exact ⟨h.timers, h.calls.stay h.calls.ran (List.Subset.refl _) rfl rfl rfl rfl, tokens⟩
  · rename_i awake
    rw [if_neg awake]
    exact h

/-- The timer callback of a wait. -/
theorem timeOut (h : Inv owner s) (loop : s.worker = .loop) (info : InfoPtr) (e : Expiry F) :
    Inv owner (s.timeOut ctl info e) := by
  have noted : Inv owner { s with infos := s.infos.set info (some etimedout), ran := info :: s.ran } := by
    refine ⟨h.timers, h.calls.stay (fun i found => ?_) (List.subset_cons_self _ _) rfl rfl rfl rfl,
      h.tokens.congr rfl rfl rfl rfl rfl rfl⟩
    by_cases eq : info = i
    · subst eq
      exact List.mem_cons_self
    · rw [List.getElem?_set_ne eq] at found
      exact List.mem_cons_of_mem _ (h.calls.ran i found)
  have woken := noted.fiberWakeup loop e.fiber
  refine woken.handOver (IOManager.clean_only _ _ _) (IOManager.cancelEvent_cancelled _ _ _) fun g back => ?_
  unfold World.fiberWakeup at back
  split at back <;> exact nomatch loop.symm.trans back

theorem take (h : Inv owner s) (loop : s.worker = .loop) : Inv owner (s.take ctl) := by
  have off : ∀ g, s.worker ≠ .running g := fun g runs => nomatch loop.symm.trans runs
  unfold World.take
  split
  · exact ⟨h.timers, h.calls.stay h.calls.ran (List.Subset.refl _) rfl rfl rfl rfl,
      h.tokens.setWorker off fun g => ⟨nofun, nofun⟩⟩
  · rename_i t rest tasks
    have popped : Inv owner { s with tasks := rest } := by
      refine ⟨h.timers, h.calls.stay h.calls.ran (List.Subset.refl _) rfl rfl rfl rfl,
        h.tokens.setTasks fun g => ?_⟩
      have ne : Job.callback t ≠ Job.fiber g := nofun
      rw [queued, tasks, List.count_cons_of_ne ne]
    unfold World.runCallback
    split
    · split
      · exact popped.timeOut loop _ _
      · exact popped
    · exact popped
  · rename_i g rest tasks
    dsimp only
    split
    · rename_i ended
      exact ⟨h.timers, h.calls.stay h.calls.ran (List.Subset.refl _) rfl rfl rfl rfl,
        (h.tokens.drop tasks ended).setWorker off fun g => ⟨nofun, nofun⟩⟩
    · split
      · rename_i runs
        exact absurd ((h.tokens.runs g).mp runs) (off g)
      · exact ⟨h.timers, h.calls.stay h.calls.ran (List.Subset.refl _) rfl rfl rfl rfl,
          h.tokens.resume loop tasks⟩

theorem look (h : Inv owner s) (back : s.worker = .back f) : Inv owner (s.look f) := by
  have off : ∀ g, s.worker ≠ .running g := fun g runs => nomatch back.symm.trans runs
  have looped : Tokens owner { s with worker := .loop } := h.tokens.setWorker off fun g => ⟨nofun, nofun⟩
  unfold World.look
  split
  · rename_i ready
    have awake : (s.point f).sleepsOn = none := by
      by_contra some
      obtain ⟨x, sleeps⟩ := Option.ne_none_iff_exists'.mp some
      rw [h.tokens.sleeping f x back sleeps] at ready
      rcases ready with at_ | at_ <;> exact nomatch at_
    have begun : s.point f ≠ .fresh := fun new => (h.tokens.fresh f new).2.2 back
    exact ⟨h.timers, h.calls.stay h.calls.ran (List.Subset.refl _) rfl rfl rfl rfl,
      (looped.addAwake (h.tokens.current f (.inr back)) begun awake ⟨nofun, nofun⟩).congr rfl rfl rfl rfl rfl
        rfl⟩
  · exact ⟨h.timers, h.calls.stay h.calls.ran (List.Subset.refl _) rfl rfl rfl rfl, looped⟩

theorem spawn (h : Inv owner s) (new : s.point f = .fresh) :
    Inv owner ((s.goto f .user).addFibers [f]) where
  timers := h.timers.goto (by rw [new]; rfl) .user
  calls := by
    refine h.calls.move h.calls.ran (List.Subset.refl _)
      (fun g ne => ⟨goto_point_of_ne s ne _, rfl, rfl, rfl⟩) (fun fd d wait waits => ?_)
      (fun inCall => ?_) fun fd d out back => ?_
    · cases (congrArg Point.waiting (goto_point_self s f .user)).symm.trans waits
    · cases (congrArg Point.unfinished (goto_point_self s f .user)).symm.trans inCall
    · cases (goto_point_self s f .user).symm.trans back
  tokens := h.tokens.spawn new

/-! ### The fiber on the worker -/

/-- The fiber on the worker goes on outside a wait. -/
theorem move (h : Inv owner s) (running : s.worker = .running f) (outside : (s.point f).waiting = none)
    {seen : F → List SysResult} {p : Point} (others : ∀ g ≠ f, seen g = s.seen g)
    (on : ∀ fd d, p.on = some (fd, d) → owner fd = f) (still : p.waiting = none) (begun : p ≠ .fresh)
    (retried : p.unfinished = true → ∀ x ∈ seen f, x.retried = true)
    (right : ∀ fd d out, p = .returned fd d out → { s with seen := seen }.Right f out) :
    Inv owner ({ s with seen := seen }.goto f p) := by
  have at_ : ({ s with seen := seen }.goto f p).point f = p := goto_point_self ..
  refine ⟨h.timers.goto outside p, ?_, ?_⟩
  · refine h.calls.move h.calls.ran (List.Subset.refl _)
      (fun g ne => ⟨goto_point_of_ne s ne p, others g ne, rfl, rfl⟩) (fun fd d wait waits => ?_)
      (fun inCall => ?_) fun fd d out back => ?_
    · rw [at_, still] at waits
      cases waits
    · rw [at_] at inCall
      exact retried inCall
    · rw [at_] at back
      exact right fd d out back
  · exact (h.tokens.goto running on (Point.sleepsOn_of_waiting still) begun).congr rfl rfl rfl rfl rfl rfl

theorem sysFun (h : Inv owner s) (running : s.worker = .running f) {fd : Fd} {d : Direction}
    (at_ : s.point f = .trying fd d) (r : SysResult) : Inv owner (s.sysFun f fd d r) := by
  have own : owner fd = f := h.tokens.owned f fd d (by rw [at_]; rfl)
  have outside : (s.point f).waiting = none := by rw [at_]; rfl
  have before : ∀ x ∈ s.seen f, x.retried = true := h.calls.retried f (by rw [at_]; rfl)
  have others : ∀ g ≠ f, Function.update s.seen f (s.seen f ++ [r]) g = s.seen g :=
    fun g ne => Function.update_of_ne ne ..
  have all : r.retried = true → ∀ x ∈ Function.update s.seen f (s.seen f ++ [r]) f, x.retried = true := by
    intro again x mem
    rw [Function.update_self] at mem
    rcases List.mem_append.mp mem with old | new
    · exact before x old
    · rw [List.mem_singleton.mp new]
      exact again
  unfold World.sysFun
  dsimp only
  split
  · rename_i interrupted
    refine h.move running outside others (fun fd' d' on => ?_) rfl nofun (fun _ => all ?_) nofun
    · rw [← (Prod.mk.inj (Option.some.inj on)).1]
      exact own
    · rw [SysResult.retried, interrupted]
      rfl
  · rename_i notInterrupted
    split
    · rename_i again
      refine h.move running outside others (fun fd' d' on => ?_) rfl nofun (fun _ => all ?_) nofun
      · rw [← (Prod.mk.inj (Option.some.inj on)).1]
        exact own
      · rw [SysResult.retried, again, Bool.or_true]
    · rename_i notAgain
      refine h.move running outside others (fun fd' d' on => ?_) rfl nofun nofun fun fd' d' out back => ?_
      · rw [← (Prod.mk.inj (Option.some.inj on)).1]
        exact own
      · obtain ⟨-, -, rfl⟩ := Point.returned.inj back
        refine ⟨s.seen f, Function.update_self .., before, ?_⟩
        rw [SysResult.retried, Bool.eq_false_iff.mpr notInterrupted,
          Bool.eq_false_iff.mpr notAgain]
        rfl

/-- A wait begins: a new `timer_info`, and a timer or none. -/
theorem arm (h : Inv owner s) (running : s.worker = .running f) {fd : Fd} {d : Direction}
    (at_ : s.point f = .arming fd d) (now timeout : UInt64) : Inv owner (s.arm f fd d now timeout) := by
  have own : owner fd = f := h.tokens.owned f fd d (by rw [at_]; rfl)
  have outside : (s.point f).waiting = none := by rw [at_]; rfl
  have before : ∀ x ∈ s.seen f, x.retried = true := h.calls.retried f (by rw [at_]; rfl)
  -- the rest of the invariant, whatever the timer is
  have begins : ∀ (timers : TimerManager (Expiry F) InfoPtr) (timer : Option TimerPtr),
      TimersHeld timers (Function.update s.point f (.registering fd d ⟨s.infos.length, timer⟩)) →
      Inv owner ({ s with
        infos := s.infos ++ [some 0]
        lastWait := Function.update s.lastWait f s.infos.length
        timers := timers }.goto f (.registering fd d ⟨s.infos.length, timer⟩)) := by
    intro timers timer held
    refine ⟨held, h.calls.move (fun i found => ?_) (List.Subset.refl _)
      (fun g ne => ⟨goto_point_of_ne s ne _, rfl, Function.update_of_ne ne .., rfl⟩)
      (fun fd' d' wait waits => ?_) (fun _ => before) (fun fd' d' out back => ?_), ?_⟩
    · have found : (s.infos ++ [some 0])[i]? = some (some etimedout) := found
      rcases Nat.lt_trichotomy i s.infos.length with old | rfl | beyond
      · rw [List.getElem?_append_left old] at found
        exact h.calls.ran i found
      · rw [List.getElem?_concat_length] at found
        cases found
      · rw [List.getElem?_eq_none (by rw [List.length_append, List.length_singleton]; exact beyond)] at found
        cases found
    · rw [goto_point_self] at waits
      obtain ⟨-, same⟩ := Prod.mk.inj (Option.some.inj waits)
      rw [← (Prod.mk.inj same).2]
      exact Function.update_self ..
    · rw [goto_point_self] at back
      cases back
    · have moved := h.tokens.goto running (p := .registering fd d ⟨s.infos.length, timer⟩)
        (fun fd' d' on => by
          rw [← (Prod.mk.inj (Option.some.inj on)).1]
          exact own) rfl nofun
      exact moved.congr rfl rfl rfl rfl rfl rfl
  unfold World.arm
  dsimp only
  split
  · exact begins _ _ (h.timers.addTimer outside now timeout s.infos.length)
  · exact begins _ _ (h.timers.goto outside _)

/-- A wait ends: its timer is cancelled and its `timer_info` released. -/
theorem endWait (h : Inv owner s) (running : s.worker = .running f) {fd : Fd} {d : Direction} {wait : Wait}
    (inWait : (s.point f).waiting = some (fd, d, wait)) {p : Point}
    (on : ∀ fd d, p.on = some (fd, d) → owner fd = f) (still : p.waiting = none) (begun : p ≠ .fresh)
    (retried : p.unfinished = true → ∀ x ∈ s.seen f, x.retried = true)
    (right : ∀ fd d out, p = .returned fd d out → s.Right f out) :
    Inv owner (((s.cancelTimer wait.timer).release wait).goto f p) := by
  have rest : ∀ {timers}, TimersHeld timers (Function.update s.point f p) →
      Inv owner (({ s with infos := s.infos.set wait.tinfo none, timers := timers } : World K F).goto f p) := by
    intro timers held
    refine ⟨held, h.calls.move (fun i found => ?_) (List.Subset.refl _)
      (fun g ne => ⟨goto_point_of_ne s ne p, rfl, rfl, rfl⟩) (fun fd' d' wait waits => ?_) (fun inCall => ?_)
      (fun fd' d' out back => ?_),
      (h.tokens.goto running on (Point.sleepsOn_of_waiting still) begun).congr rfl rfl rfl rfl rfl rfl⟩
    · have found : (s.infos.set wait.tinfo none)[i]? = some (some etimedout) := found
      by_cases eq : wait.tinfo = i
      · rw [eq, List.getElem?_set_self'] at found
        cases old : s.infos[i]? with
        | none =>
          rw [old] at found
          cases found
        | some x =>
          rw [old] at found
          cases found
      · rw [List.getElem?_set_ne eq] at found
        exact h.calls.ran i found
    · rw [goto_point_self, still] at waits
      cases waits
    · rw [goto_point_self] at inCall
      exact retried inCall
    · rw [goto_point_self] at back
      exact right fd' d' out back
  have timers := h.timers.cancelTimer inWait p
  cases timer : wait.timer with
  | none =>
    rw [timer] at timers
    exact rest timers
  | some t =>
    rw [timer] at timers
    exact rest timers

theorem register (h : Inv owner s) (running : s.worker = .running f) {fd : Fd} {d : Direction} {wait : Wait}
    (at_ : s.point f = .registering fd d wait) : Inv owner (s.register ctl f fd d wait) := by
  have own : owner fd = f := h.tokens.owned f fd d (by rw [at_]; rfl)
  have inWait : (s.point f).waiting = some (fd, d, wait) := by rw [at_]; rfl
  have before : ∀ x ∈ s.seen f, x.retried = true := h.calls.retried f (by rw [at_]; rfl)
  have added := IOManager.addEvent_added ctl s.io fd d (some ()) f
  unfold World.register
  generalize s.io.addEvent ctl fd (.only d) (some ()) (fun _ => f) = answer at added
  obtain ⟨ret, io⟩ := answer
  dsimp only at added ⊢
  cases ret with
  | true =>
    have runs : s.state f = .running := (h.tokens.runs f).mpr running
    rw [if_pos rfl, World.leave, if_pos (by exact runs)]
    refine ⟨h.timers.goOn (f := f) (p := .asleep fd d wait) inWait.symm, ?_,
      (h.tokens.sleep running own added).congr rfl rfl rfl rfl rfl rfl⟩
    refine h.calls.move h.calls.ran (List.Subset.refl _)
      (fun g ne => ⟨goto_point_of_ne s ne _, rfl, rfl, Function.update_of_ne ne ..⟩)
      (fun fd' d' wait' waits => ?_) (fun _ => before) fun fd' d' out back => ?_
    · have waits := (congrArg Point.waiting (goto_point_self s f (.asleep fd d wait))).symm.trans waits
      obtain ⟨-, same⟩ := Prod.mk.inj (Option.some.inj waits)
      rw [← (Prod.mk.inj same).2]
      exact h.calls.lastWait f fd d wait inWait
    · cases (goto_point_self s f (.asleep fd d wait)).symm.trans back
  | false =>
    rw [if_neg (by exact nofun)]
    have refused : Inv owner { s with io := io, accepted := Function.update s.accepted f false } := by
      refine ⟨h.timers, ?_, (h.tokens.refuse (own ▸ running) (own ▸ added)).congr rfl rfl rfl rfl rfl rfl⟩
      refine h.calls.move h.calls.ran (List.Subset.refl _)
        (fun g ne => ⟨rfl, rfl, rfl, Function.update_of_ne ne ..⟩)
        (h.calls.lastWait f) (fun _ => before) fun fd' d' out back => ?_
      cases at_.symm.trans back
    refine refused.endWait running inWait (fun fd' d' on => ?_) rfl nofun nofun fun fd' d' out back => ?_
    · rw [← (Prod.mk.inj (Option.some.inj on)).1]
      exact own
    · obtain ⟨-, -, rfl⟩ := Point.returned.inj back
      exact ⟨before, Function.update_self ..⟩

theorem wake (h : Inv owner s) (running : s.worker = .running f) {fd : Fd} {d : Direction} {wait : Wait}
    (at_ : s.point f = .asleep fd d wait) : Inv owner (s.wake f fd d wait) := by
  have own : owner fd = f := h.tokens.owned f fd d (by rw [at_]; rfl)
  have inWait : (s.point f).waiting = some (fd, d, wait) := by rw [at_]; rfl
  have before : ∀ x ∈ s.seen f, x.retried = true := h.calls.retried f (by rw [at_]; rfl)
  have infos : (s.cancelTimer wait.timer).infos = s.infos := by cases wait.timer <;> rfl
  unfold World.wake
  dsimp only
  rw [infos]
  split
  · rename_i expired
    refine h.endWait running inWait (fun fd' d' on => ?_) rfl nofun nofun fun fd' d' out back => ?_
    · rw [← (Prod.mk.inj (Option.some.inj on)).1]
      exact own
    · obtain ⟨-, -, rfl⟩ := Point.returned.inj back
      refine ⟨before, ?_⟩
      rw [h.calls.lastWait f fd d wait inWait]
      exact h.calls.ran _ expired
  · refine h.endWait running inWait (fun fd' d' on => ?_) rfl nofun (fun _ => before) nofun
    rw [← (Prod.mk.inj (Option.some.inj on)).1]
    exact own

theorem yield (h : Inv owner s) (running : s.worker = .running f) (at_ : s.point f = .user) :
    Inv owner (s.leave f .suspended) := by
  rw [World.leave, if_pos ((h.tokens.runs f).mpr running)]
  exact ⟨h.timers, h.calls.stay h.calls.ran (List.Subset.refl _) rfl rfl rfl rfl,
    h.tokens.leaveAwake running (by rw [at_]; rfl) nofun⟩

theorem finish (h : Inv owner s) (running : s.worker = .running f) (at_ : s.point f = .user) (threw : Bool) :
    Inv owner (((s.goto f .ended).setState f (if threw then .exception else .terminated)).leave f
      .suspended) := by
  have still : (if threw then FiberState.exception else .terminated) ≠ .running := by
    cases threw <;> exact nofun
  have moved : Inv owner ({ s with seen := s.seen }.goto f .ended) :=
    h.move running (by rw [at_]; rfl) (fun _ _ => rfl) nofun rfl nofun nofun nofun
  have ended : ((s.goto f .ended).setState f (if threw then .exception else .terminated)).state f ≠
      .running := by
    intro runs
    exact still ((Function.update_self ..).symm.trans runs)
  rw [World.leave, if_neg ended]
  exact ⟨moved.timers, moved.calls.stay moved.calls.ran (List.Subset.refl _) rfl rfl rfl rfl,
    moved.tokens.leaveAwake running (by rw [goto_point_self]; rfl) still⟩

/-! ### Runs -/

theorem act (h : Inv owner s) (running : s.worker = .running f) {e : Event F} {s' : World K F}
    (clean : s.CleanCancel e) (run : s.act owner ctl f e = some s') : Inv owner s' := by
  have notBack : ∀ g, s.worker ≠ .back g := fun g back => nomatch running.symm.trans back
  cases e with
  | call fd d =>
    simp only [World.act] at run
    split at run
    · rename_i here
      obtain ⟨at_, own⟩ := here
      cases run
      refine h.move running (by rw [at_]; rfl) (fun g ne => Function.update_of_ne ne ..) (fun fd' d' on => ?_)
        rfl nofun (fun _ x mem => ?_) nofun
      · rw [← (Prod.mk.inj (Option.some.inj on)).1]
        exact own
      · rw [Function.update_self] at mem
        cases mem
    · cases run
  | sysFun r =>
    simp only [World.act] at run
    split at run
    · cases run
      exact h.sysFun running ‹_› r
    · cases run
  | arm now timeout =>
    simp only [World.act] at run
    split at run
    · cases run
      exact h.arm running ‹_› now timeout
    · cases run
  | register =>
    simp only [World.act] at run
    split at run
    · cases run
      exact h.register running ‹_›
    · cases run
  | wake =>
    simp only [World.act] at run
    split at run
    · cases run
      exact h.wake running ‹_›
    · cases run
  | proceed =>
    simp only [World.act] at run
    split at run
    · rename_i at_
      cases run
      exact h.move running (by rw [at_]; rfl) (fun _ _ => rfl) nofun rfl nofun nofun nofun
    · cases run
  | cancelEvent fd event =>
    simp only [World.act] at run
    split at run
    · cases run
      exact h.handOver clean (IOManager.cancelEvent_cancelled s.io fd event) notBack
    · cases run
  | yield =>
    simp only [World.act] at run
    split at run
    · cases run
      exact h.yield running ‹_›
    · cases run
  | finish threw =>
    simp only [World.act] at run
    split at run
    · cases run
      exact h.finish running ‹_› threw
    · cases run
  | spawn g => cases run
  | take => cases run
  | look => cases run
  | idle before now reports => cases run

theorem step (h : Inv owner s) {e : Event F} {s' : World K F} (clean : s.CleanCancel e)
    (step : Step owner ctl s e s') : Inv owner s' := by
  unfold Step exec at step
  split at step
  · split at step
    · cases step
      exact h.spawn ‹_›
    · cases step
  · cases step
    exact h.take ‹_›
  · cases step
    exact h.look ‹_›
  · rename_i before now reports idle
    cases step
    obtain ⟨done, still⟩ := (h.processTimers before now).processEvents ctl reports idle
    exact ⟨done.timers, done.calls.stay done.calls.ran (List.Subset.refl _) rfl rfl rfl rfl,
      done.tokens.setWorker (fun g runs => nomatch still.symm.trans runs) fun g => ⟨nofun, nofun⟩⟩
  · exact h.act ‹_› clean step
  · cases step

end Inv

/-- In every run whose `cancel_event` calls are clean, every call keeps the promise: whatever the
system call returns, whatever the kernel accepts and reports and however the clock runs. -/
theorem hookIofunc_safe (owner : Fd → F) (ctl : EpollCtl K) (k : K) {events : List (Event F)}
    {s : World K F} (run : Run (Guarded (Step owner ctl) CleanCancel) (init k) events s) : s.Safe :=
  (run.invariant (I := Inv owner) (fun _ _ _ h step => h.step step.2 step.1) (inv_init owner k)).safe

/-- A read that would block, waits with a timer and is delivered. -/
theorem hookIofunc_safe_delivered :
    ∃ s : World Unit Nat, s.point 0 = .returned 5 .read (.result ⟨7, 0⟩) ∧ s.lastWait 0 = 0 ∧ s.Safe := by
  have run : Run (Step (fun _ => 0) fun k _ => (true, k)) (init ()) _ _ :=
    Run.of_foldlM [.spawn 0, .take, .call 5 .read, .sysFun ⟨-1, 11⟩, .arm 0 1000, .register, .look, .take,
      .idle 1 10 [(5, ⟨true, false, false, false⟩)], .take, .wake, .sysFun ⟨7, 0⟩] rfl
  have clean := run.guard CleanCancel (by simp [CleanCancel])
  exact ⟨_, rfl, rfl, hookIofunc_safe _ _ () clean⟩

/-- A read whose registration the kernel refuses leaves its fiber in the context. When the fiber then
waits for the other direction, `cancel_event` of both hands it over twice. -/
theorem not_hookIofunc_safe :
    ¬ ∀ (owner : Fd → Nat) (ctl : EpollCtl Nat) (k : Nat) (events : List (Event Nat)) (s : World Nat Nat),
      Run (Step owner ctl) (init k) events s → s.Safe := by
  intro all
  have safe := all (fun _ => 0) (fun k _ => (k != 0, k + 1)) 0 _ _
    (Run.of_foldlM [.spawn 0, .spawn 1, .take, .call 5 .read, .sysFun ⟨-1, 11⟩, .arm 0 (~~~0), .register,
      .proceed, .call 5 .write, .sysFun ⟨-1, 11⟩, .arm 0 (~~~0), .register, .look, .take,
      .cancelEvent 5 ⟨true, true⟩] rfl)
  have twice := safe.once 0 5 .write ⟨1, none⟩ rfl
  exact absurd twice (by decide)

end Sylar.Hook.World
