import Sylar.Hook.Cancel
import Sylar.Timer.Order

/-!
# What a wait holds

What a caller of `hook_iofunc` is promised: the call returns what the system call returned, or a
timeout only when the timer callback of its last wait has run; nothing it registered is left behind;
and no wait hands the fiber to the scheduler twice.

Three invariants carry the promise. `TimersHeld`: a timer in the set belongs to a fiber that is in the wait
that made it. `CallsRight`: what has been recorded of a call agrees with where the fiber is in it.
`Tokens`: a fiber that sleeps on a direction is either registered for it or has been handed over once,
and is then once in the tasks or on the worker.
-/

namespace Sylar.Hook

/-- The direction a fiber is in a call on. -/
def Point.on : Point → Option (Fd × Direction)
  | .trying fd d | .arming fd d | .registering fd d _ | .asleep fd d _ | .returned fd d _ => some (fd, d)
  | .fresh | .user | .ended => none

/-- The wait a fiber is in. -/
def Point.waiting : Point → Option (Fd × Direction × Wait)
  | .registering fd d wait | .asleep fd d wait => some (fd, d, wait)
  | _ => none

/-- The direction a fiber sleeps on. -/
def Point.sleepsOn : Point → Option (Fd × Direction)
  | .asleep fd d _ => some (fd, d)
  | _ => none

theorem Point.sleepsOn_of_waiting {p : Point} (still : p.waiting = none) : p.sleepsOn = none := by
  cases p with
  | asleep fd d wait => cases still
  | _ => rfl

/-- In a call that has not returned. -/
def Point.unfinished : Point → Bool
  | .trying .. | .arming .. | .registering .. | .asleep .. => true
  | _ => false

namespace World

variable {K F : Type} [DecidableEq F]

@[simp] theorem goto_point_self (s : World K F) (f : F) (p : Point) : (s.goto f p).point f = p :=
  Function.update_self ..

theorem goto_point_of_ne (s : World K F) {f g : F} (ne : g ≠ f) (p : Point) :
    (s.goto f p).point g = s.point g :=
  Function.update_of_ne ne ..

/-! ## The promise -/

/-- A call may return this: the first result of the system call that is not retried; a timeout, if the
timer callback of the last wait has run; a refusal, if the last `add_event` returned false. -/
def Right (s : World K F) (f : F) : Outcome → Prop
  | .result r => ∃ retries, s.seen f = retries ++ [r] ∧ (∀ x ∈ retries, x.retried = true) ∧
      r.retried = false
  | .timedOut => (∀ x ∈ s.seen f, x.retried = true) ∧ s.lastWait f ∈ s.ran
  | .refused => (∀ x ∈ s.seen f, x.retried = true) ∧ s.accepted f = false

omit [DecidableEq F] in
/-- What is right stays right while the record of the call does and more callbacks run. -/
theorem Right.congr {s s' : World K F} {f : F} {out : Outcome} (h : s.Right f out)
    (seen : s'.seen f = s.seen f) (last : s'.lastWait f = s.lastWait f)
    (accepted : s'.accepted f = s.accepted f) (more : s.ran ⊆ s'.ran) : s'.Right f out := by
  cases out with
  | result r =>
    rw [Right, seen]
    exact h
  | timedOut =>
    rw [Right, seen, last]
    exact ⟨h.1, more h.2⟩
  | refused =>
    rw [Right, seen, accepted]
    exact h

structure Safe (s : World K F) : Prop where
  right : ∀ f fd d out, s.point f = .returned fd d out → s.Right f out
  noEvent : ∀ f fd d out, s.point f = .returned fd d out → (s.io.events fd).has d = false
  noTimer : ∀ f fd d out, s.point f = .returned fd d out → ∀ t ∈ s.timers.timers, ∀ timer,
    s.timers.heap[t]? = some timer → (Expiry.of timer.cb).fiber ≠ f
  once : ∀ f fd d wait, s.point f = .asleep fd d wait → s.handovers f ≤ 1

/-- A `cancel_event` call of a fiber meets no fiber that an `add_event` refused by the kernel left in
the context of a direction that is not registered. -/
def CleanCancel (s : World K F) : Event F → Prop
  | .cancelEvent fd event => s.io.Clean fd event
  | _ => True

/-! ## Timers -/

/-- Every timer in the set belongs to a fiber in the wait that made it. -/
structure TimersHeld (timers : TimerManager (Expiry F) InfoPtr) (point : F → Point) : Prop where
  sound : timers.Sound
  held : ∀ t ∈ timers.timers, ∃ f fd d wait, (point f).waiting = some (fd, d, wait) ∧
    wait.timer = some t ∧ timers.callback t = some (.bound ⟨fd, d, f⟩ wait.tinfo)

namespace TimersHeld

variable {timers : TimerManager (Expiry F) InfoPtr} {point : F → Point} {f : F} {fd : Fd} {d : Direction}

/-- A fiber outside a wait holds no timer, wherever it goes. -/
theorem goto (h : TimersHeld timers point) (outside : (point f).waiting = none) (p : Point) :
    TimersHeld timers (Function.update point f p) := by
  refine ⟨h.sound, fun t mem => ?_⟩
  obtain ⟨g, fd, d, wait, waits, timer, calls⟩ := h.held t mem
  have ne : g ≠ f := by
    intro eq
    rw [eq, outside] at waits
    cases waits
  refine ⟨g, fd, d, wait, ?_, timer, calls⟩
  rw [Function.update_of_ne ne]
  exact waits

/-- A fiber goes on in the same wait. -/
theorem goOn (h : TimersHeld timers point) {p : Point} (same : p.waiting = (point f).waiting) :
    TimersHeld timers (Function.update point f p) := by
  refine ⟨h.sound, fun t mem => ?_⟩
  obtain ⟨g, fd, d, wait, waits, timer, calls⟩ := h.held t mem
  refine ⟨g, fd, d, wait, ?_, timer, calls⟩
  by_cases eq : g = f
  · subst eq
    rw [Function.update_self, same]
    exact waits
  · rw [Function.update_of_ne eq]
    exact waits

/-- A wait that ends after its timer was cancelled. -/
theorem cancelTimer {wait : Wait} (h : TimersHeld timers point)
    (inWait : (point f).waiting = some (fd, d, wait)) (p : Point) :
    TimersHeld (match wait.timer with | some t => (timers.cancel t).2 | none => timers)
      (Function.update point f p) := by
  cases timer : wait.timer with
  | none =>
    refine ⟨h.sound, fun u mem => ?_⟩
    obtain ⟨g, fd', d', wait', waits, timer', calls⟩ := h.held u mem
    have ne : g ≠ f := by
      intro eq
      rw [eq, inWait] at waits
      cases waits
      rw [timer] at timer'
      cases timer'
    exact ⟨g, fd', d', wait', by rw [Function.update_of_ne ne]; exact waits, timer', calls⟩
  | some t =>
    refine ⟨h.sound.cancel t, fun u mem => ?_⟩
    obtain ⟨g, fd', d', wait', waits, timer', calls⟩ :=
      h.held u (TimerManager.mem_of_mem_cancel h.sound.toOrdered mem)
    have ne : g ≠ f := by
      intro eq
      rw [eq, inWait] at waits
      cases waits
      rw [timer] at timer'
      exact h.sound.not_mem_cancel t (Option.some.inj timer' ▸ mem)
    refine ⟨g, fd', d', wait', by rw [Function.update_of_ne ne]; exact waits, timer', ?_⟩
    rw [TimerManager.cancel_callback]
    exact calls

/-- A wait begins by adding a timer. -/
theorem addTimer (h : TimersHeld timers point) (outside : (point f).waiting = none) (now ms : UInt64)
    (info : InfoPtr) :
    TimersHeld (timers.addTimer now false ms (.bound ⟨fd, d, f⟩ info)).2
      (Function.update point f
        (.registering fd d ⟨info, (timers.addTimer now false ms (.bound ⟨fd, d, f⟩ info)).1⟩)) := by
  refine ⟨h.sound.addTimer .., fun t mem => ?_⟩
  rcases (TimerManager.mem_addTimer ..).mp mem with old | new
  · obtain ⟨g, fd', d', wait, waits, timer, calls⟩ := h.held t old
    have ne : g ≠ f := by
      intro eq
      rw [eq, outside] at waits
      cases waits
    refine ⟨g, fd', d', wait, by rw [Function.update_of_ne ne]; exact waits, timer, ?_⟩
    rw [TimerManager.addTimer_callback, if_neg (Nat.ne_of_lt (h.sound.allocated t old))]
    exact calls
  · refine ⟨f, fd, d, ⟨info, _⟩, by rw [Function.update_self]; rfl, new, ?_⟩
    rw [TimerManager.addTimer_callback, if_pos (TimerManager.addTimer_returned _ _ _ _ _ new)]

omit [DecidableEq F] in
theorem expire (h : TimersHeld timers point) (before now : UInt64) :
    TimersHeld ((timers.getNextTimer before).2.getExpiredTimers now []).2 point := by
  obtain ⟨sound, gained, calls⟩ := (h.sound.getNextTimer before).getExpiredTimers now
  refine ⟨sound, fun t mem => ?_⟩
  obtain ⟨g, fd, d, wait, waits, timer, callback⟩ :=
    h.held t (TimerManager.getNextTimer_timers before ▸ gained t mem)
  refine ⟨g, fd, d, wait, waits, timer, ?_⟩
  rw [calls, TimerManager.getNextTimer_callback]
  exact callback

end TimersHeld

/-! ## Calls -/

/-- What has been recorded of each call agrees with where its fiber is. -/
structure CallsRight (s : World K F) : Prop where
  ran : ∀ info, s.infos[info]? = some (some etimedout) → info ∈ s.ran
  lastWait : ∀ f fd d wait, (s.point f).waiting = some (fd, d, wait) → s.lastWait f = wait.tinfo
  retried : ∀ f, (s.point f).unfinished = true → ∀ x ∈ s.seen f, x.retried = true
  right : ∀ f fd d out, s.point f = .returned fd d out → s.Right f out

namespace CallsRight

variable {s : World K F} {f : F} {fd : Fd} {d : Direction}

/-- A fiber moves on; what it recorded may change with it, and more callbacks may have run. -/
theorem move {s' : World K F} (h : s.CallsRight)
    (ran : ∀ info, s'.infos[info]? = some (some etimedout) → info ∈ s'.ran) (more : s.ran ⊆ s'.ran)
    (others : ∀ g ≠ f, s'.point g = s.point g ∧ s'.seen g = s.seen g ∧ s'.lastWait g = s.lastWait g ∧
      s'.accepted g = s.accepted g)
    (wait : ∀ fd d wait, (s'.point f).waiting = some (fd, d, wait) → s'.lastWait f = wait.tinfo)
    (retried : (s'.point f).unfinished = true → ∀ x ∈ s'.seen f, x.retried = true)
    (right : ∀ fd d out, s'.point f = .returned fd d out → s'.Right f out) : s'.CallsRight where
  ran := ran
  lastWait g fd d w waits := by
    by_cases eq : g = f
    · subst eq
      exact wait fd d w waits
    · obtain ⟨point, -, last, -⟩ := others g eq
      rw [last]
      exact h.lastWait g fd d w (point ▸ waits)
  retried g inCall := by
    by_cases eq : g = f
    · subst eq
      exact retried inCall
    · obtain ⟨point, seen, -, -⟩ := others g eq
      rw [seen]
      exact h.retried g (point ▸ inCall)
  right g fd d out back := by
    by_cases eq : g = f
    · subst eq
      exact right fd d out back
    · obtain ⟨point, seen, last, accepted⟩ := others g eq
      exact (h.right g fd d out (point ▸ back)).congr seen last accepted more

omit [DecidableEq F] in
/-- A step that moves no fiber. -/
theorem stay {s' : World K F} (h : s.CallsRight)
    (ran : ∀ info, s'.infos[info]? = some (some etimedout) → info ∈ s'.ran) (more : s.ran ⊆ s'.ran)
    (point : s'.point = s.point) (seen : s'.seen = s.seen) (last : s'.lastWait = s.lastWait)
    (accepted : s'.accepted = s.accepted) : s'.CallsRight where
  ran := ran
  lastWait g fd d w waits := by
    rw [last]
    exact h.lastWait g fd d w (point ▸ waits)
  retried g inCall := by
    rw [seen]
    exact h.retried g (point ▸ inCall)
  right g fd d out back := by
    exact (h.right g fd d out (point ▸ back)).congr (congrFun seen g) (congrFun last g) (congrFun accepted g) more

end CallsRight

/-! ## Tokens -/

/-- How often a fiber is in the tasks. -/
def queued (s : World K F) (f : F) : Nat :=
  s.tasks.count (.fiber f)

/-- One for the fiber on the worker. -/
def onWorker (s : World K F) (f : F) : Nat :=
  if s.worker = .running f then 1 else 0

/-- Registrations, the tasks and the worker agree on where each fiber is. -/
structure Tokens (owner : Fd → F) (s : World K F) : Prop where
  owned : ∀ f fd d, (s.point f).on = some (fd, d) → owner fd = f
  contexts : ∀ fd d, s.io.context fd d = .reset ∨ s.io.context fd d = .set (some ()) (owner fd)
  registered : ∀ fd d, s.io.bit fd d = true → s.io.context fd d = .set (some ()) (owner fd) ∧
    (s.point (owner fd)).sleepsOn = some (fd, d) ∧ s.handovers (owner fd) = 0
  handed : s.io.handed = []
  queued_le : ∀ f, s.queued f ≤ 1
  fresh : ∀ f, s.point f = .fresh → s.queued f = 0 ∧ s.worker ≠ .running f ∧ s.worker ≠ .back f
  current : ∀ f, s.worker = .running f ∨ s.worker = .back f → s.queued f = 0
  asleep : ∀ f x, (s.point f).sleepsOn = some x → s.handovers f ≤ 1 ∧
    s.queued f + s.onWorker f = s.handovers f
  runs : ∀ f, s.state f = .running ↔ s.worker = .running f
  sleeping : ∀ f x, s.worker = .back f → (s.point f).sleepsOn = some x → s.state f = .sleeping
  alive : ∀ f x, (s.point f).sleepsOn = some x → s.state f ≠ .terminated ∧ s.state f ≠ .exception

theorem queued_addFibers (s : World K F) (fs : List F) (f : F) :
    (s.addFibers fs).queued f = s.queued f + fs.count f := by
  have inner : (fs.map Job.fiber).count (.fiber f) = fs.count f :=
    List.count_map_of_injective fs Job.fiber (fun a b eq => Job.fiber.inj eq) f
  rw [queued, addFibers, List.count_append, inner]
  rfl

namespace Tokens

variable {owner : Fd → F} {s : World K F} {f : F} {fd : Fd} {d : Direction}

/-- Nothing else is looked at. -/
theorem congr {s' : World K F} (h : Tokens owner s) (io : s'.io = s.io) (tasks : s'.tasks = s.tasks)
    (worker : s'.worker = s.worker) (state : s'.state = s.state) (point : s'.point = s.point)
    (handovers : s'.handovers = s.handovers) : Tokens owner s' := by
  obtain ⟨sio, stimers, sinfos, stasks, sworker, sstate, spoint, _, _, _, _, shandovers⟩ := s
  obtain ⟨sio', stimers', sinfos', stasks', sworker', sstate', spoint', _, _, _, _, shandovers'⟩ := s'
  dsimp only at io tasks worker state point handovers
  subst io tasks worker state point handovers
  exact ⟨h.owned, h.contexts, h.registered, h.handed, h.queued_le, h.fresh, h.current, h.asleep, h.runs,
    h.sleeping, h.alive⟩

/-- The fiber on the worker is registered for nothing. -/
theorem not_bit_of_running (h : Tokens owner s) (running : s.worker = .running (owner fd)) :
    s.io.bit fd d = false := by
  by_contra set
  obtain ⟨-, sleeps, none⟩ := h.registered fd d (Bool.of_not_eq_false set)
  have token := (h.asleep _ _ sleeps).2
  rw [none, onWorker, if_pos running] at token
  omega

/-- The fiber on the worker moves on, and not to sleep. -/
theorem goto (h : Tokens owner s) (running : s.worker = .running f) {p : Point}
    (on : ∀ fd d, p.on = some (fd, d) → owner fd = f) (awake : p.sleepsOn = none) (begun : p ≠ .fresh) :
    Tokens owner (s.goto f p) where
  owned g fd d at_ := by
    by_cases eq : g = f
    · subst eq
      rw [goto_point_self] at at_
      exact on fd d at_
    · rw [goto_point_of_ne s eq] at at_
      exact h.owned g fd d at_
  contexts := h.contexts
  registered fd d set := by
    obtain ⟨context, sleeps, none⟩ := h.registered fd d set
    have ne : owner fd ≠ f := by
      intro eq
      have clear : s.io.bit fd d = false := h.not_bit_of_running (eq ▸ running)
      cases clear.symm.trans set
    refine ⟨context, ?_, none⟩
    rw [goto_point_of_ne s ne]
    exact sleeps
  handed := h.handed
  queued_le := h.queued_le
  fresh g new := by
    by_cases eq : g = f
    · subst eq
      rw [goto_point_self] at new
      exact absurd new begun
    · rw [goto_point_of_ne s eq] at new
      exact h.fresh g new
  current := h.current
  asleep g x sleeps := by
    by_cases eq : g = f
    · subst eq
      rw [goto_point_self, awake] at sleeps
      cases sleeps
    · rw [goto_point_of_ne s eq] at sleeps
      exact h.asleep g x sleeps
  runs := h.runs
  sleeping g x back sleeps := by
    cases running.symm.trans back
  alive g x sleeps := by
    by_cases eq : g = f
    · subst eq
      rw [goto_point_self, awake] at sleeps
      cases sleeps
    · rw [goto_point_of_ne s eq] at sleeps
      exact h.alive g x sleeps

/-- A fiber sleeps on one direction only. -/
theorem bit_unique (h : Tokens owner s) {d' : Direction} (set : s.io.bit fd d = true)
    (set' : s.io.bit fd d' = true) : d = d' := by
  have same := (h.registered fd d set).2.1.symm.trans (h.registered fd d' set').2.1
  exact congrArg Prod.snd (Option.some.inj same)

/-- A clean cancellation hands over the fiber that is registered, and only once: the context of the
other direction, if the mask has it, is empty. -/
theorem triggered_of_bit (h : Tokens owner s) {event : Events} (clean : s.io.Clean fd event)
    (inside : event.has d = true) (set : s.io.bit fd d = true) :
    s.io.triggered fd event = [((), owner fd)] := by
  have some : (s.io.entry fd).events.inter event ≠ .none := by
    intro none
    have both := Events.has_of_inter_none none d
    rw [inside, Bool.and_true] at both
    cases both.symm.trans set
  have here := (h.registered fd d set).1
  have other : ∀ d', d' ≠ d → event.has d' = true → (s.io.context fd d').trigger.1 = [] := by
    intro d' ne inside'
    have clear : s.io.bit fd d' = false := by
      by_contra set'
      exact ne (h.bit_unique set (Bool.of_not_eq_false set')).symm
    have empty := clean d d' inside inside' set clear
    rcases h.contexts fd d' with reset | held
    · rw [reset]
      rfl
    · rw [held] at empty
      cases empty
  rw [IOManager.triggered, if_neg some]
  cases d with
  | read =>
    have self : ((s.io.entry fd).read.trigger).1 = [((), owner fd)] := congrArg (·.trigger.1) here
    rw [show event.epollin = true from inside, self]
    by_cases out : event.epollout = true
    · rw [if_pos out, show ((s.io.entry fd).write.trigger).1 = [] from other .write (by decide) out]
      rfl
    · rw [if_neg out]
      rfl
  | write =>
    have self : ((s.io.entry fd).write.trigger).1 = [((), owner fd)] := congrArg (·.trigger.1) here
    rw [show event.epollout = true from inside, self]
    by_cases out : event.epollin = true
    · rw [if_pos out, show ((s.io.entry fd).read.trigger).1 = [] from other .read (by decide) out]
      rfl
    · rw [if_neg out]
      rfl

/-- A clean cancellation keeps the tokens: it removes the registrations of the mask, and the fiber
that had one is added to the tasks. -/
theorem handOver (h : Tokens owner s) {event : Events} {io : IOManager K Unit F}
    (clean : s.io.Clean fd event) (done : s.io.Cancelled fd event io) (notBack : ∀ g, s.worker ≠ .back g) :
    Tokens owner (s.handOver io) := by
  have log : io.handed = s.io.triggered fd event := by rw [done.handed, h.handed, List.nil_append]
  -- nobody is handed over, or the owner, who was registered for a direction of the mask
  have who : io.handed = [] ∨
      ∃ d, event.has d = true ∧ s.io.bit fd d = true ∧ io.handed = [((), owner fd)] := by
    by_cases some : ∃ d, event.has d = true ∧ s.io.bit fd d = true
    · obtain ⟨d, inside, set⟩ := some
      exact .inr ⟨d, inside, set, log.trans (h.triggered_of_bit clean inside set)⟩
    · refine .inl (log.trans (IOManager.triggered_of_clear fun d inside => ?_))
      by_contra set
      exact some ⟨d, inside, Bool.of_not_eq_false set⟩
  have old : ∀ fd' d', io.bit fd' d' = true → s.io.bit fd' d' = true ∧ (fd' = fd → event.has d' = false) := by
    intro fd' d' set
    by_cases eq : fd' = fd
    · subst eq
      rw [done.bit_self, Bool.and_eq_true, Bool.not_eq_true'] at set
      exact ⟨set.1, fun _ => set.2⟩
    · exact ⟨done.bit_other fd' eq d' ▸ set, fun same => absurd same eq⟩
  have contexts : ∀ fd' d', io.context fd' d' = .reset ∨ io.context fd' d' = .set (some ()) (owner fd') := by
    intro fd' d'
    rcases done.context fd' d' with same | ⟨reset, -⟩
    · rw [same]
      exact h.contexts fd' d'
    · exact .inl reset
  have kept : ∀ fd' d', io.bit fd' d' = true → io.context fd' d' = .set (some ()) (owner fd') := by
    intro fd' d' set
    rcases done.context fd' d' with same | ⟨-, clear⟩
    · rw [same]
      exact (h.registered fd' d' (old fd' d' set).1).1
    · cases clear.symm.trans set
  -- whoever is handed over was asleep, registered and nowhere else
  have added : ∀ g, (io.handed.map Prod.snd).count g = 0 ∨ ((io.handed.map Prod.snd).count g = 1 ∧
      s.handovers g = 0 ∧ s.queued g = 0 ∧ s.onWorker g = 0 ∧
      ∃ d, event.has d = true ∧ (s.point g).sleepsOn = some (fd, d)) := by
    intro g
    rcases who with none | ⟨d, inside, set, one⟩
    · rw [none]
      exact .inl rfl
    · rw [one]
      by_cases eq : g = owner fd
      · obtain ⟨-, sleeps, zero⟩ := h.registered fd d set
        subst eq
        have token := (h.asleep _ _ sleeps).2
        exact .inr ⟨by simp, zero, by omega, by omega, d, inside, sleeps⟩
      · exact .inl (by simp [Ne.symm eq])
  have queue : ∀ g, (s.handOver io).queued g = s.queued g + (io.handed.map Prod.snd).count g :=
    queued_addFibers s _
  have notRunning : ∀ g, s.onWorker g = 0 → s.worker ≠ .running g := by
    intro g zero running
    rw [onWorker, if_pos running] at zero
    cases zero
  refine ⟨h.owned, contexts, fun fd' d' set => ?_, rfl, fun g => ?_, fun g new => ?_, fun g cur => ?_,
    fun g x sleeps => ?_, h.runs, fun g x back => absurd back (notBack g), h.alive⟩
  · obtain ⟨set, away⟩ := old fd' d' set
    obtain ⟨-, sleeps, zero⟩ := h.registered fd' d' set
    refine ⟨kept fd' d' ‹_›, sleeps, ?_⟩
    show s.handovers (owner fd') + _ = 0
    rcases added (owner fd') with none | ⟨-, -, -, -, d, inside, sleeps'⟩
    · rw [zero, none]
    · obtain ⟨rfl, rfl⟩ := Prod.mk.inj (Option.some.inj (sleeps.symm.trans sleeps'))
      cases (away rfl).symm.trans inside
  · have le := h.queued_le g
    rw [queue g]
    rcases added g with none | ⟨one, -, zero, -⟩ <;> omega
  · obtain ⟨zero, notRuns, notBack⟩ := h.fresh g new
    refine ⟨?_, notRuns, notBack⟩
    rw [queue g, zero, Nat.zero_add]
    rcases added g with none | ⟨-, -, -, -, d, -, sleeps⟩
    · exact none
    · have at_ : s.point g = .fresh := new
      rw [at_] at sleeps
      cases sleeps
  · have zero := h.current g cur
    rw [queue g, zero, Nat.zero_add]
    rcases added g with none | ⟨-, -, -, off, -⟩
    · exact none
    · exact absurd (cur.resolve_right (notBack g)) (notRunning g off)
  · obtain ⟨le, token⟩ := h.asleep g x sleeps
    rw [queue g]
    show s.handovers g + _ ≤ 1 ∧ _ + s.onWorker g = s.handovers g + _
    rcases added g with none | ⟨one, zero, -⟩ <;> omega

/-- The worker goes from one place of the loop to another. -/
theorem setWorker (h : Tokens owner s) {w : Worker F} (off : ∀ g, s.worker ≠ .running g)
    (off' : ∀ g, w ≠ .running g ∧ w ≠ .back g) : Tokens owner { s with worker := w } where
  owned := h.owned
  contexts := h.contexts
  registered := h.registered
  handed := h.handed
  queued_le := h.queued_le
  fresh g new := ⟨(h.fresh g new).1, off' g⟩
  current g cur := absurd cur (not_or.mpr (off' g))
  asleep g x sleeps := by
    have token := h.asleep g x sleeps
    rw [onWorker, if_neg (off g)] at token
    show _ ∧ _ + (if w = .running g then 1 else 0) = _
    rw [if_neg (off' g).1]
    exact token
  runs g := iff_of_false (fun runs => off g ((h.runs g).mp runs)) (off' g).1
  sleeping g x back := absurd back (off' g).2
  alive := h.alive

/-- A fiber that is awake and nowhere is added to the tasks. -/
theorem addAwake (h : Tokens owner s) (nowhere : s.queued f = 0) (begun : s.point f ≠ .fresh)
    (awake : (s.point f).sleepsOn = none) (off : s.worker ≠ .running f ∧ s.worker ≠ .back f) :
    Tokens owner (s.addFibers [f]) := by
  have queue : ∀ g, (s.addFibers [f]).queued g = s.queued g + [f].count g := queued_addFibers s [f]
  have other : ∀ g ≠ f, [f].count g = 0 := fun g ne => by simp [Ne.symm ne]
  have notF : ∀ g x, (s.point g).sleepsOn = some x → g ≠ f := by
    intro g x sleeps eq
    rw [eq, awake] at sleeps
    cases sleeps
  refine ⟨h.owned, h.contexts, fun fd d set => ?_, h.handed, fun g => ?_, fun g new => ?_, fun g cur => ?_,
    fun g x sleeps => ?_, h.runs, h.sleeping, h.alive⟩
  · obtain ⟨context, sleeps, zero⟩ := h.registered fd d set
    refine ⟨context, sleeps, ?_⟩
    show s.handovers (owner fd) + [f].count (owner fd) = 0
    rw [zero, other _ (notF _ _ sleeps)]
  · rw [queue g]
    by_cases eq : g = f
    · subst eq
      rw [nowhere]
      simp
    · rw [other g eq]
      exact h.queued_le g
  · have ne : g ≠ f := fun eq => begun (eq ▸ new)
    rw [queue g, other g ne]
    exact h.fresh g new
  · have ne : g ≠ f := fun eq => (not_or.mpr off) (eq ▸ cur)
    rw [queue g, other g ne]
    exact h.current g cur
  · have ne := notF g x sleeps
    rw [queue g]
    show s.handovers g + [f].count g ≤ 1 ∧ _ + s.onWorker g = s.handovers g + [f].count g
    rw [other g ne]
    exact h.asleep g x sleeps

/-- A new fiber. -/
theorem spawn (h : Tokens owner s) (new : s.point f = .fresh) :
    Tokens owner ((s.goto f .user).addFibers [f]) := by
  obtain ⟨nowhere, off⟩ := h.fresh f new
  have awake : (s.point f).sleepsOn = none := by rw [new]; rfl
  have others : ∀ g x, ((s.goto f .user).point g).sleepsOn = some x → (s.point g).sleepsOn = some x := by
    intro g x sleeps
    by_cases eq : g = f
    · rw [eq, goto_point_self] at sleeps
      cases sleeps
    · rwa [goto_point_of_ne s eq] at sleeps
  have begun : Tokens owner (s.goto f .user) := by
    refine ⟨fun g fd d at_ => ?_, h.contexts, fun fd d set => ?_, h.handed, h.queued_le, fun g new' => ?_,
      h.current, fun g x sleeps => h.asleep g x (others g x sleeps), h.runs,
      fun g x back sleeps => h.sleeping g x back (others g x sleeps),
      fun g x sleeps => h.alive g x (others g x sleeps)⟩
    · by_cases eq : g = f
      · rw [eq, goto_point_self] at at_
        cases at_
      · rw [goto_point_of_ne s eq] at at_
        exact h.owned g fd d at_
    · obtain ⟨context, sleeps, zero⟩ := h.registered fd d set
      refine ⟨context, ?_, zero⟩
      have ne : owner fd ≠ f := by
        intro eq
        rw [eq, awake] at sleeps
        cases sleeps
      rw [goto_point_of_ne s ne]
      exact sleeps
    · by_cases eq : g = f
      · rw [eq, goto_point_self] at new'
        cases new'
      · rw [goto_point_of_ne s eq] at new'
        exact h.fresh g new'
  exact begun.addAwake nowhere (by rw [goto_point_self]; exact nofun) (by rw [goto_point_self]; rfl) off

/-- The fiber on the worker leaves it awake. -/
theorem leaveAwake (h : Tokens owner s) (running : s.worker = .running f)
    (awake : (s.point f).sleepsOn = none) {new : FiberState} (still : new ≠ .running) :
    Tokens owner { s.setState f new with worker := .back f } := by
  have notF : ∀ g x, (s.point g).sleepsOn = some x → g ≠ f := by
    intro g x sleeps eq
    rw [eq, awake] at sleeps
    cases sleeps
  have other : ∀ g ≠ f, s.worker ≠ .running g := by
    intro g ne runs
    exact ne (Worker.running.inj (running.symm.trans runs)).symm
  refine ⟨h.owned, h.contexts, h.registered, h.handed, h.queued_le, fun g new' => ?_, fun g cur => ?_,
    fun g x sleeps => ?_, fun g => ?_, fun g x back sleeps => ?_, fun g x sleeps => ?_⟩
  · obtain ⟨zero, notRuns, -⟩ := h.fresh g new'
    refine ⟨zero, nofun, fun back => notRuns ?_⟩
    rw [← Worker.back.inj back]
    exact running
  · rcases cur with runs | back
    · cases runs
    · rw [← Worker.back.inj back]
      exact h.current f (.inl running)
  · have token := h.asleep g x sleeps
    rw [onWorker, if_neg (other g (notF g x sleeps))] at token
    exact token
  · refine iff_of_false (fun runs => ?_) nofun
    by_cases eq : g = f
    · subst eq
      exact still ((Function.update_self ..).symm.trans runs)
    · exact other g eq ((h.runs g).mp ((Function.update_of_ne eq ..).symm.trans runs))
  · exact absurd (Worker.back.inj back).symm (notF g x sleeps)
  · show Function.update s.state f new g ≠ _ ∧ Function.update s.state f new g ≠ _
    rw [Function.update_of_ne (notF g x sleeps)]
    exact h.alive g x sleeps

/-- `fiber_wakeup` while no fiber is on the worker. -/
theorem fiberWakeup (h : Tokens owner s) (loop : s.worker = .loop) (f : F) :
    Tokens owner (s.fiberWakeup f) := by
  unfold World.fiberWakeup
  split
  · have others : ∀ g st, st ≠ .suspended → (s.setState f .suspended).state g = st → s.state g = st := by
      intro g st ne at_
      by_cases eq : g = f
      · subst eq
        exact absurd ((Function.update_self ..).symm.trans at_).symm ne
      · exact (Function.update_of_ne eq ..).symm.trans at_
    refine ⟨h.owned, h.contexts, h.registered, h.handed, h.queued_le, h.fresh, h.current, h.asleep,
      fun g => ?_, fun g x back => absurd (loop.symm.trans back) nofun, fun g x sleeps => ?_⟩
    · refine iff_of_false (fun runs => ?_) (fun runs => nomatch loop.symm.trans runs)
      cases loop.symm.trans ((h.runs g).mp (others g _ nofun runs))
    · obtain ⟨notEnded, notThrown⟩ := h.alive g x sleeps
      exact ⟨fun at_ => notEnded (others g _ nofun at_), fun at_ => notThrown (others g _ nofun at_)⟩
  · exact h

/-- The worker takes a fiber off the tasks and resumes it. -/
theorem resume (h : Tokens owner s) (loop : s.worker = .loop) {rest : List (Job F)}
    (tasks : s.tasks = .fiber f :: rest) :
    Tokens owner { { s with tasks := rest }.setState f .running with worker := .running f } := by
  have self : s.queued f = rest.count (.fiber f) + 1 := by rw [queued, tasks, List.count_cons_self]
  have other : ∀ g ≠ f, s.queued g = rest.count (.fiber g) := by
    intro g ne
    rw [queued, tasks, List.count_cons_of_ne fun eq => ne (Job.fiber.inj eq).symm]
  have off : ∀ g, s.onWorker g = 0 := fun g => by
    rw [onWorker, loop]
    rfl
  have le := h.queued_le f
  refine ⟨h.owned, h.contexts, h.registered, h.handed, fun g => ?_, fun g new => ?_, fun g cur => ?_,
    fun g x sleeps => ?_, fun g => ?_, fun g x back => absurd back nofun, fun g x sleeps => ?_⟩
  · show rest.count (.fiber g) ≤ 1
    by_cases eq : g = f
    · subst eq
      omega
    · rw [← other g eq]
      exact h.queued_le g
  · obtain ⟨zero, -, -⟩ := h.fresh g new
    have ne : g ≠ f := by
      intro eq
      subst eq
      omega
    exact ⟨(other g ne).symm.trans zero, fun runs => ne (Worker.running.inj runs).symm, nofun⟩
  · rcases cur with runs | back
    · have eq := Worker.running.inj runs
      subst eq
      show rest.count (.fiber f) = 0
      omega
    · cases back
  · obtain ⟨once, token⟩ := h.asleep g x sleeps
    refine ⟨once, ?_⟩
    show rest.count (.fiber g) + (if Worker.running f = .running g then 1 else 0) = s.handovers g
    rw [off g] at token
    by_cases eq : g = f
    · subst eq
      rw [if_pos rfl]
      omega
    · rw [if_neg fun runs => eq (Worker.running.inj runs).symm, ← other g eq]
      exact token
  · show Function.update s.state f .running g = .running ↔ Worker.running f = .running g
    by_cases eq : g = f
    · subst eq
      exact iff_of_true (Function.update_self ..) rfl
    · rw [Function.update_of_ne eq]
      refine iff_of_false (fun runs => ?_) (fun runs => eq (Worker.running.inj runs).symm)
      cases loop.symm.trans ((h.runs g).mp runs)
  · show Function.update s.state f .running g ≠ _ ∧ Function.update s.state f .running g ≠ _
    by_cases eq : g = f
    · subst eq
      rw [Function.update_self]
      exact ⟨nofun, nofun⟩
    · rw [Function.update_of_ne eq]
      exact h.alive g x sleeps

/-- A fiber that has ended is dropped from the tasks. -/
theorem drop (h : Tokens owner s) {rest : List (Job F)}
    (tasks : s.tasks = .fiber f :: rest) (ended : s.state f = .terminated ∨ s.state f = .exception) :
    Tokens owner { s with tasks := rest } := by
  have less : ∀ g, rest.count (.fiber g) ≤ s.queued g := by
    intro g
    rw [queued, tasks]
    exact List.count_le_count_cons
  have notF : ∀ g x, (s.point g).sleepsOn = some x → g ≠ f := by
    intro g x sleeps eq
    subst eq
    obtain ⟨notEnded, notThrown⟩ := h.alive g x sleeps
    exact ended.elim notEnded notThrown
  refine ⟨h.owned, h.contexts, h.registered, h.handed, fun g => (less g).trans (h.queued_le g),
    fun g new => ⟨Nat.le_zero.mp ((h.fresh g new).1 ▸ less g), (h.fresh g new).2⟩,
    fun g cur => Nat.le_zero.mp (h.current g cur ▸ less g), fun g x sleeps => ?_, h.runs, h.sleeping,
    h.alive⟩
  have same : rest.count (.fiber g) = s.queued g := by
    rw [queued, tasks, List.count_cons_of_ne fun eq => notF g x sleeps (Job.fiber.inj eq).symm]
  show _ ∧ rest.count (.fiber g) + s.onWorker g = _
  rw [same]
  exact h.asleep g x sleeps

/-- Callbacks come to the tasks and go. -/
theorem setTasks (h : Tokens owner s) {tasks : List (Job F)}
    (same : ∀ g, tasks.count (.fiber g) = s.queued g) : Tokens owner { s with tasks := tasks } := by
  have queue : ∀ g, ({ s with tasks := tasks } : World K F).queued g = s.queued g := same
  refine ⟨h.owned, h.contexts, h.registered, h.handed, fun g => ?_, fun g new => ?_, fun g cur => ?_,
    fun g x sleeps => ?_, h.runs, h.sleeping, h.alive⟩
  · rw [queue g]
    exact h.queued_le g
  · rw [queue g]
    exact h.fresh g new
  · rw [queue g]
    exact h.current g cur
  · rw [queue g]
    exact h.asleep g x sleeps

/-- A registration leaves every context empty or with the fiber of its descriptor. -/
theorem contexts_added (h : Tokens owner s) {ret : Bool} {io : IOManager K Unit F}
    (added : s.io.Added fd d (.set (some ()) (owner fd)) ret io) (fd' : Fd) (d' : Direction) :
    io.context fd' d' = .reset ∨ io.context fd' d' = .set (some ()) (owner fd') := by
  by_cases eq : (fd', d') = (fd, d)
  · obtain ⟨rfl, rfl⟩ := Prod.mk.inj eq
    exact .inr added.context_self
  · rw [added.context_other fd' d' eq]
    exact h.contexts fd' d'

/-- The kernel refused the registration of the fiber on the worker. -/
theorem refuse (h : Tokens owner s) (running : s.worker = .running (owner fd))
    {io : IOManager K Unit F} (added : s.io.Added fd d (.set (some ()) (owner fd)) false io) :
    Tokens owner { s with io := io } := by
  refine ⟨h.owned, fun fd' d' => ?_, fun fd' d' set => ?_, added.handed.trans h.handed, h.queued_le,
    h.fresh, h.current, h.asleep, h.runs, h.sleeping, h.alive⟩
  · exact h.contexts_added added fd' d'
  · have ne : (fd', d') ≠ (fd, d) := by
      intro eq
      obtain ⟨rfl, rfl⟩ := Prod.mk.inj eq
      have clear := added.bit_self
      rw [h.not_bit_of_running running] at clear
      cases clear.symm.trans set
    show io.context fd' d' = _ ∧ _
    rw [added.context_other fd' d' ne]
    exact h.registered fd' d' ((added.bit_other fd' d' ne).symm.trans set)

/-- The fiber on the worker is registered and goes to sleep. -/
theorem sleep (h : Tokens owner s) (running : s.worker = .running f) (own : owner fd = f) {wait : Wait}
    {io : IOManager K Unit F} (added : s.io.Added fd d (.set (some ()) f) true io) :
    Tokens owner
      { s with
        io := io
        handovers := Function.update s.handovers f 0
        point := Function.update s.point f (.asleep fd d wait)
        state := Function.update s.state f .sleeping
        worker := .back f } := by
  subst own
  have zero : s.queued (owner fd) = 0 := h.current _ (.inl running)
  have other : ∀ g ≠ owner fd, s.worker ≠ .running g := by
    intro g ne runs
    exact ne (Worker.running.inj (running.symm.trans runs)).symm
  refine ⟨fun g fd' d' at_ => ?_, fun fd' d' => ?_, fun fd' d' set => ?_, added.handed.trans h.handed,
    h.queued_le, fun g new => ?_, fun g cur => ?_, fun g x sleeps => ?_, fun g => ?_,
    fun g x back sleeps => ?_, fun g x sleeps => ?_⟩
  · dsimp only at at_
    by_cases eq : g = owner fd
    · subst eq
      rw [Function.update_self] at at_
      rw [(Prod.mk.inj (Option.some.inj at_)).1]
    · rw [Function.update_of_ne eq] at at_
      exact h.owned g fd' d' at_
  · exact h.contexts_added added fd' d'
  · by_cases eq : (fd', d') = (fd, d)
    · obtain ⟨rfl, rfl⟩ := Prod.mk.inj eq
      refine ⟨added.context_self, ?_, Function.update_self ..⟩
      dsimp only
      rw [Function.update_self]
      rfl
    · have old : s.io.bit fd' d' = true := (added.bit_other fd' d' eq).symm.trans set
      obtain ⟨context, sleeps, none⟩ := h.registered fd' d' old
      have ne : owner fd' ≠ owner fd := by
        intro same
        cases (h.not_bit_of_running (same ▸ running)).symm.trans old
      refine ⟨(added.context_other fd' d' eq).trans context, ?_, (Function.update_of_ne ne ..).trans none⟩
      dsimp only
      rw [Function.update_of_ne ne]
      exact sleeps
  · have ne : g ≠ owner fd := by
      intro eq
      subst eq
      dsimp only at new
      rw [Function.update_self] at new
      cases new
    dsimp only at new
    rw [Function.update_of_ne ne] at new
    exact ⟨(h.fresh g new).1, nofun, fun back => ne (Worker.back.inj back).symm⟩
  · rcases cur with runs | back
    · cases runs
    · rw [← Worker.back.inj back]
      exact zero
  · show Function.update s.handovers (owner fd) 0 g ≤ 1 ∧
      s.queued g + 0 = Function.update s.handovers (owner fd) 0 g
    by_cases eq : g = owner fd
    · subst eq
      rw [Function.update_self]
      exact ⟨Nat.zero_le _, zero⟩
    · dsimp only at sleeps
      rw [Function.update_of_ne eq] at sleeps
      have token := h.asleep g x sleeps
      rw [onWorker, if_neg (other g eq)] at token
      rw [Function.update_of_ne eq]
      exact token
  · show Function.update s.state (owner fd) .sleeping g = .running ↔ Worker.back (owner fd) = .running g
    refine iff_of_false (fun runs => ?_) nofun
    by_cases eq : g = owner fd
    · subst eq
      cases (Function.update_self ..).symm.trans runs
    · exact other g eq ((h.runs g).mp ((Function.update_of_ne eq ..).symm.trans runs))
  · rw [← Worker.back.inj back]
    exact Function.update_self ..
  · show Function.update s.state (owner fd) .sleeping g ≠ _ ∧ Function.update s.state (owner fd) .sleeping g ≠ _
    by_cases eq : g = owner fd
    · subst eq
      rw [Function.update_self]
      exact ⟨nofun, nofun⟩
    · dsimp only at sleeps
      rw [Function.update_of_ne eq] at sleeps ⊢
      exact h.alive g x sleeps

end Tokens

end World

end Sylar.Hook
