import Sylar.Hook.Basic
import Sylar.IOManager.Delivery

/-!
# Cancelling an event, direction by direction

What `add_event`, `cancel_event` and a delivery do to each direction of each fd: whether it is
registered, whom its context holds, and whom `trigger` hands over.
-/

namespace Sylar

theorem Events.has_only (d d' : Direction) : (Events.only d).has d' = decide (d' = d) := by
  cases d <;> cases d' <;> rfl

theorem Events.inter_none {a b : Events} (apart : ∀ d, (a.has d && b.has d) = false) :
    a.inter b = .none :=
  congrArg₂ Events.mk (apart .read) (apart .write)

theorem Events.has_of_inter_none {a b : Events} (none : a.inter b = .none) (d : Direction) :
    (a.has d && b.has d) = false := by
  cases d
  · exact congrArg Events.epollin none
  · exact congrArg Events.epollout none

namespace IOEvent

variable {K S F : Type}

/-- The one direction of `add_event` changes, the other does not. -/
theorem addEvent_only (ctl : EpollCtl K) (k : K) (e : IOEvent S F) (d d' : Direction) (scheduler : Option S)
    (fiber : F) :
    (e.addEvent ctl k (.only d) scheduler fun _ => fiber).2.1.slot d' =
      if d' = d then
        ((e.addEvent ctl k (.only d) scheduler fun _ => fiber).1 || e.events.has d', .set scheduler fiber)
      else e.slot d' := by
  rw [addEvent_slot, Events.has_only]
  simp only [decide_eq_true_eq]

/-- The event of an fd after both critical sections of a cancellation. -/
theorem cancel_slot {e : IOEvent S F} {event : Events} (ctl : EpollCtl K) (k : K)
    (some : e.events.inter event ≠ .none) :
    ∃ e' handed, e.cancelTrigger event = .some (handed, e') ∧ e'.events = e.events ∧
      handed = (if event.epollin then (e.read.trigger).1 else []) ++
        (if event.epollout then (e.write.trigger).1 else []) ∧
      ∀ d, (e'.delEvent ctl k event).2.1.events.has d = (e.events.has d && !event.has d) ∧
        (e'.delEvent ctl k event).2.1.context d = if event.has d then .reset else e.context d := by
  have run : e.cancelTrigger event = .some
      ((if event.epollin then e.read.trigger else ([], e.read)).1 ++
        (if event.epollout then e.write.trigger else ([], e.write)).1,
        { e with
          read := (if event.epollin then e.read.trigger else ([], e.read)).2
          write := (if event.epollout then e.write.trigger else ([], e.write)).2 }) :=
    if_neg some
  refine ⟨_, _, run, rfl, ?_, fun d => ?_⟩
  · cases event with
    | mk i o => cases i <;> cases o <;> rfl
  · unfold delEvent
    rw [if_neg some]
    cases d <;> cases event with
    | mk i o => cases i <;> cases o <;> simp [Events.has, Events.diff, IOEvent.context]

end IOEvent

namespace IOManager

variable {K S F : Type} {ctl : EpollCtl K}

theorem bit_init (k : K) (fd : Fd) (d : Direction) : (init k : IOManager K S F).bit fd d = false := by
  cases d <;> rfl

theorem context_init (k : K) (fd : Fd) (d : Direction) :
    (init k : IOManager K S F).context fd d = .reset := by
  cases d <;> rfl

/-! ## Adding -/

/-- What `add_event` of one direction for one fiber leaves behind. -/
structure Added (m : IOManager K S F) (fd : Fd) (d : Direction) (context : EventContext S F) (ret : Bool)
    (m' : IOManager K S F) : Prop where
  bit_self : m'.bit fd d = (ret || m.bit fd d)
  context_self : m'.context fd d = context
  bit_other : ∀ fd' d', (fd', d') ≠ (fd, d) → m'.bit fd' d' = m.bit fd' d'
  context_other : ∀ fd' d', (fd', d') ≠ (fd, d) → m'.context fd' d' = m.context fd' d'
  handed : m'.handed = m.handed

theorem addEvent_added (ctl : EpollCtl K) (m : IOManager K S F) (fd : Fd) (d : Direction)
    (scheduler : Option S) (fiber : F) :
    m.Added fd d (.set scheduler fiber) (m.addEvent ctl fd (.only d) scheduler fun _ => fiber).1
      (m.addEvent ctl fd (.only d) scheduler fun _ => fiber).2 := by
  have new : (m.addEvent ctl fd (.only d) scheduler fun _ => fiber).2.entry fd =
      ((m.entry fd).addEvent ctl m.kernel (.only d) scheduler fun _ => fiber).2.1 := by
    unfold addEvent
    dsimp only
    split <;> exact entry_insert_self ..
  have other : ∀ fd' ≠ fd, (m.addEvent ctl fd (.only d) scheduler fun _ => fiber).2.entry fd' =
      m.entry fd' := by
    intro fd' ne
    unfold addEvent
    dsimp only
    split <;> exact entry_insert_ne m ne ..
  have ret : (m.addEvent ctl fd (.only d) scheduler fun _ => fiber).1 =
      ((m.entry fd).addEvent ctl m.kernel (.only d) scheduler fun _ => fiber).1 := by
    unfold addEvent
    dsimp only
    split <;> simp_all [entry]
  have spec := fun d' => IOEvent.addEvent_only ctl m.kernel (m.entry fd) d d' scheduler fiber
  have self := (spec d).trans (if_pos rfl)
  have away : ∀ fd' d', (fd', d') ≠ (fd, d) →
      ((m.addEvent ctl fd (.only d) scheduler fun _ => fiber).2.entry fd').slot d' =
        (m.entry fd').slot d' := by
    intro fd' d' ne
    by_cases same : fd' = fd
    · subst same
      rw [new]
      exact (spec d').trans (if_neg fun eq => ne (by rw [eq]))
    · rw [other fd' same]
  refine ⟨?_, ?_, fun fd' d' ne => congrArg Prod.fst (away fd' d' ne),
    fun fd' d' ne => congrArg Prod.snd (away fd' d' ne), ?_⟩
  · rw [bit, new, ret]
    exact congrArg Prod.fst self
  · rw [context, new]
    exact congrArg Prod.snd self
  · unfold addEvent
    dsimp only
    split <;> rfl

/-! ## Cancelling -/

/-- Whom a cancellation of a mask hands over. -/
def triggered (m : IOManager K S F) (fd : Fd) (event : Events) : List (S × F) :=
  if (m.entry fd).events.inter event = .none then []
  else
    (if event.epollin then ((m.entry fd).read.trigger).1 else []) ++
      if event.epollout then ((m.entry fd).write.trigger).1 else []

/-- A cancellation that meets no registered direction hands nobody over. -/
theorem triggered_of_clear {m : IOManager K S F} {fd : Fd} {event : Events}
    (clear : ∀ d, event.has d = true → m.bit fd d = false) : m.triggered fd event = [] := by
  refine if_pos (Events.inter_none fun d => ?_)
  cases inside : event.has d with
  | false => exact Bool.and_false _
  | true =>
    rw [Bool.and_true]
    exact clear d inside

/-- What a cancellation leaves behind. -/
structure Cancelled (m : IOManager K S F) (fd : Fd) (event : Events) (m' : IOManager K S F) : Prop where
  bit_self : ∀ d, m'.bit fd d = (m.bit fd d && !event.has d)
  bit_other : ∀ fd' ≠ fd, ∀ d, m'.bit fd' d = m.bit fd' d
  context : ∀ fd' d, m'.context fd' d = m.context fd' d ∨
    (m'.context fd' d = .reset ∧ m'.bit fd' d = false)
  handed : m'.handed = m.handed ++ m.triggered fd event

/-- Nothing of the mask is registered: nothing happens. -/
theorem cancelled_of_none {m : IOManager K S F} {fd : Fd} {event : Events}
    (none : (m.entry fd).events.inter event = .none) : m.Cancelled fd event m where
  bit_self d := by
    have clear := Events.has_of_inter_none none d
    unfold bit
    revert clear
    cases (m.entry fd).events.has d <;> cases event.has d <;> decide
  bit_other _ _ _ := rfl
  context _ _ := .inl rfl
  handed := by rw [triggered, if_pos none, List.append_nil]

theorem cancelIn_cancelled (m : IOManager K S F) (fd : Fd) (event : Events) :
    m.Cancelled fd event (m.cancelIn ctl fd event).2 := by
  by_cases none : (m.entry fd).events.inter event = .none
  · have same : (m.cancelIn ctl fd event).2 = m := by
      unfold entry at none
      unfold cancelIn triggerIn
      cases found : m.fdEventMap.lookup fd with
      | none => rfl
      | some e =>
        rw [found] at none
        have still : e.cancelTrigger event = .none := if_pos none
        simp only [still, Bool.false_eq_true, if_false]
    rw [same]
    exact cancelled_of_none none
  · obtain ⟨e', handed, trigger, -, log, after⟩ := IOEvent.cancel_slot ctl m.kernel none
    obtain ⟨e, found⟩ : ∃ e, m.fdEventMap.lookup fd = some e := by
      cases found : m.fdEventMap.lookup fd with
      | none =>
        refine absurd ?_ none
        rw [entry, found]
        cases event
        rfl
      | some e => exact ⟨e, rfl⟩
    have here : m.entry fd = e := by rw [entry, found]; rfl
    rw [here] at trigger
    have whole : (m.cancelIn ctl fd event).2 =
        ⟨(m.fdEventMap.insert fd e').insert fd (e'.delEvent ctl m.kernel event).2.1, m.pendingEventCount,
          (e'.delEvent ctl m.kernel event).2.2, m.handed ++ handed⟩ := by
      simp only [cancelIn, triggerIn, found, trigger, if_true, deleteIn, AList.lookup_insert]
    rw [whole]
    refine ⟨fun d => ?_, fun fd' ne d => ?_, fun fd' d => ?_, ?_⟩
    · rw [bit, entry, AList.lookup_insert]
      exact (after d).1
    · rw [bit, entry, AList.lookup_insert_ne ne, AList.lookup_insert_ne ne]
      rfl
    · by_cases same : fd' = fd
      · subst same
        rw [context, bit, entry, AList.lookup_insert]
        refine (em (event.has d = true)).symm.imp (fun out => ?_) (fun inside => ⟨?_, ?_⟩)
        · exact (after d).2.trans (if_neg out)
        · exact (after d).2.trans (if_pos inside)
        · refine (after d).1.trans ?_
          rw [inside, Bool.not_true, Bool.and_false]
      · rw [context, entry, AList.lookup_insert_ne same, AList.lookup_insert_ne same]
        exact .inl rfl
    · rw [triggered, if_neg none, ← log]

/-- The count of pending events is no part of what a cancellation leaves behind. -/
theorem Cancelled.count {m m' : IOManager K S F} {fd : Fd} {event : Events} (h : m.Cancelled fd event m')
    (c : UInt64) : m.Cancelled fd event { m' with pendingEventCount := c } :=
  ⟨h.bit_self, h.bit_other, h.context, h.handed⟩

theorem cancelEvent_cancelled (m : IOManager K S F) (fd : Fd) (event : Events) :
    m.Cancelled fd event (m.cancelEvent ctl fd event).2 := by
  unfold cancelEvent
  dsimp only
  split
  · exact (cancelIn_cancelled m fd event).count _
  · exact cancelIn_cancelled m fd event

theorem deliver_cancelled (m : IOManager K S F) (fd : Fd) (d : Direction) :
    m.Cancelled fd (.only d) (m.deliver ctl fd true d) :=
  (cancelIn_cancelled m fd (.only d)).count _

/-! ## Clean cancellations -/

/-- No direction of the mask that is not registered still holds a fiber, when one of the mask is. -/
def Clean (m : IOManager K S F) (fd : Fd) (event : Events) : Prop :=
  ∀ d d', event.has d = true → event.has d' = true → m.bit fd d = true → m.bit fd d' = false →
    (m.context fd d').fiber = none

theorem clean_only (m : IOManager K S F) (fd : Fd) (d : Direction) : m.Clean fd (.only d) := by
  intro d₁ d₂ in₁ in₂ set clear
  rw [Events.has_only, decide_eq_true_eq] at in₁ in₂
  subst in₁ in₂
  rw [set] at clear
  cases clear

end IOManager

end Sylar
