import Sylar.IOManager.Agree
import Sylar.IOManager.Waiting

/-!
# First registration of an fd by several threads

`IOManager::add_event` looks an fd up under a read lock. If it finds no `IOEvent` it makes one, registers
it with the kernel while nobody else can see it, and puts it into the map under a write lock, whatever
the kernel said. Between the lookup and the insertion another call can do the same. The kernel refuses
the second addition and keeps the pointer of the first, and the map keeps the pointer that came last.

The steps here are the lock sections of any number of calls on one fd. `InTurn` says of a lookup that no
other call is on its way from a failed lookup to its insertion, and of a registration on an event that
was found that its directions are not taken.
-/

namespace Sylar

open Lib

theorem Events.has_union (a b : Events) (d : Direction) : (a.union b).has d = (a.has d || b.has d) := by
  cases d <;> rfl

theorem Events.has_inter (a b : Events) (d : Direction) : (a.inter b).has d = (a.has d && b.has d) := by
  cases d <;> rfl

/-- An `add_event` call of either overload, with at least one direction. -/
structure AddCall (S F : Type) where
  event : Events
  some : event ≠ .none
  scheduler : Option S
  fiber : Direction → F

/-- Where a call is. An `IOEvent` is named by the call that made it. -/
inductive AddPhase (T : Type) where
  | start
  /-- The lookup found an event. -/
  | found (p : T)
  /-- The lookup found none. -/
  | absent
  /-- The private event has been offered to the kernel, which accepted it or not. -/
  | added (ret : Bool)
  | done (ret : Bool)
  deriving DecidableEq, Repr

/-- What a lookup leads to. -/
def AddPhase.looked {T : Type} : Option T → AddPhase T
  | some p => .found p
  | none => .absent

/-- The calls on one fd: their phases, the events they made, the fd's entry in `fd_event_map_`, and the
pointer and mask the kernel has for the fd. -/
structure FirstAdd (T S F : Type) where
  phase : T → AddPhase T
  heap : T → IOEvent S F
  map : Option T
  kernel : Option (T × Events)

/-- A lock section of a call. -/
inductive AddSection (T : Type) where
  | lookup (t : T)
  | addFound (t : T)
  | addPrivate (t : T)
  | insert (t : T)
  deriving DecidableEq, Repr

/-- `epoll_ctl` for one fd with `data.ptr = ptr`. -/
def pointerCtl {T : Type} (ptr : T) : EpollCtl (Option (T × Events)) := fun k c =>
  match c.op, k with
  | .add, none => (true, some (ptr, c.events))
  | .mod, some _ => (true, some (ptr, c.events))
  | .del, some _ => (true, none)
  | _, _ => (false, k)

namespace FirstAdd

variable {T S F : Type} [DecidableEq T]

def init (fd : Fd) : FirstAdd T S F := ⟨fun _ => .start, fun _ => .create fd, none, none⟩

/-- `IOEvent::add_event` of a call on the event of a pointer: what it returned, and the state with the
call in a later phase. -/
def addTo (calls : T → AddCall S F) (w : FirstAdd T S F) (t p : T) (next : Bool → AddPhase T) :
    FirstAdd T S F :=
  let c := calls t
  let (ret, e, k) := (w.heap p).addEvent (pointerCtl p) w.kernel c.event c.scheduler c.fiber
  { w with
    phase := Function.update w.phase t (next ret)
    heap := Function.update w.heap p e
    kernel := k }

/-- Run one section; `none` when the call is not at it. -/
def exec (calls : T → AddCall S F) (w : FirstAdd T S F) : AddSection T → Option (FirstAdd T S F)
  | .lookup t =>
    match w.phase t with
    | .start => some { w with phase := Function.update w.phase t (.looked w.map) }
    | _ => none
  | .addFound t =>
    match w.phase t with
    | .found p => some (w.addTo calls t p .done)
    | _ => none
  | .addPrivate t =>
    match w.phase t with
    | .absent => some (w.addTo calls t t .added)
    | _ => none
  | .insert t =>
    match w.phase t with
    | .added ret => some { w with phase := Function.update w.phase t (.done ret), map := some t }
    | _ => none

def Step (calls : T → AddCall S F) (w : FirstAdd T S F) (sec : AddSection T) (w' : FirstAdd T S F) : Prop :=
  w.exec calls sec = some w'

/-- The event has the call's fibers. -/
def HasFibers (e : IOEvent S F) (c : AddCall S F) : Prop :=
  ∀ d, c.event.has d = true → e.context d = .set c.scheduler (c.fiber d)

/-- The event in the map is the one registered with the kernel, with the kernel's mask, and has the fibers
of every call that returned true. -/
def Consistent (calls : T → AddCall S F) (w : FirstAdd T S F) : Prop :=
  ∃ p, w.map = some p ∧ w.kernel = some (p, (w.heap p).events) ∧
    ∀ t, w.phase t = .done true → HasFibers (w.heap p) (calls t)

/-- Once all calls have returned, and there is one, the first registration is consistent. -/
def FirstConsistent (calls : T → AddCall S F) (cond : FirstAdd T S F → AddSection T → Prop) : Prop :=
  ∀ (fd : Fd) (secs : List (AddSection T)) (w : FirstAdd T S F),
    Run (Guarded (Step calls) cond) (init fd) secs w →
    (∀ t, ∃ ret, w.phase t = .done ret) → T → w.Consistent calls

/-- A lookup while no other call is between a failed lookup and its insertion, and a registration for
directions that are not taken. -/
def InTurn (calls : T → AddCall S F) (w : FirstAdd T S F) : AddSection T → Prop
  | .lookup _ => ∀ t, w.phase t ≠ .absent ∧ ∀ ret, w.phase t ≠ .added ret
  | .addFound t => ∀ p, w.phase t = .found p → (w.heap p).events.inter (calls t).event = .none
  | .addPrivate _ | .insert _ => True

/-! ## The invariant -/

/-- A call that has not looked, has found the event `p`, or has returned. -/
def Settled (p : T) (x : AddPhase T) : Prop :=
  x = .start ∨ x = .found p ∨ ∃ ret, x = .done ret

/-- Before the first insertion at most one call is past its lookup; from then on the event in the map is
the kernel's, and calls have found no other. -/
inductive Sound (calls : T → AddCall S F) (w : FirstAdd T S F) : Prop where
  | fresh (absent : w.map = none) (unknown : w.kernel = none)
      (phases : ∀ t, w.phase t = .start ∨ w.phase t = .absent) (new : ∀ t, ∃ fd, w.heap t = .create fd)
      (one : ∀ t t', w.phase t = .absent → w.phase t' = .absent → t = t')
  | adding (p : T) (absent : w.map = none) (known : w.kernel = some (p, (w.heap p).events))
      (mine : w.phase p = .added true) (others : ∀ t, t ≠ p → w.phase t = .start)
      (fibers : HasFibers (w.heap p) (calls p)) (mask : (w.heap p).events = (calls p).event)
  | shared (p : T) (entered : w.map = some p) (known : w.kernel = some (p, (w.heap p).events))
      (some : (w.heap p).events ≠ .none)
      (phases : ∀ t, Settled p (w.phase t))
      (fibers : ∀ t, w.phase t = .done true → HasFibers (w.heap p) (calls t) ∧
        ∀ d, (calls t).event.has d = true → (w.heap p).events.has d = true)

omit [DecidableEq T] in
theorem sound_init (calls : T → AddCall S F) (fd : Fd) : (init fd : FirstAdd T S F).Sound calls :=
  .fresh rfl rfl (fun _ => .inl rfl) (fun _ => ⟨fd, rfl⟩) fun _ _ absent => by cases absent

/-- `IOEvent::add_event` when the kernel accepts. -/
theorem addEvent_accepted {K : Type} (ctl : EpollCtl K) (k k' : K) (e : IOEvent S F) (c : AddCall S F)
    (accepts : ctl k ⟨if e.events = .none then .add else .mod, e.fd, e.events.union c.event⟩ = (true, k')) :
    ∃ e', e.addEvent ctl k c.event c.scheduler c.fiber = (true, e', k') ∧
      e'.events = e.events.union c.event ∧
      ∀ d, e'.context d = if c.event.has d then .set c.scheduler (c.fiber d) else e.context d := by
  have contexts : ∀ d, (e.addEvent ctl k c.event c.scheduler c.fiber).2.1.context d =
      if c.event.has d then .set c.scheduler (c.fiber d) else e.context d :=
    IOEvent.addEvent_context k e c.event c.scheduler c.fiber
  unfold IOEvent.addEvent at contexts ⊢
  dsimp only at contexts ⊢
  rw [accepts] at contexts ⊢
  exact ⟨_, rfl, rfl, contexts⟩

/-- A phase is the one just reached, or an old one of another call. -/
theorem phase_update {phase : T → AddPhase T} {t t' : T} {x y : AddPhase T}
    (here : Function.update phase t x t' = y) : t' = t ∧ x = y ∨ t' ≠ t ∧ phase t' = y := by
  rw [Function.update_apply] at here
  split at here
  · rename_i same
    exact .inl ⟨same, here⟩
  · rename_i ne
    exact .inr ⟨ne, here⟩

variable {calls : T → AddCall S F} {w w' : FirstAdd T S F} {t : T}

theorem Sound.lookup (h : w.Sound calls) (start : w.phase t = .start) (turn : w.InTurn calls (.lookup t)) :
    Sound calls { w with phase := Function.update w.phase t (.looked w.map) } := by
  cases h with
  | fresh absent unknown phases new one =>
    have next : AddPhase.looked w.map = .absent := by rw [absent]; rfl
    refine .fresh absent unknown ?_ new fun t₁ t₂ first second => ?_
    · exact (Function.forall_update_iff w.phase (p := fun _ x => x = .start ∨ x = .absent)).mpr
        ⟨.inr next, fun t' _ => phases t'⟩
    -- no other call was past its lookup
    · rcases phase_update first with ⟨rfl, -⟩ | ⟨-, old⟩
      · rcases phase_update second with ⟨rfl, -⟩ | ⟨-, old⟩
        · rfl
        · exact absurd old (turn t₂).1
      · exact absurd old (turn t₁).1
  | adding p absent known mine others fibers mask => exact absurd mine ((turn p).2 true)
  | shared p entered known some phases fibers =>
    have next : AddPhase.looked w.map = .found p := by rw [entered]; rfl
    refine .shared p entered known some ?_ fun t' done => ?_
    · exact (Function.forall_update_iff w.phase (p := fun _ => Settled p)).mpr
        ⟨.inr (.inl next), fun t' _ => phases t'⟩
    · rcases phase_update done with ⟨-, eq⟩ | ⟨-, old⟩
      · rw [next] at eq
        cases eq
      · exact fibers t' old

theorem Sound.addPrivate (h : w.Sound calls) (looked : w.phase t = .absent) :
    (w.addTo calls t t .added).Sound calls := by
  cases h with
  | fresh absent unknown phases new one =>
    obtain ⟨fd, created⟩ := new t
    obtain ⟨e, run, events, contexts⟩ := addEvent_accepted (pointerCtl t) none
      (some (t, (w.heap t).events.union (calls t).event)) (w.heap t) (calls t) (by rw [created]; rfl)
    unfold addTo
    dsimp only
    rw [unknown, run]
    have here : Function.update w.heap t e t = e := Function.update_self ..
    refine .adding t absent ?_ (Function.update_self ..) (fun t' ne => ?_) (fun d inside => ?_) ?_
    · dsimp only
      rw [here, events]
    · rcases phases t' with start | looked'
      · exact (Function.update_of_ne ne ..).trans start
      · exact absurd (one t' t looked' looked) ne
    · dsimp only
      rw [here, contexts, if_pos inside]
    · dsimp only
      rw [here, events, created]
      rfl
  | adding p absent known mine others fibers mask =>
    by_cases same : t = p
    · rw [same, mine] at looked
      cases looked
    · rw [others t same] at looked
      cases looked
  | shared p entered known some phases fibers =>
    rcases phases t with eq | eq | ⟨ret, eq⟩ <;> rw [eq] at looked <;> cases looked

theorem Sound.insert (h : w.Sound calls) {ret : Bool} (added : w.phase t = .added ret) :
    Sound calls { w with phase := Function.update w.phase t (.done ret), map := some t } := by
  cases h with
  | fresh absent unknown phases new one =>
    rcases phases t with eq | eq <;> rw [eq] at added <;> cases added
  | adding p absent known mine others fibers mask =>
    obtain rfl : t = p := by
      by_contra ne
      rw [others t ne] at added
      cases added
    refine .shared t rfl known ?_ ?_ fun t' done => ?_
    · dsimp only
      rw [mask]
      exact (calls t).some
    · exact (Function.forall_update_iff w.phase (p := fun _ => Settled t)).mpr
        ⟨.inr (.inr ⟨ret, rfl⟩), fun t' ne => .inl (others t' ne)⟩
    · rcases phase_update done with ⟨rfl, -⟩ | ⟨ne, old⟩
      · refine ⟨fibers, fun d inside => ?_⟩
        dsimp only
        rw [mask]
        exact inside
      · rw [others t' ne] at old
        cases old
  | shared p entered known some phases fibers =>
    rcases phases t with eq | eq | ⟨ret', eq⟩ <;> rw [eq] at added <;> cases added

theorem Sound.addFound (h : w.Sound calls) {p : T} (found : w.phase t = .found p)
    (turn : (w.heap p).events.inter (calls t).event = .none) : (w.addTo calls t p .done).Sound calls := by
  cases h with
  | fresh absent unknown phases new one =>
    rcases phases t with eq | eq <;> rw [eq] at found <;> cases found
  | adding p' absent known mine others fibers mask =>
    by_cases same : t = p'
    · rw [same, mine] at found
      cases found
    · rw [others t same] at found
      cases found
  | shared p' entered known some phases fibers =>
    obtain rfl : p' = p := by
      rcases phases t with eq | eq | ⟨ret, eq⟩ <;> rw [eq] at found <;> cases found
      rfl
    obtain ⟨e, run, events, contexts⟩ := addEvent_accepted (pointerCtl p') w.kernel
      (Option.some (p', (w.heap p').events.union (calls t).event)) (w.heap p') (calls t)
      (by rw [known, if_neg some]; rfl)
    unfold addTo
    dsimp only
    rw [run]
    have here : Function.update w.heap p' e p' = e := Function.update_self ..
    refine .shared p' entered ?_ ?_ ?_ fun t' done => ?_
    · dsimp only
      rw [here, events]
    · dsimp only
      rw [here, events]
      exact Events.union_ne_none (calls t).some
    · exact (Function.forall_update_iff w.phase (p := fun _ => Settled p')).mpr
        ⟨.inr (.inr ⟨true, rfl⟩), fun t' _ => phases t'⟩
    · dsimp only
      rw [here]
      rcases phase_update done with ⟨rfl, -⟩ | ⟨-, old⟩
      · refine ⟨fun d inside => ?_, fun d inside => ?_⟩
        · rw [contexts, if_pos inside]
        · rw [events, Events.has_union, inside, Bool.or_true]
      · obtain ⟨has, mask⟩ := fibers t' old
        refine ⟨fun d inside => ?_, fun d inside => ?_⟩
        -- a direction that is taken is none of the call's
        · have both := congrArg (Events.has · d) turn
          have outside : ¬ (calls t).event.has d = true := fun taken => by
            rw [Events.has_inter, mask d inside, taken] at both
            cases d <;> cases both
          rw [contexts, if_neg outside]
          exact has d inside
        · rw [events, Events.has_union, mask d inside, Bool.true_or]

theorem Sound.step {sec : AddSection T} (h : w.Sound calls) (step : Step calls w sec w')
    (turn : w.InTurn calls sec) : w'.Sound calls := by
  unfold Step exec at step
  cases sec with
  | lookup t =>
    dsimp only at step
    split at step
    · rename_i start
      obtain rfl := Option.some.inj step
      exact h.lookup start turn
    · cases step
  | addFound t =>
    dsimp only at step
    split at step
    · rename_i p found
      obtain rfl := Option.some.inj step
      exact h.addFound found (turn p found)
    · cases step
  | addPrivate t =>
    dsimp only at step
    split at step
    · rename_i looked
      obtain rfl := Option.some.inj step
      exact h.addPrivate looked
    · cases step
  | insert t =>
    dsimp only at step
    split at step
    · rename_i ret added
      obtain rfl := Option.some.inj step
      exact h.insert added
    · cases step

/-- In every run whose calls take their turns the first registration is consistent. -/
theorem firstConsistent_inTurn (calls : T → AddCall S F) : FirstConsistent calls (InTurn calls) := by
  intro fd secs w run done t
  have h : w.Sound calls :=
    run.invariant (I := Sound calls) (fun _ _ _ h step => h.step step.1 step.2) (sound_init calls fd)
  obtain ⟨ret, returned⟩ := done t
  cases h with
  | fresh absent unknown phases new one =>
    rcases phases t with eq | eq <;> rw [eq] at returned <;> cases returned
  | adding p absent known mine others fibers mask =>
    obtain ⟨ret', returned'⟩ := done p
    rw [mine] at returned'
    cases returned'
  | shared p entered known some phases fibers =>
    exact ⟨p, entered, known, fun t' ok => (fibers t' ok).1⟩

/-- A call for input and one for output. -/
def bothCalls (t : Bool) : AddCall Unit Bool where
  event := .only (if t then .read else .write)
  some := by cases t <;> decide
  scheduler := some ()
  fiber _ := t

/-- One call is done before the other looks, and both directions are registered on one event. -/
theorem firstConsistent_inTurn_both : ∃ w : FirstAdd Bool Unit Bool,
    Run (Guarded (Step bothCalls) (InTurn bothCalls)) (init 5)
      [.lookup true, .addPrivate true, .insert true, .lookup false, .addFound false] w ∧
    (w.heap true).events = ⟨true, true⟩ ∧ w.Consistent bothCalls := by
  obtain ⟨w, run, both, done⟩ : ∃ w : FirstAdd Bool Unit Bool,
      Run (Guarded (Step bothCalls) (InTurn bothCalls)) (init 5)
        [.lookup true, .addPrivate true, .insert true, .lookup false, .addFound false] w ∧
      (w.heap true).events = ⟨true, true⟩ ∧ ∀ t, w.phase t = .done true := by
    refine ⟨_, .cons ⟨rfl, fun t => ?_⟩ (.cons ⟨rfl, trivial⟩ (.cons ⟨rfl, trivial⟩
      (.cons ⟨rfl, fun t => ?_⟩ (.single ⟨rfl, fun p found => ?_⟩)))), rfl, fun t => ?_⟩
    · exact ⟨by simp [init], fun ret => by simp [init]⟩
    · cases t with
      | false => exact ⟨by decide, by decide⟩
      | true => exact ⟨by decide, by decide⟩
    · obtain rfl := AddPhase.found.inj found
      rfl
    · cases t <;> rfl
  exact ⟨w, run, both, firstConsistent_inTurn bothCalls 5 _ w run (fun t => ⟨true, done t⟩) true⟩

/-- Two calls find no event. The kernel takes the event of the first, and the map ends with the event of
the second. -/
theorem not_firstConsistent :
    ¬ FirstConsistent bothCalls fun _ _ => True := by
  intro all
  obtain ⟨p, entered, known, -⟩ := all 5 [.lookup true, .lookup false, .addPrivate true, .addPrivate false,
    .insert true, .insert false] _
    (.cons ⟨rfl, trivial⟩ (.cons ⟨rfl, trivial⟩ (.cons ⟨rfl, trivial⟩ (.cons ⟨rfl, trivial⟩
      (.cons ⟨rfl, trivial⟩ (.single ⟨rfl, trivial⟩))))))
    (fun t => by cases t; exacts [⟨false, rfl⟩, ⟨true, rfl⟩]) true
  obtain rfl := Option.some.inj entered
  exact absurd (congrArg (Option.map Prod.fst) known) (by decide)

end FirstAdd

end Sylar
