import Sylar.Lib.Run

/-!
# Starting and stopping a server

The model of `start`, `stop` and `on_accepted` of `TcpServer`. The calls on the server come one after the other from
one place, and `on_accepted` runs in a fiber for each listening socket, which another thread may run: between two
statements of `start` or `stop` any fiber can make its next turn. Sockets are numbered in the order in which they were
bound, and the fibers in the order in which `start` gave them to the accept worker. A cancelled `accept` tries again,
as the hook has it, so `cancel_all` changes nothing here.

`start` gives the fibers away before it clears `is_stop_`: a fiber that looks at the flag before that is gone, and its
socket is listened to but never accepted from (`attended_iff`). `stop` cannot take a fiber out of `accept`: each hands
over one more client (`handled_after_stop`).
-/

namespace Sylar

open Lib

/-- Where a fiber of `on_accepted` is: before it looks at `is_stop_`, in `accept`, with a client that it is going to
hand over, or behind the loop. -/
inductive Acceptor (C : Type) where
  | checking
  | accepting
  | handing (client : C)
  | finished
  deriving DecidableEq, Repr

/-- The client that is still to be handed over. -/
def Acceptor.pending {C : Type} : Acceptor C → List C
  | .handing client => [client]
  | _ => []

/-- In `accept` or behind it. -/
def Acceptor.inside {C : Type} : Acceptor C → Bool
  | .accepting | .handing _ => true
  | _ => false

/-- What the calls on the server are in: none, the loop of `start` or the loop of `stop`, with the sockets that are
left. -/
inductive ServerCall where
  | idle
  | starting (rest : List Nat)
  | stopping (rest : List Nat)
  deriving DecidableEq, Repr

structure TcpServer (C : Type) where
  isStop : Bool
  listenSocks : List Nat
  call : ServerCall
  /-- The number of the next socket that is bound. -/
  next : Nat
  /-- The sockets of the fibers that the accept worker was given. -/
  fibers : List Nat
  acceptor : Nat → Acceptor C
  /-- The fibers of `handle_client` that the worker was given: by which acceptor, and for which client. -/
  handled : List (Nat × C)

/-- The steps of the calls and of the fibers. -/
inductive ServerStep (C : Type) where
  /-- `bind`, of which `n` addresses succeeded. -/
  | bind (n : Nat)
  | start
  /-- `add_fiber` for the next socket. -/
  | add
  /-- `is_stop_ = false`. -/
  | started
  | stop
  /-- `cancel_all` and `close` of the next socket. -/
  | cancel
  /-- `listen_socks_.clear()` and `is_stop_ = true`. -/
  | stopped
  /-- An acceptor looks at `is_stop_`. -/
  | check (i : Nat)
  /-- `accept` returns a client, or a null pointer. -/
  | accept (i : Nat) (client : Option C)
  /-- An acceptor gives its client to the worker. -/
  | hand (i : Nat)
  deriving DecidableEq, Repr

/-- The client that a step of an acceptor takes from `accept`. -/
def ServerStep.accepted {C : Type} (i : Nat) : ServerStep C → List C
  | .accept j (some client) => if j = i then [client] else []
  | _ => []

namespace TcpServer

variable {C : Type}

def create : TcpServer C := ⟨true, [], .idle, 0, [], fun _ => .checking, []⟩

def setAcceptor (s : TcpServer C) (i : Nat) (a : Acceptor C) : TcpServer C :=
  { s with acceptor := Function.update s.acceptor i a }

@[simp] theorem acceptor_setAcceptor_self (s : TcpServer C) (i : Nat) (a : Acceptor C) :
    (s.setAcceptor i a).acceptor i = a := Function.update_self ..

theorem acceptor_setAcceptor_ne (s : TcpServer C) {i j : Nat} (a : Acceptor C) (ne : j ≠ i) :
    (s.setAcceptor i a).acceptor j = s.acceptor j := Function.update_of_ne ne ..

/-- One step; `none` when it is not at its place. -/
def exec (s : TcpServer C) : ServerStep C → Option (TcpServer C)
  | .bind n =>
    match s.call with
    | .idle => some { s with listenSocks := s.listenSocks ++ List.range' s.next n, next := s.next + n }
    | _ => none
  | .start =>
    match s.call with
    | .idle => some (if s.isStop then { s with call := .starting s.listenSocks } else s)
    | _ => none
  | .add =>
    match s.call with
    | .starting (k :: rest) => some { s with call := .starting rest, fibers := s.fibers ++ [k] }
    | _ => none
  | .started =>
    match s.call with
    | .starting [] => some { s with call := .idle, isStop := false }
    | _ => none
  | .stop =>
    match s.call with
    | .idle => some (if s.isStop then s else { s with call := .stopping s.listenSocks })
    | _ => none
  | .cancel =>
    match s.call with
    | .stopping (_ :: rest) => some { s with call := .stopping rest }
    | _ => none
  | .stopped =>
    match s.call with
    | .stopping [] => some { s with call := .idle, listenSocks := [], isStop := true }
    | _ => none
  | .check i =>
    match s.acceptor i with
    | .checking =>
      if i < s.fibers.length then some (s.setAcceptor i (if s.isStop then .finished else .accepting)) else none
    | _ => none
  | .accept i client =>
    match s.acceptor i with
    | .accepting => some (s.setAcceptor i (client.elim .checking .handing))
    | _ => none
  | .hand i =>
    match s.acceptor i with
    | .handing client => some { s.setAcceptor i .checking with handled := s.handled ++ [(i, client)] }
    | _ => none

def Step (s : TcpServer C) (l : ServerStep C) (s' : TcpServer C) : Prop := s.exec l = some s'

/-! ## What a step does -/

/-- The steps with their guards. -/
inductive Moves (s : TcpServer C) : ServerStep C → TcpServer C → Prop where
  | bind (n : Nat) : s.call = .idle →
    Moves s (.bind n) { s with listenSocks := s.listenSocks ++ List.range' s.next n, next := s.next + n }
  | start : s.call = .idle → s.isStop = true → Moves s .start { s with call := .starting s.listenSocks }
  | startRunning : s.call = .idle → s.isStop = false → Moves s .start s
  | add {k : Nat} {rest : List Nat} : s.call = .starting (k :: rest) →
    Moves s .add { s with call := .starting rest, fibers := s.fibers ++ [k] }
  | started : s.call = .starting [] → Moves s .started { s with call := .idle, isStop := false }
  | stop : s.call = .idle → s.isStop = false → Moves s .stop { s with call := .stopping s.listenSocks }
  | stopStopped : s.call = .idle → s.isStop = true → Moves s .stop s
  | cancel {k : Nat} {rest : List Nat} : s.call = .stopping (k :: rest) →
    Moves s .cancel { s with call := .stopping rest }
  | stopped : s.call = .stopping [] → Moves s .stopped { s with call := .idle, listenSocks := [], isStop := true }
  | check {i : Nat} : s.acceptor i = .checking → i < s.fibers.length → s.isStop = false →
    Moves s (.check i) (s.setAcceptor i .accepting)
  | leave {i : Nat} : s.acceptor i = .checking → i < s.fibers.length → s.isStop = true →
    Moves s (.check i) (s.setAcceptor i .finished)
  | accept {i : Nat} {client : C} : s.acceptor i = .accepting →
    Moves s (.accept i (some client)) (s.setAcceptor i (.handing client))
  | fail {i : Nat} : s.acceptor i = .accepting → Moves s (.accept i none) (s.setAcceptor i .checking)
  | hand {i : Nat} {client : C} : s.acceptor i = .handing client →
    Moves s (.hand i) { s.setAcceptor i .checking with handled := s.handled ++ [(i, client)] }

theorem moves_of_step {s s' : TcpServer C} {l : ServerStep C} (step : s.Step l s') : s.Moves l s' := by
  cases l with
  | check i =>
    rw [Step, exec] at step
    split at step
    · rename_i checking
      split at step
      · rename_i inside
        obtain rfl := Option.some.inj step
        cases isStop : s.isStop with
        | true => exact .leave checking inside isStop
        | false => exact .check checking inside isStop
      · cases step
    · cases step
  | accept i client =>
    rw [Step, exec] at step
    split at step <;> cases step
    rename_i accepting
    cases client with
    | none => exact .fail accepting
    | some client => exact .accept accepting
  | start =>
    rw [Step, exec] at step
    split at step <;> cases step
    rename_i idle
    split
    · rename_i isStop
      exact .start idle isStop
    · rename_i running
      exact .startRunning idle (Bool.eq_false_iff.mpr running)
  | stop =>
    rw [Step, exec] at step
    split at step <;> cases step
    rename_i idle
    split
    · rename_i isStop
      exact .stopStopped idle isStop
    · rename_i running
      exact .stop idle (Bool.eq_false_iff.mpr running)
  | _ =>
    rw [Step, exec] at step
    split at step <;> cases step
    rename_i here
    first
      | exact .bind _ here
      | exact .add here
      | exact .started here
      | exact .cancel here
      | exact .stopped here
      | exact .hand here

/-! ## Sockets and their acceptors -/

/-- The sockets that a call of `start` is going to give an acceptor. -/
def waiting (s : TcpServer C) : List Nat :=
  match s.call with
  | .idle => if s.isStop then s.listenSocks else []
  | .starting rest => rest
  | .stopping _ => []

/-- What a step does to them. -/
inductive Waits (s : TcpServer C) (l : ServerStep C) (s' : TcpServer C) : Prop where
  | bound (n : Nat) : l = .bind n → s.isStop = true → s'.waiting = s.waiting ++ List.range' s.next n →
    s'.fibers = s.fibers → s'.next = s.next + n → Waits s l s'
  | given (k : Nat) : l = .add → s.waiting = k :: s'.waiting → s'.fibers = s.fibers ++ [k] → s'.next = s.next →
    Waits s l s'
  | same : (∀ n, l = .bind n → s.isStop = false) → s'.waiting = s.waiting → s'.fibers = s.fibers →
    s.next ≤ s'.next → Waits s l s'

theorem Moves.waits {s s' : TcpServer C} {l : ServerStep C} (moves : s.Moves l s') : s.Waits l s' := by
  cases moves with
  | bind n idle =>
    cases isStop : s.isStop with
    | true =>
      refine .bound n rfl isStop ?_ rfl rfl
      simp only [waiting, idle, isStop, if_true]
    | false =>
      refine .same (fun _ _ => isStop) ?_ rfl (Nat.le_add_right ..)
      simp only [waiting, idle, isStop, Bool.false_eq_true, if_false]
  | start idle isStop =>
    refine .same (fun n eq => nomatch eq) ?_ rfl (Nat.le_refl _)
    simp only [waiting, idle, isStop, if_true]
  | add starting =>
    rename_i k rest
    refine .given k rfl ?_ rfl rfl
    simp only [waiting, starting]
  | started starting =>
    refine .same (fun n eq => nomatch eq) ?_ rfl (Nat.le_refl _)
    simp only [waiting, starting, Bool.false_eq_true, if_false]
  | stop idle running =>
    refine .same (fun n eq => nomatch eq) ?_ rfl (Nat.le_refl _)
    simp only [waiting, idle, running, Bool.false_eq_true, if_false]
  | cancel stopping | stopped stopping =>
    refine .same (fun n eq => nomatch eq) ?_ rfl (Nat.le_refl _)
    simp only [waiting, stopping, if_true]
  | _ => exact .same (fun n eq => nomatch eq) rfl rfl (Nat.le_refl _)

/-- What holds of a server at any time. -/
structure Sound (s : TcpServer C) : Prop where
  fibers : s.fibers.Nodup
  waits : s.waiting.Nodup
  fresh : ∀ k ∈ s.waiting, k ∉ s.fibers
  bound : ∀ k, k ∈ s.fibers ∨ k ∈ s.waiting → k < s.next
  starting : ∀ rest, s.call = .starting rest → s.isStop = true
  stopping : ∀ rest, s.call = .stopping rest → s.isStop = false
  unborn : ∀ i, s.fibers.length ≤ i → s.acceptor i = .checking

theorem sound_create : Sound (create : TcpServer C) where
  fibers := List.nodup_nil
  waits := List.nodup_nil
  fresh _ _ := List.not_mem_nil
  bound k mem := by rcases mem with mem | mem <;> cases mem
  starting _ eq := nomatch eq
  stopping _ eq := nomatch eq
  unborn _ _ := rfl

section Step

variable {s s' : TcpServer C} {l : ServerStep C}

/-- A fiber that has left its first look behind it was given to the worker. -/
theorem Sound.lt_of_ne (sound : s.Sound) {i : Nat} (begun : s.acceptor i ≠ .checking) : i < s.fibers.length :=
  Nat.lt_of_not_le fun outside => begun (sound.unborn i outside)

/-- Only fibers that were given to the worker move. -/
theorem Sound.unborn_step (sound : s.Sound) (moves : s.Moves l s') {i : Nat} (outside : s'.fibers.length ≤ i) :
    s'.acceptor i = .checking := by
  have other : ∀ {j : Nat} (a : Acceptor C), j < s.fibers.length → s.fibers.length ≤ i →
      Function.update s.acceptor j a i = .checking := by
    intro j a inside outside
    rw [Function.update_of_ne (by omega)]
    exact sound.unborn i outside
  cases moves with
  | check _ inside _ | leave _ inside _ => exact other _ inside outside
  | accept accepting => exact other _ (sound.lt_of_ne (by rw [accepting]; nofun)) outside
  | fail accepting => exact other _ (sound.lt_of_ne (by rw [accepting]; nofun)) outside
  | hand handing => exact other _ (sound.lt_of_ne (by rw [handing]; nofun)) outside
  | add starting =>
    refine sound.unborn i ?_
    rw [List.length_append] at outside
    omega
  | _ => exact sound.unborn i outside

theorem Sound.step (sound : s.Sound) (step : s.Step l s') : s'.Sound := by
  have moves := moves_of_step step
  have flags : (∀ rest, s'.call = .starting rest → s'.isStop = true) ∧
      ∀ rest, s'.call = .stopping rest → s'.isStop = false := by
    have starting := sound.starting
    have stopping := sound.stopping
    cases moves with
    | start _ isStop => exact ⟨fun _ _ => isStop, fun _ eq => nomatch eq⟩
    | add here => exact ⟨fun _ _ => starting _ here, fun _ eq => nomatch eq⟩
    | stop _ running => exact ⟨fun _ eq => (nomatch eq), fun _ _ => running⟩
    | cancel here => exact ⟨fun _ eq => (nomatch eq), fun _ _ => stopping _ here⟩
    | started _ | stopped _ => exact ⟨fun _ eq => (nomatch eq), fun _ eq => nomatch eq⟩
    | _ => exact ⟨starting, stopping⟩
  have unborn := fun i => sound.unborn_step moves (i := i)
  obtain ⟨fibers, waits, fresh, bound, -, -, -⟩ := sound
  cases moves.waits with
  | bound n _ _ waits' fibers' next' =>
    have new : ∀ k ∈ List.range' s.next n, s.next ≤ k ∧ k < s.next + n := fun k mem => List.mem_range'_1.mp mem
    refine ⟨fibers' ▸ fibers, ?_, fun k mem => ?_, fun k mem => ?_, flags.1, flags.2, unborn⟩
    · rw [waits']
      refine List.nodup_append.mpr ⟨waits, List.nodup_range', fun a old b mem eq => ?_⟩
      have le := (new b mem).1
      have lt := bound a (.inr old)
      omega
    · rw [fibers']
      rw [waits'] at mem
      rcases List.mem_append.mp mem with old | mem
      · exact fresh k old
      · intro given
        have lt := bound k (.inl given)
        have le := (new k mem).1
        omega
    · rw [fibers', waits', List.mem_append] at mem
      rw [next']
      rcases mem with given | old | mem
      · have lt := bound k (.inl given)
        omega
      · have lt := bound k (.inr old)
        omega
      · exact (new k mem).2
  | given k _ waits' fibers' next' =>
    rw [waits'] at waits fresh bound
    obtain ⟨notIn, waits⟩ := List.nodup_cons.mp waits
    refine ⟨?_, waits, fun j mem => ?_, fun j mem => ?_, flags.1, flags.2, unborn⟩
    · rw [fibers', List.nodup_append]
      refine ⟨fibers, List.nodup_singleton k, fun a given b mem eq => ?_⟩
      rw [List.mem_singleton] at mem
      exact fresh k List.mem_cons_self (by rw [← mem, ← eq]; exact given)
    · rw [fibers', List.mem_append, List.mem_singleton]
      rintro (given | rfl)
      · exact fresh j (List.mem_cons_of_mem k mem) given
      · exact notIn mem
    · rw [next']
      rw [fibers', List.mem_append, List.mem_singleton] at mem
      rcases mem with (given | rfl) | mem
      · exact bound j (.inl given)
      · exact bound j (.inr List.mem_cons_self)
      · exact bound j (.inr (List.mem_cons_of_mem k mem))
  | same _ waits' fibers' next' =>
    refine ⟨fibers' ▸ fibers, waits' ▸ waits, ?_, fun k mem => ?_, flags.1, flags.2, unborn⟩
    · rw [waits', fibers']
      exact fresh
    · rw [waits', fibers'] at mem
      exact Nat.lt_of_lt_of_le (bound k mem) next'

end Step

theorem sound_of_run {s : TcpServer C} {ls : List (ServerStep C)} (run : Run Step create ls s) : s.Sound :=
  run.invariant (I := Sound) (fun _ _ _ sound step => sound.step step) sound_create

/-! ## Which sockets get an acceptor -/

/-- A socket that is bound in a run while the server is stopped. -/
def BoundStopped (s : TcpServer C) (ls : List (ServerStep C)) (k : Nat) : Prop :=
  ∃ before n after t, ls = before ++ .bind n :: after ∧ Run Step s before t ∧ t.isStop = true ∧
    t.next ≤ k ∧ k < t.next + n

theorem boundStopped_cons {s t : TcpServer C} {l : ServerStep C} {ls : List (ServerStep C)} (step : s.Step l t)
    {k : Nat} : s.BoundStopped (l :: ls) k ↔
      (∃ n, l = .bind n ∧ s.isStop = true ∧ s.next ≤ k ∧ k < s.next + n) ∨ t.BoundStopped ls k := by
  constructor
  · rintro ⟨before, n, after, u, eq, run, isStop, low, high⟩
    cases run with
    | nil =>
      obtain ⟨rfl, -⟩ := List.cons.inj eq
      exact .inl ⟨n, rfl, isStop, low, high⟩
    | cons first rest =>
      rw [List.cons_append] at eq
      obtain ⟨rfl, behind⟩ := List.cons.inj eq
      obtain rfl := Option.some.inj (first.symm.trans step)
      exact .inr ⟨_, n, after, u, behind, rest, isStop, low, high⟩
  · rintro (⟨n, rfl, isStop, low, high⟩ | ⟨before, n, after, u, rfl, run, isStop, low, high⟩)
    · exact ⟨[], n, ls, s, rfl, .nil s, isStop, low, high⟩
    · exact ⟨l :: before, n, after, u, rfl, .cons step run, isStop, low, high⟩

theorem given_of_run {s t : TcpServer C} {ls : List (ServerStep C)} (run : Run Step s ls t) (k : Nat) :
    (k ∈ t.fibers ∨ k ∈ t.waiting) ↔ (k ∈ s.fibers ∨ k ∈ s.waiting) ∨ s.BoundStopped ls k := by
  induction run with
  | nil s =>
    refine (or_iff_left ?_).symm
    rintro ⟨before, n, after, -, eq, -⟩
    exact absurd eq.symm (List.append_ne_nil_of_right_ne_nil _ (List.cons_ne_nil _ _))
  | cons step rest ih =>
    rename_i s t u l ls
    rw [ih, boundStopped_cons step, ← or_assoc]
    refine or_congr_left ?_
    cases (moves_of_step step).waits with
    | bound n eq isStop waits fibers _ =>
      subst eq
      rw [fibers, waits, List.mem_append, List.mem_range'_1, ← or_assoc]
      refine or_congr_right ⟨fun range => ⟨n, rfl, isStop, range⟩, ?_⟩
      rintro ⟨m, eq, -, range⟩
      obtain rfl := ServerStep.bind.inj eq
      exact range
    | given j eq waits fibers _ =>
      subst eq
      have none : ¬ ∃ n, (ServerStep.add : ServerStep C) = .bind n ∧ s.isStop = true ∧ s.next ≤ k ∧ k < s.next + n := by
        rintro ⟨n, eq, -⟩
        cases eq
      rw [or_iff_left none, fibers, waits, List.mem_append, List.mem_singleton, List.mem_cons, or_assoc]
    | same running waits fibers _ =>
      have none : ¬ ∃ n, l = .bind n ∧ s.isStop = true ∧ s.next ≤ k ∧ k < s.next + n := by
        rintro ⟨n, eq, isStop, -⟩
        exact Bool.false_ne_true ((running n eq).symm.trans isStop)
      rw [or_iff_left none, fibers, waits]

/-- No socket ever has two acceptors, and the sockets that have one, or get one from the next `start`, are those that
were bound while the server was stopped. One that is bound while it runs is never accepted from. -/
theorem given_iff {s : TcpServer C} {ls : List (ServerStep C)} (run : Run Step create ls s) :
    (s.fibers ++ s.waiting).Nodup ∧ ∀ k, (k ∈ s.fibers ∨ k ∈ s.waiting) ↔ create.BoundStopped ls k := by
  have sound := sound_of_run run
  refine ⟨List.nodup_append.mpr ⟨sound.fibers, sound.waits, fun a given b mem eq => ?_⟩, fun k => ?_⟩
  · exact sound.fresh b mem (eq ▸ given)
  · rw [given_of_run run k, or_iff_right]
    rintro (mem | mem) <;> cases mem

/-- A socket that is bound after `start`. -/
theorem given_iff_late : ¬ (create : TcpServer Nat).BoundStopped [.bind 1, .start, .add, .started, .bind 1] 1 := by
  have run : Run Step (create : TcpServer Nat) [.bind 1, .start, .add, .started, .bind 1] _ := .of_foldlM _ rfl
  exact mt ((given_iff run).2 1).mpr (by decide)

/-! ## Which acceptors stay -/

section Stay

variable {s t u : TcpServer C} {l : ServerStep C} {ls : List (ServerStep C)} {i : Nat}

/-- What an acceptor that has begun or not can come to, when the flag is set and when it is not. -/
theorem Moves.finished (moves : s.Moves l t) : t.acceptor i = .finished ↔
    s.acceptor i = .finished ∨ l = .check i ∧ s.isStop = true := by
  have turn : ∀ (j : Nat) (a : Acceptor C), a ≠ .finished → s.acceptor j ≠ .finished →
      ((s.setAcceptor j a).acceptor i = .finished ↔ s.acceptor i = .finished) := by
    intro j a after before
    by_cases same : i = j
    · subst same
      rw [acceptor_setAcceptor_self]
      exact iff_of_false after before
    · rw [acceptor_setAcceptor_ne s a same]
  cases moves with
  | @check j here _ running =>
    rw [turn j .accepting nofun (by rw [here]; nofun), running]
    simp
  | @leave j here _ isStop =>
    by_cases same : i = j
    · subst same
      simp [isStop]
    · rw [acceptor_setAcceptor_ne s _ same]
      simp [Ne.symm same]
  | @accept j client here =>
    rw [turn j (.handing client) nofun (by rw [here]; nofun)]
    simp
  | @fail j here =>
    rw [turn j .checking nofun (by rw [here]; nofun)]
    simp
  | @hand j client here =>
    change (s.setAcceptor j .checking).acceptor i = .finished ↔ _
    rw [turn j .checking nofun (by rw [here]; nofun)]
    simp
  | _ => simp

/-- While the flag is set, an acceptor is gone if and only if it has looked at it. -/
theorem finished_of_run (run : Run Step s ls t) (looks : ∀ (pre post : List (ServerStep C)) (u : TcpServer C),
    ls = pre ++ post → Run Step s pre u → post ≠ [] → u.isStop = true) :
    t.acceptor i = .finished ↔ s.acceptor i = .finished ∨ .check i ∈ ls := by
  induction run with
  | nil s => simp
  | @cons s t u l ls step rest ih =>
    have isStop : s.isStop = true := looks [] _ s rfl (.nil s) (List.cons_ne_nil _ _)
    have behind := ih fun pre post w eq run more =>
      looks (l :: pre) post w (by rw [eq, List.cons_append]) (.cons step run) more
    rw [behind, (moves_of_step step).finished, isStop, List.mem_cons, or_assoc]
    simp [eq_comm]

/-- While it is clear, none goes. -/
theorem finished_of_running (run : Run Step s ls t) (running : s.isStop = false) (on : ∀ l ∈ ls, l ≠ .stopped) :
    t.acceptor i = .finished ↔ s.acceptor i = .finished := by
  induction run with
  | nil s => exact Iff.rfl
  | @cons s t u l ls step rest ih =>
    have moves := moves_of_step step
    have still : t.isStop = false := by
      cases moves with
      | stopped => exact absurd rfl (on _ List.mem_cons_self)
      | started => rfl
      | _ => exact running
    rw [ih still fun l mem => on l (List.mem_cons_of_mem _ mem), moves.finished, running]
    simp

/-- In the loop of `start` the flag is set, and the sockets get their fibers one by one. -/
theorem starting_of_run {rest : List Nat} (run : Run Step s ls t) (starting : s.call = .starting rest)
    (isStop : s.isStop = true) (unfinished : ∀ l ∈ ls, l ≠ .started) :
    t.isStop = true ∧ ∃ given left, rest = given ++ left ∧ t.call = .starting left ∧ t.fibers = s.fibers ++ given := by
  induction run generalizing rest with
  | nil s => exact ⟨isStop, [], rest, rfl, starting, (List.append_nil _).symm⟩
  | @cons s t u l ls step run ih =>
    have behind := fun l mem => unfinished l (List.mem_cons_of_mem _ mem)
    have elsewhere : ∀ {call : ServerCall}, (∀ rest, call ≠ .starting rest) → s.call ≠ call := fun ne eq =>
      ne _ (eq.symm.trans starting)
    cases moves_of_step step with
    | bind _ here | start here | startRunning here | stop here | stopStopped here => exact absurd here (elsewhere nofun)
    | cancel here | stopped here => exact absurd here (elsewhere nofun)
    | started => exact absurd rfl (unfinished _ List.mem_cons_self)
    | @add k left here =>
      obtain rfl := ServerCall.starting.inj (starting.symm.trans here)
      obtain ⟨isStop', given, left', eq, call, fibers⟩ := ih rfl isStop behind
      refine ⟨isStop', k :: given, left', congrArg (k :: ·) eq, call, ?_⟩
      rw [fibers, List.append_assoc]
      rfl
    | _ => exact ih starting isStop behind

end Stay

/-- A call of `start` that finds the server stopped, and what comes until `stop` sets the flag: every listening socket
has an acceptor, and it stays if and only if it did not look at the flag before `start` cleared it. -/
theorem attended_iff {s t u v : TcpServer C} {past during since : List (ServerStep C)} (run : Run Step create past s)
    (isStop : s.isStop = true) (started : Run Step s (.start :: during) t) (inCall : ∀ l ∈ during, l ≠ .started)
    (cleared : t.Step .started u) (rest : Run Step u since v) (on : ∀ l ∈ since, l ≠ .stopped) (j : Nat) :
    u.fibers[s.fibers.length + j]? = s.listenSocks[j]? ∧
      (v.acceptor (s.fibers.length + j) = .finished ↔ .check (s.fibers.length + j) ∈ during) := by
  have sound := sound_of_run run
  cases started with
  | @cons _ s₁ _ _ _ step run₁ =>
    cases moves_of_step step with
    | startRunning _ running => exact absurd (isStop.symm.trans running) Bool.noConfusion
    | start idle _ =>
      obtain ⟨isStop', given, left, eq, call, fibers⟩ := starting_of_run run₁ rfl isStop inCall
      cases moves_of_step cleared with
      | started here =>
        obtain rfl := ServerCall.starting.inj (call.symm.trans here)
        rw [List.append_nil] at eq
        constructor
        · change t.fibers[_]? = _
          rw [fibers, eq, List.getElem?_append_right (Nat.le_add_right ..), Nat.add_sub_cancel_left]
        · have gone : t.acceptor (s.fibers.length + j) = .finished ↔ .check (s.fibers.length + j) ∈ during := by
            refine (finished_of_run run₁ ?_).trans (or_iff_right ?_)
            · intro pre post w eq run _
              refine (starting_of_run run rfl isStop fun l mem => inCall l ?_).1
              rw [eq]
              exact List.mem_append_left _ mem
            · change s.acceptor _ ≠ _
              rw [sound.unborn _ (Nat.le_add_right ..)]
              nofun
          rw [finished_of_running rest rfl on]
          exact gone

/-- The server behind some steps. -/
def behind (ls : List (ServerStep Nat)) : TcpServer Nat := (ls.foldlM exec create).getD create

/-- Two sockets, of which one acceptor looks at the flag too early. -/
theorem attended_iff_early : ∃ v : TcpServer Nat, v.isStop = false ∧
    v.acceptor 0 = .finished ∧ v.acceptor 1 ≠ .finished := by
  have past : Run Step create [.bind 2] (behind [.bind 2]) := .of_foldlM _ rfl
  have started : Run Step (behind [.bind 2]) [.start, .add, .check 0, .add] _ := .of_foldlM _ rfl
  have since : Run Step (behind [.bind 2, .start, .add, .check 0, .add, .started]) [.check 1] _ := .of_foldlM _ rfl
  have attended := attended_iff past rfl started (by decide) rfl since (by decide)
  exact ⟨_, rfl, (attended 0).2.mpr (by decide), mt (attended 1).2.mp (by decide)⟩

/-! ## Clients -/

/-- The clients that an acceptor has handed over. -/
def handedBy (s : TcpServer C) (i : Nat) : List C := s.handled.filterMap fun x => if x.1 = i then some x.2 else none

theorem handed_setAcceptor (s : TcpServer C) {j : Nat} {a : Acceptor C} (clients : List C)
    (same : a.pending = (s.acceptor j).pending ++ clients) (i : Nat) :
    s.handedBy i ++ ((s.setAcceptor j a).acceptor i).pending =
      s.handedBy i ++ (s.acceptor i).pending ++ (if j = i then clients else []) := by
  by_cases ji : j = i
  · subst ji
    rw [acceptor_setAcceptor_self, same, if_pos rfl, List.append_assoc]
  · rw [acceptor_setAcceptor_ne s a (Ne.symm ji), if_neg ji, List.append_nil]

theorem Moves.handed {s t : TcpServer C} {l : ServerStep C} (moves : s.Moves l t) (i : Nat) :
    t.handedBy i ++ (t.acceptor i).pending = s.handedBy i ++ (s.acceptor i).pending ++ l.accepted i := by
  cases moves with
  | check here | leave here =>
    refine (s.handed_setAcceptor [] ?_ i).trans (by rw [ite_self]; rfl)
    rw [here]
    rfl
  | accept here =>
    refine s.handed_setAcceptor _ ?_ i
    rw [here]
    rfl
  | fail here =>
    refine (s.handed_setAcceptor [] ?_ i).trans (by rw [ite_self]; rfl)
    rw [here]
    rfl
  | @hand j client here =>
    by_cases ji : j = i
    · subst ji
      simp [handedBy, Acceptor.pending, ServerStep.accepted, here]
    · have other := acceptor_setAcceptor_ne s .checking (Ne.symm ji)
      simp [handedBy, ServerStep.accepted, other, ji]
  | _ => exact (List.append_nil _).symm

/-- Every client that `accept` returned is given to the worker once and in order, but for the one that is about to be. -/
theorem delivered {s : TcpServer C} {ls : List (ServerStep C)} (run : Run Step create ls s) (i : Nat) :
    s.handedBy i ++ (s.acceptor i).pending = ls.flatMap (ServerStep.accepted i) := by
  suffices all : ∀ {s t : TcpServer C} {ls : List (ServerStep C)}, Run Step s ls t →
      t.handedBy i ++ (t.acceptor i).pending =
        s.handedBy i ++ (s.acceptor i).pending ++ ls.flatMap (ServerStep.accepted i) from all run
  intro s t ls run
  induction run with
  | nil => exact (List.append_nil _).symm
  | cons step rest ih =>
    rw [ih, (moves_of_step step).handed i, List.append_assoc, ← List.flatMap_cons]

/-- A client that is taken from `accept` and given to the worker. -/
theorem delivered_one : ∃ s : TcpServer Nat, s.handedBy 0 = [7] := by
  have run : Run Step (create : TcpServer Nat)
      [.bind 1, .start, .add, .started, .check 0, .accept 0 (some 7), .hand 0] _ := .of_foldlM _ rfl
  exact ⟨_, (List.append_nil _).symm.trans (delivered run 0)⟩

/-- What may have been handed over since the server was in a state: one client by each acceptor that was in its
`accept` or behind it. -/
structure Leftover (s t : TcpServer C) : Prop where
  idle : t.call = .idle
  isStop : t.isStop = true
  inside : ∀ i, (t.acceptor i).inside = true → (s.acceptor i).inside = true
  handled : ∃ new, t.handled = s.handled ++ new ∧ (new.map Prod.fst).Nodup ∧
    ∀ i ∈ new.map Prod.fst, (s.acceptor i).inside = true ∧ (t.acceptor i).inside = false

/-- A turn of an acceptor that hands nothing over. -/
theorem Leftover.setAcceptor {s t : TcpServer C} (left : Leftover s t) {i : Nat} {a : Acceptor C}
    (less : a.inside = true → (t.acceptor i).inside = true) : Leftover s (t.setAcceptor i a) := by
  obtain ⟨idle, isStop, inside, new, handled, once, all⟩ := left
  have kept : ∀ j, ((t.setAcceptor i a).acceptor j).inside = true → (t.acceptor j).inside = true := by
    intro j here
    by_cases same : j = i
    · subst same
      rw [acceptor_setAcceptor_self] at here
      exact less here
    · rwa [acceptor_setAcceptor_ne t a same] at here
  refine ⟨idle, isStop, fun j here => inside j (kept j here), new, handled, once, fun j mem => ⟨(all j mem).1, ?_⟩⟩
  refine Bool.eq_false_iff.mpr fun here => ?_
  exact Bool.eq_false_iff.mp (all j mem).2 (kept j here)

theorem Leftover.step {s t u : TcpServer C} {l : ServerStep C} (left : Leftover s t) (step : t.Step l u)
    (quiet : l ≠ .start) : Leftover s u := by
  have elsewhere : ∀ {call : ServerCall}, call ≠ .idle → t.call ≠ call := fun ne eq => ne (eq ▸ left.idle)
  cases moves_of_step step with
  | bind n idle => exact ⟨left.idle, left.isStop, left.inside, left.handled⟩
  | start | startRunning => exact absurd rfl quiet
  | stopStopped => exact left
  | stop _ running => exact absurd (left.isStop.symm.trans running) Bool.noConfusion
  | add here | started here | cancel here | stopped here => exact absurd here (elsewhere nofun)
  | check _ _ running => exact absurd (left.isStop.symm.trans running) Bool.noConfusion
  | leave | fail => exact left.setAcceptor nofun
  | accept here => exact left.setAcceptor fun _ => by rw [here]; rfl
  | @hand i client here =>
    have wasInside : (t.acceptor i).inside = true := by rw [here]; rfl
    obtain ⟨idle, isStop, inside, -⟩ := left.setAcceptor (i := i) (a := .checking) nofun
    obtain ⟨new, handled, once, all⟩ := left.handled
    have absent : i ∉ new.map Prod.fst := fun mem => Bool.eq_false_iff.mp (all i mem).2 wasInside
    refine ⟨idle, isStop, inside, new ++ [(i, client)], ?_, ?_, fun j mem => ?_⟩
    · rw [handled, List.append_assoc]
    · rw [List.map_append, List.nodup_append]
      refine ⟨once, List.nodup_singleton _, fun a old b mem eq => absent ?_⟩
      obtain rfl := List.mem_singleton.mp mem
      exact eq ▸ old
    · rw [List.map_append, List.mem_append] at mem
      change (s.acceptor j).inside = true ∧ ((t.setAcceptor i .checking).acceptor j).inside = false
      rcases mem with old | mem
      · have ne : j ≠ i := fun same => absent (same ▸ old)
        rw [acceptor_setAcceptor_ne t _ ne]
        exact all j old
      · obtain rfl : j = i := List.mem_singleton.mp mem
        rw [acceptor_setAcceptor_self]
        exact ⟨left.inside j wasInside, rfl⟩

/-- After `stop` has returned, and until `start` is called again, each acceptor hands over one more client at most,
and only if it was in its `accept` by then. -/
theorem handled_after_stop {s t : TcpServer C} {ls : List (ServerStep C)} (run : Run Step s ls t)
    (idle : s.call = .idle) (isStop : s.isStop = true) (quiet : ∀ l ∈ ls, l ≠ .start) :
    ∃ new, t.handled = s.handled ++ new ∧ (new.map Prod.fst).Nodup ∧
      ∀ i ∈ new.map Prod.fst, (s.acceptor i).inside = true := by
  have start : Leftover s s :=
    ⟨idle, isStop, fun _ here => here, [], (List.append_nil _).symm, List.nodup_nil, fun _ mem => nomatch mem⟩
  have left := run.invariant_of_labels (fun _ l _ (left : Leftover s _) step (quiet : l ≠ .start) =>
    left.step step quiet) start quiet
  obtain ⟨new, handled, once, all⟩ := left.handled
  exact ⟨new, handled, once, fun i mem => (all i mem).1⟩

/-- A client that comes after `stop`. -/
theorem handled_after_stop_one : ∃ t : TcpServer Nat, t.isStop = true ∧ ∃ new, t.handled = [] ++ new ∧
    (new.map Prod.fst).Nodup := by
  have after : Run Step (behind [.bind 1, .start, .add, .started, .check 0, .stop, .cancel, .stopped])
      [.accept 0 (some 7), .hand 0, .check 0] _ := .of_foldlM _ rfl
  obtain ⟨new, handled, once, -⟩ := handled_after_stop after rfl rfl (by decide)
  exact ⟨_, rfl, new, handled, once⟩

end TcpServer

end Sylar
