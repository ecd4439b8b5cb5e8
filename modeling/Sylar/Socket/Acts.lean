import Sylar.Socket.Basic

/-!
# What a socket's calls do

Every call on a socket is a sequence of small steps: it passes its descriptor to the system, writes the
cached addresses, opens a descriptor where it has none, or tries to connect. Closing, where it happens,
comes last (`step_acts`). What holds of a socket over its life is proved from these steps.
-/

namespace Sylar.Socket

open Lib
open Relation (ReflTransGen)

variable {sys : System} {s s' : Socket}

/-! ## The small steps -/

/-- What a call does without touching `sockfd_` and `is_connected_`: it passes the descriptor to the
system, or writes the addresses. -/
inductive Ask (s : Socket) : Socket → Prop where
  | call {c : FdCall} (plain : c ≠ .close ∧ c ≠ .connect) (rt : Int) :
      Ask s { s with calls := s.calls ++ [(.onFd c s.sockfd, rt)] }
  | addresses (l r : Option Address) : Ask s { s with localAddress := l, remoteAddress := r }

/-- What a call does short of closing. -/
inductive Act (s : Socket) : Socket → Prop where
  | ask {s' : Socket} (h : Ask s s') : Act s s'
  | refused (family type protocol : Int) (free : s.sockfd = -1) : Act s
      { s with
        calls := s.calls ++ [(.socket family type protocol, -1)]
        sockfd := -1
        isConnected := false }
  | opened (family type protocol : Int) {fd : Int} (free : s.sockfd = -1) (valid : fd ≠ -1) : Act s
      { s with
        calls := s.calls ++ [(.socket family type protocol, fd)]
        sockfd := fd
        isConnected := false
        obtained := s.obtained ++ [fd] }
  | failed {rt : Int} (error : rt ≠ 0) : Act s { s with calls := s.calls ++ [(.onFd .connect s.sockfd, rt)] }
  | connected (valid : s.sockfd ≠ -1) : Act s
      { s with
        calls := s.calls ++ [(.onFd .connect s.sockfd, 0)]
        isConnected := true }

/-- The descriptor is closed: the flag is cleared, the addresses may be asked for, and `::close` is the
last call. -/
def HangsUp (s s' : Socket) : Prop :=
  s.sockfd ≠ -1 ∧ s.isConnected = true ∧ ∃ mid rt,
    ReflTransGen Ask { s with isConnected := false } mid ∧
      s' = { mid with calls := mid.calls ++ [(.onFd .close mid.sockfd, rt)] }

/-- What a call does: small steps, and closing at the end if at all. -/
def Acts (s s' : Socket) : Prop :=
  ReflTransGen Act s s' ∨ ∃ mid, ReflTransGen Act s mid ∧ HangsUp mid s'

theorem act_of_asks (asks : ReflTransGen Ask s s') : ReflTransGen Act s s' :=
  asks.lift id fun _ _ => .ask

theorem Acts.after {mid : Socket} (first : ReflTransGen Act s mid) (rest : Acts mid s') : Acts s s' := by
  rcases rest with more | ⟨last, more, hangs⟩
  · exact .inl (first.trans more)
  · exact .inr ⟨last, first.trans more, hangs⟩

/-! ## The procedures -/

section Asks

theorem asks_trans (a b c : Socket) (first : ReflTransGen Ask a b) (second : ReflTransGen Ask b c) :
    ReflTransGen Ask a c :=
  first.trans second

theorem asks_pure {α : Type} (a : α) : Proc.Keeps (ReflTransGen Ask) (pure a : M α) :=
  .pure (fun _ => .refl) a

theorem onFd_asks {c : FdCall} (plain : c ≠ .close ∧ c ≠ .connect) :
    Proc.Keeps (ReflTransGen Ask) (onFd sys c) :=
  fun s => .single (.call plain (sys.answer s.calls (.onFd c s.sockfd)))

theorem setAddresses_asks (l r : Socket → Option Address) :
    Proc.Keeps (ReflTransGen Ask) (Proc.update fun s => { s with localAddress := l s, remoteAddress := r s } : M Unit) :=
  .update fun s => .single (.addresses (l s) (r s))

theorem getLocalAddress_asks : Proc.Keeps (ReflTransGen Ask) (getLocalAddress sys) := by
  apply Proc.Keeps.read_bind
  intro s
  split
  · exact asks_pure _
  · split
    · exact asks_pure _
    · refine .bind asks_trans (setAddresses_asks _ remoteAddress) fun _ => ?_
      refine .bind asks_trans (onFd_asks (by decide)) fun rt => ?_
      refine .bind asks_trans (setAddresses_asks _ remoteAddress) fun _ => ?_
      exact .read_bind fun s => asks_pure _

theorem getRemoteAddress_asks : Proc.Keeps (ReflTransGen Ask) (getRemoteAddress sys) := by
  apply Proc.Keeps.read_bind
  intro s
  split
  · exact asks_pure _
  · split
    · exact asks_pure _
    · refine .bind asks_trans (setAddresses_asks localAddress _) fun _ => ?_
      refine .bind asks_trans (onFd_asks (by decide)) fun rt => ?_
      refine .bind asks_trans (setAddresses_asks localAddress _) fun _ => ?_
      exact .read_bind fun s => asks_pure _

theorem toString_asks : Proc.Keeps (ReflTransGen Ask) (toString sys) := by
  refine .bind asks_trans getLocalAddress_asks fun _ => ?_
  exact .bind asks_trans getRemoteAddress_asks fun _ => asks_pure _

theorem complain_asks (addr : Option Address) : Proc.Keeps (ReflTransGen Ask) (complain sys addr) := by
  apply Proc.Keeps.read_bind
  intro s
  split
  · refine .bind asks_trans toString_asks fun _ => ?_
    exact .bind asks_trans (.demand (fun _ => .refl) addr) fun _ => asks_pure _
  · exact asks_pure _

theorem setOption_asks : Proc.Keeps (ReflTransGen Ask) (setOption sys) :=
  .bind asks_trans (onFd_asks (by decide)) fun _ => asks_pure _

theorem initOptions_asks : Proc.Keeps (ReflTransGen Ask) (initOptions sys) := by
  apply Proc.Keeps.read_bind
  intro s
  split
  · refine .bind asks_trans setOption_asks fun _ => ?_
    split
    · exact .bind asks_trans setOption_asks fun _ => asks_pure _
    · exact asks_pure _
  · exact asks_pure _

theorem transfer_asks (check : Socket → Bool) {c : FdCall} (plain : c ≠ .close ∧ c ≠ .connect) :
    Proc.Keeps (ReflTransGen Ask) (transfer sys check c) := by
  apply Proc.Keeps.read_bind
  intro s
  split
  · exact onFd_asks plain
  · exact asks_pure _

theorem report_asks : Proc.Keeps (ReflTransGen Ask) (report sys) := by
  apply Proc.Keeps.read_bind
  intro s
  split
  · exact toString_asks
  · exact asks_pure _

theorem listen_asks : Proc.Keeps (ReflTransGen Ask) (listen sys) := by
  apply Proc.Keeps.read_bind
  intro s
  split
  · refine .bind asks_trans (onFd_asks (by decide)) fun rt => ?_
    split
    · exact .bind asks_trans report_asks fun _ => asks_pure _
    · exact asks_pure _
  · exact .bind asks_trans report_asks fun _ => asks_pure _

theorem accept_asks : Proc.Keeps (ReflTransGen Ask) (accept sys) := by
  apply Proc.Keeps.read_bind
  intro s
  refine .bind asks_trans (onFd_asks (by decide)) fun fd => ?_
  exact .read_bind fun _ => asks_pure _

end Asks

section Acts

variable {addr : Option Address}

/-- `init(-1)`: the call to the system, and the options if it got a descriptor. -/
theorem initOwn_eq (s : Socket) : initOwn sys s =
    (if sys.answer s.calls (.socket s.family s.type s.protocol) = -1 then pure false else do
      initOptions sys
      pure true : M Bool)
        { s with
          calls := s.calls ++ [(.socket s.family s.type s.protocol, sys.answer s.calls (.socket s.family s.type s.protocol))]
          sockfd := sys.answer s.calls (.socket s.family s.type s.protocol)
          isConnected := false
          obtained := if sys.answer s.calls (.socket s.family s.type s.protocol) = -1 then s.obtained
            else s.obtained ++ [sys.answer s.calls (.socket s.family s.type s.protocol)] } :=
  rfl

/-- The descriptor that `init(-1)` opens, if it gets one. -/
theorem initOwn_acts {rt : Bool} (free : s.sockfd = -1) (run : initOwn sys s = .done rt s') :
    ReflTransGen Act s s' := by
  rw [initOwn_eq] at run
  by_cases refused : sys.answer s.calls (.socket s.family s.type s.protocol) = -1
  · simp only [refused, if_true] at run
    cases run
    exact .single (.refused _ _ _ free)
  · simp only [refused, if_false] at run
    obtain ⟨_, s₁, options, done⟩ := Proc.bind_eq_done run
    cases done
    exact .head (.opened _ _ _ free refused) (act_of_asks (initOptions_asks.done options))

theorem ensure_acts {u : Unit} (run : ensure sys s = .done u s') : ReflTransGen Act s s' := by
  have start : ensure sys s = (if s.isValid then pure () else do
    let _ ← init sys (-1)
    pure () : M Unit) s := rfl
  rw [start] at run
  split at run
  · cases run
    exact .refl
  · rename_i free
    obtain ⟨rt, s₁, opened, done⟩ := Proc.bind_eq_done run
    cases done
    exact initOwn_acts (by simpa [isValid] using free) opened

/-- Behind the opening of the descriptor `bind` only asks. -/
theorem bind_asks {rt : Bool} (run : bind sys addr s = .done rt s') :
    ∃ mid, ensure sys s = .done () mid ∧ ReflTransGen Ask mid s' := by
  obtain ⟨_, s₁, opened, run⟩ := Proc.bind_eq_done run
  refine ⟨s₁, opened, Proc.Keeps.done ?_ run⟩
  apply Proc.Keeps.read_bind
  intro s
  split
  · refine .bind asks_trans (.demand (fun _ => .refl) addr) fun a => ?_
    split
    · exact .bind asks_trans (complain_asks addr) fun _ => asks_pure _
    · refine .bind asks_trans (onFd_asks (by decide)) fun rt => ?_
      split
      · exact .bind asks_trans (complain_asks addr) fun _ => asks_pure _
      · exact asks_pure _
  · exact .bind asks_trans (complain_asks addr) fun _ => asks_pure _

theorem bind_acts {rt : Bool} (run : bind sys addr s = .done rt s') : ReflTransGen Act s s' := by
  obtain ⟨mid, opened, asks⟩ := bind_asks run
  exact (ensure_acts opened).trans (act_of_asks asks)

theorem close_eq (s : Socket) : close sys s =
    if s.sockfd = -1 ∨ s.isConnected = false then .done true s
    else (do
      toString sys
      let rt ← onFd sys .close
      pure (rt == 0) : M Bool) { s with isConnected := false } := by
  show (if _ then _ else _ : M Bool) s = _
  split <;> rfl

theorem toString_returns (sys : System) (s : Socket) : ∃ s', toString sys s = .done () s' := by
  have locals : ∀ s, ∃ a s', getLocalAddress sys s = .done a s' := by
    intro s
    unfold getLocalAddress
    rw [Proc.read_bind_apply]
    split
    · exact ⟨_, _, rfl⟩
    · split
      · exact ⟨_, _, rfl⟩
      · exact ⟨_, _, rfl⟩
  have remotes : ∀ s, ∃ a s', getRemoteAddress sys s = .done a s' := by
    intro s
    unfold getRemoteAddress
    rw [Proc.read_bind_apply]
    split
    · exact ⟨_, _, rfl⟩
    · split
      · exact ⟨_, _, rfl⟩
      · exact ⟨_, _, rfl⟩
  obtain ⟨a, s₁, first⟩ := locals s
  obtain ⟨b, s₂, second⟩ := remotes s₁
  refine ⟨s₂, ?_⟩
  rw [toString, Proc.bind_done _ first, Proc.bind_done _ second]
  rfl

/-- The destructor always returns, having closed the descriptor or done nothing. -/
theorem close_returns (sys : System) (s : Socket) : ∃ rt s', close sys s = .done rt s' ∧
    ((s.sockfd = -1 ∨ s.isConnected = false) ∧ s' = s ∨ HangsUp s s') := by
  rw [close_eq]
  by_cases idle : s.sockfd = -1 ∨ s.isConnected = false
  · rw [if_pos idle]
    exact ⟨_, _, rfl, .inl ⟨idle, rfl⟩⟩
  · rw [if_neg idle]
    obtain ⟨valid, up⟩ := not_or.mp idle
    obtain ⟨mid, asked⟩ := toString_returns sys { s with isConnected := false }
    rw [Proc.bind_done _ asked]
    refine ⟨_, _, rfl, .inr ⟨valid, by simpa using up, mid, _, toString_asks.done asked, rfl⟩⟩

theorem close_acts {rt : Bool} (run : close sys s = .done rt s') : Acts s s' := by
  obtain ⟨_, _, returns, what⟩ := close_returns sys s
  rw [returns] at run
  cases run
  rcases what with ⟨-, rfl⟩ | hangs
  · exact .inl .refl
  · exact .inr ⟨s, .refl, hangs⟩

theorem connectTo_acts {rt : Bool} (valid : s.sockfd ≠ -1) (run : connectTo sys addr s = .done rt s') :
    Acts s s' := by
  let answer := sys.answer s.calls (.onFd .connect s.sockfd)
  have start : connectTo sys addr s = (if answer ≠ 0 then do
      complain sys addr
      let _ ← close sys
      pure false
    else do
      Proc.update fun s => { s with isConnected := true }
      pure true : M Bool) { s with calls := s.calls ++ [(.onFd .connect s.sockfd, answer)] } := rfl
  rw [start] at run
  split at run
  · rename_i error
    obtain ⟨_, s₁, complained, run⟩ := Proc.bind_eq_done run
    obtain ⟨_, s₂, closed, done⟩ := Proc.bind_eq_done run
    cases done
    refine Acts.after (.head (.failed error) ?_) (close_acts closed)
    exact act_of_asks ((complain_asks addr).done complained)
  · rename_i success
    have zero : answer = 0 := not_not.mp success
    rw [zero] at run
    cases run
    exact .inl (.single (.connected valid))

theorem connect_acts {rt : Bool} (run : connect sys addr s = .done rt s') : Acts s s' := by
  obtain ⟨_, s₁, opened, run⟩ := Proc.bind_eq_done run
  refine Acts.after (ensure_acts opened) ?_
  rw [Proc.read_bind_apply] at run
  split at run
  · rename_i fits
    exact connectTo_acts (by simpa [isValid] using fits.1) run
  · obtain ⟨_, s₂, complained, done⟩ := Proc.bind_eq_done run
    cases done
    exact .inl (act_of_asks ((complain_asks addr).done complained))

theorem reconnect_acts {rt : Bool} (run : reconnect sys s = .done rt s') : Acts s s' := by
  obtain ⟨remote, s₁, asked, run⟩ := Proc.bind_eq_done run
  refine Acts.after (act_of_asks (getRemoteAddress_asks.done asked)) ?_
  split at run
  · rw [Proc.update_bind_apply] at run
    obtain ⟨again, s₂, asked, run⟩ := Proc.bind_eq_done run
    refine Acts.after ?_ (connect_acts run)
    exact .head (.ask (.addresses none s₁.remoteAddress)) (act_of_asks (getRemoteAddress_asks.done asked))
  · cases run
    exact .inl .refl

/-- A procedure whose answer is dropped. -/
theorem void_done {α : Type} {p : M α} (run : void p s = .done () s') : ∃ a, p s = .done a s' := by
  obtain ⟨a, s₁, first, rest⟩ := Proc.bind_eq_done run
  cases rest
  exact ⟨a, first⟩

theorem step_acts {op : Op} (step : Step sys s op s') : Acts s s' := by
  have asks : ∀ {α : Type} {p : M α}, Proc.Keeps (ReflTransGen Ask) p → void p s = .done () s' → Acts s s' := by
    intro α p keeps run
    obtain ⟨a, run⟩ := void_done run
    exact .inl (act_of_asks (keeps.done run))
  cases op with
  | bind addr =>
    obtain ⟨rt, run⟩ := void_done step
    exact .inl (bind_acts run)
  | listen => exact asks listen_asks step
  | accept => exact asks accept_asks step
  | connect addr =>
    obtain ⟨rt, run⟩ := void_done step
    exact connect_acts run
  | reconnect =>
    obtain ⟨rt, run⟩ := void_done step
    exact reconnect_acts run
  | close =>
    obtain ⟨rt, run⟩ := void_done step
    exact close_acts run
  | getOption => exact asks (.bind asks_trans (onFd_asks (by decide)) fun _ => asks_pure _) step
  | setOption => exact asks setOption_asks step
  | getLocalAddress => exact asks getLocalAddress_asks step
  | getRemoteAddress => exact asks getRemoteAddress_asks step
  | toString => exact .inl (act_of_asks (toString_asks.done step))
  | _ => exact asks (transfer_asks _ (by decide)) step

end Acts

end Sylar.Socket
