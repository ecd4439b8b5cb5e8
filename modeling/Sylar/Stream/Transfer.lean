import Sylar.ByteArray.Readers

/-!
# Transfers of a fixed length

`read_fix_length` and `write_fix_length`, over a buffer and over a byte array, with the socket under
them. The kernel answers each call as it likes: it moves some of the bytes asked for, at least one, or
it reports the end of the connection or an error. Linux moves at most `MAX_RW_COUNT` bytes in a call
whatever was asked, so the count always survives the conversion from `ssize_t` to the `int` that
`Socket::recv` and `Socket::send` return.

The four functions are one loop around four transfers. The loop is told once (`fixLengthLoop_spec`):
what holds after `offset` bytes holds after `length` of them, or an exception leaves it at some offset
before that. A transfer over a byte array goes through the regions of its blocks, and the position is
moved behind what was transferred afterwards; that is the append, or the read, of the flat buffer.
-/

namespace Sylar

open Lib

/-! ## The socket -/

/-- The largest count Linux transfers in one call. -/
def maxRwCount : Nat := 0x7ffff000

/-- What the kernel answers to one call of `recv` or `send`. -/
inductive Answer where
  /-- It is ready to move this many bytes. -/
  | moves (count : Nat) (some_byte : 0 < count) (le : count ≤ maxRwCount)
  /-- The connection has ended: 0. -/
  | ends
  /-- An error: -1. -/
  | fails

/-- The kernel moves something. -/
def Answer.Moves : Answer → Prop
  | .moves _ _ _ => True
  | .ends => False
  | .fails => False

/-- A connection: the bytes still to come, the bytes sent, and the answers to the coming calls, with
errors behind the last of them. -/
structure Conn where
  connected : Bool
  incoming : List UInt8
  sent : List UInt8
  answers : List Answer

/-- The conversion of a `ssize_t` count to `int`. -/
def toInt (count : Nat) : Int :=
  if count % 2 ^ 32 < 2 ^ 31 then (count % 2 ^ 32 : Nat) else (count % 2 ^ 32 : Nat) - 2 ^ 32

theorem toInt_of_le {count : Nat} (le : count ≤ maxRwCount) : toInt count = count := by
  rw [maxRwCount] at le
  rw [toInt, Nat.mod_eq_of_lt (by omega), if_pos (by omega)]

namespace Conn

/-- The kernel's answer to the next call: the count it is ready to move, or what the call returns
instead. -/
def answer (c : Conn) : Except Int Nat × Conn :=
  if c.connected then
    match c.answers with
    | [] => (.error (-1), c)
    | .fails :: answers => (.error (-1), { c with answers })
    | .ends :: answers => (.error 0, { c with answers })
    | .moves count _ _ :: answers => (.ok count, { c with answers })
  else (.error (-1), c)

/-- `Socket::recv` with room for `length` bytes: what it returns and the bytes it stores. -/
def recv (length : Nat) (c : Conn) : Int × List UInt8 × Conn :=
  match c.answer with
  | (.error ret, c) => (ret, [], c)
  | (.ok count, c) =>
    let bytes := c.incoming.take (min count length)
    (toInt bytes.length, bytes, { c with incoming := c.incoming.drop bytes.length })

/-- `Socket::send` of these bytes: what it returns. -/
def send (data : List UInt8) (c : Conn) : Int × Conn :=
  match c.answer with
  | (.error ret, c) => (ret, c)
  | (.ok count, c) => (toInt (data.take count).length, { c with sent := c.sent ++ data.take count })

/-- The socket is connected and the kernel moves something in each of the next `n` calls. -/
def Serves (c : Conn) (n : Nat) : Prop :=
  c.connected = true ∧ n ≤ c.answers.length ∧ ∀ a ∈ c.answers.take n, a.Moves

/-- From `c` to `c'` the kernel moved something in every call. -/
def Moved (c c' : Conn) : Prop := ∃ used, c.answers = used ++ c'.answers ∧ ∀ a ∈ used, a.Moves

/-- One call was made, and the kernel moved something. -/
def MovedOnce (c c' : Conn) : Prop := ∃ a, c.answers = a :: c'.answers ∧ a.Moves

theorem Moved.next {c c₁ c₂ : Conn} (h : c.Moved c₁) (k : c₁.MovedOnce c₂) : c.Moved c₂ := by
  obtain ⟨used, split, all⟩ := h
  obtain ⟨a, first, moves⟩ := k
  refine ⟨used ++ [a], by rw [split, first, List.append_assoc]; rfl, fun b mem => ?_⟩
  rcases List.mem_append.mp mem with mem | mem
  · exact all b mem
  · rw [List.mem_singleton.mp mem]
    exact moves

theorem Serves.next {c c' : Conn} {n len : Nat} (h : c.Serves n) (some_byte : 0 < len)
    (same : c'.connected = c.connected) (used : c.MovedOnce c') : c'.Serves (n - len) := by
  obtain ⟨connected, enough, all⟩ := h
  obtain ⟨a, first, _⟩ := used
  rw [first] at enough all
  rw [List.length_cons] at enough
  refine ⟨same.trans connected, by omega, fun b mem => all b ?_⟩
  rcases Nat.eq_zero_or_pos n with rfl | pos
  · rw [Nat.zero_sub, List.take_zero] at mem
    cases mem
  · obtain ⟨m, rfl⟩ : ∃ m, n = m + 1 := ⟨n - 1, by omega⟩
    rw [List.take_succ_cons]
    exact List.mem_cons_of_mem _ (List.take_subset_take_left _ (by omega) mem)

theorem Serves.one {c : Conn} {n : Nat} (h : c.Serves n) (pos : 0 < n) : c.Serves 1 :=
  ⟨h.1, Nat.le_trans pos h.2.1, fun a mem => h.2.2 a (List.take_subset_take_left _ pos mem)⟩

/-- `n` bytes of `c` have been received and nothing has been sent. -/
structure Received (c : Conn) (n : Nat) (c' : Conn) : Prop where
  le : n ≤ c.incoming.length
  incoming : c'.incoming = c.incoming.drop n
  sent : c'.sent = c.sent
  connected : c'.connected = c.connected

/-- `data` has been sent and nothing has been received. -/
structure Sent (c : Conn) (data : List UInt8) (c' : Conn) : Prop where
  incoming : c'.incoming = c.incoming
  sent : c'.sent = c.sent ++ data
  connected : c'.connected = c.connected

theorem Received.trans {c c₁ c₂ : Conn} {m n : Nat} (h : Received c m c₁) (k : Received c₁ n c₂) :
    Received c (m + n) c₂ := by
  have le := k.le
  have le' := h.le
  rw [h.incoming, List.length_drop] at le
  exact ⟨by omega, by rw [k.incoming, h.incoming, List.drop_drop], k.sent.trans h.sent,
    k.connected.trans h.connected⟩

theorem Sent.trans {c c₁ c₂ : Conn} {a b : List UInt8} (h : Sent c a c₁) (k : Sent c₁ b c₂) :
    Sent c (a ++ b) c₂ :=
  ⟨k.incoming.trans h.incoming, by rw [k.sent, h.sent, List.append_assoc],
    k.connected.trans h.connected⟩

theorem answer_spec (c : Conn) :
    (∃ ret answers, c.answer = (.error ret, { c with answers }) ∧ ret ≤ 0 ∧ ¬ c.Serves 1) ∨
      ∃ count answers, c.answer = (.ok count, { c with answers }) ∧ 0 < count ∧ count ≤ maxRwCount ∧
        c.MovedOnce { c with answers } := by
  rw [answer]
  by_cases connected : c.connected = true
  · rw [if_pos connected]
    have first : ∀ {a rest}, c.answers = a :: rest → c.Serves 1 → a.Moves := by
      intro a rest answers served
      apply served.2.2
      rw [answers]
      exact List.mem_cons_self
    cases answers : c.answers with
    | nil =>
      refine .inl ⟨-1, c.answers, rfl, by decide, fun served => ?_⟩
      have := served.2.1
      rw [answers] at this
      exact absurd this (by decide)
    | cons a rest =>
      cases a with
      | fails => exact .inl ⟨-1, rest, rfl, by decide, first answers⟩
      | ends => exact .inl ⟨0, rest, rfl, Int.le_refl 0, first answers⟩
      | moves count some_byte le =>
        exact .inr ⟨count, rest, rfl, some_byte, le, _, answers, trivial⟩
  · rw [if_neg connected]
    exact .inl ⟨-1, c.answers, rfl, by decide, fun served => connected served.1⟩

/-- A call of `recv` reports nothing received, which a kernel that moves something does only at the end
of the bytes, or the first bytes of what is to come. -/
theorem recv_spec (c : Conn) {length : Nat} (some_room : 0 < length) :
    (∃ ret c', c.recv length = (ret, [], c') ∧ ret ≤ 0 ∧ Received c 0 c' ∧
        (c.incoming ≠ [] → ¬ c.Serves 1)) ∨
      ∃ (n : Nat) (c' : Conn), c.recv length = (Int.ofNat n, c.incoming.take n, c') ∧ 0 < n ∧ n ≤ length ∧
        Received c n c' ∧ c.MovedOnce c' := by
  rw [recv]
  rcases c.answer_spec with
    ⟨ret, answers, run, none, unserved⟩ | ⟨count, answers, run, some_byte, le, used⟩
  · rw [run]
    exact .inl ⟨ret, _, rfl, none, ⟨Nat.zero_le _, rfl, rfl, rfl⟩, fun _ => unserved⟩
  · have size : (c.incoming.take (min count length)).length =
        min (min count length) c.incoming.length := List.length_take
    have small : (c.incoming.take (min count length)).length ≤ maxRwCount := by omega
    rw [run]
    simp only [toInt_of_le small]
    by_cases ended : c.incoming = []
    · have nothing : c.incoming.take (min count length) = [] := by rw [ended, List.take_nil]
      rw [nothing]
      exact .inl ⟨0, _, rfl, Int.le_refl 0, ⟨Nat.zero_le _, rfl, rfl, rfl⟩, fun more => absurd ended more⟩
    · have some_left : 0 < c.incoming.length := List.length_pos_iff.mpr ended
      refine .inr ⟨(c.incoming.take (min count length)).length,
        { c with
          incoming := c.incoming.drop (c.incoming.take (min count length)).length
          answers },
        ?_, by omega, by omega, ⟨by omega, rfl, rfl, rfl⟩, used⟩
      have same : c.incoming.take (c.incoming.take (min count length)).length =
          c.incoming.take (min count length) := by
        rw [size, ← List.take_eq_take_min]
      rw [same]
      rfl

/-- A call of `send` reports nothing sent, or a front part of the bytes. -/
theorem send_spec (c : Conn) {data : List UInt8} (some_data : data ≠ []) :
    (∃ ret c', c.send data = (ret, c') ∧ ret ≤ 0 ∧ Sent c [] c' ∧ ¬ c.Serves 1) ∨
      ∃ (n : Nat) (c' : Conn), c.send data = (Int.ofNat n, c') ∧ 0 < n ∧ n ≤ data.length ∧
        Sent c (data.take n) c' ∧ c.MovedOnce c' := by
  have some_left : 0 < data.length := List.length_pos_iff.mpr some_data
  rw [send]
  rcases c.answer_spec with
    ⟨ret, answers, run, none, unserved⟩ | ⟨count, answers, run, some_byte, le, used⟩
  · rw [run]
    exact .inl ⟨ret, _, rfl, none, ⟨rfl, (List.append_nil _).symm, rfl⟩, unserved⟩
  · have size : (data.take count).length = min count data.length := List.length_take
    have small : (data.take count).length ≤ maxRwCount := by omega
    rw [run]
    simp only [toInt_of_le small]
    refine .inr ⟨(data.take count).length, _, rfl, by omega, by omega, ⟨rfl, ?_, rfl⟩, used⟩
    rw [size, ← List.take_eq_take_min]

end Conn

/-! ## The streams -/

namespace SocketStream

/-- `SocketStream::read(buffer + offset, length)`. -/
def readBuffer (offset length : Nat) : Proc Exn (List UInt8 × Conn) Nat := do
  let st ← Proc.read
  if !st.2.connected then Proc.raise (.logicError "SocketStream::read socket is null")
  else
    let (ret, bytes, conn) := st.2.recv length
    Proc.update fun st => (splice st.1 offset bytes, conn)
    if ret = 0 then Proc.raise (.runtimeError "SocketStream::read socket closed or EOF")
    else if ret < 0 then Proc.raise (.runtimeError "SocketStream::read failed")
    else pure ret.toNat

/-- `SocketStream::read(ba, length)`. -/
def readArray (length : Nat) : Proc Exn (ByteArray × Conn) Nat := do
  let st ← Proc.read
  if !st.2.connected then Proc.raise (.logicError "SocketStream::read socket is null")
  else do
    let iovs ← Proc.onFst (ByteArray.getWriteBuffers length)
    let (ret, bytes, conn) := st.2.recv (iovs.map (·.len)).sum
    Proc.update fun st => (ByteArray.scatter iovs bytes st.1, conn)
    if ret ≤ 0 then Proc.raise (.runtimeError "SocketStream::read failed")
    else do
      let st ← Proc.read
      Proc.onFst (ByteArray.setWritePosition (st.1.getWritePosition + ret.toNat))
      pure ret.toNat

/-- `SocketStream::write(buffer + offset, length)`. -/
def writeBuffer (offset length : Nat) : Proc Exn (List UInt8 × Conn) Nat := do
  let st ← Proc.read
  if !st.2.connected then Proc.raise (.logicError "SocketStream::write socket is null")
  else
    let (ret, conn) := st.2.send ((st.1.drop offset).take length)
    Proc.update fun st => (st.1, conn)
    if ret ≤ 0 then Proc.raise (.runtimeError "SocketStream::write failed") else pure ret.toNat

/-- `SocketStream::write(ba, length)`. -/
def writeArray (length : Nat) : Proc Exn (ByteArray × Conn) Nat := do
  let st ← Proc.read
  if !st.2.connected then Proc.raise (.logicError "SocketStream::write socket is null")
  else do
    let iovs ← Proc.onFst (ByteArray.getReadBuffers length)
    let (ret, conn) := st.2.send (st.1.gather iovs)
    Proc.update fun st => (st.1, conn)
    if ret ≤ 0 then Proc.raise (.runtimeError "SocketStream::write failed")
    else do
      let st ← Proc.read
      Proc.onFst (ByteArray.setReadPosition (st.1.getReadPosition + ret.toNat))
      pure ret.toNat

/-- The loop of the four functions: `move offset length` transfers some of the next `length` bytes. -/
def fixLengthLoop {σ : Type} (move : Nat → Nat → Proc Exn σ Nat) (what : String) (length : Nat) :
    Nat → Nat → Proc Exn σ Unit
  | 0, offset => if offset < length then Proc.abort else pure ()
  | fuel + 1, offset =>
    if offset < length then do
      let len ← move offset (length - offset)
      if len ≤ 0 then Proc.raise (.runtimeError (what ++ toString offset))
      else fixLengthLoop move what length fuel (offset + len)
    else pure ()

/-- `Stream::read_fix_length(buffer, length)`. -/
def readFixLengthBuffer (length : Nat) : Proc Exn (List UInt8 × Conn) Unit :=
  fixLengthLoop readBuffer "Stream::read_fix_length failed, read length=" length length 0

/-- `Stream::read_fix_length(ba, length)`. -/
def readFixLengthArray (length : Nat) : Proc Exn (ByteArray × Conn) Unit :=
  fixLengthLoop (fun _ => readArray) "Stream::read_fix_length failed, read length=" length length 0

/-- `Stream::write_fix_length(buffer, length)`. -/
def writeFixLengthBuffer (length : Nat) : Proc Exn (List UInt8 × Conn) Unit :=
  fixLengthLoop writeBuffer "Stream::write_fix_length failed, written length=" length length 0

/-- `Stream::write_fix_length(ba, length)`. -/
def writeFixLengthArray (length : Nat) : Proc Exn (ByteArray × Conn) Unit :=
  fixLengthLoop (fun _ => writeArray) "Stream::write_fix_length failed, written length=" length length 0

/-! ## The loop -/

/-- If each transfer moves at least one and at most the asked number of bytes, or throws, the loop moves
all of them, or throws after fewer. -/
theorem fixLengthLoop_spec {σ : Type} {move : Nat → Nat → Proc Exn σ Nat} (what : String) {length : Nat}
    {J T : Nat → σ → Prop}
    (turn : ∀ offset st, offset < length → J offset st →
      Proc.Meets (fun len st' => 0 < len ∧ len ≤ length - offset ∧ J (offset + len) st') (T offset)
        (move offset (length - offset) st)) (fuel : Nat) :
    ∀ (offset : Nat) (st : σ), J offset st → offset ≤ length → length - offset ≤ fuel →
    Proc.Meets (fun _ st' => J length st') (fun st' => ∃ k, k < length ∧ T k st')
      (fixLengthLoop move what length fuel offset st) := by
  induction fuel with
  | zero =>
    intro offset st here le short
    obtain rfl : offset = length := by omega
    rw [fixLengthLoop, if_neg (Nat.lt_irrefl _)]
    exact here
  | succ fuel ih =>
    intro offset st here le short
    rw [fixLengthLoop]
    by_cases more : offset < length
    · rw [if_pos more]
      have step : Proc.Meets (fun len st' => 0 < len ∧ len ≤ length - offset ∧ J (offset + len) st')
          (fun st' => ∃ k, k < length ∧ T k st') (move offset (length - offset) st) := by
        have met := turn offset st more here
        cases run : move offset (length - offset) st <;> rw [run] at met
        · exact met
        · exact ⟨offset, more, met⟩
        · exact met
      refine step.bind fun len st' moved => ?_
      obtain ⟨some_byte, fits, there⟩ := moved
      rw [if_neg (by omega)]
      exact ih (offset + len) st' there (by omega) (by omega)
    · obtain rfl : offset = length := by omega
      rw [if_neg more]
      exact here

/-! ## The four transfers -/

/-- What a fixed-length transfer of `n` bytes over a connection owes. Either it returns with the whole
effect, and the kernel moved something in every call it made; or it throws with the effect of fewer
bytes, and the socket did not serve. -/
def Exact {σ : Type} (conn : σ → Conn) (c : Conn) (n : Nat) (effect : Nat → σ → Prop) (served : Prop)
    (out : Outcome Exn σ Unit) : Prop :=
  Proc.Meets (fun _ st => effect n st ∧ c.Moved (conn st))
    (fun st => (∃ k, k < n ∧ effect k st) ∧ ¬ served) out

theorem Exact.weaken {σ : Type} {conn : σ → Conn} {c : Conn} {n : Nat} {effect effect' : Nat → σ → Prop}
    {served : Prop} {out : Outcome Exn σ Unit} (h : Exact conn c n effect served out)
    (weaker : ∀ k, k ≤ n → ∀ st, effect k st → effect' k st) :
    Exact conn c n effect' served out := by
  cases out with
  | done a st => exact ⟨weaker n (Nat.le_refl n) st h.1, h.2⟩
  | thrown e st =>
    obtain ⟨⟨k, less, there⟩, unserved⟩ := h
    exact ⟨⟨k, less, weaker k (Nat.le_of_lt less) st there⟩, unserved⟩
  | stuck => exact h

/-- The loop around a transfer that keeps an effect, and keeps being served as long as the socket
serves. -/
theorem exact_of_turn {σ : Type} (conn : σ → Conn) (st : σ) {move : Nat → Nat → Proc Exn σ Nat}
    (what : String) {n : Nat} {effect : Nat → σ → Prop} {served : Prop}
    (turn : ∀ k st, k < n → effect k st → (served → (conn st).Serves (n - k)) →
      Proc.Meets (fun len st' => 0 < len ∧ len ≤ n - k ∧ effect (k + len) st' ∧
          (conn st).MovedOnce (conn st') ∧ (conn st').connected = (conn st).connected)
        (fun st' => effect k st' ∧ ¬ served) (move k (n - k) st))
    (start : effect 0 st) (serves : served → (conn st).Serves n) :
    Exact conn (conn st) n effect served (fixLengthLoop move what n n 0 st) := by
  let c := conn st
  have step : ∀ k st, k < n → effect k st ∧ c.Moved (conn st) ∧ (served → (conn st).Serves (n - k)) →
      Proc.Meets (fun len st' => 0 < len ∧ len ≤ n - k ∧
          (effect (k + len) st' ∧ c.Moved (conn st') ∧ (served → (conn st').Serves (n - (k + len)))))
        (fun st' => effect k st' ∧ ¬ served) (move k (n - k) st) := by
    intro k st less here
    obtain ⟨there, moved, serves⟩ := here
    have met := turn k st less there serves
    cases run : move k (n - k) st <;> rw [run] at met
    · obtain ⟨some_byte, fits, there', used, same⟩ := met
      refine ⟨some_byte, fits, there', moved.next used, fun ok => ?_⟩
      rw [Nat.sub_add_eq]
      exact (serves ok).next some_byte same used
    · exact met
    · exact met
  have loop := fixLengthLoop_spec
    (J := fun k st => effect k st ∧ c.Moved (conn st) ∧ (served → (conn st).Serves (n - k)))
    (T := fun k st => effect k st ∧ ¬ served) what step n 0 st ⟨start, ⟨[], rfl, nofun⟩, serves⟩
    (Nat.zero_le _) (Nat.le_refl _)
  rw [Exact]
  cases run : fixLengthLoop move what n n 0 st <;> rw [run] at loop
  · exact ⟨loop.1, loop.2.1⟩
  · obtain ⟨k, less, there, unserved⟩ := loop
    exact ⟨⟨k, less, there⟩, unserved⟩
  · exact loop

theorem readFixLengthBuffer_exact (c : Conn) (n : Nat) {buf : List UInt8} (room : n ≤ buf.length) :
    Exact Prod.snd c n (fun k st => st.1 = splice buf 0 (c.incoming.take k) ∧ c.Received k st.2)
      (c.Serves n ∧ n ≤ c.incoming.length) (readFixLengthBuffer n (buf, c)) := by
  refine exact_of_turn Prod.snd (buf, c) _ ?_
    ⟨(splice_nil _ _).symm, Nat.zero_le _, rfl, rfl, rfl⟩ And.left
  rintro k ⟨b, d⟩ less ⟨stored, received⟩ serves
  change b = _ at stored
  have more : c.Serves n ∧ n ≤ c.incoming.length → d.incoming ≠ [] := by
    intro served none
    have left := congrArg List.length (received.incoming.symm.trans none)
    rw [List.length_drop, List.length_nil] at left
    omega
  simp only [readBuffer, Proc.read_bind_apply]
  split
  · rename_i off
    refine ⟨⟨stored, received⟩, fun served => ?_⟩
    rw [(serves served).1] at off
    cases off
  · rcases d.recv_spec (Nat.sub_pos_of_lt less) with
      ⟨ret, d', run, none, received', unserved⟩ | ⟨len, d', run, some_byte, fits, received', used⟩
    · rw [run]
      simp only [Proc.update_bind_apply, splice_nil]
      have fails : (fun st : List UInt8 × Conn => (st.1 = splice buf 0 (c.incoming.take k) ∧
          c.Received k st.2) ∧ ¬ (c.Serves n ∧ n ≤ c.incoming.length)) (b, d') :=
        ⟨⟨stored, received.trans received'⟩, fun served =>
          unserved (more served) ((serves served).one (Nat.sub_pos_of_lt less))⟩
      split
      · exact fails
      · rw [if_pos (by omega)]
        exact fails
    · rw [run]
      simp only [Proc.update_bind_apply]
      have le := received'.le
      have joined : splice b k (d.incoming.take len) = splice buf 0 (c.incoming.take (k + len)) := by
        have front : (c.incoming.take k).length = k := List.length_take_of_le received.le
        rw [received.incoming, List.length_drop] at le
        have join := splice_splice buf 0 (c.incoming.take k) (d.incoming.take len) (by
          rw [List.length_append, front, List.length_take]
          omega)
        rw [front, Nat.zero_add] at join
        rw [stored, join, received.incoming, ← List.take_add]
      rw [if_neg (by simp only [Int.ofNat_eq_natCast]; omega),
        if_neg (by simp only [Int.ofNat_eq_natCast]; omega)]
      exact ⟨some_byte, fits, ⟨joined, received.trans received'⟩, used, received'.connected⟩

theorem writeFixLengthBuffer_exact (c : Conn) (n : Nat) {buf : List UInt8} (room : n ≤ buf.length) :
    Exact Prod.snd c n (fun k st => st.1 = buf ∧ c.Sent (buf.take k) st.2) (c.Serves n)
      (writeFixLengthBuffer n (buf, c)) := by
  refine exact_of_turn Prod.snd (buf, c) _ ?_ ⟨rfl, rfl, (List.append_nil _).symm, rfl⟩ id
  rintro k ⟨b, d⟩ less ⟨same, sent⟩ serves
  obtain rfl : b = buf := same
  have size : ((b.drop k).take (n - k)).length = n - k := by
    rw [List.length_take, List.length_drop]
    omega
  have some_data : (b.drop k).take (n - k) ≠ [] := by
    apply List.ne_nil_of_length_pos
    omega
  simp only [writeBuffer, Proc.read_bind_apply]
  split
  · rename_i off
    refine ⟨⟨rfl, sent⟩, fun served => ?_⟩
    rw [(serves served).1] at off
    cases off
  · rcases d.send_spec some_data with
      ⟨ret, d', run, none, sent', unserved⟩ | ⟨len, d', run, some_byte, fits, sent', used⟩
    · rw [run]
      simp only [Proc.update_bind_apply]
      rw [if_pos none]
      refine ⟨⟨rfl, ?_⟩, fun served => unserved ((serves served).one (Nat.sub_pos_of_lt less))⟩
      have joined := sent.trans sent'
      rwa [List.append_nil] at joined
    · rw [run]
      simp only [Proc.update_bind_apply]
      rw [size] at fits
      have joined := sent.trans sent'
      rw [List.take_take, Nat.min_eq_left fits, ← List.take_add] at joined
      rw [if_neg (by simp only [Int.ofNat_eq_natCast]; omega)]
      exact ⟨some_byte, fits, ⟨rfl, joined⟩, used, sent'.connected⟩

/-! ## Over a byte array -/

open Sylar.ByteArray

theorem readFixLengthArray_exact (c : Conn) (n : Nat) {ba : ByteArray} {f : FlatBuffer} (r : Rep ba f) :
    Exact Prod.snd c n (fun k st => Rep st.1 (f.append (c.incoming.take k)) ∧ c.Received k st.2)
      (c.Serves n ∧ n ≤ c.incoming.length) (readFixLengthArray n (ba, c)) := by
  have start : Rep ba (f.append (c.incoming.take 0)) := by rwa [List.take_zero, FlatBuffer.append_nil]
  refine exact_of_turn Prod.snd (ba, c) _ ?_ ⟨start, Nat.zero_le _, rfl, rfl, rfl⟩ And.left
  rintro k ⟨s, d⟩ less ⟨rep, received⟩ serves
  have more : c.Serves n ∧ n ≤ c.incoming.length → d.incoming ≠ [] := by
    intro served none
    have left := congrArg List.length (received.incoming.symm.trans none)
    rw [List.length_drop, List.length_nil] at left
    omega
  have asked : n - k ≠ 0 := by omega
  obtain ⟨iovs, s₁, buffers, placed, view, room, covers⟩ := getWriteBuffers_spec rep.layout asked
  have rep₁ : Rep s₁ (f.append (c.incoming.take k)) := rep.sameView placed view
  simp only [readArray, Proc.read_bind_apply]
  split
  · rename_i off
    refine ⟨⟨rep, received⟩, fun served => ?_⟩
    rw [(serves served).1] at off
    cases off
  · rw [Proc.bind_done _ (Proc.onFst_done d buffers), Covers.total iovs _ _ covers]
    rcases d.recv_spec (Nat.sub_pos_of_lt less) with
      ⟨ret, d', run, none, received', unserved⟩ | ⟨len, d', run, some_byte, fits, received', used⟩
    · rw [run]
      simp only [Proc.update_bind_apply, scatter_nil]
      rw [if_pos none]
      exact ⟨⟨rep₁, received.trans received'⟩, fun served =>
        unserved (more served) ((serves served).one (Nat.sub_pos_of_lt less))⟩
    · rw [run]
      simp only [Proc.update_bind_apply]
      rw [if_neg (by simp only [Int.ofNat_eq_natCast]; omega), Proc.read_bind_apply]
      have size : (d.incoming.take len).length = len := List.length_take_of_le received'.le
      -- what is left to do is the end of the store through regions, at the same regions
      obtain ⟨s', stored, rep'⟩ := (storeBuffers_refines .little (n - k) (d.incoming.take len)
        (by rw [size]; exact fits)).done rep rfl
      rw [ByteArray.apply, Proc.bind_done _ buffers, Proc.update_bind_apply, Proc.read_bind_apply,
        size] at stored
      obtain ⟨_, s₂, moved, last⟩ := Proc.bind_eq_done stored
      obtain rfl : s₂ = s' := (Outcome.done.inj last).2
      show Proc.Meets _ _ ((Proc.onFst (setWritePosition
        ((scatter iovs (d.incoming.take len) s₁).getWritePosition + len)) >>= fun _ => pure len)
        (scatter iovs (d.incoming.take len) s₁, d'))
      rw [Proc.bind_done _ (Proc.onFst_done d' moved)]
      refine ⟨some_byte, fits, ⟨?_, received.trans received'⟩, used, received'.connected⟩
      have joined : c.incoming.take k ++ d.incoming.take len = c.incoming.take (k + len) := by
        rw [received.incoming, ← List.take_add]
      show Rep _ _
      rw [← joined, ← FlatBuffer.append_append]
      exact rep'

theorem writeFixLengthArray_exact (c : Conn) {n : Nat} {ba : ByteArray} {f : FlatBuffer} (r : Rep ba f)
    (enough : n ≤ f.unread.length) :
    Exact Prod.snd c n (fun k st => Rep st.1 (f.advance k) ∧ ReadFrame ba st.1 ∧
      c.Sent (f.unread.take k) st.2) (c.Serves n) (writeFixLengthArray n (ba, c)) := by
  have start : Rep ba (f.advance 0) := by rwa [FlatBuffer.advance_zero]
  refine exact_of_turn Prod.snd (ba, c) _ ?_
    ⟨start, ReadFrame.refl ba, rfl, (List.append_nil _).symm, rfl⟩ id
  rintro k ⟨s, d⟩ less ⟨rep, frame, sent⟩ serves
  change Rep s _ at rep
  have behind : (f.advance k).unread = f.unread.drop k := FlatBuffer.unread_advance (by omega)
  have size : (f.unread.drop k).length = f.unread.length - k := List.length_drop
  obtain ⟨iovs, buffers, held⟩ := getReadBuffers_spec rep (n - k)
  rw [behind] at held
  have count : ((f.unread.drop k).take (n - k)).length = n - k := by
    rw [List.length_take]
    omega
  have some_data : (f.unread.drop k).take (n - k) ≠ [] := by
    apply List.ne_nil_of_length_pos
    omega
  simp only [writeArray, Proc.read_bind_apply]
  split
  · rename_i off
    refine ⟨⟨rep, frame, sent⟩, fun served => ?_⟩
    rw [(serves served).1] at off
    cases off
  · rw [Proc.bind_done _ (Proc.onFst_done d buffers), held]
    rcases d.send_spec some_data with
      ⟨ret, d', run, none, sent', unserved⟩ | ⟨len, d', run, some_byte, fits, sent', used⟩
    · rw [run]
      simp only [Proc.update_bind_apply]
      rw [if_pos none]
      refine ⟨⟨rep, frame, ?_⟩, fun served => unserved ((serves served).one (Nat.sub_pos_of_lt less))⟩
      have joined := sent.trans sent'
      rwa [List.append_nil] at joined
    · rw [run]
      simp only [Proc.update_bind_apply]
      rw [if_neg (by simp only [Int.ofNat_eq_natCast]; omega), Proc.read_bind_apply]
      rw [count] at fits
      have flat : FlatBuffer.setReadPosition ((f.advance k).readPos + len) (f.advance k) =
          .done () (f.advance (k + len)) := by
        rw [← FlatBuffer.advance_advance (by omega)]
        exact FlatBuffer.setReadPosition_advance (by rw [behind, size]; omega)
      obtain ⟨s', moved, rep'⟩ := (setReadPosition_refines _).done rep flat
      rw [← rep.readPos] at moved
      have joined := sent.trans sent'
      rw [List.take_take, Nat.min_eq_left fits, ← List.take_add] at joined
      show Proc.Meets _ _ ((Proc.onFst (setReadPosition (s.readPos + len)) >>= fun _ => pure len) (s, d'))
      rw [Proc.bind_done _ (Proc.onFst_done d' moved)]
      exact ⟨some_byte, fits, ⟨rep', frame.trans _ _ _ ((setReadPosition_keeps _).done moved), joined⟩,
        used, sent'.connected⟩

/-- Fixed-length transfers are exact under every segmentation. Whatever counts the kernel chooses:
`read_fix_length(buffer, n)` stores the first `n` bytes of the stream in order and consumes these;
`read_fix_length(ba, n)` leaves the array as `write` of these bytes does, as far as any call can tell;
`write_fix_length(buffer, n)` sends the `n` bytes; `write_fix_length(ba, n)`, with `n` bytes unread,
sends the next `n` and moves the read position behind them. Or they throw, with the effect of fewer
bytes; and they do so only when the socket is not connected, reports an end or an error, or (reading)
has fewer bytes to give. -/
theorem fix_length_exact {host : Host} {blockSize : Nat} (hsize : 1 ≤ blockSize)
    {junk : Nat → Nat → UInt8} {ba : ByteArray} (reached : Reached host blockSize junk ba) (c : Conn)
    (n : Nat) (buf : List UInt8) (room : n ≤ buf.length) :
    Exact Prod.snd c n (fun k st => st.1 = splice buf 0 (c.incoming.take k) ∧ c.Received k st.2)
        (c.Serves n ∧ n ≤ c.incoming.length) (readFixLengthBuffer n (buf, c)) ∧
      Exact Prod.snd c n (fun k st => (∃ s' f', write (c.incoming.take k) ba = .done () s' ∧ Rep s' f' ∧
          Rep st.1 f') ∧ c.Received k st.2)
        (c.Serves n ∧ n ≤ c.incoming.length) (readFixLengthArray n (ba, c)) ∧
      Exact Prod.snd c n (fun k st => st.1 = buf ∧ c.Sent (buf.take k) st.2) (c.Serves n)
        (writeFixLengthBuffer n (buf, c)) ∧
      (n ≤ ba.unread.length →
        Exact Prod.snd c n (fun k st => (ReadFrame ba st.1 ∧ st.1.readPos = ba.readPos + k) ∧
          c.Sent (ba.unread.take k) st.2) (c.Serves n) (writeFixLengthArray n (ba, c))) := by
  obtain ⟨f, r⟩ := reached.rep hsize
  refine ⟨readFixLengthBuffer_exact c n room, ?_, writeFixLengthBuffer_exact c n room, fun enough => ?_⟩
  · refine (readFixLengthArray_exact c n r).weaken fun k _ st here => ⟨?_, here.2⟩
    obtain ⟨s', run, rep⟩ := (write_refines (c.incoming.take k)).done r rfl
    exact ⟨s', _, run, rep, here.1⟩
  · rw [r.unread] at enough ⊢
    refine (writeFixLengthArray_exact c r enough).weaken fun k le st here => ?_
    obtain ⟨rep, frame, sent⟩ := here
    refine ⟨⟨frame, ?_⟩, sent⟩
    rw [rep.readPos, r.readPos]
    show f.readPos + min k f.unread.length = _
    rw [Nat.min_eq_left (Nat.le_trans le enough)]

/-- Three bytes over a connection that moves one, then up to four: no call fails, so the read returns. -/
theorem fix_length_exact_in_two :
    ∃ st, readFixLengthBuffer 3 ([0, 0, 0], ⟨true, [1, 2, 3, 4], [],
        [.moves 1 (by decide) (by decide), .moves 4 (by decide) (by decide),
          .moves 1 (by decide) (by decide)]⟩) = .done () st ∧
      st.1 = [1, 2, 3] ∧ st.2.incoming = [4] := by
  let c : Conn := ⟨true, [1, 2, 3, 4], [], [.moves 1 (by decide) (by decide),
    .moves 4 (by decide) (by decide), .moves 1 (by decide) (by decide)]⟩
  have reached : Reached .little 2 (fun _ _ => 0) (init 2 fun _ _ => 0) := ⟨[], .nil _⟩
  have serves : c.Serves 3 := by
    refine ⟨rfl, Nat.le_refl 3, ?_⟩
    show ∀ a ∈ c.answers, a.Moves
    simp only [c, List.forall_mem_cons, Answer.Moves, List.not_mem_nil, false_implies, implies_true,
      and_self]
  have read := (fix_length_exact (by decide) reached c 3 [0, 0, 0] (by decide)).1
  cases run : readFixLengthBuffer 3 ([0, 0, 0], c) with
  | done a st =>
    rw [run] at read
    exact ⟨st, rfl, read.1.1, read.1.2.incoming⟩
  | thrown e st =>
    rw [run] at read
    exact absurd ⟨serves, by decide⟩ read.2
  | stuck =>
    rw [run] at read
    exact read.elim

end SocketStream

end Sylar
