import Sylar.Address.Order
import Sylar.Socket.Basic

/-!
# Plain and vectored transfer

The eight transfer functions of `Socket`, with what they hand to the kernel. A plain call passes one
buffer, a vectored call a `msghdr` with its buffers and, for a datagram, the peer's address; the other
fields of the `msghdr` are zero. A buffer is the list of its bytes, on the receiving side those it
holds before the call.

`send_eq` and the equations beside it say that these are the functions of the life-cycle model, which
leaves buffers and flags out. `agree_iff` compares each plain function with its vectored twin.
-/

namespace Sylar

open Lib

namespace Socket

/-- A transfer call as the kernel receives it. -/
structure Transfer where
  call : FdCall
  fd : Int
  buffers : List (List UInt8)
  flags : Int
  /-- The bytes of the peer's address. -/
  name : Option (List UInt8)
  deriving DecidableEq, Repr

namespace Transfer

variable (host : Host) (sys : System) (s : Socket) (buffer : List UInt8) (buffers : List (List UInt8))
  (peer : Option Sylar.Address) (flags : Int)

/-! ## The functions; `none` is a return of -1 without a system call -/

/-- `send(const void* buffer, size_t length, int flags)`. -/
def send : Option Transfer :=
  if !s.isConnected then none else some ⟨.send, s.sockfd, [buffer], flags, none⟩

/-- `send(const iovec* buffers, size_t length, int flags)`. -/
def sendIov : Option Transfer :=
  if !s.isConnected then none else some ⟨.sendmsg, s.sockfd, buffers, flags, none⟩

/-- `send_to(const void* buffer, size_t length, const Address::ptr to, int flags)`. The test for a valid
socket is negated twice. -/
def sendTo : Option Transfer :=
  match peer with
  | none => none
  | some dest =>
    if !!s.isValid then none else some ⟨.sendto, s.sockfd, [buffer], flags, some (dest.key host)⟩

/-- `send_to(const iovec* buffers, size_t length, const Address::ptr to, int flags)`. -/
def sendToIov : Option Transfer :=
  match peer with
  | none => none
  | some dest =>
    if !s.isValid then none else some ⟨.sendmsg, s.sockfd, buffers, flags, some (dest.key host)⟩

/-- `recv(void* buffer, size_t length, int flags)`. -/
def recv : Option Transfer :=
  if !s.isConnected then none else some ⟨.recv, s.sockfd, [buffer], flags, none⟩

/-- `recv(iovec* buffers, size_t length, int flags)`. -/
def recvIov : Option Transfer :=
  if !s.isConnected then none else some ⟨.recvmsg, s.sockfd, buffers, flags, none⟩

/-- `recv_from(void* buffer, size_t length, Address::ptr from, int flags)`. -/
def recvFrom : Option Transfer :=
  if !s.isValid then none
  else match peer with
    | none => none
    | some peer => some ⟨.recvfrom, s.sockfd, [buffer], flags, some (peer.key host)⟩

/-- `recv_from(iovec* buffers, size_t length, Address::ptr from, int flags)`. -/
def recvFromIov : Option Transfer :=
  if !s.isValid then none
  else match peer with
    | none => none
    | some peer => some ⟨.recvmsg, s.sockfd, buffers, flags, some (peer.key host)⟩

/-! ## The life-cycle model -/

/-- What a function returns, and the system call that it makes. -/
def perform : Option Transfer → M Int
  | none => pure (-1)
  | some t => syscall sys (.onFd t.call t.fd)

/-- What the life-cycle model looks at in an address. -/
def familyOf (peer : Option Sylar.Address) : Option Socket.Address :=
  peer.map fun a => ⟨a.getFamily⟩

theorem transfer_eq {check : Socket → Bool} {call : FdCall} {t : Option Transfer}
    (same : t.map (fun t => (t.call, t.fd)) = if check s then some (call, s.sockfd) else none) :
    transfer sys check call s = perform sys t s := by
  rw [transfer, Proc.read_bind_apply]
  cases t with
  | none =>
    split at same
    · cases same
    · rw [if_neg ‹_›]
      rfl
  | some t =>
    obtain ⟨c, fd, buffers, flags, name⟩ := t
    split at same
    · cases same
      rw [if_pos ‹_›]
      rfl
    · cases same

theorem send_eq : Socket.send sys s = perform sys (send s buffer flags) s := by
  apply transfer_eq sys s
  cases connected : s.isConnected <;> simp [send, connected]

theorem sendIov_eq : Socket.sendIov sys s = perform sys (sendIov s buffers flags) s := by
  apply transfer_eq sys s
  cases connected : s.isConnected <;> simp [sendIov, connected]

theorem sendTo_eq :
    Socket.sendTo sys (familyOf peer) s = perform sys (sendTo host s buffer peer flags) s := by
  apply transfer_eq sys s
  cases peer <;> cases valid : s.isValid <;> simp [sendTo, familyOf, valid]

theorem sendToIov_eq :
    Socket.sendToIov sys (familyOf peer) s = perform sys (sendToIov host s buffers peer flags) s := by
  apply transfer_eq sys s
  cases peer <;> cases valid : s.isValid <;> simp [sendToIov, familyOf, valid]

theorem recv_eq : Socket.recv sys s = perform sys (recv s buffer flags) s := by
  apply transfer_eq sys s
  cases connected : s.isConnected <;> simp [recv, connected]

theorem recvIov_eq : Socket.recvIov sys s = perform sys (recvIov s buffers flags) s := by
  apply transfer_eq sys s
  cases connected : s.isConnected <;> simp [recvIov, connected]

theorem recvFrom_eq :
    Socket.recvFrom sys (familyOf peer) s = perform sys (recvFrom host s buffer peer flags) s := by
  apply transfer_eq sys s
  cases peer <;> cases valid : s.isValid <;> simp [recvFrom, familyOf, valid]

theorem recvFromIov_eq :
    Socket.recvFromIov sys (familyOf peer) s = perform sys (recvFromIov host s buffers peer flags) s := by
  apply transfer_eq sys s
  cases peer <;> cases valid : s.isValid <;> simp [recvFromIov, familyOf, valid]

/-! ## Plain against vectored -/

/-- The buffers after `data` has arrived in them: they are filled in their order. -/
def scatter : List (List UInt8) → List UInt8 → List (List UInt8)
  | [], _ => []
  | b :: bs, data => (data.take b.length ++ b.drop data.length) :: scatter bs (data.drop b.length)

/-- The buffers taken together are filled like one buffer. -/
theorem flatten_scatter (bufs : List (List UInt8)) (data : List UInt8) :
    (scatter bufs data).flatten = data.take bufs.flatten.length ++ bufs.flatten.drop data.length := by
  induction bufs generalizing data with
  | nil => simp [scatter]
  | cons b bs ih =>
    simp only [scatter, List.flatten_cons, ih, List.length_append, List.length_drop, List.drop_append]
    rcases Nat.le_total data.length b.length with short | long
    · have rest : data.drop b.length = [] := List.drop_of_length_le short
      have all : data.length - b.length = 0 := by omega
      have whole : data.length ≤ b.length + bs.flatten.length := by omega
      rw [rest, List.take_of_length_le short, List.take_of_length_le whole, all]
      simp
    · have filled : b.drop data.length = [] := List.drop_of_length_le long
      rw [filled, List.append_nil, List.nil_append, ← List.append_assoc, List.take_add]

/-- Both functions return -1 without a system call, or both hand the kernel the same descriptor, bytes,
flags and peer address, and whatever the kernel writes stands in the same place. -/
def Agree : Option Transfer → Option Transfer → Prop
  | none, none => True
  | some p, some v => p.fd = v.fd ∧ p.buffers.flatten = v.buffers.flatten ∧ p.flags = v.flags ∧
      p.name = v.name ∧ ∀ data, (scatter p.buffers data).flatten = (scatter v.buffers data).flatten
  | _, _ => False

theorem agree_some (c c' : FdCall) (fd : Int) (name : Option (List UInt8)) :
    Agree (some ⟨c, fd, [buffers.flatten], flags, name⟩) (some ⟨c', fd, buffers, flags, name⟩) := by
  have one : [buffers.flatten].flatten = buffers.flatten := by simp
  refine ⟨rfl, one, rfl, rfl, fun data => ?_⟩
  rw [flatten_scatter, flatten_scatter, one]

/-- Three of the four pairs agree in every state. The plain `send_to` does what its twin does only
where neither does anything, without an address. -/
theorem agree_iff :
    Agree (send s buffers.flatten flags) (sendIov s buffers flags) ∧
    Agree (recv s buffers.flatten flags) (recvIov s buffers flags) ∧
    Agree (recvFrom host s buffers.flatten peer flags) (recvFromIov host s buffers peer flags) ∧
    (Agree (sendTo host s buffers.flatten peer flags) (sendToIov host s buffers peer flags) ↔
      peer = none) := by
  refine ⟨?_, ?_, ?_, ?_⟩
  · rw [send, sendIov]
    split
    · trivial
    · apply agree_some
  · rw [recv, recvIov]
    split
    · trivial
    · apply agree_some
  · cases valid : s.isValid with
    | false => simp [recvFrom, recvFromIov, valid, Agree]
    | true =>
      cases peer with
      | none => simp [recvFrom, recvFromIov, valid, Agree]
      | some a => simpa [recvFrom, recvFromIov, valid] using agree_some buffers flags _ _ _ _
  · cases peer with
    | none => simp [sendTo, sendToIov, Agree]
    | some a => cases valid : s.isValid <;> simp [sendTo, sendToIov, valid, Agree]

/-- An open datagram socket, one byte and the address 127.0.0.1:80. -/
theorem not_agree_datagram :
    ¬ Agree
      (sendTo .little { create 2 2 0 with sockfd := 3 } [97]
        (some (.ipv4 (.ofAddress .little 0x7f000001#32 80))) 0)
      (sendToIov .little { create 2 2 0 with sockfd := 3 } [[97]]
        (some (.ipv4 (.ofAddress .little 0x7f000001#32 80))) 0) := by
  simp [sendTo, sendToIov, isValid, Agree]

end Transfer

end Socket

end Sylar
