import Sylar.Lib.Proc

/-!
# Sockets

The model of `socket.h` and `socket.cpp`. A `Socket` holds a descriptor in `sockfd_`, where -1 is none,
and the flag `is_connected_`; the two are written by different calls. Its two addresses are cached the
first time they are asked for, and the log lines of the calls that fail ask for them.

The system calls of one object are recorded in the order in which it makes them, each with the
descriptor that is passed and the answer. What the system answers is a parameter: it may depend on
every call made so far, so that every call can succeed or fail at any time. Buffers, flags and lengths
are not modelled, since nothing that is decided here depends on them.
-/

namespace Sylar

open Lib

/-- The system calls that take a descriptor. -/
inductive FdCall where
  | bind | listen | accept | connect | close
  | getsockname | getpeername | getsockopt | setsockopt
  | send | sendmsg | sendto | recv | recvmsg | recvfrom
  deriving DecidableEq, Repr

inductive Syscall where
  | socket (family type protocol : Int)
  | onFd (call : FdCall) (fd : Int)
  deriving DecidableEq, Repr

/-- The descriptor that is passed. -/
def Syscall.fd : Syscall → Option Int
  | .socket .. => none
  | .onFd _ fd => some fd

/-- An address, as far as a socket looks at it: `get_family()`. -/
structure Socket.Address where
  family : Int
  deriving DecidableEq, Repr

/-- `Address::create(int family)`. -/
def Socket.Address.create (family : Int) : Socket.Address where
  family := family

structure Socket where
  sockfd : Int
  family : Int
  type : Int
  protocol : Int
  isConnected : Bool
  localAddress : Option Socket.Address
  remoteAddress : Option Socket.Address
  /-- The system calls this object has made, with their answers. -/
  calls : List (Syscall × Int)
  /-- The descriptors this object has been given. -/
  obtained : List Int
  deriving DecidableEq, Repr

/-- What the object finds around it, at each moment of its life: the answers of the system and the
family of the address that a call writes, whether `FdMgr` knows a descriptor, and whether the level of
the logger lets an error line through. -/
structure Socket.System where
  answer : List (Syscall × Int) → Syscall → Int
  written : List (Syscall × Int) → Int
  hasFdCtx : List (Syscall × Int) → Int → Bool
  logs : List (Syscall × Int) → Bool

namespace Socket

/-- `SOCK_STREAM`. -/
def sockStream : Int := 1

/-- The constructor. -/
def create (family type protocol : Int) : Socket where
  sockfd := -1
  family := family
  type := type
  protocol := protocol
  isConnected := false
  localAddress := none
  remoteAddress := none
  calls := []
  obtained := []

/-- The calls throw nothing; a null address that is followed leaves them without a meaning. -/
abbrev M := Proc Empty Socket

variable (sys : System)

def isValid (s : Socket) : Bool := s.sockfd != -1

def syscall (c : Syscall) : M Int := do
  let s ← Proc.read
  Proc.update fun s => { s with calls := s.calls ++ [(c, sys.answer s.calls c)] }
  pure (sys.answer s.calls c)

/-- A system call on `sockfd_`. -/
def onFd (call : FdCall) : M Int := do
  let s ← Proc.read
  syscall sys (.onFd call s.sockfd)

/-! ## Addresses -/

def getLocalAddress : M (Option Address) := do
  let s ← Proc.read
  if s.sockfd = -1 then pure none
  else if s.localAddress.isSome then pure s.localAddress
  else
    Proc.update fun s => { s with localAddress := some (.create s.family) }
    let rt ← onFd sys .getsockname
    Proc.update fun s => { s with localAddress := if rt = 0 then some ⟨sys.written s.calls⟩ else none }
    let s ← Proc.read
    pure s.localAddress

def getRemoteAddress : M (Option Address) := do
  let s ← Proc.read
  if s.sockfd = -1 ∨ s.isConnected = false then pure none
  else if s.remoteAddress.isSome then pure s.remoteAddress
  else
    Proc.update fun s => { s with remoteAddress := some (.create s.family) }
    let rt ← onFd sys .getpeername
    Proc.update fun s => { s with remoteAddress := if rt = 0 then some ⟨sys.written s.calls⟩ else none }
    let s ← Proc.read
    pure s.remoteAddress

/-- `to_string`, for what it asks of the system: both addresses are printed. -/
def toString : M Unit := do
  let _ ← getLocalAddress sys
  let _ ← getRemoteAddress sys
  pure ()

/-- The log line of `bind` and `connect` when they fail. It prints the socket and the address. -/
def complain (addr : Option Address) : M Unit := do
  let s ← Proc.read
  if sys.logs s.calls then
    toString sys
    let _ ← Proc.demand addr
    pure ()
  else pure ()

/-! ## Options -/

def getOption : M Bool := do
  let rt ← onFd sys .getsockopt
  pure (rt == 0)

def setOption : M Bool := do
  let rt ← onFd sys .setsockopt
  pure (rt == 0)

/-! ## Life of the descriptor -/

/-- The options that `init` sets on a descriptor that `FdMgr` knows: `SO_REUSEADDR`, and `TCP_NODELAY`
on a stream. -/
def initOptions : M Unit := do
  let s ← Proc.read
  if sys.hasFdCtx s.calls s.sockfd then
    let _ ← setOption sys
    if s.type = sockStream then
      let _ ← setOption sys
      pure ()
    else pure ()
  else pure ()

/-- `init(-1)`: a descriptor of its own. -/
def initOwn : M Bool := do
  let s ← Proc.read
  let fd ← syscall sys (.socket s.family s.type s.protocol)
  Proc.update fun s => { s with
    sockfd := fd
    isConnected := false
    obtained := if fd = -1 then s.obtained else s.obtained ++ [fd] }
  if fd = -1 then pure false
  else
    initOptions sys
    pure true

/-- `init(sockfd)`: a descriptor that is given. -/
def init (sockfd : Int) : M Bool :=
  if sockfd = -1 then initOwn sys
  else do
    Proc.update fun s => { s with
      sockfd := sockfd
      isConnected := true
      obtained := s.obtained ++ [sockfd] }
    initOptions sys
    pure true

/-- The first lines of `bind` and `connect`: a socket without a descriptor opens one. -/
def ensure : M Unit := do
  let s ← Proc.read
  if s.isValid then pure ()
  else
    let _ ← init sys (-1)
    pure ()

def bind (addr : Option Address) : M Bool := do
  ensure sys
  let s ← Proc.read
  if s.isValid then
    let a ← Proc.demand addr
    if a.family ≠ s.family then
      complain sys addr
      pure false
    else
      let rt ← onFd sys .bind
      if rt ≠ 0 then
        complain sys addr
        pure false
      else pure true
  else
    complain sys addr
    pure false

/-- The log line of `listen` when it fails. -/
def report : M Unit := do
  let s ← Proc.read
  if sys.logs s.calls then toString sys else pure ()

def listen : M Bool := do
  let s ← Proc.read
  if s.isValid then
    let rt ← onFd sys .listen
    if rt ≠ 0 then
      report sys
      pure false
    else pure true
  else
    report sys
    pure false

/-- `accept`, up to the `init` of the new socket: its descriptor, and the object with the peer's address,
which `init` is then called on. -/
def accept : M (Option (Int × Socket)) := do
  let s ← Proc.read
  let fd ← onFd sys .accept
  let after ← Proc.read
  let commSock := { create s.family s.type s.protocol with
    remoteAddress := some ⟨sys.written after.calls⟩ }
  pure (if fd = -1 then none else some (fd, commSock))

def close : M Bool := do
  let s ← Proc.read
  if s.sockfd = -1 ∨ s.isConnected = false then pure true
  else
    Proc.update fun s => { s with isConnected := false }
    toString sys
    let rt ← onFd sys .close
    pure (rt == 0)

/-- `connect`, once the socket and the address have been checked. -/
def connectTo (addr : Option Address) : M Bool := do
  let rt ← onFd sys .connect
  if rt ≠ 0 then
    complain sys addr
    let _ ← close sys
    pure false
  else
    Proc.update fun s => { s with isConnected := true }
    pure true

def connect (addr : Option Address) : M Bool := do
  ensure sys
  let s ← Proc.read
  if s.isValid = true ∧ addr.map Address.family = some s.family then connectTo sys addr
  else
    complain sys addr
    pure false

def reconnect : M Bool := do
  let remote ← getRemoteAddress sys
  if remote.isSome then
    Proc.update fun s => { s with localAddress := none }
    let remote ← getRemoteAddress sys
    connect sys remote
  else pure false

/-! ## Transfer -/

/-- The shape of the transfer calls: a check, and one system call. -/
def transfer (check : Socket → Bool) (call : FdCall) : M Int := do
  let s ← Proc.read
  if check s then onFd sys call else pure (-1)

def send : M Int := transfer sys isConnected .send

def sendIov : M Int := transfer sys isConnected .sendmsg

/-- The test for a valid socket is negated twice here. -/
def sendTo (addr : Option Address) : M Int :=
  transfer sys (fun s => !(addr.isNone || !!s.isValid)) .sendto

def sendToIov (addr : Option Address) : M Int :=
  transfer sys (fun s => !(addr.isNone || !s.isValid)) .sendmsg

def recv : M Int := transfer sys isConnected .recv

def recvIov : M Int := transfer sys isConnected .recvmsg

def recvFrom (addr : Option Address) : M Int :=
  transfer sys (fun s => !(!s.isValid || addr.isNone)) .recvfrom

def recvFromIov (addr : Option Address) : M Int :=
  transfer sys (fun s => !(!s.isValid || addr.isNone)) .recvmsg

/-! ## Calls -/

inductive Op where
  | bind (addr : Option Address)
  | listen
  | accept
  | connect (addr : Option Address)
  | reconnect
  | close
  | send
  | sendIov
  | sendTo (addr : Option Address)
  | sendToIov (addr : Option Address)
  | recv
  | recvIov
  | recvFrom (addr : Option Address)
  | recvFromIov (addr : Option Address)
  | getOption
  | setOption
  | getLocalAddress
  | getRemoteAddress
  | toString
  deriving DecidableEq, Repr

/-- A procedure, without its answer. -/
def void {α : Type} (p : M α) : M Unit := do
  let _ ← p
  pure ()

def call : Op → M Unit
  | .bind addr => void (bind sys addr)
  | .listen => void (listen sys)
  | .accept => void (accept sys)
  | .connect addr => void (connect sys addr)
  | .reconnect => void (reconnect sys)
  | .close => void (close sys)
  | .send => void (send sys)
  | .sendIov => void (sendIov sys)
  | .sendTo addr => void (sendTo sys addr)
  | .sendToIov addr => void (sendToIov sys addr)
  | .recv => void (recv sys)
  | .recvIov => void (recvIov sys)
  | .recvFrom addr => void (recvFrom sys addr)
  | .recvFromIov addr => void (recvFromIov sys addr)
  | .getOption => void (getOption sys)
  | .setOption => void (setOption sys)
  | .getLocalAddress => void (getLocalAddress sys)
  | .getRemoteAddress => void (getRemoteAddress sys)
  | .toString => toString sys

/-- One call on a socket. -/
def Step (s : Socket) (op : Op) (s' : Socket) : Prop :=
  call sys op s = .done () s'

/-- How a socket comes to be: constructed, or made by the `accept` of another one. -/
inductive Born : Socket → Prop where
  | constructed (family type protocol : Int) : Born (create family type protocol)
  | accepted {listener listener' commSock s : Socket} {fd : Int} {rt : Bool} {sys' : System}
      (answer : accept sys' listener = .done (some (fd, commSock)) listener')
      (start : init sys fd commSock = .done rt s) : Born s

end Socket

end Sylar
