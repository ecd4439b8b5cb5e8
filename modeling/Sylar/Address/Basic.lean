import Sylar.Util.Endian

/-!
# Addresses

The model of `address.h` and `address.cpp`. An address is one of the system's `sockaddr` records with
the functions of its kind around it. The scalars of a record are held as the host reads them, so what
stands in memory, which is all that a comparison looks at, depends on the byte order of the host.

`UnixAddress` and `UnknownAddress` store the length of the record beside it. No constructor of
`UnixAddress` sets it past the end of the record, and the structure carries that. `UnknownAddress` takes
any length from its caller, and the comparisons then read past the record.
-/

namespace Sylar

open Endian

/-! ## The records of the system -/

/-- `struct sockaddr`. -/
structure Sockaddr where
  family : BitVec 16
  data : Vector UInt8 14
  deriving DecidableEq, Repr

/-- `struct sockaddr_in`; the port and the address are kept in network order. -/
structure SockaddrIn where
  family : BitVec 16
  port : BitVec 16
  addr : BitVec 32
  zero : Vector UInt8 8
  deriving DecidableEq, Repr

/-- `struct sockaddr_in6`. -/
structure SockaddrIn6 where
  family : BitVec 16
  port : BitVec 16
  flowinfo : BitVec 32
  addr : Vector UInt8 16
  scopeId : BitVec 32
  deriving DecidableEq, Repr

/-- `struct sockaddr_un`. -/
structure SockaddrUn where
  family : BitVec 16
  path : Vector UInt8 108
  deriving DecidableEq, Repr

def Sockaddr.memory (host : Host) (a : Sockaddr) : List UInt8 :=
  host.toMemory 2 a.family.toNat ++ a.data.toList

def SockaddrIn.memory (host : Host) (a : SockaddrIn) : List UInt8 :=
  host.toMemory 2 a.family.toNat ++ host.toMemory 2 a.port.toNat ++ host.toMemory 4 a.addr.toNat ++
    a.zero.toList

def SockaddrIn6.memory (host : Host) (a : SockaddrIn6) : List UInt8 :=
  host.toMemory 2 a.family.toNat ++ host.toMemory 2 a.port.toNat ++ host.toMemory 4 a.flowinfo.toNat ++
    a.addr.toList ++ host.toMemory 4 a.scopeId.toNat

def SockaddrUn.memory (host : Host) (a : SockaddrUn) : List UInt8 :=
  host.toMemory 2 a.family.toNat ++ a.path.toList

@[simp] theorem Sockaddr.length_memory (host : Host) (a : Sockaddr) :
    (a.memory host).length = 16 := by
  simp [Sockaddr.memory]

@[simp] theorem SockaddrIn.length_memory (host : Host) (a : SockaddrIn) :
    (a.memory host).length = 16 := by
  simp [SockaddrIn.memory]

@[simp] theorem SockaddrIn6.length_memory (host : Host) (a : SockaddrIn6) :
    (a.memory host).length = 28 := by
  simp [SockaddrIn6.memory]

@[simp] theorem SockaddrUn.length_memory (host : Host) (a : SockaddrUn) :
    (a.memory host).length = 110 := by
  simp [SockaddrUn.memory]

/-- A scalar is known from its image. -/
theorem toMemory_inj {host : Host} {n w : Nat} (size : 256 ^ n = 2 ^ w) {a b : BitVec w}
    (same : host.toMemory n a.toNat = host.toMemory n b.toNat) : a = b := by
  have values := congrArg host.ofMemory same
  rw [host.ofMemory_toMemory, host.ofMemory_toMemory, size, Nat.mod_eq_of_lt a.isLt,
    Nat.mod_eq_of_lt b.isLt] at values
  exact BitVec.eq_of_toNat_eq values

/-- A record is known from its bytes. -/
theorem SockaddrIn.memory_inj {host : Host} {a b : SockaddrIn} :
    a.memory host = b.memory host ↔ a = b := by
  refine ⟨fun same => ?_, fun same => by rw [same]⟩
  obtain ⟨front, zero⟩ := List.append_inj same (by simp)
  obtain ⟨front, addr⟩ := List.append_inj front (by simp)
  obtain ⟨family, port⟩ := List.append_inj front (by simp)
  cases a
  cases b
  cases toMemory_inj (by decide) family
  cases toMemory_inj (by decide) port
  cases toMemory_inj (by decide) addr
  cases Vector.toList_inj.mp zero
  rfl

theorem SockaddrIn6.memory_inj {host : Host} {a b : SockaddrIn6} :
    a.memory host = b.memory host ↔ a = b := by
  refine ⟨fun same => ?_, fun same => by rw [same]⟩
  obtain ⟨front, scopeId⟩ := List.append_inj same (by simp)
  obtain ⟨front, addr⟩ := List.append_inj front (by simp)
  obtain ⟨front, flowinfo⟩ := List.append_inj front (by simp)
  obtain ⟨family, port⟩ := List.append_inj front (by simp)
  cases a
  cases b
  cases toMemory_inj (by decide) family
  cases toMemory_inj (by decide) port
  cases toMemory_inj (by decide) flowinfo
  cases toMemory_inj (by decide) scopeId
  cases Vector.toList_inj.mp addr
  rfl

/-! ## The kinds of address -/

/-- `IPv4Address`. -/
structure IPv4Address where
  address : SockaddrIn
  deriving DecidableEq, Repr

/-- `IPv6Address`. -/
structure IPv6Address where
  address : SockaddrIn6
  deriving DecidableEq, Repr

/-- `UnixAddress`. -/
structure UnixAddress where
  address : SockaddrUn
  length : Nat
  length_le : length ≤ 110
  deriving DecidableEq, Repr

/-- `UnknownAddress`. -/
structure UnknownAddress where
  address : Sockaddr
  length : BitVec 32
  deriving DecidableEq, Repr

inductive Address where
  | ipv4 (a : IPv4Address)
  | ipv6 (a : IPv6Address)
  | unix (a : UnixAddress)
  | unknown (a : UnknownAddress)
  deriving DecidableEq, Repr

def AF_UNIX : Nat := 1

def AF_INET : Nat := 2

def AF_INET6 : Nat := 10

namespace IPv4Address

/-- `IPv4Address()`. -/
def empty : IPv4Address where
  address := ⟨BitVec.ofNat 16 AF_INET, 0, 0, Vector.replicate 8 0⟩

/-- `IPv4Address(uint32_t address, uint16_t port)`. -/
def ofAddress (host : Host) (address : BitVec 32) (port : BitVec 16) : IPv4Address where
  address := { empty.address with
    port := hostToNetwork16 host port
    addr := hostToNetwork32 host address }

def getPort (host : Host) (a : IPv4Address) : BitVec 16 := networkToHost16 host a.address.port

def setPort (host : Host) (a : IPv4Address) (port : BitVec 16) : IPv4Address where
  address := { a.address with port := hostToNetwork16 host port }

end IPv4Address

namespace IPv6Address

/-- `IPv6Address()`. -/
def empty : IPv6Address where
  address := ⟨BitVec.ofNat 16 AF_INET6, 0, 0, Vector.replicate 16 0, 0⟩

/-- `IPv6Address(const uint8_t address[16], uint16_t port)`. -/
def ofAddress (host : Host) (address : Vector UInt8 16) (port : BitVec 16) : IPv6Address where
  address := { empty.address with
    port := hostToNetwork16 host port
    addr := address }

def getPort (host : Host) (a : IPv6Address) : BitVec 16 := networkToHost16 host a.address.port

def setPort (host : Host) (a : IPv6Address) (port : BitVec 16) : IPv6Address where
  address := { a.address with port := hostToNetwork16 host port }

end IPv6Address

/-- `IPAddress`, with the port functions of either kind. -/
inductive IPAddress where
  | v4 (a : IPv4Address)
  | v6 (a : IPv6Address)
  deriving DecidableEq, Repr

namespace IPAddress

def getPort (host : Host) : IPAddress → BitVec 16
  | v4 a => a.getPort host
  | v6 a => a.getPort host

def setPort (host : Host) (port : BitVec 16) : IPAddress → IPAddress
  | v4 a => .v4 (a.setPort host port)
  | v6 a => .v6 (a.setPort host port)

theorem getPort_setPort (host : Host) (port : BitVec 16) (a : IPAddress) :
    (a.setPort host port).getPort host = port := by
  cases a with
  | v4 a => exact networkToHost16_hostToNetwork16 host port
  | v6 a => exact networkToHost16_hostToNetwork16 host port

end IPAddress

/-! ## `UnixAddress` -/

/-- `offsetof(sockaddr_un, sun_path)`. -/
def sunPathOffset : Nat := 2

def MAX_PATH_LEN : Nat := 107

/-- `strncpy(dest, src, n)` where `n` is at most the length of the string: the string up to its first
zero byte, then zero bytes up to `n`. What stands in `dest` behind them is left alone. -/
def strncpy (dest src : List UInt8) (n : Nat) : List UInt8 :=
  let copied := (src.takeWhile (· != 0)).take n
  copied ++ List.replicate (n - copied.length) 0 ++ dest.drop n

/-- What a C function reads from a pointer to these bytes: everything before the first zero byte. -/
def cString (bytes : List UInt8) : List UInt8 := bytes.takeWhile (· != 0)

theorem length_strncpy {dest src : List UInt8} {n : Nat} (fits : n ≤ dest.length) :
    (strncpy dest src n).length = dest.length := by
  simp only [strncpy, List.length_append, List.length_take, List.length_replicate, List.length_drop]
  omega

namespace UnixAddress

/-- `UnixAddress()`. -/
def empty : UnixAddress where
  address := ⟨BitVec.ofNat 16 AF_UNIX, Vector.replicate 108 0⟩
  length := sunPathOffset + MAX_PATH_LEN
  length_le := by decide

/-- `UnixAddress(const std::string& path)`; a path that is too long throws a `std::logic_error`. -/
def ofPath (path : List UInt8) : Except String UnixAddress :=
  if h : path.length > MAX_PATH_LEN then .error "UnixAddress: path length too long"
  else .ok {
    address := {
      family := BitVec.ofNat 16 AF_UNIX
      path := ⟨(strncpy (List.replicate 108 0) path path.length).toArray, by
        have fits : path.length ≤ (List.replicate 108 (0 : UInt8)).length := by
          simp only [MAX_PATH_LEN, List.length_replicate] at *
          omega
        rw [List.size_toArray, length_strncpy fits, List.length_replicate]⟩ }
    length := sunPathOffset + path.length
    length_le := by
      simp only [sunPathOffset, MAX_PATH_LEN] at *
      omega }

def getPath (a : UnixAddress) : List UInt8 :=
  if a.length > sunPathOffset then
    -- abstract socket
    if a.address.path[0] = 0 then
      [92, 48] ++ (a.address.path.toList.drop 1).take (a.length - sunPathOffset - 1)
    else cString a.address.path.toList
  else []

/-- The byte that `get_path` tests. -/
theorem path_first {a : UnixAddress} {c : UInt8} {rest : List UInt8} (stored : a.address.path.toList = c :: rest) :
    a.address.path[0] = c := by
  have first : a.address.path.toList[0]? = some c := by rw [stored]; rfl
  simpa using first

end UnixAddress

/-! ## `UnknownAddress` -/

namespace UnknownAddress

/-- `UnknownAddress()`. -/
def empty : UnknownAddress where
  address := ⟨0, Vector.replicate 14 0⟩
  length := 16

/-- `UnknownAddress(int family)`. -/
def ofFamily (family : Int) : UnknownAddress where
  address := { empty.address with family := BitVec.ofInt 16 family }
  length := 16

/-- `UnknownAddress(const sockaddr& address, socklen_t length)`. -/
def ofSockaddr (address : Sockaddr) (length : BitVec 32) : UnknownAddress where
  address := address
  length := length

end UnknownAddress

/-! ## `Address` -/

namespace Address

/-- `Address::create(int family)`. -/
def create (family : Int) : Address :=
  if family = AF_INET then .ipv4 .empty
  else if family = AF_INET6 then .ipv6 .empty
  else if family = AF_UNIX then .unix .empty
  else .unknown (.ofFamily family)

/-- The bytes of the record that `get_addr()` points to. -/
def getAddr (host : Host) : Address → List UInt8
  | .ipv4 a => a.address.memory host
  | .ipv6 a => a.address.memory host
  | .unix a => a.address.memory host
  | .unknown a => a.address.memory host

def getAddrLen : Address → Nat
  | .ipv4 _ => 16
  | .ipv6 _ => 28
  | .unix a => a.length
  | .unknown a => a.length.toNat

/-- `sizeof` of the record. -/
def recordSize : Address → Nat
  | .ipv4 _ => 16
  | .ipv6 _ => 28
  | .unix _ => 110
  | .unknown _ => 16

/-- `get_family()`, which reads the first field of the record whatever its kind. -/
def getFamily : Address → Nat
  | .ipv4 a => a.address.family.toNat
  | .ipv6 a => a.address.family.toNat
  | .unix a => a.address.family.toNat
  | .unknown a => a.address.family.toNat

/-- `memcmp(xs, ys, n)`: how the first bytes that differ among the first `n` compare. Both arguments
have `n` bytes. -/
def memcmp : List UInt8 → List UInt8 → Nat → Ordering
  | x :: xs, y :: ys, n + 1 => (compare x y).then (memcmp xs ys n)
  | _, _, _ => .eq

/-- `memcmp(a.get_addr(), b.get_addr(), n)`; `none` where `n` reaches past the end of a record. -/
def compareRecords (host : Host) (a b : Address) (n : Nat) : Option Ordering :=
  if n ≤ a.recordSize ∧ n ≤ b.recordSize then some (memcmp (a.getAddr host) (b.getAddr host) n)
  else none

/-- `operator<`. -/
def lt (host : Host) (a rhs : Address) : Option Bool :=
  let minLen := min a.getAddrLen rhs.getAddrLen
  (compareRecords host a rhs minLen).map fun result =>
    if result = .lt then true
    else if result = .eq ∧ rhs.getAddrLen > minLen then true
    else false

/-- `operator==`. -/
def eq (host : Host) (a rhs : Address) : Option Bool :=
  let len := a.getAddrLen
  if len ≠ rhs.getAddrLen then some false
  else (compareRecords host a rhs len).map (· == .eq)

/-- `operator!=`. -/
def ne (host : Host) (a rhs : Address) : Option Bool := (a.eq host rhs).map (!·)

@[simp] theorem length_getAddr (host : Host) (a : Address) : (a.getAddr host).length = a.recordSize := by
  cases a with
  | ipv4 a => exact a.address.length_memory host
  | ipv6 a => exact a.address.length_memory host
  | unix a => exact a.address.length_memory host
  | unknown a => exact a.address.length_memory host

/-- The stored length ends inside the record. -/
def Inside (a : Address) : Prop := a.getAddrLen ≤ a.recordSize

theorem inside_ipv4 (a : IPv4Address) : (Address.ipv4 a).Inside := Nat.le_refl 16

theorem inside_ipv6 (a : IPv6Address) : (Address.ipv6 a).Inside := Nat.le_refl 28

theorem inside_unix (a : UnixAddress) : (Address.unix a).Inside := a.length_le

end Address

end Sylar
