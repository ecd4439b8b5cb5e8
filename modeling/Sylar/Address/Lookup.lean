import Sylar.Address.Basic

/-!
# Looking up addresses

The model of `lookup_address` and `lookup_ip_address`; `getaddrinfo` is an argument. A host is split into
a node and a service first: behind the bracket that closes it if it begins with a bracket, else at the
first colon. What stands between a closing bracket and the service is skipped without a look.
-/

namespace Sylar

/-! ## Records behind a pointer -/

/-- What a `const sockaddr*` points to; `sa_family` says which record it is. -/
inductive SockaddrRecord where
  | inet (addr : SockaddrIn) (family : addr.family.toNat = AF_INET)
  | inet6 (addr : SockaddrIn6) (family : addr.family.toNat = AF_INET6)
  | other (addr : Sockaddr) (family : addr.family.toNat ≠ AF_INET ∧ addr.family.toNat ≠ AF_INET6)

namespace SockaddrRecord

def family : SockaddrRecord → Nat
  | inet addr _ => addr.family.toNat
  | inet6 addr _ => addr.family.toNat
  | other addr _ => addr.family.toNat

/-- `Address::create(const sockaddr*)`. -/
def create : SockaddrRecord → Address
  | inet addr _ => .ipv4 ⟨addr⟩
  | inet6 addr _ => .ipv6 ⟨addr⟩
  | other addr _ => .unknown (.ofSockaddr addr 16)

end SockaddrRecord

/-! ## The call -/

def AF_UNSPEC : Nat := 0

/-- The fields of `addrinfo` that a caller sets. -/
structure Hints where
  family : Int
  socktype : Int
  protocol : Int
  deriving DecidableEq, Repr

/-- `getaddrinfo` for a node and a service, as C strings: an error, or a list in which the pointer to the address may
be null. -/
abbrev GetAddrInfo := List UInt8 → List UInt8 → Hints → Option (List (Option SockaddrRecord))

namespace Address

/-- The node and the service of a host, where `c` closes the node and `skip` characters stand before the service. -/
def splitAfter (c : UInt8) (start skip : Nat) (host : List UInt8) : List UInt8 × List UInt8 :=
  let nodeEnd := host.idxOf c
  if nodeEnd < host.length then
    ((host.take nodeEnd).drop start, if host.length > nodeEnd + skip then host.drop (nodeEnd + skip) else [])
  else ([], [])

/-- What `lookup_address` makes of `host`. -/
def nodeAndService (host : List UInt8) : List UInt8 × List UInt8 :=
  let parts :=
    -- `[host]:port`
    if host.head? = some 0x5B then splitAfter 0x5D 1 2 host
    -- `host:port`
    else splitAfter 0x3A 0 1 host
  if parts.1 = [] then (host, parts.2) else parts

def lookupAddress (getaddrinfo : GetAddrInfo) (result : List Address) (host : List UInt8)
    (family socketType protocol : Int) : Bool × List Address :=
  let parts := nodeAndService host
  (getaddrinfo (cString parts.1) (cString parts.2) ⟨family, socketType, protocol⟩).elim (false, result) fun results =>
    let result := result ++ results.filterMap fun cur => cur.map SockaddrRecord.create
    (!result.isEmpty, result)

/-- The overload that returns the first address. -/
def lookupFirstAddress (getaddrinfo : GetAddrInfo) (host : List UInt8) (family socketType protocol : Int) :
    Option Address :=
  let found := lookupAddress getaddrinfo [] host family socketType protocol
  if found.1 then found.2.head? else none

/-- `std::dynamic_pointer_cast<IPAddress>`. -/
def toIPAddress : Address → Option IPAddress
  | ipv4 a => some (.v4 a)
  | ipv6 a => some (.v6 a)
  | unix _ => none
  | unknown _ => none

end Address

namespace IPAddress

def lookupIpAddress (getaddrinfo : GetAddrInfo) (result : List IPAddress) (host : List UInt8)
    (socketType protocol : Int) : Bool × List IPAddress :=
  let adds := Address.lookupAddress getaddrinfo [] host AF_UNSPEC socketType protocol
  if adds.1 then
    let result := result ++ adds.2.filterMap Address.toIPAddress
    (!result.isEmpty, result)
  else (false, result)

/-- The overload that returns the first address. -/
def lookupFirstIpAddress (getaddrinfo : GetAddrInfo) (host : List UInt8) (socketType protocol : Int) :
    Option IPAddress :=
  let found := lookupIpAddress getaddrinfo [] host socketType protocol
  if found.1 then found.2.head? else none

/-- The first IP address of an answer. -/
def firstOf (results : List (Option SockaddrRecord)) : Option IPAddress :=
  ((results.filterMap fun cur => cur.map SockaddrRecord.create).filterMap Address.toIPAddress).head?

/-- The first IP address of what is asked for. -/
theorem lookupFirstIpAddress_eq (getaddrinfo : GetAddrInfo) (host : List UInt8) (socketType protocol : Int) :
    lookupFirstIpAddress getaddrinfo host socketType protocol =
      (getaddrinfo (cString (Address.nodeAndService host).1) (cString (Address.nodeAndService host).2)
        ⟨AF_UNSPEC, socketType, protocol⟩).bind firstOf := by
  have empty : ∀ {α : Type} (xs : List α), (if !xs.isEmpty then xs.head? else none) = xs.head? := by
    intro α xs
    cases xs <;> rfl
  rw [lookupFirstIpAddress, lookupIpAddress]
  cases answer : getaddrinfo (cString (Address.nodeAndService host).1) (cString (Address.nodeAndService host).2)
      ⟨AF_UNSPEC, socketType, protocol⟩ with
  | none =>
    have refused : Address.lookupAddress getaddrinfo [] host AF_UNSPEC socketType protocol = (false, []) := by
      rw [Address.lookupAddress, answer]
      rfl
    rw [refused]
    rfl
  | some results =>
    have listed : ∃ found, (results.filterMap fun cur => cur.map SockaddrRecord.create) = found := ⟨_, rfl⟩
    obtain ⟨found, made⟩ := listed
    have answered :
        Address.lookupAddress getaddrinfo [] host AF_UNSPEC socketType protocol = (!found.isEmpty, found) := by
      rw [Address.lookupAddress, answer, ← made]
      rfl
    rw [answered, Option.bind_some, firstOf, made]
    cases found with
    | nil => rfl
    | cons first rest => exact empty _

end IPAddress

/-! ## What is asked for -/

namespace Address

theorem idxOf_stop {c : UInt8} {node : List UInt8} (free : c ∉ node) (rest : List UInt8) :
    (node ++ c :: rest).idxOf c = node.length := by
  rw [List.idxOf_append, if_neg free, List.idxOf_cons_self, Nat.zero_add]

/-- A host without a bracket in front and a colon is the node. -/
theorem nodeAndService_plain {host : List UInt8} (bracket : 0x5B ∉ host) (colon : 0x3A ∉ host) :
    nodeAndService host = (host, []) := by
  have head : host.head? ≠ some 0x5B := fun eq => bracket (List.mem_of_head? eq)
  have whole : splitAfter 0x3A 0 1 host = ([], []) := by
    rw [splitAfter, List.idxOf_eq_length colon, if_neg (Nat.lt_irrefl _)]
  rw [nodeAndService, if_neg head, whole, if_pos rfl]

/-- `[host]`, with anything of one character before the service. -/
theorem nodeAndService_brackets {node rest : List UInt8} (some : node ≠ []) (bracket : 0x5D ∉ node) :
    nodeAndService (0x5B :: (node ++ 0x5D :: rest)) = (node, rest.drop 1) := by
  have free : (0x5D : UInt8) ∉ 0x5B :: node := by
    rw [List.mem_cons, not_or]
    exact ⟨by decide, bracket⟩
  have stop := idxOf_stop free rest
  have split : splitAfter 0x5D 1 2 (0x5B :: (node ++ 0x5D :: rest)) = (node, rest.drop 1) := by
    rw [List.cons_append] at stop
    rw [splitAfter, stop]
    cases rest with
    | nil => simp
    | cons d rest =>
      cases rest <;> simp
      omega
  have head : (0x5B :: (node ++ 0x5D :: rest)).head? = Option.some 0x5B := rfl
  rw [nodeAndService, if_pos head, split, if_neg some]

end Address

end Sylar
