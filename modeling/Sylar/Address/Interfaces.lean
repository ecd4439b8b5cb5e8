import Sylar.Address.Lookup
import Sylar.Address.Subnet

/-!
# The addresses of the interfaces

The model of `get_interface_address`; the list that `getifaddrs` makes is an argument. The family of an
entry's address says how the code reads its netmask: an IPv4 mask as one word in host order, an IPv6 mask
byte by byte. The length of the prefix is the number of ones, counted by clearing the lowest until none
is left.

A number of ones says where they are only if they stand in front. Exactly then do `get_network_address`
and `get_broadcast_address`, called with the reported length, do to each address what the netmask does.
-/

namespace Sylar

open Endian Lib

/-! ## What the system lists -/

/-- The records of an entry of `struct ifaddrs`. The pointer to the netmask may be null. -/
inductive Ifa where
  | inet (addr : SockaddrIn) (netmask : Option SockaddrIn) (family : addr.family.toNat = AF_INET)
  | inet6 (addr : SockaddrIn6) (netmask : Option SockaddrIn6) (family : addr.family.toNat = AF_INET6)
  | other (addr : Sockaddr) (family : addr.family.toNat ≠ AF_INET ∧ addr.family.toNat ≠ AF_INET6)

/-- An entry of the list. The pointer to the address may be null. -/
structure Ifaddrs where
  name : List UInt8
  addr : Option Ifa

/-- What `ifa_addr` points to. -/
def Ifa.record : Ifa → SockaddrRecord
  | inet addr _ family => .inet addr family
  | inet6 addr _ family => .inet6 addr family
  | other addr family => .other addr family

/-! ## The length of the prefix -/

/-- The loops `while(mask)`. A byte is promoted first, which changes nothing as the mask is not zero. -/
def countBits {w : Nat} (mask : BitVec w) (prefixLen : BitVec 32) : BitVec 32 :=
  if mask = 0#w then prefixLen else countBits (mask &&& (mask - 1#w)) (prefixLen + 1)
  termination_by ones mask
  decreasing_by
    have less := ones_clear ‹mask ≠ 0#w›
    omega

/-- The `switch`; nothing if it follows a null pointer. -/
def Ifa.prefixLen (host : Host) : Ifa → Option (BitVec 32)
  | inet _ netmask _ => netmask.map fun netmask => countBits (networkToHost32 host netmask.addr) 0
  | inet6 _ netmask _ => netmask.map fun netmask =>
      netmask.addr.toList.foldl (fun prefixLen mask => countBits mask.toBitVec prefixLen) 0
  | other .. => some 0

/-! ## The result -/

/-- An address with the length of its prefix. -/
abbrev Reported := Address × BitVec 32

/-- `std::unordered_map<std::string, std::vector<...>>`. -/
abbrev Interfaces := List (List UInt8 × List Reported)

/-- `result[name].push_back(entry)`. -/
def Interfaces.push (name : List UInt8) (entry : Reported) : Interfaces → Interfaces
  | [] => [(name, [entry])]
  | (key, entries) :: rest =>
    if name = key then (key, entries ++ [entry]) :: rest else (key, entries) :: push name entry rest

namespace Address

/-- The loop over the list; nothing if it follows a null pointer. -/
def interfacesFrom (host : Host) (family : Int) : List Ifaddrs → Interfaces → Option Interfaces
  | [], result => some result
  | cur :: next, result => do
    let addr ← cur.addr
    if family ≠ addr.record.family ∧ family ≠ AF_UNSPEC then interfacesFrom host family next result
    else
      let prefixLen ← addr.prefixLen host
      if prefixLen = 0 then interfacesFrom host family next result
      else interfacesFrom host family next (result.push cur.name (addr.record.create, prefixLen))

/-- `get_interface_address` for all interfaces, with the answer of `getifaddrs`. -/
def getInterfaceAddresses (host : Host) (getifaddrs : Option (List Ifaddrs)) (result : Interfaces) (family : Int) :
    Option (Bool × Interfaces) :=
  getifaddrs.elim (some (false, result)) fun ifap =>
    (interfacesFrom host family ifap result).map fun result => (!result.isEmpty, result)

/-- `get_interface_address` for one interface. -/
def getInterfaceAddress (host : Host) (getifaddrs : Option (List Ifaddrs)) (result : List Reported)
    (interfaceName : List UInt8) (family : Int) : Option (Bool × List Reported) :=
  (getInterfaceAddresses host getifaddrs [] family).map fun answer =>
    if answer.1 then
      (answer.2.lookup interfaceName).elim (false, result) fun found => (true, found)
    else (false, result)

end Address

/-! ## Counting -/

theorem toNat_countBits {w : Nat} (mask : BitVec w) (prefixLen : BitVec 32)
    (small : prefixLen.toNat + ones mask < 2 ^ 32) :
    (countBits mask prefixLen).toNat = prefixLen.toNat + ones mask := by
  fun_induction countBits mask prefixLen with
  | case1 prefixLen => rw [ones_eq_zero_iff.mpr rfl, Nat.add_zero]
  | case2 mask prefixLen some ih =>
    have less := ones_clear some
    have next : (prefixLen + 1).toNat = prefixLen.toNat + 1 := by
      rw [BitVec.toNat_add]
      apply Nat.mod_eq_of_lt
      show prefixLen.toNat + 1 < 2 ^ 32
      omega
    rw [next] at ih
    rw [ih (by omega)]
    omega

theorem toNat_foldl_countBits (bytes : List UInt8) (prefixLen : BitVec 32)
    (small : prefixLen.toNat + 8 * bytes.length < 2 ^ 32) :
    (bytes.foldl (fun prefixLen mask => countBits mask.toBitVec prefixLen) prefixLen).toNat =
      prefixLen.toNat + (bytes.map fun byte => ones byte.toBitVec).sum := by
  induction bytes generalizing prefixLen with
  | nil => rfl
  | cons byte bytes ih =>
    have eight := ones_le byte.toBitVec
    rw [List.length_cons] at small
    have first := toNat_countBits byte.toBitVec prefixLen (by omega)
    rw [List.foldl_cons, ih _ (by omega), first, List.map_cons, List.sum_cons, Nat.add_assoc]

/-- The ones of a byte string are those of its bytes. -/
theorem count_bytes (bytes : List UInt8) :
    Nat.count (fun i => (bytes.getD (i / 8) 0).toBitVec.getMsbD (i % 8) = true) (8 * bytes.length) =
      (bytes.map fun byte => ones byte.toBitVec).sum := by
  induction bytes with
  | nil => rfl
  | cons byte bytes ih =>
    have length : 8 * (byte :: bytes).length = 8 + 8 * bytes.length := by
      rw [List.length_cons]
      omega
    rw [length, Nat.count_add, List.map_cons, List.sum_cons, ← ih, ones]
    refine congrArg₂ _ (count_congr fun i inside => ?_) (count_congr fun i inside => ?_)
    · rw [Nat.div_eq_of_lt inside, Nat.mod_eq_of_lt inside, List.getD_cons_zero]
    · rw [Nat.add_div_left i (show 0 < 8 by decide), Nat.add_mod_left, List.getD_cons_succ]

/-- Read as a number, the address has the ones of its bytes. -/
theorem IPv6Address.ones_bits (a : IPv6Address) :
    ones (bits a) = (a.address.addr.toList.map fun byte => ones byte.toBitVec).sum := by
  have sixteen : 128 = 8 * a.address.addr.toList.length := by rw [Vector.length_toList]
  rw [← count_bytes, ← sixteen, ones]
  apply count_congr
  intro i inside
  rw [bits, getMsbD_beValue _ sixteen inside]

/-! ## What the length says -/

/-- The operations called with `p` do what the mask does. -/
def Describes {α : Type} {w : Nat} (bits : α → BitVec w) (network broadcast : α → BitVec 32 → α)
    (mask : BitVec w) (p : BitVec 32) : Prop :=
  ∀ a, bits (network a p) = bits a &&& mask ∧ bits (broadcast a p) = bits a ||| ~~~mask

theorem Subnets.describes_iff {α : Type} {w : Nat} {bits : α → BitVec w} {Same : α → α → Prop}
    {network broadcast : α → BitVec 32 → α} (subnets : Subnets bits Same network broadcast)
    (full : ∃ a, bits a = BitVec.allOnes w) {mask : BitVec w} {p : BitVec 32} (count : p.toNat = ones mask) :
    Describes bits network broadcast mask p ↔ Leading mask := by
  constructor
  · intro describes
    obtain ⟨a, all⟩ := full
    rw [leading_iff]
    intro i inside
    -- the network of the address with all bits is the mask
    have filled := subnets.network_bits a p i inside
    rw [(describes a).1, BitVec.getMsbD_and, all, BitVec.getMsbD_allOnes, decide_eq_true inside,
      Bool.true_and, count] at filled
    rw [filled]
    split <;> simp only [*, decide_true, decide_false]
  · intro leading a
    have front : ∀ i < w, mask.getMsbD i = decide (i < p.toNat) := by
      rw [count]
      exact leading_iff.mp leading
    have agree : Agree p.toNat (bits a) (bits a) := fun _ _ _ => rfl
    exact ⟨((subnets.network_bits a p).eq_iff (fills_and front)).mpr agree,
      ((subnets.broadcast_bits a p).eq_iff (fills_or front)).mpr agree⟩

theorem IPv4Address.exists_full (host : Host) : ∃ a, bits host a = BitVec.allOnes 32 :=
  ⟨.ofAddress host (BitVec.allOnes 32) 0, networkToHost32_hostToNetwork32 host _⟩

theorem IPv6Address.exists_full : ∃ a, bits a = BitVec.allOnes 128 := by
  refine ⟨⟨{ empty.address with addr := Vector.replicate 16 0xFF }⟩, BitVec.eq_of_getMsbD_eq fun i inside => ?_⟩
  have eight : i % 8 < 8 := Nat.mod_lt _ (by decide)
  have full : ∀ r < 8, (0xFF : UInt8).toBitVec.getMsbD r = true := by decide
  rw [getMsbD_bits _ inside, Vector.getElem_replicate, full _ eight, BitVec.getMsbD_allOnes, decide_eq_true inside]

/-- The length of an IPv4 prefix. -/
theorem IPv4Address.toNat_prefixLen (host : Host) (mask : SockaddrIn) :
    (countBits (networkToHost32 host mask.addr) 0).toNat = ones (bits host ⟨mask⟩) := by
  have bound := ones_le (networkToHost32 host mask.addr)
  have small : (0 : BitVec 32).toNat + ones (networkToHost32 host mask.addr) < 2 ^ 32 := by
    show 0 + _ < _
    omega
  exact (toNat_countBits _ 0 small).trans (Nat.zero_add _)

/-- The length of an IPv6 prefix. -/
theorem IPv6Address.toNat_prefixLen (mask : SockaddrIn6) :
    (mask.addr.toList.foldl (fun prefixLen mask => countBits mask.toBitVec prefixLen) 0).toNat = ones (bits ⟨mask⟩) := by
  have length : mask.addr.toList.length = 16 := by rw [Vector.length_toList]
  have small : (0 : BitVec 32).toNat + 8 * mask.addr.toList.length < 2 ^ 32 := by
    rw [length]
    decide
  have sum := toNat_foldl_countBits mask.addr.toList 0 small
  exact sum.trans ((Nat.zero_add _).trans (ones_bits ⟨mask⟩).symm)

namespace Ifa

/-- `p` describes the netmask of the entry, for all addresses of its kind. -/
def Described (host : Host) (cur : Ifa) (p : BitVec 32) : Prop :=
  match cur with
  | inet _ netmask _ => ∃ mask, netmask = some mask ∧
      Describes (IPv4Address.bits host) (IPv4Address.getNetworkAddress host)
        (IPv4Address.getBroadcastAddress host) (IPv4Address.bits host ⟨mask⟩) p
  | inet6 _ netmask _ => ∃ mask, netmask = some mask ∧
      Describes IPv6Address.bits IPv6Address.getNetworkAddress IPv6Address.getBroadcastAddress
        (IPv6Address.bits ⟨mask⟩) p
  | other .. => False

/-- The netmask of the entry has its ones in front. -/
def Contiguous (host : Host) (cur : Ifa) : Prop :=
  match cur with
  | inet _ netmask _ => ∃ mask, netmask = some mask ∧ Leading (IPv4Address.bits host ⟨mask⟩)
  | inet6 _ netmask _ => ∃ mask, netmask = some mask ∧ Leading (IPv6Address.bits ⟨mask⟩)
  | other .. => False

/-- The reported length says what the netmask says exactly if the ones of the netmask stand in front. -/
theorem described_iff (host : Host) (cur : Ifa) (p : BitVec 32) (reported : cur.prefixLen host = some p) :
    cur.Described host p ↔ cur.Contiguous host := by
  cases cur with
  | inet addr netmask family =>
    obtain ⟨mask, rfl, rfl⟩ := Option.map_eq_some_iff.mp reported
    have described := (IPv4Address.subnets host).describes_iff (IPv4Address.exists_full host)
      (IPv4Address.toNat_prefixLen host mask)
    simpa only [Described, Contiguous, Option.some.injEq, exists_eq_left'] using described
  | inet6 addr netmask family =>
    obtain ⟨mask, rfl, rfl⟩ := Option.map_eq_some_iff.mp reported
    have described := IPv6Address.subnets.describes_iff IPv6Address.exists_full (IPv6Address.toNat_prefixLen mask)
    simpa only [Described, Contiguous, Option.some.injEq, exists_eq_left'] using described
  | other => exact Iff.rfl

end Ifa

/-! ## What is listed -/

/-- What an entry adds to the result; nothing if a null pointer is followed for it. -/
def Ifaddrs.report (host : Host) (family : Int) (cur : Ifaddrs) : Option (List (List UInt8 × Reported)) :=
  cur.addr.bind fun addr =>
    if family ≠ addr.record.family ∧ family ≠ AF_UNSPEC then some []
    else (addr.prefixLen host).map fun prefixLen =>
      if prefixLen = 0 then [] else [(cur.name, addr.record.create, prefixLen)]

/-- What is in the report of an entry. -/
theorem Ifaddrs.mem_report {host : Host} {family : Int} {cur : Ifaddrs} {reports : List (List UInt8 × Reported)}
    (reads : cur.report host family = some reports) {name : List UInt8} {a : Address} {p : BitVec 32}
    (mem : (name, a, p) ∈ reports) :
    cur.name = name ∧ ∃ addr, cur.addr = some addr ∧ (family = addr.record.family ∨ family = AF_UNSPEC) ∧
      a = addr.record.create ∧ addr.prefixLen host = some p := by
  obtain ⟨addr, at_, follows⟩ := Option.bind_eq_some_iff.mp reads
  split at follows
  · cases follows
    cases mem
  · rename_i fits
    obtain ⟨prefixLen, counted, same⟩ := Option.map_eq_some_iff.mp follows
    split at same
    · cases same
      cases mem
    · cases same
      cases List.mem_singleton.mp mem
      exact ⟨rfl, addr, at_, by omega, rfl, counted⟩

theorem mem_of_mapM {α β : Type} {f : α → Option (List β)} {xs : List α} {yss : List (List β)}
    (reads : xs.mapM f = some yss) {y : β} (mem : y ∈ yss.flatten) : ∃ x ∈ xs, ∃ ys, f x = some ys ∧ y ∈ ys := by
  induction xs generalizing yss with
  | nil =>
    cases reads
    cases mem
  | cons x xs ih =>
    rw [List.mapM_cons] at reads
    obtain ⟨ys, first, follows⟩ := Option.bind_eq_some_iff.mp reads
    obtain ⟨rest, others, same⟩ := Option.bind_eq_some_iff.mp follows
    cases same
    rw [List.flatten_cons, List.mem_append] at mem
    rcases mem with here | later
    · exact ⟨x, List.mem_cons_self, ys, first, here⟩
    · obtain ⟨x', member, ys', reads', inside⟩ := ih others later
      exact ⟨x', List.mem_cons_of_mem x member, ys', reads', inside⟩

namespace Interfaces

theorem lookup_cons_eq (name key : List UInt8) (entries : List Reported) (rest : Interfaces) :
    List.lookup key ((name, entries) :: rest) = if key = name then some entries else rest.lookup key := by
  by_cases same : key = name
  · rw [if_pos same, same, List.lookup_cons_self]
  · rw [if_neg same, List.lookup_cons, beq_false_of_ne same]

theorem lookup_push (name key : List UInt8) (entry : Reported) (result : Interfaces) :
    (result.push name entry).lookup key =
      if key = name then some ((result.lookup key).getD [] ++ [entry]) else result.lookup key := by
  induction result with
  | nil => exact lookup_cons_eq name key [entry] []
  | cons first rest ih =>
    obtain ⟨other, entries⟩ := first
    rw [push]
    split
    · subst other
      rw [lookup_cons_eq, lookup_cons_eq]
      split <;> rfl
    · rename_i ne
      rw [lookup_cons_eq, lookup_cons_eq, ih]
      by_cases same : key = other
      · subst same
        rw [if_pos rfl, if_neg (Ne.symm ne), if_pos rfl]
      · rw [if_neg same, if_neg same]

/-- The entries of one name, in order. -/
def of (name : List UInt8) (reports : List (List UInt8 × Reported)) : List Reported :=
  (reports.filter fun report => report.1 = name).map (·.2)

theorem lookup_foldl_push (name : List UInt8) (reports : List (List UInt8 × Reported)) (result : Interfaces) :
    (reports.foldl (fun result report => result.push report.1 report.2) result).lookup name =
      if of name reports = [] then result.lookup name
      else some ((result.lookup name).getD [] ++ of name reports) := by
  induction reports generalizing result with
  | nil => rfl
  | cons report reports ih =>
    rw [List.foldl_cons, ih, lookup_push]
    by_cases here : report.1 = name
    · have first : of name (report :: reports) = report.2 :: of name reports := by simp [of, here]
      rw [first, if_pos here.symm, if_neg (List.cons_ne_nil _ _)]
      by_cases none : of name reports = []
      · rw [if_pos none, none]
      · rw [if_neg none, Option.getD_some, List.append_assoc, List.singleton_append]
    · have same : of name (report :: reports) = of name reports := by simp [of, here]
      rw [same, if_neg (Ne.symm here)]

end Interfaces

namespace Address

theorem interfacesFrom_eq (host : Host) (family : Int) (ifap : List Ifaddrs) (result : Interfaces) :
    interfacesFrom host family ifap result =
      (ifap.mapM (Ifaddrs.report host family)).map fun reports =>
        reports.flatten.foldl (fun result report => result.push report.1 report.2) result := by
  induction ifap generalizing result with
  | nil => rfl
  | cons cur next ih =>
    obtain ⟨name, addr⟩ := cur
    cases addr with
    | none => rfl
    | some addr =>
      rw [List.mapM_cons, interfacesFrom, Ifaddrs.report]
      simp only [Option.bind_eq_bind, Option.bind_some]
      split
      · rw [ih, Option.bind_some]
        cases next.mapM (Ifaddrs.report host family) <;> rfl
      · cases addr.prefixLen host with
        | none => rfl
        | some prefixLen =>
          simp only [Option.bind_some, Option.map_some]
          split <;> rw [ih] <;> cases next.mapM (Ifaddrs.report host family) <;> rfl

/-- A name that is found is in a map that is not empty. -/
theorem found_eq (name : List UInt8) (result entries : List Reported) {all : Interfaces}
    (found : all.lookup name = if entries = [] then none else some entries) :
    (if !all.isEmpty then (all.lookup name).elim (false, result) fun found => (true, found) else (false, result)) =
      if entries = [] then (false, result) else (true, entries) := by
  rw [found]
  by_cases none : entries = []
  · rw [if_pos none, if_pos none]
    split <;> rfl
  · rw [if_neg none] at found ⊢
    rw [if_neg none]
    cases all with
    | nil => cases found
    | cons first rest => rfl

/-- For one interface, the addresses of the family asked for whose netmask is not zero, in the order of the system's
list. The answer is false, and the vector that is passed in is left alone, if there are none. -/
theorem getInterfaceAddress_eq (host : Host) (ifap : List Ifaddrs) (result : List Reported) (name : List UInt8)
    (family : Int) :
    getInterfaceAddress host (some ifap) result name family =
      (ifap.mapM (Ifaddrs.report host family)).map fun reports =>
        if Interfaces.of name reports.flatten = [] then (false, result)
        else (true, Interfaces.of name reports.flatten) := by
  rw [getInterfaceAddress, getInterfaceAddresses, Option.elim_some, interfacesFrom_eq, Option.map_map,
    Option.map_map]
  congr 1
  funext reports
  have found := Interfaces.lookup_foldl_push name reports.flatten []
  rw [List.lookup_nil, Option.getD_none, List.nil_append] at found
  exact found_eq name result _ found

/-- Each reported address is one of an entry of that name and family, and the length beside it says what the entry's
netmask says exactly if the ones of the netmask stand in front. -/
theorem reported (host : Host) (ifap : List Ifaddrs) (result : List Reported) (name : List UInt8) (family : Int)
    {found : List Reported} (answer : getInterfaceAddress host (some ifap) result name family = some (true, found))
    {a : Address} {p : BitVec 32} (mem : (a, p) ∈ found) :
    ∃ cur ∈ ifap, ∃ addr, cur.name = name ∧ cur.addr = some addr ∧ (family = addr.record.family ∨ family = AF_UNSPEC) ∧
      a = addr.record.create ∧ (addr.Described host p ↔ addr.Contiguous host) := by
  rw [getInterfaceAddress_eq] at answer
  obtain ⟨reports, all, same⟩ := Option.map_eq_some_iff.mp answer
  split at same
  · cases same
  · cases same
    obtain ⟨⟨key, entry⟩, kept, eq⟩ := List.mem_map.mp mem
    obtain ⟨inside, key_eq⟩ := List.mem_filter.mp kept
    obtain ⟨cur, member, own, reads, listed⟩ := mem_of_mapM all inside
    cases eq
    obtain ⟨named, addr, at_, fits, created, counted⟩ := Ifaddrs.mem_report reads listed
    have asked : key = name := by simpa using key_eq
    exact ⟨cur, member, addr, named.trans asked, at_, fits, created, Ifa.described_iff host addr p counted⟩

/-- An interface with one address, whose netmask is 128.0.0.0. -/
def oneInterface : List Ifaddrs :=
  [⟨[101], some (.inet ⟨2, 0, 0x0A000001, Vector.replicate 8 0⟩ (some ⟨2, 0, 0x80000000, Vector.replicate 8 0⟩) rfl)⟩]

theorem reported_one :
    ∃ cur ∈ oneInterface, ∃ addr, cur.name = [101] ∧ cur.addr = some addr ∧
      ((0 : Int) = addr.record.family ∨ (0 : Int) = AF_UNSPEC) ∧
      Address.ipv4 ⟨2, 0, 0x0A000001, Vector.replicate 8 0⟩ = addr.record.create ∧
      (addr.Described .big 1 ↔ addr.Contiguous .big) := by
  have counted : countBits (networkToHost32 .big 0x80000000#32) 0#32 = 1#32 := by
    rw [countBits, if_neg (by decide), countBits, if_pos (by decide)]
    rfl
  have answer : getInterfaceAddress .big (some oneInterface) [] [101] 0 =
      some (true, [(.ipv4 ⟨2, 0, 0x0A000001, Vector.replicate 8 0⟩, 1)]) := by
    simp [getInterfaceAddress, getInterfaceAddresses, oneInterface, interfacesFrom, Ifa.prefixLen, counted,
      Interfaces.push, Ifa.record, SockaddrRecord.create, AF_UNSPEC]
  exact reported .big oneInterface [] [101] 0 answer List.mem_cons_self

end Address

end Sylar
