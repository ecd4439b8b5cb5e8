import Sylar.Address.Order

/-!
# The text of an IP address

`output` prints an IPv4 address octet by octet from the number in host order. An IPv6 address it
prints as eight hexadecimal groups, each read from memory as a `uint16_t` of the host: on a
little-endian host the two bytes of every group come out exchanged. The text constructors leave the
reading to `inet_pton`, which is a parameter here; `InetPton.Standard` is what its standard promises
for the two forms that are printed.

`roundTrips_iff` says which addresses the printed text denotes. The text has the address and the port
only, so the other fields of the record must be what the text constructors put there; and in an IPv6
address the two bytes of each group must be equal.
-/

namespace Sylar

open Endian

/-! ## Streams -/

/-- An output stream: what has been written, and the base that `std::hex` and `std::dec` set. -/
structure OStream where
  text : List Char
  base : Nat
  deriving DecidableEq, Repr

namespace OStream

/-- A fresh `std::ostringstream`. -/
def fresh : OStream where
  text := []
  base := 10

def char (os : OStream) (c : Char) : OStream := { os with text := os.text ++ [c] }

def num (os : OStream) (n : Nat) : OStream := { os with text := os.text ++ Nat.toDigits os.base n }

def hex (os : OStream) : OStream := { os with base := 16 }

def dec (os : OStream) : OStream := { os with base := 10 }

end OStream

/-! ## The printers -/

/-- Element `i` of a byte array read as an array of `uint16_t`. -/
def group (host : Host) (bytes : Vector UInt8 16) (i : Fin 8) : Nat :=
  host.ofMemory [bytes[2 * i.val], bytes[2 * i.val + 1]]

namespace IPv4Address

def output (host : Host) (a : IPv4Address) (os : OStream) : OStream :=
  let address := networkToHost32 host a.address.addr
  let os := os.num ((address >>> 24) &&& 0xFF#32).toNat |>.char '.'
  let os := os.num ((address >>> 16) &&& 0xFF#32).toNat |>.char '.'
  let os := os.num ((address >>> 8) &&& 0xFF#32).toNat |>.char '.'
  let os := os.num (address &&& 0xFF#32).toNat
  os.char ':' |>.num (networkToHost16 host a.address.port).toNat

/-- What is printed onto a stream. `to_string()` is this for a fresh one. -/
def printed (host : Host) (a : IPv4Address) (os : OStream) : List Char :=
  (a.output host os).text.drop os.text.length

end IPv4Address

namespace IPv6Address

def output (host : Host) (a : IPv6Address) (os : OStream) : OStream :=
  let os := (os.char '[').hex.num (group host a.address.addr 0)
  let os := [1, 2, 3, 4, 5, 6, 7].foldl
    (fun os i => (os.hex.char ':').num (group host a.address.addr i)) os
  ((os.char ']').char ':').dec.num (networkToHost16 host a.address.port).toNat

/-- What is printed onto a stream. `to_string()` is this for a fresh one. -/
def printed (host : Host) (a : IPv6Address) (os : OStream) : List Char :=
  (a.output host os).text.drop os.text.length

end IPv6Address

/-! ## The text constructors -/

/-- `inet_pton` for `AF_INET` and `AF_INET6`: the bytes it writes, or nothing when it refuses. -/
structure InetPton where
  v4 : List Char → Option (Vector UInt8 4)
  v6 : List Char → Option (Vector UInt8 16)

/-- Four octets in decimal, with dots between them. -/
def dotted (octets : Vector UInt8 4) : List Char :=
  List.intercalate ['.'] (octets.toList.map fun o => Nat.toDigits 10 o.toNat)

/-- Eight 16-bit groups in hexadecimal, with colons between them. -/
def colons (groups : List Nat) : List Char :=
  List.intercalate [':'] (groups.map fun g => Nat.toDigits 16 g)

/-- The groups of an address, each with its most significant byte first. -/
def groups (bytes : Vector UInt8 16) : List Nat := (List.finRange 8).map (group .big bytes)

/-- What the standard promises for the two plain forms. -/
structure InetPton.Standard (pton : InetPton) : Prop where
  v4 : ∀ octets, pton.v4 (dotted octets) = some octets
  v6 : ∀ bytes, pton.v6 (colons (groups bytes)) = some bytes

/-- `IPv4Address(const char* address, uint16_t port)`; what `inet_pton` refuses throws. -/
def IPv4Address.ofText (pton : InetPton) (host : Host) (address : List Char) (port : BitVec 16) :
    Except String IPv4Address :=
  match pton.v4 address with
  | some octets => .ok {
      address := { IPv4Address.empty.address with
        port := hostToNetwork16 host port
        addr := BitVec.ofNat 32 (host.ofMemory octets.toList) } }
  | none => .error "IPv4Address::IPv4Address invalid address"

/-- `IPv6Address(const char* address, uint16_t port)`. -/
def IPv6Address.ofText (pton : InetPton) (host : Host) (address : List Char) (port : BitVec 16) :
    Except String IPv6Address :=
  match pton.v6 address with
  | some bytes => .ok {
      address := { IPv6Address.empty.address with
        port := hostToNetwork16 host port
        addr := bytes } }
  | none => .error "IPv6Address::IPv6Address invalid address"

/-! ## Reading a printed address back -/

/-- The host part of a printed address, without its brackets, and the printed port. -/
def hostAndPort : List Char → List Char × Nat
  | '[' :: rest =>
    (rest.takeWhile (· != ']'), Nat.ofDigitChars 10 ((rest.dropWhile (· != ']')).drop 2) 0)
  | text => (text.takeWhile (· != ':'), Nat.ofDigitChars 10 ((text.dropWhile (· != ':')).drop 1) 0)

/-- The text printed onto a stream, given back to the constructor, yields an equal address. -/
def IPv4Address.RoundTrips (pton : InetPton) (host : Host) (os : OStream) (a : IPv4Address) : Prop :=
  ∃ b, ofText pton host (hostAndPort (a.printed host os)).1
      (BitVec.ofNat 16 (hostAndPort (a.printed host os)).2) = .ok b ∧
    (Address.ipv4 b).eq host (Address.ipv4 a) = some true

def IPv6Address.RoundTrips (pton : InetPton) (host : Host) (os : OStream) (a : IPv6Address) : Prop :=
  ∃ b, ofText pton host (hostAndPort (a.printed host os)).1
      (BitVec.ofNat 16 (hostAndPort (a.printed host os)).2) = .ok b ∧
    (Address.ipv6 b).eq host (Address.ipv6 a) = some true

theorem finRange_eight : List.finRange 8 = [0, 1, 2, 3, 4, 5, 6, 7] := by decide

/-! ## The printed characters -/

theorem mem_toDigits {b n : Nat} (two : 1 < b) (small : b ≤ 16) {c : Char} (inside : c ∈ Nat.toDigits b n) :
    ∃ d < 16, c = d.digitChar := by
  induction n using Nat.base_induction b two with
  | single m hm =>
    rw [Nat.toDigits_of_lt_base hm, List.mem_singleton] at inside
    exact ⟨m, by omega, inside⟩
  | digit m k hk hm ih =>
    rw [← Nat.toDigits_append_toDigits two hm hk, List.mem_append, Nat.toDigits_of_lt_base hk,
      List.mem_singleton] at inside
    rcases inside with upper | rfl
    · exact ih upper
    · exact ⟨k, by omega, rfl⟩

/-- None of the characters that the printers put between the numbers is a digit. -/
theorem separator_notMem {b : Nat} (n : Nat) (two : 1 < b) (small : b ≤ 16) :
    '.' ∉ Nat.toDigits b n ∧ ':' ∉ Nat.toDigits b n ∧ '[' ∉ Nat.toDigits b n ∧ ']' ∉ Nat.toDigits b n := by
  have digits : ∀ d < 16, d.digitChar ≠ '.' ∧ d.digitChar ≠ ':' ∧ d.digitChar ≠ '[' ∧ d.digitChar ≠ ']' := by
    decide
  refine ⟨?_, ?_, ?_, ?_⟩ <;>
  · intro inside
    obtain ⟨d, hd, same⟩ := mem_toDigits two small inside
    have apart := digits d hd
    simp only [← same, ne_eq, not_true_eq_false, false_and, and_false] at apart

theorem notMem_intercalate {c sep : Char} {parts : List (List Char)} (other : c ≠ sep)
    (free : ∀ part ∈ parts, c ∉ part) : c ∉ List.intercalate [sep] parts := by
  induction parts with
  | nil => simp
  | cons part parts ih =>
    cases parts with
    | nil => simpa using free part (by simp)
    | cons next parts =>
      rw [List.intercalate_cons_cons]
      simp only [List.mem_append, List.mem_singleton, not_or]
      refine ⟨⟨free part (by simp), other⟩, ih fun p hp => free p (by simp [hp])⟩

/-- A text that does not open a bracket ends its host part at the first colon. -/
theorem hostAndPort_of_ne {text : List Char} (plain : text.head? ≠ some '[') :
    hostAndPort text =
      (text.takeWhile (· != ':'), Nat.ofDigitChars 10 ((text.dropWhile (· != ':')).drop 1) 0) := by
  rw [hostAndPort]
  rintro rest rfl
  exact plain rfl

theorem hostAndPort_plain {text : List Char} (port : Nat) (colon : ':' ∉ text) (bracket : '[' ∉ text) :
    hostAndPort (text ++ ':' :: Nat.toDigits 10 port) = (text, port) := by
  have pass : ∀ c ∈ text, (c != ':') = true := by
    intro c inside
    rw [bne_iff_ne]
    rintro rfl
    exact colon inside
  have plain : (text ++ ':' :: Nat.toDigits 10 port).head? ≠ some '[' := by
    cases text with
    | nil => simp
    | cons c text =>
      intro first
      apply bracket
      simp_all
  rw [hostAndPort_of_ne plain, List.takeWhile_append_of_pos pass, List.dropWhile_append_of_pos pass]
  simp

theorem hostAndPort_brackets {text : List Char} (port : Nat) (bracket : ']' ∉ text) :
    hostAndPort ('[' :: text ++ ']' :: ':' :: Nat.toDigits 10 port) = (text, port) := by
  have pass : ∀ c ∈ text, (c != ']') = true := by
    intro c inside
    rw [bne_iff_ne]
    rintro rfl
    exact bracket inside
  rw [List.cons_append, hostAndPort, List.takeWhile_append_of_pos pass,
    List.dropWhile_append_of_pos pass]
  simp

/-! ## IPv4 -/

namespace IPv4Address

/-- The octets of a number, most significant first. -/
def octets (address : BitVec 32) : Vector UInt8 4 :=
  ⟨(beBytes 4 address.toNat).toArray, by rw [List.size_toArray, length_beBytes]⟩

theorem octet_eq (address : BitVec 32) (k : Nat) :
    ((address >>> k) &&& 0xFF#32).toNat = (UInt8.ofNat (address.toNat / 2 ^ k)).toNat := by
  rw [BitVec.toNat_and, BitVec.toNat_ushiftRight, Nat.shiftRight_eq_div_pow, UInt8.toNat_ofNat']
  exact Nat.and_two_pow_sub_one_eq_mod _ 8

theorem printed_eq (host : Host) (a : IPv4Address) {os : OStream} (decimal : os.base = 10) :
    a.printed host os = dotted (octets (networkToHost32 host a.address.addr)) ++
      ':' :: Nat.toDigits 10 (networkToHost16 host a.address.port).toNat := by
  have last := octet_eq (networkToHost32 host a.address.addr) 0
  rw [BitVec.ushiftRight_zero] at last
  simp only [printed, output, OStream.num, OStream.char, decimal, octet_eq, last, dotted, octets, beBytes,
    List.map_cons, List.map_nil, List.intercalate_cons_cons, List.intercalate_singleton, Vector.toList_mk,
    List.append_assoc, List.drop_left]
  simp

/-- Addresses are equal if their records are. -/
theorem eq_true_iff (host : Host) (a b : IPv4Address) :
    (Address.ipv4 a).eq host (Address.ipv4 b) = some true ↔ a.address = b.address := by
  have whole : ∀ c : IPv4Address, (Address.ipv4 c).key host = c.address.memory host := fun c =>
    List.take_of_length_le (Nat.le_of_eq (c.address.length_memory host))
  rw [Address.eq_eq host (Address.inside_ipv4 a) (Address.inside_ipv4 b), whole, whole, Option.some_inj,
    decide_eq_true_eq, SockaddrIn.memory_inj]

/-- What the text does not say is as the constructors leave it. -/
structure Plain (a : IPv4Address) : Prop where
  family : a.address.family = BitVec.ofNat 16 AF_INET
  zero : a.address.zero = Vector.replicate 8 0

/-- The address read back has the address and the port of the one that was printed. -/
theorem roundTrips_iff_plain {pton : InetPton} (standard : pton.Standard) (host : Host) {os : OStream}
    (decimal : os.base = 10) (a : IPv4Address) : a.RoundTrips pton host os ↔ a.Plain := by
  have free : ∀ c ∈ [':', '['], c ∉ dotted (octets (networkToHost32 host a.address.addr)) := by
    intro c sep
    have other : c ≠ '.' := by
      rintro rfl
      simp at sep
    apply notMem_intercalate other
    intro part hp
    obtain ⟨o, -, rfl⟩ := List.mem_map.mp hp
    obtain ⟨-, colon, bracket, -⟩ := separator_notMem o.toNat (show 1 < 10 by decide) (by decide)
    simp only [List.mem_cons, List.not_mem_nil, or_false] at sep
    rcases sep with rfl | rfl
    · exact colon
    · exact bracket
  have read := hostAndPort_plain (networkToHost16 host a.address.port).toNat (free ':' (by simp))
    (free '[' (by simp))
  have port : hostToNetwork16 host (BitVec.ofNat 16 (networkToHost16 host a.address.port).toNat) =
      a.address.port := by
    rw [BitVec.ofNat_toNat, BitVec.setWidth_eq, hostToNetwork16_networkToHost16]
  have addr : BitVec.ofNat 32 (host.ofMemory (octets (networkToHost32 host a.address.addr)).toList) =
      a.address.addr := hostToNetwork32_networkToHost32 host a.address.addr
  rw [RoundTrips, printed_eq host a decimal, read, ofText, standard.v4]
  dsimp only
  rw [port, addr]
  constructor
  · rintro ⟨b, built, equal⟩
    cases built
    rw [eq_true_iff] at equal
    exact ⟨(congrArg SockaddrIn.family equal).symm, (congrArg SockaddrIn.zero equal).symm⟩
  · intro plain
    refine ⟨_, rfl, (eq_true_iff host _ a).mpr ?_⟩
    rw [empty, ← plain.family, ← plain.zero]

end IPv4Address

/-! ## IPv6 -/

namespace IPv6Address

/-- The bytes with the two of each group exchanged. -/
def exchanged (bytes : Vector UInt8 16) : Vector UInt8 16 :=
  Vector.ofFn fun i => if h : i.val % 2 = 0 then bytes[i.val + 1] else bytes[i.val - 1]

theorem exchanged_even (bytes : Vector UInt8 16) (i : Fin 8) :
    (exchanged bytes)[2 * i.val] = bytes[2 * i.val + 1] := by
  simp [exchanged]

theorem exchanged_odd (bytes : Vector UInt8 16) (i : Fin 8) :
    (exchanged bytes)[2 * i.val + 1] = bytes[2 * i.val] := by
  have odd : ¬ (2 * i.val + 1) % 2 = 0 := by omega
  simp only [exchanged, Vector.getElem_ofFn, dif_neg odd, Nat.add_sub_cancel]

/-- A little-endian host reads each group with its bytes exchanged. -/
theorem group_little (bytes : Vector UInt8 16) (i : Fin 8) :
    group .little bytes i = group .big (exchanged bytes) i := by
  simp only [group, Host.ofMemory, exchanged_even, exchanged_odd, List.reverse_cons, List.reverse_nil,
    List.nil_append, List.singleton_append]

theorem exchanged_eq_iff (bytes : Vector UInt8 16) :
    exchanged bytes = bytes ↔ ∀ i : Fin 8, bytes[2 * i.val] = bytes[2 * i.val + 1] := by
  constructor
  · intro same i
    have odd := exchanged_odd bytes i
    simp only [same] at odd
    exact odd.symm
  · intro same
    apply Vector.ext
    intro j inside
    have half : j / 2 < 8 := by omega
    have pair := same ⟨j / 2, half⟩
    by_cases even : j % 2 = 0
    · have place : 2 * (j / 2) = j := by omega
      simp only [place] at pair
      simp only [exchanged, Vector.getElem_ofFn, dif_pos even, pair]
    · have before : 2 * (j / 2) = j - 1 := by omega
      have place : j - 1 + 1 = j := by omega
      simp only [before, place] at pair
      simp only [exchanged, Vector.getElem_ofFn, dif_neg even, pair]

theorem printed_eq (host : Host) (a : IPv6Address) (os : OStream) :
    a.printed host os = '[' :: colons ((List.finRange 8).map (group host a.address.addr)) ++
      ']' :: ':' :: Nat.toDigits 10 (networkToHost16 host a.address.port).toNat := by
  simp only [printed, output, OStream.num, OStream.char, OStream.hex, OStream.dec, colons, finRange_eight,
    List.map_cons, List.map_nil, List.intercalate_cons_cons, List.intercalate_singleton, List.foldl_cons,
    List.foldl_nil, List.append_assoc, List.drop_left]
  simp

theorem eq_true_iff (host : Host) (a b : IPv6Address) :
    (Address.ipv6 a).eq host (Address.ipv6 b) = some true ↔ a.address = b.address := by
  have whole : ∀ c : IPv6Address, (Address.ipv6 c).key host = c.address.memory host := fun c =>
    List.take_of_length_le (Nat.le_of_eq (c.address.length_memory host))
  rw [Address.eq_eq host (Address.inside_ipv6 a) (Address.inside_ipv6 b), whole, whole, Option.some_inj,
    decide_eq_true_eq, SockaddrIn6.memory_inj]

/-- What the text does not say is as the constructors leave it, and no group shows that its bytes are
exchanged. -/
structure Plain (a : IPv6Address) : Prop where
  family : a.address.family = BitVec.ofNat 16 AF_INET6
  flowinfo : a.address.flowinfo = 0
  scopeId : a.address.scopeId = 0
  groups : ∀ i : Fin 8, a.address.addr[2 * i.val] = a.address.addr[2 * i.val + 1]

/-- On a little-endian host the address read back has the port of the one that was printed, and its
bytes with those of each group exchanged. -/
theorem roundTrips_iff_plain {pton : InetPton} (standard : pton.Standard) (os : OStream) (a : IPv6Address) :
    a.RoundTrips pton .little os ↔ a.Plain := by
  have groups : (List.finRange 8).map (group .little a.address.addr) = groups (exchanged a.address.addr) :=
    List.map_congr_left fun i _ => group_little a.address.addr i
  have free : ']' ∉ colons (Sylar.groups (exchanged a.address.addr)) := by
    apply notMem_intercalate (by decide)
    intro part hp
    obtain ⟨g, -, rfl⟩ := List.mem_map.mp hp
    exact (separator_notMem g (show 1 < 16 by decide) (by decide)).2.2.2
  have read := hostAndPort_brackets (networkToHost16 .little a.address.port).toNat free
  have port : hostToNetwork16 .little (BitVec.ofNat 16 (networkToHost16 .little a.address.port).toNat) =
      a.address.port := by
    rw [BitVec.ofNat_toNat, BitVec.setWidth_eq, hostToNetwork16_networkToHost16]
  rw [RoundTrips, printed_eq, groups, read, ofText, standard.v6]
  dsimp only
  rw [port]
  constructor
  · rintro ⟨b, built, equal⟩
    cases built
    rw [eq_true_iff] at equal
    exact ⟨(congrArg SockaddrIn6.family equal).symm, (congrArg SockaddrIn6.flowinfo equal).symm,
      (congrArg SockaddrIn6.scopeId equal).symm,
      (exchanged_eq_iff _).mp (congrArg SockaddrIn6.addr equal)⟩
  · intro plain
    refine ⟨_, rfl, (eq_true_iff .little _ a).mpr ?_⟩
    rw [(exchanged_eq_iff _).mpr plain.groups, empty, ← plain.family]
    have flowinfo := plain.flowinfo
    have scopeId := plain.scopeId
    obtain ⟨⟨family, port, flowinfo', addr, scopeId'⟩⟩ := a
    cases flowinfo
    cases scopeId
    rfl

end IPv6Address

/-- On a little-endian host the text of an address, printed onto a stream that is not set to another base,
gives exactly those IPv4 addresses back of which it says everything, and those IPv6 addresses of which it
says everything and whose groups have two equal bytes each. -/
theorem roundTrips_iff {pton : InetPton} (standard : pton.Standard) {os : OStream} (decimal : os.base = 10) :
    (∀ a : IPv4Address, a.RoundTrips pton .little os ↔ a.Plain) ∧
    (∀ a : IPv6Address, a.RoundTrips pton .little os ↔ a.Plain) :=
  ⟨IPv4Address.roundTrips_iff_plain standard .little decimal, IPv6Address.roundTrips_iff_plain standard os⟩

/-! ## A reader of the two plain forms -/

def hexDigitValue (c : Char) : Nat := if c.isDigit then c.toNat - 48 else c.toNat - 87

def hexValue (text : List Char) : Nat := text.foldl (fun v c => 16 * v + hexDigitValue c) 0

/-- As many bytes as there should be. -/
def readBytes (n : Nat) (bytes : List UInt8) : Option (Vector UInt8 n) :=
  if h : bytes.length = n then some ⟨bytes.toArray, h⟩ else none

/-- Dotted decimal with four parts, and eight hexadecimal groups. -/
def readInet : InetPton where
  v4 text := readBytes 4 ((text.splitOn '.').map fun o => UInt8.ofNat (Nat.ofDigitChars 10 o 0))
  v6 text := readBytes 16 ((text.splitOn ':').flatMap fun g => beBytes 2 (hexValue g))

theorem hexValue_toDigits (n : Nat) : hexValue (Nat.toDigits 16 n) = n := by
  have digit : ∀ d < 16, hexDigitValue d.digitChar = d := by decide
  induction n using Nat.base_induction 16 (by decide) with
  | single m hm =>
    rw [Nat.toDigits_of_lt_base hm]
    simp [hexValue, digit m hm]
  | digit m k hk hm ih =>
    rw [hexValue] at ih
    rw [← Nat.toDigits_append_toDigits (by decide) hm hk, Nat.toDigits_of_lt_base hk, hexValue,
      List.foldl_append, ih]
    simp [digit k hk]

theorem readBytes_toList {n : Nat} (bytes : Vector UInt8 n) : readBytes n bytes.toList = some bytes := by
  rw [readBytes, dif_pos (by simp)]
  rfl

theorem readInet_standard : readInet.Standard where
  v4 octets := by
    have parts : (dotted octets).splitOn '.' = octets.toList.map fun o => Nat.toDigits 10 o.toNat := by
      apply List.splitOn_intercalate
      · intro part hp
        obtain ⟨o, -, rfl⟩ := List.mem_map.mp hp
        exact (separator_notMem o.toNat (show 1 < 10 by decide) (by decide)).1
      · simp [← List.length_eq_zero_iff]
    have back : (octets.toList.map fun o => Nat.toDigits 10 o.toNat).map
        (fun o => UInt8.ofNat (Nat.ofDigitChars 10 o 0)) = octets.toList := by
      rw [List.map_map]
      apply List.map_id''
      simp
    simp only [readInet, parts, back, readBytes_toList]
  v6 bytes := by
    have parts : (colons (groups bytes)).splitOn ':' = (groups bytes).map fun g => Nat.toDigits 16 g := by
      apply List.splitOn_intercalate
      · intro part hp
        obtain ⟨g, -, rfl⟩ := List.mem_map.mp hp
        exact (separator_notMem g (show 1 < 16 by decide) (by decide)).2.1
      · simp [groups]
    have pair : ∀ i, beBytes 2 (group .big bytes i) = [bytes[2 * i.val], bytes[2 * i.val + 1]] :=
      fun i => beBytes_beValue [bytes[2 * i.val], bytes[2 * i.val + 1]]
    have back : ((groups bytes).map fun g => Nat.toDigits 16 g).flatMap (fun g => beBytes 2 (hexValue g)) =
        bytes.toList := by
      simp only [groups, List.flatMap_map, hexValue_toDigits, pair, finRange_eight]
      apply List.ext_getElem (by simp)
      intro j inside inside'
      have bound : j < 16 := by simpa using inside'
      interval_cases j <;> simp
    simp only [readInet, parts, back, readBytes_toList]

/-- Every IPv4 address that is made of an address and a port comes back. -/
theorem roundTrips_iff_readInet :
    readInet.Standard ∧ ∀ address port,
      (IPv4Address.ofAddress .little address port).RoundTrips readInet .little .fresh :=
  ⟨readInet_standard, fun _ _ => ((roundTrips_iff readInet_standard rfl).1 _).mpr ⟨rfl, rfl⟩⟩

/-- The text of `2001:db8::1` names another address, and that of a link-local address has no scope. -/
theorem not_roundTrips_2001_db8 :
    readInet.Standard ∧
    ¬ (IPv6Address.ofAddress .little #v[0x20, 0x01, 0x0d, 0xb8, 0, 0, 0, 0, 0, 0, 0, 0, 0, 0, 0, 1]
      80).RoundTrips readInet .little .fresh ∧
    ¬ IPv6Address.RoundTrips readInet .little .fresh
      ⟨⟨BitVec.ofNat 16 AF_INET6, 0, 0, Vector.replicate 16 0, 2⟩⟩ := by
  refine ⟨readInet_standard, ?_, ?_⟩
  · rw [IPv6Address.roundTrips_iff_plain readInet_standard]
    intro plain
    have first := plain.groups 0
    revert first
    decide
  · rw [IPv6Address.roundTrips_iff_plain readInet_standard]
    intro plain
    have none := plain.scopeId
    revert none
    decide

end Sylar
