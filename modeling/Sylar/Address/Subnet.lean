import Sylar.Address.Basic
import Sylar.Lib.Bits

/-!
# Subnets

`get_network_address` and `get_broadcast_address` of the two kinds of IP address. The mask comes from
a shift of 64 bits that is truncated. An IPv4 address is masked as a word in network order; an IPv6
address byte by byte, the byte in which the prefix ends and then the bytes behind it.

Read as a number, most significant byte first (`bits`), either result is the address with its first
bits kept and the others filled (`Fills`), and the rest of the record is as it was. Everything else
that is expected of the two operations follows from that, for both kinds in the same way.
-/

namespace Sylar

open Endian Lib

/-! ## The operations -/

/-- `bit_mask<T>`, where `T` has `w` bits. -/
def bitMask (w : Nat) (prefixLen : BitVec 32) : BitVec w :=
  let prefixLen := if prefixLen.toNat > w then w else prefixLen.toNat
  (~~~((1#64 <<< (w - prefixLen)) - 1#64)).setWidth w

namespace IPv4Address

def getBroadcastAddress (host : Host) (a : IPv4Address) (prefixLen : BitVec 32) : IPv4Address where
  address :=
    if prefixLen.toNat < 32 then
      let mask := bitMask 32 prefixLen
      { a.address with addr := a.address.addr ||| hostToNetwork32 host (~~~mask) }
    else a.address

def getNetworkAddress (host : Host) (a : IPv4Address) (prefixLen : BitVec 32) : IPv4Address where
  address :=
    if prefixLen.toNat < 32 then
      let mask := bitMask 32 prefixLen
      { a.address with addr := a.address.addr &&& hostToNetwork32 host mask }
    else a.address

end IPv4Address

namespace IPv6Address

/-- The loops from byte `i` on: `s6_addr[i] = value`. -/
def fillFrom (value : UInt8) (addr : Vector UInt8 16) (i : Nat) : Vector UInt8 16 :=
  if h : i < 16 then fillFrom value (addr.set i value) (i + 1) else addr
  termination_by 16 - i

/-- `byte |= ~mask`, where `~` works on the promoted `int`. -/
def orNot (byte : UInt8) (mask : BitVec 8) : UInt8 :=
  ⟨(byte.toBitVec.setWidth 32 ||| ~~~(mask.setWidth 32)).setWidth 8⟩

/-- `byte &= mask`. -/
def andWith (byte : UInt8) (mask : BitVec 8) : UInt8 :=
  ⟨(byte.toBitVec.setWidth 32 &&& mask.setWidth 32).setWidth 8⟩

def getBroadcastAddress (a : IPv6Address) (prefixLen : BitVec 32) : IPv6Address where
  address :=
    if h : prefixLen.toNat < 128 then
      let k := prefixLen.toNat / 8
      let addr := a.address.addr.set k (orNot a.address.addr[k] (bitMask 8 (prefixLen % 8)))
      { a.address with addr := fillFrom 0xFF addr (k + 1) }
    else a.address

def getNetworkAddress (a : IPv6Address) (prefixLen : BitVec 32) : IPv6Address where
  address :=
    if h : prefixLen.toNat < 128 then
      let k := prefixLen.toNat / 8
      let addr := a.address.addr.set k (andWith a.address.addr[k] (bitMask 8 (prefixLen % 8)))
      { a.address with addr := fillFrom 0x00 addr (k + 1) }
    else a.address

end IPv6Address

/-! ## The mask -/

/-- The first bits of the mask are set. -/
theorem getMsbD_bitMask {w : Nat} (narrow : w < 64) (p : BitVec 32) {i : Nat} (inside : i < w) :
    (bitMask w p).getMsbD i = decide (i < p.toNat) := by
  generalize len : (if p.toNat > w then w else p.toNat) = q
  have low : (1#64 <<< (w - q)) - 1#64 = BitVec.ofNat 64 (2 ^ (w - q) - 1) := by
    apply BitVec.eq_of_toNat_eq
    have small : 2 ^ (w - q) < 2 ^ 64 := Nat.pow_lt_pow_right (by decide) (by omega)
    have pos : 0 < 2 ^ (w - q) := Nat.two_pow_pos _
    rw [BitVec.toNat_sub, BitVec.toNat_shiftLeft, BitVec.toNat_ofNat, BitVec.toNat_ofNat,
      Nat.shiftLeft_eq, Nat.one_mod_eq_one.mpr (by decide), Nat.one_mul, Nat.mod_eq_of_lt small]
    omega
  have bound : w - 1 - i < 64 := by omega
  rw [bitMask, len, BitVec.getMsbD_eq_getLsbD]
  simp only [low, BitVec.getLsbD_setWidth, BitVec.getLsbD_not, BitVec.getLsbD_ofNat,
    Nat.testBit_two_pow_sub_one, inside, decide_true, bound, Bool.true_and]
  have inner : w - 1 - i < w := by omega
  rw [← decide_not, decide_eq_true inner, Bool.true_and, decide_eq_decide]
  split at len <;> omega

/-! ## The bits of a byte string -/

theorem testBit_beValue (bytes : List UInt8) {j : Nat} (inside : j < 8 * bytes.length) :
    (beValue bytes).testBit j =
      (bytes.getD (bytes.length - 1 - j / 8) 0).toNat.testBit (j % 8) := by
  induction bytes with
  | nil => simp at inside
  | cons b bytes ih =>
    have shape : beValue (b :: bytes) = 2 ^ (8 * bytes.length) * b.toNat + beValue bytes := by
      rw [beValue, Nat.mul_comm, Nat.pow_mul]
    have low : beValue bytes < 2 ^ (8 * bytes.length) := by
      have bound := beValue_lt bytes
      rwa [Nat.pow_mul]
    rw [shape, Nat.testBit_two_pow_mul_add _ low]
    simp only [List.length_cons] at inside
    by_cases tail : j < 8 * bytes.length
    · have index : (b :: bytes).length - 1 - j / 8 = (bytes.length - 1 - j / 8) + 1 := by
        simp only [List.length_cons]
        omega
      rw [if_pos tail, ih tail, index, List.getD_cons_succ]
    · have index : (b :: bytes).length - 1 - j / 8 = 0 := by
        simp only [List.length_cons]
        omega
      have place : j - 8 * bytes.length = j % 8 := by omega
      rw [if_neg tail, place, index, List.getD_cons_zero]

/-- Counted from the most significant one, the bits stand in the order of the bytes. -/
theorem getMsbD_beValue {w : Nat} (bytes : List UInt8) (width : w = 8 * bytes.length) {i : Nat}
    (inside : i < w) :
    (BitVec.ofNat w (beValue bytes)).getMsbD i = (bytes.getD (i / 8) 0).toBitVec.getMsbD (i % 8) := by
  have index : bytes.length - 1 - (w - 1 - i) / 8 = i / 8 := by omega
  have place : (w - 1 - i) % 8 = 8 - 1 - i % 8 := by omega
  have low : w - 1 - i < w := by omega
  have eight : i % 8 < 8 := Nat.mod_lt _ (by decide)
  rw [BitVec.getMsbD_eq_getLsbD, BitVec.getMsbD_eq_getLsbD, BitVec.getLsbD_ofNat,
    testBit_beValue bytes (by omega), index, place]
  simp only [inside, low, eight, decide_true, Bool.true_and]
  rfl

theorem getD_beBytes (n v : Nat) {k : Nat} (inside : k < n) :
    (beBytes n v).getD k 0 = UInt8.ofNat (v / 256 ^ (n - 1 - k)) := by
  induction n generalizing k with
  | zero => omega
  | succ n ih =>
    rw [beBytes]
    cases k with
    | zero => rw [List.getD_cons_zero, Nat.add_sub_cancel, Nat.sub_zero]
    | succ k =>
      rw [List.getD_cons_succ, ih (by omega)]
      congr 3
      omega

/-- Where bit `j` of a converted word comes from. -/
def source : Host → Nat → Nat
  | .little, j => 8 * (3 - j / 8) + j % 8
  | .big, j => j

theorem getLsbD_networkToHost32 (host : Host) (v : BitVec 32) {j : Nat} (inside : j < 32) :
    (networkToHost32 host v).getLsbD j = v.getLsbD (source host j) := by
  have byte : ∀ m, (UInt8.ofNat (v.toNat / 256 ^ m)).toNat.testBit (j % 8) =
      v.getLsbD (8 * m + j % 8) := by
    intro m
    have eight : j % 8 < 8 := Nat.mod_lt _ (by decide)
    rw [UInt8.toNat_ofNat', Nat.testBit_mod_two_pow, decide_eq_true eight, Bool.true_and,
      show 256 ^ m = 2 ^ (8 * m) by rw [Nat.pow_mul], Nat.testBit_div_two_pow, BitVec.testBit_toNat,
      Nat.add_comm]
  have whole : j < 8 * (host.toMemory 4 v.toNat).length := by
    rw [Host.length_toMemory]
    omega
  rw [networkToHost32, BitVec.getLsbD_ofNat, decide_eq_true inside, Bool.true_and, ntoh,
    testBit_beValue _ whole, Host.length_toMemory]
  cases host with
  | little =>
    rw [Host.toMemory, List.getD_eq_getElem?_getD, List.getElem?_reverse (by simp; omega),
      ← List.getD_eq_getElem?_getD, length_beBytes, getD_beBytes _ _ (by omega), byte, source]
    congr 2
    omega
  | big =>
    rw [Host.toMemory, getD_beBytes _ _ (by omega), byte, source]
    congr 1
    omega

theorem networkToHost32_and (host : Host) (x mask : BitVec 32) :
    networkToHost32 host (x &&& hostToNetwork32 host mask) = networkToHost32 host x &&& mask := by
  nth_rewrite 2 [← networkToHost32_hostToNetwork32 host mask]
  apply BitVec.eq_of_getLsbD_eq
  intro j inside
  simp only [BitVec.getLsbD_and, getLsbD_networkToHost32 host _ inside]

theorem networkToHost32_or (host : Host) (x mask : BitVec 32) :
    networkToHost32 host (x ||| hostToNetwork32 host mask) = networkToHost32 host x ||| mask := by
  nth_rewrite 2 [← networkToHost32_hostToNetwork32 host mask]
  apply BitVec.eq_of_getLsbD_eq
  intro j inside
  simp only [BitVec.getLsbD_or, getLsbD_networkToHost32 host _ inside]

theorem networkToHost32_inj (host : Host) {x y : BitVec 32}
    (same : networkToHost32 host x = networkToHost32 host y) : x = y := by
  have back : ∀ v : BitVec 32, hostToNetwork32 host (networkToHost32 host v) = v := by
    intro v
    have stored := beBytes_beValue (host.toMemory 4 v.toNat)
    have bound := beValue_lt (host.toMemory 4 v.toNat)
    rw [Host.length_toMemory] at stored bound
    apply BitVec.eq_of_toNat_eq
    rw [toNat_hostToNetwork32, networkToHost32, BitVec.toNat_ofNat, ntoh,
      show 2 ^ 32 = 256 ^ 4 from rfl, Nat.mod_eq_of_lt bound, hton, stored, Host.ofMemory_toMemory]
    exact Nat.mod_eq_of_lt v.isLt
  rw [← back x, same, back]

/-! ## What the operations owe -/

/-- The network and the broadcast address of one kind of address, whose number is `bits`. -/
structure Subnets {α : Type} {w : Nat} (bits : α → BitVec w) (Same : α → α → Prop)
    (network broadcast : α → BitVec 32 → α) : Prop where
  network_bits : ∀ a p, Fills p.toNat false (bits a) (bits (network a p))
  broadcast_bits : ∀ a p, Fills p.toNat true (bits a) (bits (broadcast a p))
  network_same : ∀ a p, Same a (network a p)
  broadcast_same : ∀ a p, Same a (broadcast a p)
  network_le : ∀ a p, (bits (network a p)).toNat ≤ (bits a).toNat
  le_broadcast : ∀ a p, (bits a).toNat ≤ (bits (broadcast a p)).toNat
  network_twice : ∀ a p, network (network a p) p = network a p
  broadcast_twice : ∀ a p, broadcast (broadcast a p) p = broadcast a p
  networks_eq : ∀ a b p, bits (network a p) = bits (network b p) ↔ Agree p.toNat (bits a) (bits b)
  broadcasts_eq : ∀ a b p, bits (broadcast a p) = bits (broadcast b p) ↔ Agree p.toNat (bits a) (bits b)

/-- The bits of the results and the rest of the record are all there is to show. -/
theorem Subnets.of_fills {α : Type} {w : Nat} {bits : α → BitVec w} {Same : α → α → Prop}
    {network broadcast : α → BitVec 32 → α} (ext : ∀ a b, Same a b → bits b = bits a → b = a)
    (network_bits : ∀ a p, Fills p.toNat false (bits a) (bits (network a p)))
    (broadcast_bits : ∀ a p, Fills p.toNat true (bits a) (bits (broadcast a p)))
    (network_same : ∀ a p, Same a (network a p)) (broadcast_same : ∀ a p, Same a (broadcast a p)) :
    Subnets bits Same network broadcast where
  network_bits := network_bits
  broadcast_bits := broadcast_bits
  network_same := network_same
  broadcast_same := broadcast_same
  network_le a p := (network_bits a p).le
  le_broadcast a p := (broadcast_bits a p).ge
  network_twice a p := by
    apply ext _ _ (network_same (network a p) p)
    exact (network_bits a p).twice (network_bits (network a p) p)
  broadcast_twice a p := by
    apply ext _ _ (broadcast_same (broadcast a p) p)
    exact (broadcast_bits a p).twice (broadcast_bits (broadcast a p) p)
  networks_eq a b p := (network_bits a p).eq_iff (network_bits b p)
  broadcasts_eq a b p := (broadcast_bits a p).eq_iff (broadcast_bits b p)

/-! ## IPv4 -/

namespace IPv4Address

/-- The address as a number, most significant byte first. -/
def bits (host : Host) (a : IPv4Address) : BitVec 32 := networkToHost32 host a.address.addr

/-- Nothing but the address differs. -/
def Same (a b : IPv4Address) : Prop := b.address = { a.address with addr := b.address.addr }

theorem subnets (host : Host) :
    Subnets (bits host) Same (getNetworkAddress host) (getBroadcastAddress host) := by
  apply Subnets.of_fills
  case ext =>
    intro a b same equal
    have addr : b.address.addr = a.address.addr := networkToHost32_inj host equal
    cases a
    cases b
    rw [Same, addr] at same
    exact congrArg IPv4Address.mk same
  case network_bits =>
    intro a p
    rw [bits, bits, getNetworkAddress]
    split
    · rw [networkToHost32_and]
      exact fills_and fun i inside => getMsbD_bitMask (by decide) p inside
    · exact fills_self _ _ (by omega)
  case broadcast_bits =>
    intro a p
    rw [bits, bits, getBroadcastAddress]
    split
    · rw [networkToHost32_or]
      exact fills_or fun i inside => getMsbD_bitMask (by decide) p inside
    · exact fills_self _ _ (by omega)
  case network_same =>
    intro a p
    rw [Same, getNetworkAddress]
    split <;> rfl
  case broadcast_same =>
    intro a p
    rw [Same, getBroadcastAddress]
    split <;> rfl

end IPv4Address

/-! ## IPv6 -/

namespace IPv6Address

/-- The address as a number, most significant byte first. -/
def bits (a : IPv6Address) : BitVec 128 := BitVec.ofNat 128 (beValue a.address.addr.toList)

/-- Nothing but the address differs. -/
def Same (a b : IPv6Address) : Prop := b.address = { a.address with addr := b.address.addr }

theorem getElem_fillFrom (value : UInt8) (addr : Vector UInt8 16) (i : Nat) {j : Nat} (inside : j < 16) :
    (fillFrom value addr i)[j] = if i ≤ j then value else addr[j] := by
  fun_induction fillFrom value addr i with
  | case1 addr i h ih =>
    rw [ih, Vector.getElem_set]
    by_cases here : i = j
    · subst here
      simp
    · have next : i + 1 ≤ j ↔ i ≤ j := by omega
      simp only [next, if_neg here]
  | case2 addr i h =>
    rw [if_neg (by omega)]

theorem getMsbD_bits (a : IPv6Address) {i : Nat} (inside : i < 128) :
    (bits a).getMsbD i = (a.address.addr[i / 8]).toBitVec.getMsbD (i % 8) := by
  rw [bits, getMsbD_beValue _ (by simp) inside]
  congr 2
  rw [List.getD_eq_getElem _ _ (by simp; omega), Vector.getElem_toList]

theorem toBitVec_orNot (byte : UInt8) (mask : BitVec 8) :
    (orNot byte mask).toBitVec = byte.toBitVec ||| ~~~mask := by
  apply BitVec.eq_of_getLsbD_eq
  intro j inside
  simp [orNot, inside]

theorem toBitVec_andWith (byte : UInt8) (mask : BitVec 8) :
    (andWith byte mask).toBitVec = byte.toBitVec &&& mask := by
  apply BitVec.eq_of_getLsbD_eq
  intro j inside
  simp [andWith, inside]

/-- One byte in which the prefix ends, and `value` behind it. -/
theorem fills_fillFrom (value byte : UInt8) {a b : IPv6Address} {p : Nat} {rest : Bool} (narrow : p < 128)
    (built : b.address.addr = fillFrom value (a.address.addr.set (p / 8) byte) (p / 8 + 1))
    (last : Fills (p % 8) rest (a.address.addr[p / 8]).toBitVec byte.toBitVec)
    (tail : ∀ r < 8, value.toBitVec.getMsbD r = rest) : Fills p rest (bits a) (bits b) := by
  intro i inside
  have eight : i % 8 < 8 := Nat.mod_lt _ (by decide)
  have j : i / 8 < 16 := by omega
  rw [getMsbD_bits b inside, getMsbD_bits a inside]
  simp only [built, getElem_fillFrom value _ _ j, Vector.getElem_set]
  rcases lt_trichotomy (i / 8) (p / 8) with before | here | behind
  · rw [if_neg (by omega), if_neg (by omega), if_pos (by omega)]
  · have bit := last (i % 8) eight
    have first : i % 8 < p % 8 ↔ i < p := by omega
    simp only [first] at bit
    rw [if_neg (by omega), if_pos here.symm, bit]
    simp only [here]
  · rw [if_pos (by omega), if_neg (by omega), tail _ eight]

theorem subnets : Subnets bits Same getNetworkAddress getBroadcastAddress := by
  have mask : ∀ p : BitVec 32, ∀ i < 8, (bitMask 8 (p % 8)).getMsbD i = decide (i < p.toNat % 8) := by
    intro p i inside
    rw [getMsbD_bitMask (by decide) _ inside, BitVec.toNat_umod]
    rfl
  apply Subnets.of_fills
  case ext =>
    intro a b same equal
    have small : ∀ c : IPv6Address, beValue c.address.addr.toList < 2 ^ 128 := by
      intro c
      have bound := beValue_lt c.address.addr.toList
      rwa [Vector.length_toList, show 256 ^ 16 = 2 ^ 128 from rfl] at bound
    have value : beValue b.address.addr.toList = beValue a.address.addr.toList := by
      have numbers := congrArg BitVec.toNat equal
      simp only [bits, BitVec.toNat_ofNat] at numbers
      rwa [Nat.mod_eq_of_lt (small b), Nat.mod_eq_of_lt (small a)] at numbers
    have addr : b.address.addr = a.address.addr := by
      have bytes : ∀ c : IPv6Address, beBytes 16 (beValue c.address.addr.toList) = c.address.addr.toList := by
        intro c
        have image := beBytes_beValue c.address.addr.toList
        rwa [Vector.length_toList] at image
      apply Vector.toList_inj.mp
      rw [← bytes b, value, bytes a]
    cases a
    cases b
    rw [Same, addr] at same
    exact congrArg IPv6Address.mk same
  case network_bits =>
    intro a p
    by_cases narrow : p.toNat < 128
    · apply fills_fillFrom 0x00 (andWith a.address.addr[p.toNat / 8] (bitMask 8 (p % 8))) narrow
      · simp only [getNetworkAddress, dif_pos narrow]
      · rw [toBitVec_andWith]
        exact fills_and (mask p)
      · decide
    · simp only [getNetworkAddress, dif_neg narrow]
      exact fills_self _ _ (by omega)
  case broadcast_bits =>
    intro a p
    by_cases narrow : p.toNat < 128
    · apply fills_fillFrom 0xFF (orNot a.address.addr[p.toNat / 8] (bitMask 8 (p % 8))) narrow
      · simp only [getBroadcastAddress, dif_pos narrow]
      · rw [toBitVec_orNot]
        exact fills_or (mask p)
      · decide
    · simp only [getBroadcastAddress, dif_neg narrow]
      exact fills_self _ _ (by omega)
  case network_same =>
    intro a p
    rw [Same, getNetworkAddress]
    split <;> rfl
  case broadcast_same =>
    intro a p
    rw [Same, getBroadcastAddress]
    split <;> rfl

end IPv6Address

/-- The subnet operations of both kinds of IP address. -/
theorem subnet_arithmetic (host : Host) :
    Subnets (IPv4Address.bits host) IPv4Address.Same (IPv4Address.getNetworkAddress host)
      (IPv4Address.getBroadcastAddress host) ∧
    Subnets IPv6Address.bits IPv6Address.Same IPv6Address.getNetworkAddress
      IPv6Address.getBroadcastAddress :=
  ⟨IPv4Address.subnets host, IPv6Address.subnets⟩

end Sylar
