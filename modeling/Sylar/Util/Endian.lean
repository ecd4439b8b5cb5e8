import Mathlib

/-!
# Byte order — `sylar::Endian`

A scalar is written to memory in the host's byte order, so what `write(&value, sizeof(value))` emits
depends on the host. `Host.toMemory` is that image and `Host.ofMemory` reads it back. `htons` and
`htonl` are stated by their contract: the value whose image on this host is the network image (most
significant byte first) of the argument. On a big-endian host they change nothing.

The 64-bit conversion has no libc function and is put together from two 32-bit ones, the halves
exchanged. On a little-endian host that is the full byte swap (`hostToNetwork64_little`). On a
big-endian host it only exchanges the halves. Either way it undoes itself
(`networkToHost64_hostToNetwork64`), which is all the readers and writers need.
-/

namespace Sylar

/-- The byte order of the machine the program runs on. -/
inductive Host where
  | little
  | big
  deriving DecidableEq, Repr

namespace Endian

/-! ## Most significant byte first -/

/-- The last `n` base-256 digits of `v`, most significant first. -/
def beBytes : Nat → Nat → List UInt8
  | 0, _ => []
  | n + 1, v => UInt8.ofNat (v / 256 ^ n) :: beBytes n v

/-- The number a byte string spells, most significant byte first. -/
def beValue : List UInt8 → Nat
  | [] => 0
  | b :: bs => b.toNat * 256 ^ bs.length + beValue bs

@[simp] theorem length_beBytes (n v : Nat) : (beBytes n v).length = n := by
  induction n with
  | zero => rfl
  | succ n ih => simp only [beBytes, List.length_cons, ih]

theorem beValue_lt (bs : List UInt8) : beValue bs < 256 ^ bs.length := by
  induction bs with
  | nil => simp only [beValue, List.length_nil, Nat.pow_zero, Nat.zero_lt_one]
  | cons b bs ih =>
    have hb : b.toNat + 1 ≤ 256 := b.toNat_lt
    have top := Nat.mul_le_mul_right (256 ^ bs.length) hb
    simp only [beValue, List.length_cons, Nat.pow_succ]
    rw [Nat.add_mul, Nat.one_mul] at top
    omega

theorem beValue_beBytes (n v : Nat) : beValue (beBytes n v) = v % 256 ^ n := by
  induction n with
  | zero => simp only [beBytes, beValue, Nat.pow_zero, Nat.mod_one]
  | succ n ih =>
    simp only [beBytes, beValue, length_beBytes, ih, UInt8.toNat_ofNat', Nat.reducePow]
    rw [Nat.pow_succ, Nat.mod_mul]
    ring

/-- The digits of `v` do not see what stands above them. -/
theorem beBytes_add_mul (n v k : Nat) : beBytes n (v + k * 256 ^ n) = beBytes n v := by
  induction n generalizing k with
  | zero => rfl
  | succ n ih =>
    simp only [beBytes]
    congr 1
    · apply UInt8.toNat_inj.mp
      rw [show k * 256 ^ (n + 1) = 256 ^ n * (k * 256) by ring,
        Nat.add_mul_div_left _ _ (Nat.pow_pos (by decide))]
      simp only [UInt8.toNat_ofNat', Nat.reducePow]
      omega
    · rw [show k * 256 ^ (n + 1) = (k * 256) * 256 ^ n by ring]
      exact ih (k * 256)

theorem beBytes_beValue (bs : List UInt8) : beBytes bs.length (beValue bs) = bs := by
  induction bs with
  | nil => rfl
  | cons b bs ih =>
    simp only [List.length_cons, beBytes, beValue]
    congr 1
    · apply UInt8.toNat_inj.mp
      rw [Nat.add_comm, Nat.add_mul_div_right _ _ (Nat.pow_pos (by decide)),
        Nat.div_eq_of_lt (beValue_lt bs)]
      simp only [Nat.zero_add, UInt8.ofNat_toNat]
    · rw [Nat.add_comm, beBytes_add_mul, ih]

/-- A number in two parts spells the digits of the upper part, then those of the lower. -/
theorem beBytes_append (m n hi lo : Nat) (h : lo < 256 ^ n) :
    beBytes (m + n) (hi * 256 ^ n + lo) = beBytes m hi ++ beBytes n lo := by
  induction m with
  | zero => rw [Nat.zero_add, Nat.add_comm (hi * _), beBytes_add_mul]; rfl
  | succ m ih =>
    rw [Nat.succ_add, beBytes, ih, beBytes, List.cons_append]
    congr 2
    rw [Nat.pow_add, Nat.mul_comm (256 ^ m), ← Nat.div_div_eq_div_mul, Nat.add_comm (hi * _),
      Nat.add_mul_div_right _ _ (Nat.pow_pos (by decide)), Nat.div_eq_of_lt h, Nat.zero_add]

end Endian

open Endian

/-! ## The image of a scalar in memory -/

/-- The `n` bytes a scalar with value `v` occupies in this host's memory. -/
def Host.toMemory : Host → Nat → Nat → List UInt8
  | .little, n, v => (beBytes n v).reverse
  | .big, n, v => beBytes n v

/-- The value of the scalar that occupies these bytes of this host's memory. -/
def Host.ofMemory : Host → List UInt8 → Nat
  | .little, bs => beValue bs.reverse
  | .big, bs => beValue bs

@[simp] theorem Host.length_toMemory (host : Host) (n v : Nat) : (host.toMemory n v).length = n := by
  cases host <;> simp only [Host.toMemory, List.length_reverse, length_beBytes]

theorem Host.ofMemory_toMemory (host : Host) (n v : Nat) :
    host.ofMemory (host.toMemory n v) = v % 256 ^ n := by
  cases host <;> simp only [Host.ofMemory, Host.toMemory, List.reverse_reverse, beValue_beBytes]

theorem Host.toMemory_ofMemory (host : Host) (bs : List UInt8) :
    host.toMemory bs.length (host.ofMemory bs) = bs := by
  cases host with
  | little =>
    simp only [Host.toMemory, Host.ofMemory]
    rw [← List.length_reverse, beBytes_beValue, List.reverse_reverse]
  | big => exact beBytes_beValue bs

theorem Host.ofMemory_lt (host : Host) (bs : List UInt8) : host.ofMemory bs < 256 ^ bs.length := by
  cases host with
  | little =>
    have h := beValue_lt bs.reverse
    rwa [List.length_reverse] at h
  | big => exact beValue_lt bs

namespace Endian

/-- `htons`, `htonl`: the value whose image on this host is the network image of `v`. -/
def hton (host : Host) (n v : Nat) : Nat := host.ofMemory (beBytes n v)

/-- `ntohs`, `ntohl`: the value whose network image is the image of `v` on this host. -/
def ntoh (host : Host) (n v : Nat) : Nat := beValue (host.toMemory n v)

theorem hton_lt (host : Host) (n v : Nat) : hton host n v < 256 ^ n := by
  have h := host.ofMemory_lt (beBytes n v)
  rwa [length_beBytes] at h

theorem ntoh_hton (host : Host) (n v : Nat) : ntoh host n (hton host n v) = v % 256 ^ n := by
  have image := host.toMemory_ofMemory (beBytes n v)
  rw [length_beBytes] at image
  rw [ntoh, hton, image, beValue_beBytes]

theorem ntoh_lt (host : Host) (n v : Nat) : ntoh host n v < 256 ^ n := by
  have h := beValue_lt (host.toMemory n v)
  rwa [Host.length_toMemory] at h

theorem hton_ntoh (host : Host) (n v : Nat) : hton host n (ntoh host n v) = v % 256 ^ n := by
  have image := beBytes_beValue (host.toMemory n v)
  rw [Host.length_toMemory] at image
  rw [hton, ntoh, image, Host.ofMemory_toMemory]

/-- What a converted value looks like in memory: the network image. -/
theorem toMemory_hton (host : Host) (n v : Nat) : host.toMemory n (hton host n v) = beBytes n v := by
  have image := host.toMemory_ofMemory (beBytes n v)
  rwa [length_beBytes] at image

/-! ## `Endian::host_to_network`, `Endian::network_to_host` -/

def hostToNetwork8 (value : BitVec 8) : BitVec 8 := value

def hostToNetwork16 (host : Host) (value : BitVec 16) : BitVec 16 :=
  BitVec.ofNat 16 (hton host 2 value.toNat)

def hostToNetwork32 (host : Host) (value : BitVec 32) : BitVec 32 :=
  BitVec.ofNat 32 (hton host 4 value.toNat)

def hostToNetwork64 (host : Host) (value : BitVec 64) : BitVec 64 :=
  ((hostToNetwork32 host ((value &&& 0xFFFFFFFF#64).setWidth 32)).setWidth 64 <<< 32) |||
    (hostToNetwork32 host ((value >>> 32).setWidth 32)).setWidth 64

def networkToHost8 (value : BitVec 8) : BitVec 8 := value

def networkToHost16 (host : Host) (value : BitVec 16) : BitVec 16 :=
  BitVec.ofNat 16 (ntoh host 2 value.toNat)

def networkToHost32 (host : Host) (value : BitVec 32) : BitVec 32 :=
  BitVec.ofNat 32 (ntoh host 4 value.toNat)

def networkToHost64 (host : Host) (value : BitVec 64) : BitVec 64 :=
  ((networkToHost32 host ((value &&& 0xFFFFFFFF#64).setWidth 32)).setWidth 64 <<< 32) |||
    (networkToHost32 host ((value >>> 32).setWidth 32)).setWidth 64

@[simp] theorem toNat_hostToNetwork32 (host : Host) (value : BitVec 32) :
    (hostToNetwork32 host value).toNat = hton host 4 value.toNat := by
  rw [hostToNetwork32, BitVec.toNat_ofNat]
  exact Nat.mod_eq_of_lt (hton_lt host 4 _)

theorem networkToHost16_hostToNetwork16 (host : Host) (value : BitVec 16) :
    networkToHost16 host (hostToNetwork16 host value) = value := by
  have low : hton host 2 value.toNat % 2 ^ 16 = hton host 2 value.toNat :=
    Nat.mod_eq_of_lt (hton_lt host 2 _)
  apply BitVec.eq_of_toNat_eq
  have := value.isLt
  rw [networkToHost16, hostToNetwork16, BitVec.toNat_ofNat, BitVec.toNat_ofNat, low, ntoh_hton]
  omega

theorem networkToHost32_hostToNetwork32 (host : Host) (value : BitVec 32) :
    networkToHost32 host (hostToNetwork32 host value) = value := by
  apply BitVec.eq_of_toNat_eq
  have := value.isLt
  rw [networkToHost32, BitVec.toNat_ofNat, toNat_hostToNetwork32, ntoh_hton]
  omega

theorem hostToNetwork16_networkToHost16 (host : Host) (value : BitVec 16) :
    hostToNetwork16 host (networkToHost16 host value) = value := by
  have low : ntoh host 2 value.toNat % 2 ^ 16 = ntoh host 2 value.toNat :=
    Nat.mod_eq_of_lt (ntoh_lt host 2 _)
  apply BitVec.eq_of_toNat_eq
  have := value.isLt
  rw [hostToNetwork16, networkToHost16, BitVec.toNat_ofNat, BitVec.toNat_ofNat, low, hton_ntoh]
  omega

theorem hostToNetwork32_networkToHost32 (host : Host) (value : BitVec 32) :
    hostToNetwork32 host (networkToHost32 host value) = value := by
  have low : ntoh host 4 value.toNat % 2 ^ 32 = ntoh host 4 value.toNat :=
    Nat.mod_eq_of_lt (ntoh_lt host 4 _)
  apply BitVec.eq_of_toNat_eq
  have := value.isLt
  rw [toNat_hostToNetwork32, networkToHost32, BitVec.toNat_ofNat, low, hton_ntoh]
  omega

/-- Two 32-bit halves put together. -/
private theorem toNat_halves (hi lo : BitVec 32) :
    ((hi.setWidth 64 <<< 32) ||| lo.setWidth 64).toNat = hi.toNat * 2 ^ 32 + lo.toNat := by
  have h1 := hi.isLt
  have h2 := lo.isLt
  rw [BitVec.toNat_or, BitVec.toNat_shiftLeft, BitVec.toNat_setWidth, BitVec.toNat_setWidth,
    Nat.mod_eq_of_lt (by omega : hi.toNat < 2 ^ 64), Nat.mod_eq_of_lt (by omega : lo.toNat < 2 ^ 64),
    Nat.mod_eq_of_lt (by rw [Nat.shiftLeft_eq]; omega), ← Nat.shiftLeft_add_eq_or_of_lt h2,
    Nat.shiftLeft_eq]

private theorem toNat_lowHalf (value : BitVec 64) :
    ((value &&& 0xFFFFFFFF#64).setWidth 32).toNat = value.toNat % 2 ^ 32 := by
  rw [BitVec.toNat_setWidth, BitVec.toNat_and, BitVec.toNat_ofNat,
    show (0xFFFFFFFF % 2 ^ 64 : Nat) = 2 ^ 32 - 1 by decide, Nat.and_two_pow_sub_one_eq_mod,
    Nat.mod_mod]

private theorem toNat_highHalf (value : BitVec 64) :
    ((value >>> 32).setWidth 32).toNat = value.toNat / 2 ^ 32 := by
  have := value.isLt
  rw [BitVec.toNat_setWidth, BitVec.toNat_ushiftRight, Nat.shiftRight_eq_div_pow]
  omega

/-- The value of the converted 64-bit scalar: the converted halves, exchanged. -/
theorem toNat_hostToNetwork64 (host : Host) (value : BitVec 64) :
    (hostToNetwork64 host value).toNat =
      hton host 4 (value.toNat % 2 ^ 32) * 2 ^ 32 + hton host 4 (value.toNat / 2 ^ 32) := by
  rw [hostToNetwork64, toNat_halves, toNat_hostToNetwork32, toNat_hostToNetwork32, toNat_lowHalf,
    toNat_highHalf]

theorem networkToHost64_hostToNetwork64 (host : Host) (value : BitVec 64) :
    networkToHost64 host (hostToNetwork64 host value) = value := by
  apply BitVec.eq_of_toNat_eq
  have bound := value.isLt
  have lo := hton_lt host 4 (value.toNat / 2 ^ 32)
  have hi := hton_lt host 4 (value.toNat % 2 ^ 32)
  rw [networkToHost64, toNat_halves, networkToHost32, networkToHost32, BitVec.toNat_ofNat,
    BitVec.toNat_ofNat, toNat_lowHalf, toNat_highHalf, toNat_hostToNetwork64,
    show (hton host 4 (value.toNat % 2 ^ 32) * 2 ^ 32 + hton host 4 (value.toNat / 2 ^ 32)) % 2 ^ 32 =
      hton host 4 (value.toNat / 2 ^ 32) by omega,
    show (hton host 4 (value.toNat % 2 ^ 32) * 2 ^ 32 + hton host 4 (value.toNat / 2 ^ 32)) / 2 ^ 32 =
      hton host 4 (value.toNat % 2 ^ 32) by omega,
    ntoh_hton, ntoh_hton]
  omega

/-! ## On a little-endian host the converted scalar is stored most significant byte first -/

theorem toMemory_hostToNetwork16 (host : Host) (value : BitVec 16) :
    host.toMemory 2 (hostToNetwork16 host value).toNat = beBytes 2 value.toNat := by
  have low : hton host 2 value.toNat % 2 ^ 16 = hton host 2 value.toNat :=
    Nat.mod_eq_of_lt (hton_lt host 2 _)
  rw [hostToNetwork16, BitVec.toNat_ofNat, low, toMemory_hton]

theorem toMemory_hostToNetwork32 (host : Host) (value : BitVec 32) :
    host.toMemory 4 (hostToNetwork32 host value).toNat = beBytes 4 value.toNat := by
  rw [toNat_hostToNetwork32, toMemory_hton]

/-- The exchange of the halves completes the byte swap. -/
theorem hostToNetwork64_little (value : BitVec 64) :
    Host.toMemory .little 8 (hostToNetwork64 .little value).toNat = beBytes 8 value.toNat := by
  have swap : ∀ v, (beBytes 4 (hton .little 4 v)).reverse = beBytes 4 v := toMemory_hton .little 4
  have stored : beBytes 8 (hton .little 4 (value.toNat % 2 ^ 32) * 2 ^ 32 +
      hton .little 4 (value.toNat / 2 ^ 32)) = beBytes 4 (hton .little 4 (value.toNat % 2 ^ 32)) ++
      beBytes 4 (hton .little 4 (value.toNat / 2 ^ 32)) :=
    beBytes_append 4 4 _ _ (hton_lt .little 4 _)
  have network := beBytes_append 4 4 (value.toNat / 2 ^ 32) (value.toNat % 2 ^ 32) (by omega)
  rw [show value.toNat / 2 ^ 32 * 256 ^ 4 + value.toNat % 2 ^ 32 = value.toNat by omega] at network
  rw [toNat_hostToNetwork64, Host.toMemory, stored, List.reverse_append, swap, swap]
  exact network.symm

end Endian

end Sylar
