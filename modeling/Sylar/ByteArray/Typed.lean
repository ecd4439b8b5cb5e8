import Sylar.ByteArray.Basic

/-!
# The typed readers and writers of `sylar::ByteArray`

Every typed writer builds a few bytes and calls `write` once. Every typed reader calls `read`, and
when it got fewer bytes than the item needs it moves the read position back by what it took and
throws. The integers are bit vectors: a signed and an unsigned type of one width differ only in how a
caller reads the bits, and the arithmetic of the zigzag map needs no more than that.

The varint buffers of the source have room for 5 and 10 bytes. `varBytes` is not cut at that size;
`varItem_varBytes32` and `varItem_varBytes64` say that it never needs more.
-/

namespace Sylar.ByteArray

open Lib Endian

/-! ## Zigzag and varint coding -/

/-- `encode_zigzag<T>`: `(v << 1) ^ (v >> (sizeof(T) * 8 - 1))` on a signed type. -/
def encodeZigzag {w : Nat} (v : BitVec w) : BitVec w := (v <<< 1) ^^^ v.sshiftRight (w - 1)

/-- `decode_zigzag<T>`: `(v >> 1) ^ -(v & 1)` on an unsigned type. -/
def decodeZigzag {w : Nat} (v : BitVec w) : BitVec w := (v >>> 1) ^^^ -(v &&& 1#w)

/-- The bytes `write_var_ul` and `write_var_ull` collect in `value_bytes`. -/
def varBytes {w : Nat} : Nat → BitVec w → List UInt8
  | 0, value => [UInt8.ofNat value.toNat]
  | fuel + 1, value =>
    if value.toNat ≥ 0x80 then
      UInt8.ofNat (((value &&& 0x7F#w) ||| 0x80#w).toNat) :: varBytes fuel (value >>> 7)
    else [UInt8.ofNat value.toNat]

/-! ## Writers -/

def writeFixB (value : BitVec 8) : M Unit := write [UInt8.ofNat value.toNat]

def writeFixS (host : Host) (value : BitVec 16) : M Unit :=
  write (host.toMemory 2 (hostToNetwork16 host value).toNat)

def writeFixL (host : Host) (value : BitVec 32) : M Unit :=
  write (host.toMemory 4 (hostToNetwork32 host value).toNat)

def writeFixLL (host : Host) (value : BitVec 64) : M Unit :=
  write (host.toMemory 8 (hostToNetwork64 host value).toNat)

def writeVarUL (value : BitVec 32) : M Unit := write (varBytes 32 value)

def writeVarL (value : BitVec 32) : M Unit := writeVarUL (encodeZigzag value)

def writeVarULL (value : BitVec 64) : M Unit := write (varBytes 64 value)

def writeVarLL (value : BitVec 64) : M Unit := writeVarULL (encodeZigzag value)

/-- The bit pattern of a `float`. -/
def writeFloat (host : Host) (value : BitVec 32) : M Unit := write (host.toMemory 4 value.toNat)

/-- The bit pattern of a `double`. -/
def writeDouble (host : Host) (value : BitVec 64) : M Unit := write (host.toMemory 8 value.toNat)

def writeString (value : List UInt8) : M Unit := write value

/-- The length goes through the 32-bit varint writer, so it is taken modulo 2^32. -/
def writeStringWithLength (value : List UInt8) : M Unit := do
  writeVarUL (BitVec.ofNat 32 value.length)
  writeString value

/-! ## Readers -/

/-- Move the read position back by `n` and throw. -/
def rewind {α : Type} (n : Nat) (what : String) : M α := do
  let s ← Proc.read
  setReadPosition (sizeSub s.readPos n)
  Proc.raise (.outOfRange what)

/-- Read exactly `n` bytes, or nothing: the body of every fixed-size reader. `back` more bytes, those
an earlier part of the same item took, are given back when there are too few. -/
def readExact (n back : Nat) (what : String) : M (List UInt8) := do
  let bytes ← read n
  if bytes.length ≠ n then rewind (bytes.length + back) what else pure bytes

/-- `READ_FIX_IMPL`: read the scalar's bytes as this host's memory, then convert. -/
def readFix {w : Nat} (host : Host) (n : Nat) (convert : BitVec w → BitVec w) (what : String) :
    M (BitVec w) := do
  let bytes ← readExact n 0 what
  pure (convert (BitVec.ofNat w (host.ofMemory bytes)))

def readFixB (host : Host) : M (BitVec 8) :=
  readFix host 1 networkToHost8 "ByteArray::read_fix_b out of range"

def readFixUB (host : Host) : M (BitVec 8) :=
  readFix host 1 networkToHost8 "ByteArray::read_fix_ub out of range"

def readFixS (host : Host) : M (BitVec 16) :=
  readFix host 2 (networkToHost16 host) "ByteArray::read_fix_s out of range"

def readFixUS (host : Host) : M (BitVec 16) :=
  readFix host 2 (networkToHost16 host) "ByteArray::read_fix_us out of range"

def readFixL (host : Host) : M (BitVec 32) :=
  readFix host 4 (networkToHost32 host) "ByteArray::read_fix_l out of range"

def readFixUL (host : Host) : M (BitVec 32) :=
  readFix host 4 (networkToHost32 host) "ByteArray::read_fix_ul out of range"

def readFixLL (host : Host) : M (BitVec 64) :=
  readFix host 8 (networkToHost64 host) "ByteArray::read_fix_ll out of range"

def readFixULL (host : Host) : M (BitVec 64) :=
  readFix host 8 (networkToHost64 host) "ByteArray::read_fix_ull out of range"

/-- The loop of `read_var_ul` and `read_var_ull`: `n` turns are left of the 5 or 10, `i` are done. -/
def readVarLoop {w : Nat} (what : String) : Nat → Nat → BitVec w → M (BitVec w)
  | 0, _, result => pure result
  | n + 1, i, result => do
    let bytes ← read 1
    match bytes with
    | [byte] =>
      if byte.toNat < 0x80 then pure (result ||| (BitVec.ofNat w byte.toNat <<< (7 * i)))
      else readVarLoop what n (i + 1) (result ||| ((BitVec.ofNat w byte.toNat &&& 0x7F#w) <<< (7 * i)))
    | _ => rewind (bytes.length + i) what

def readVarUL : M (BitVec 32) := readVarLoop "ByteArray::read_var_ul out of range" 5 0 0#32

def readVarL : M (BitVec 32) := do
  let value ← readVarUL
  pure (decodeZigzag value)

def readVarULL : M (BitVec 64) := readVarLoop "ByteArray::read_var_ull out of range" 10 0 0#64

def readVarLL : M (BitVec 64) := do
  let value ← readVarULL
  pure (decodeZigzag value)

def readFloat (host : Host) : M (BitVec 32) :=
  readFix host 4 id "ByteArray::read_float out of range"

def readDouble (host : Host) : M (BitVec 64) :=
  readFix host 8 id "ByteArray::read_double out of range"

/-- The length is read by the fixed-width reader, although `writeStringWithLength` wrote a varint. It
has 32 bits, so the string is never too long for `str.resize(length)`. -/
def readString (host : Host) : M (List UInt8) := do
  let length ← readFixUL host
  readExact length.toNat 4 "ByteArray::read_string out of range"

/-- `str.resize(length)` comes before the read. -/
def readStringWithLength (length : Nat) : M (List UInt8) :=
  if maxSize < length then Proc.raise .lengthError
  else readExact length 0 "ByteArray::read_string_with_length out of range"

end Sylar.ByteArray
