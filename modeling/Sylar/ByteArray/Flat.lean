import Sylar.ByteArray.Typed

/-!
# The flat buffer — what a byte array is for

One list of bytes, those written so far, and a read index into it. Nothing here knows about blocks.
A typed write appends the bytes of its item. A typed read takes the bytes of its item off the unread
ones; when they end before the item does, it throws and takes nothing.

`Op` is the interface of the byte array as a caller drives it, one constructor for each call (and one
for the sequence "get write buffers, fill them, move the write position" that the socket code uses),
`ByteArray.apply` is that call on the block list, and `FlatBuffer.apply` the same call on the flat
buffer.
-/

namespace Sylar

open Lib Endian

/-- The bytes written so far and an index into them. -/
structure FlatBuffer where
  bytes : List UInt8
  readPos : Nat
  le : readPos ≤ bytes.length

namespace FlatBuffer

/-- Code over a flat buffer. -/
abbrev M := Proc Exn FlatBuffer

def empty : FlatBuffer := ⟨[], 0, Nat.le_refl 0⟩

/-- The bytes behind the read index. -/
def unread (f : FlatBuffer) : List UInt8 := f.bytes.drop f.readPos

/-- The read index moved behind the next `n` unread bytes, or behind all of them. -/
def advance (n : Nat) (f : FlatBuffer) : FlatBuffer :=
  ⟨f.bytes, f.readPos + min n f.unread.length, by
    have := f.le
    simp only [unread, List.length_drop]
    omega⟩

/-- The read index moved back by `n`. -/
def back (n : Nat) (f : FlatBuffer) : FlatBuffer :=
  ⟨f.bytes, f.readPos - n, Nat.le_trans (Nat.sub_le _ _) f.le⟩

def write (data : List UInt8) : M Unit :=
  Proc.update fun f => ⟨f.bytes ++ data, f.readPos, by
    have := f.le
    rw [List.length_append]
    omega⟩

/-- Up to `n` unread bytes. -/
def read (n : Nat) : M (List UInt8) := do
  let f ← Proc.read
  Proc.update (advance n)
  pure (f.unread.take n)

/-- Exactly the next `n` unread bytes, or an exception and no change. -/
def readExact (n : Nat) (what : String) : M (List UInt8) := do
  let f ← Proc.read
  if n ≤ f.unread.length then read n else Proc.raise (.outOfRange what)

def setReadPosition (pos : Nat) : M Unit := fun f =>
  if h : pos ≤ f.bytes.length then .done () ⟨f.bytes, pos, h⟩
  else .thrown (.outOfRange "ByteArray::set_read_position out of range") f

/-- The bytes of the varint at the head of a byte string: up to and including the first one below
`0x80`, and never more than `n`. -/
def varItem : Nat → List UInt8 → Option (List UInt8)
  | 0, _ => some []
  | _ + 1, [] => none
  | n + 1, b :: bs => if b.toNat < 0x80 then some [b] else (varItem n bs).map (b :: ·)

/-- The 7-bit groups of a varint, from group `i` on, put over `result`. -/
def varValue {w : Nat} : Nat → BitVec w → List UInt8 → BitVec w
  | _, result, [] => result
  | i, result, b :: bs =>
    varValue (i + 1) (result ||| ((BitVec.ofNat w b.toNat &&& 0x7F#w) <<< (7 * i))) bs

/-- The varint at the read index, or an exception and no change. -/
def readVar (w n : Nat) (what : String) : M (BitVec w) := do
  let f ← Proc.read
  match varItem n f.unread with
  | some item => do
    Proc.update (advance item.length)
    pure (varValue 0 0#w item)
  | none => Proc.raise (.outOfRange what)

/-- A scalar of `n` bytes, stored as this host's memory. -/
def readFix {w : Nat} (host : Host) (n : Nat) (convert : BitVec w → BitVec w) (what : String) :
    M (BitVec w) := do
  let bytes ← readExact n what
  pure (convert (BitVec.ofNat w (host.ofMemory bytes)))

/-- A string of `n` bytes, or an exception and no change. More bytes than a string may have are refused
whatever there is to read. -/
def readStringWithLength (n : Nat) : M (List UInt8) :=
  if ByteArray.maxSize < n then Proc.raise .lengthError
  else readExact n "ByteArray::read_string_with_length out of range"

/-- A 32-bit length and that many bytes: both there, or an exception and no change. -/
def readString (host : Host) : M (List UInt8) := fun f =>
  match readFix host 4 (networkToHost32 host) "ByteArray::read_fix_ul out of range" f with
  | .done length f' =>
    if length.toNat ≤ f'.unread.length then read length.toNat f'
    else .thrown (.outOfRange "ByteArray::read_string out of range") f
  | .thrown e f' => .thrown e f'
  | .stuck => .stuck

end FlatBuffer

/-! ## The interface -/

/-- A typed writer with its argument. -/
inductive Writer where
  | fixB (value : BitVec 8)
  | fixS (value : BitVec 16)
  | fixL (value : BitVec 32)
  | fixLL (value : BitVec 64)
  | varL (value : BitVec 32)
  | varUL (value : BitVec 32)
  | varLL (value : BitVec 64)
  | varULL (value : BitVec 64)
  | float (value : BitVec 32)
  | double (value : BitVec 64)
  | string (value : List UInt8)
  | stringWithLength (value : List UInt8)
  deriving DecidableEq, Repr

/-- A typed reader. -/
inductive Reader where
  | fixB | fixUB | fixS | fixUS | fixL | fixUL | fixLL | fixULL
  | varL | varUL | varLL | varULL
  | float | double
  | string
  | stringWithLength (length : Nat)
  deriving DecidableEq, Repr

/-- What a call gives back. -/
inductive Value where
  | unit
  | bits (width : Nat) (value : BitVec width)
  | bytes (value : List UInt8)
  | text (value : List Char)
  | count (value : Nat)
  deriving DecidableEq, Repr

/-- One call of the byte array's interface. `storeBuffers n data` is `get_write_buffers(n)`, then
`data`, at most `n` bytes, stored into the returned regions, then
`set_write_position(get_write_position() + data.length)`. -/
inductive Op where
  | write (data : List UInt8)
  | read (size : Nat)
  | put (writer : Writer)
  | get (reader : Reader)
  | setReadPosition (pos : Nat)
  | getReadBuffers (length : Nat)
  | storeBuffers (length : Nat) (data : List UInt8) (fits : data.length ≤ length)
  | toHexString
  | clear

/-- The typed writer's call. -/
def Writer.call (host : Host) : Writer → ByteArray.M Unit
  | .fixB value => ByteArray.writeFixB value
  | .fixS value => ByteArray.writeFixS host value
  | .fixL value => ByteArray.writeFixL host value
  | .fixLL value => ByteArray.writeFixLL host value
  | .varL value => ByteArray.writeVarL value
  | .varUL value => ByteArray.writeVarUL value
  | .varLL value => ByteArray.writeVarLL value
  | .varULL value => ByteArray.writeVarULL value
  | .float value => ByteArray.writeFloat host value
  | .double value => ByteArray.writeDouble host value
  | .string value => ByteArray.writeString value
  | .stringWithLength value => ByteArray.writeStringWithLength value

/-- The bytes a typed writer emits. -/
def Writer.bytes (host : Host) : Writer → List UInt8
  | .fixB value => [UInt8.ofNat value.toNat]
  | .fixS value => host.toMemory 2 (hostToNetwork16 host value).toNat
  | .fixL value => host.toMemory 4 (hostToNetwork32 host value).toNat
  | .fixLL value => host.toMemory 8 (hostToNetwork64 host value).toNat
  | .varL value => ByteArray.varBytes 32 (ByteArray.encodeZigzag value)
  | .varUL value => ByteArray.varBytes 32 value
  | .varLL value => ByteArray.varBytes 64 (ByteArray.encodeZigzag value)
  | .varULL value => ByteArray.varBytes 64 value
  | .float value => host.toMemory 4 value.toNat
  | .double value => host.toMemory 8 value.toNat
  | .string value => value
  | .stringWithLength value => ByteArray.varBytes 32 (BitVec.ofNat 32 value.length) ++ value

/-- The typed reader's call. -/
def Reader.call (host : Host) : Reader → ByteArray.M Value
  | .fixB => do let v ← ByteArray.readFixB host; pure (.bits 8 v)
  | .fixUB => do let v ← ByteArray.readFixUB host; pure (.bits 8 v)
  | .fixS => do let v ← ByteArray.readFixS host; pure (.bits 16 v)
  | .fixUS => do let v ← ByteArray.readFixUS host; pure (.bits 16 v)
  | .fixL => do let v ← ByteArray.readFixL host; pure (.bits 32 v)
  | .fixUL => do let v ← ByteArray.readFixUL host; pure (.bits 32 v)
  | .fixLL => do let v ← ByteArray.readFixLL host; pure (.bits 64 v)
  | .fixULL => do let v ← ByteArray.readFixULL host; pure (.bits 64 v)
  | .varL => do let v ← ByteArray.readVarL; pure (.bits 32 v)
  | .varUL => do let v ← ByteArray.readVarUL; pure (.bits 32 v)
  | .varLL => do let v ← ByteArray.readVarLL; pure (.bits 64 v)
  | .varULL => do let v ← ByteArray.readVarULL; pure (.bits 64 v)
  | .float => do let v ← ByteArray.readFloat host; pure (.bits 32 v)
  | .double => do let v ← ByteArray.readDouble host; pure (.bits 64 v)
  | .string => do let v ← ByteArray.readString host; pure (.bytes v)
  | .stringWithLength n => do let v ← ByteArray.readStringWithLength n; pure (.bytes v)

/-- The typed reader on the flat buffer. -/
def Reader.flat (host : Host) : Reader → FlatBuffer.M Value
  | .fixB => do
    let v ← FlatBuffer.readFix host 1 networkToHost8 "ByteArray::read_fix_b out of range"
    pure (.bits 8 v)
  | .fixUB => do
    let v ← FlatBuffer.readFix host 1 networkToHost8 "ByteArray::read_fix_ub out of range"
    pure (.bits 8 v)
  | .fixS => do
    let v ← FlatBuffer.readFix host 2 (networkToHost16 host) "ByteArray::read_fix_s out of range"
    pure (.bits 16 v)
  | .fixUS => do
    let v ← FlatBuffer.readFix host 2 (networkToHost16 host) "ByteArray::read_fix_us out of range"
    pure (.bits 16 v)
  | .fixL => do
    let v ← FlatBuffer.readFix host 4 (networkToHost32 host) "ByteArray::read_fix_l out of range"
    pure (.bits 32 v)
  | .fixUL => do
    let v ← FlatBuffer.readFix host 4 (networkToHost32 host) "ByteArray::read_fix_ul out of range"
    pure (.bits 32 v)
  | .fixLL => do
    let v ← FlatBuffer.readFix host 8 (networkToHost64 host) "ByteArray::read_fix_ll out of range"
    pure (.bits 64 v)
  | .fixULL => do
    let v ← FlatBuffer.readFix host 8 (networkToHost64 host) "ByteArray::read_fix_ull out of range"
    pure (.bits 64 v)
  | .varL => do
    let v ← FlatBuffer.readVar 32 5 "ByteArray::read_var_ul out of range"
    pure (.bits 32 (ByteArray.decodeZigzag v))
  | .varUL => do
    let v ← FlatBuffer.readVar 32 5 "ByteArray::read_var_ul out of range"
    pure (.bits 32 v)
  | .varLL => do
    let v ← FlatBuffer.readVar 64 10 "ByteArray::read_var_ull out of range"
    pure (.bits 64 (ByteArray.decodeZigzag v))
  | .varULL => do
    let v ← FlatBuffer.readVar 64 10 "ByteArray::read_var_ull out of range"
    pure (.bits 64 v)
  | .float => do
    let v ← FlatBuffer.readFix host 4 id "ByteArray::read_float out of range"
    pure (.bits 32 v)
  | .double => do
    let v ← FlatBuffer.readFix host 8 id "ByteArray::read_double out of range"
    pure (.bits 64 v)
  | .string => do
    let v ← FlatBuffer.readString host
    pure (.bytes v)
  | .stringWithLength n => do
    let v ← FlatBuffer.readStringWithLength n
    pure (.bytes v)

/-- The call on the block list. -/
def ByteArray.apply (host : Host) : Op → ByteArray.M Value
  | .write data => do
    ByteArray.write data
    pure .unit
  | .read size => do
    let bytes ← ByteArray.read size
    pure (.bytes bytes)
  | .put writer => do
    writer.call host
    pure .unit
  | .get reader => reader.call host
  | .setReadPosition pos => do
    ByteArray.setReadPosition pos
    pure .unit
  | .getReadBuffers length => do
    let iovs ← ByteArray.getReadBuffers length
    let s ← Proc.read
    pure (.bytes (s.gather iovs))
  | .storeBuffers length data _ => do
    let iovs ← ByteArray.getWriteBuffers length
    Proc.update (ByteArray.scatter iovs data)
    let s ← Proc.read
    ByteArray.setWritePosition (s.getWritePosition + data.length)
    pure (.count (iovs.map (·.len)).sum)
  | .toHexString => do
    let text ← ByteArray.toHexString
    pure (.text text)
  | .clear => do
    ByteArray.clear
    pure .unit

/-- The same call on the flat buffer. -/
def FlatBuffer.apply (host : Host) : Op → FlatBuffer.M Value
  | .write data => do
    FlatBuffer.write data
    pure .unit
  | .read size => do
    let bytes ← FlatBuffer.read size
    pure (.bytes bytes)
  | .put writer => do
    FlatBuffer.write (writer.bytes host)
    pure .unit
  | .get reader => reader.flat host
  | .setReadPosition pos => do
    FlatBuffer.setReadPosition pos
    pure .unit
  | .getReadBuffers length => do
    let f ← Proc.read
    pure (.bytes (f.unread.take length))
  | .storeBuffers length data _ => do
    FlatBuffer.write data
    pure (.count length)
  | .toHexString => do
    let f ← Proc.read
    pure (.text (f.unread.flatMap ByteArray.hexByte))
  | .clear => do
    Proc.update fun _ => FlatBuffer.empty
    pure .unit

/-- The positions and sizes a caller can ask for between two calls. -/
structure Positions where
  readPosition : Nat
  writePosition : Nat
  size : Nat
  unreadSize : Nat
  deriving DecidableEq, Repr

def ByteArray.positions (s : ByteArray) : Positions :=
  ⟨s.getReadPosition, s.getWritePosition, s.getSize, s.getUnreadSize⟩

def FlatBuffer.positions (f : FlatBuffer) : Positions :=
  ⟨f.readPos, f.bytes.length, f.bytes.length, f.unread.length⟩

end Sylar
