import Sylar.Lib.Proc
import Sylar.Lib.Blocks
import Sylar.Util.Endian

/-!
# `sylar::ByteArray` — the block list

The array keeps its bytes in a singly linked list of memory blocks, all of `block_size_` bytes, and
two positions with a cached block each. Here the list is a Lean list of blocks, root first, and a
block pointer is the number of the block in that list, `none` for a null pointer: `next` and
`linkBlock` are what the code does through `MemoryBlock::next`. Following a null pointer is stuck.

Two things the C++ text leaves to the machine are in the state. A new block holds whatever the
allocator returns (`junk`, by allocation), so a byte that is read before it was written is never
silently zero. And the sizes are `size_t`: allocation always succeeds and no block list holds more bytes
than a string may have (`maxSize`), so a sum never overflows, but a difference may wrap (`sizeSub`).

The loops take the number of bytes they still have to move as fuel. Every iteration moves at least
one byte when the block size is positive, and running out is stuck.
-/

namespace Sylar

open Lib

/-- The exceptions the array and the streams over it throw, with their `what()`. A `length_error` comes
from the standard library, which has a text of its own for it. -/
inductive Exn where
  | outOfRange (what : String)
  | logicError (what : String)
  | runtimeError (what : String)
  | lengthError
  deriving DecidableEq, Repr

/-- `a - b` on `size_t`. -/
def sizeSub (a b : Nat) : Nat := if b ≤ a then a - b else a + 2 ^ 64 - b

theorem sizeSub_of_le {a b : Nat} (h : b ≤ a) : sizeSub a b = a - b := if_pos h

structure ByteArray where
  blockSize : Nat
  capacity : Nat
  /-- The contents of the blocks, from `root_` on. -/
  blocks : List (List UInt8)
  readPos : Nat
  writePos : Nat
  readCur : Option Nat
  writeCur : Option Nat
  /-- Byte `j` of the `i`-th allocated block, before anything is written to it. -/
  junk : Nat → Nat → UInt8
  /-- How many blocks were allocated so far. -/
  allocs : Nat

namespace ByteArray

/-- `std::string::max_size()`. -/
def maxSize : Nat := 2 ^ 63 - 1

/-- Code over a byte array. -/
abbrev M := Proc Exn ByteArray

/-- `ByteArray::ByteArray(block_size)`. -/
def init (blockSize : Nat) (junk : Nat → Nat → UInt8) : ByteArray :=
  { blockSize, capacity := 0, blocks := [], readPos := 0, writePos := 0, readCur := none,
    writeCur := none, junk, allocs := 0 }

/-- `root_`. -/
def root (s : ByteArray) : Option Nat := if s.blocks = [] then none else some 0

/-- `cur->next`. -/
def next (s : ByteArray) (cur : Nat) : Option Nat :=
  if cur + 1 < s.blocks.length then some (cur + 1) else none

def getReadPosition (s : ByteArray) : Nat := s.readPos

def getWritePosition (s : ByteArray) : Nat := s.writePos

def getSize (s : ByteArray) : Nat := s.writePos

def getUnreadSize (s : ByteArray) : Nat := sizeSub s.writePos s.readPos

def getCapacity (s : ByteArray) : Nat := s.capacity

def getSpareCapacity (s : ByteArray) : Nat := sizeSub s.capacity s.writePos

/-- The contents of a freshly allocated `MemoryBlock`. -/
def newBlock (s : ByteArray) : List UInt8 := (List.range s.blockSize).map (s.junk s.allocs)

/-- The block behind a pointer, with its number. Following a null pointer is stuck. -/
def deref (cur : Option Nat) : M (Nat × List UInt8) := do
  let i ← Proc.demand cur
  let s ← Proc.read
  let block ← Proc.demand s.blocks[i]?
  pure (i, block)

/-! ## `expand_capacity` -/

/-- `while(cur_block->next) cur_block = cur_block->next;` -/
def lastBlock (s : ByteArray) : Nat → Nat → Nat
  | 0, cur => cur
  | fuel + 1, cur =>
    match s.next cur with
    | some cur' => lastBlock s fuel cur'
    | none => cur

/-- `cur_block->next = new MemoryBlock(block_size_)` and the new capacity. -/
def linkBlock (cur : Nat) (s : ByteArray) : ByteArray :=
  { s with
    blocks := s.blocks.take (cur + 1) ++ [s.newBlock]
    allocs := s.allocs + 1
    capacity := s.capacity + s.blockSize }

/-- The loop that adds blocks until there is room for more than `size` bytes. -/
def growLoop (size : Nat) : Nat → Nat → M Unit
  | 0, _ => do
    let s ← Proc.read
    if s.getSpareCapacity ≤ size then Proc.abort else pure ()
  | fuel + 1, cur => do
    let s ← Proc.read
    if s.getSpareCapacity ≤ size then
      Proc.update (linkBlock cur)
      growLoop size fuel (cur + 1)
    else pure ()

/-- The first block of an empty list. -/
def firstBlock (s : ByteArray) : ByteArray :=
  { s with
    blocks := [s.newBlock]
    allocs := s.allocs + 1
    writeCur := some 0
    readCur := some 0
    capacity := s.blockSize }

/-- Ensure there is enough space to write `size + 1` bytes. -/
def expandCapacity (size : Nat) : M Unit := do
  Proc.update fun s => if s.root = none then s.firstBlock else s
  let s ← Proc.read
  let (cur, _) ← deref s.writeCur
  growLoop size (size + 1) (s.lastBlock s.blocks.length cur)

/-! ## `write` and `read` -/

/-- `memcpy(cur->data + off, data, size)`. -/
def store (cur off : Nat) (data : List UInt8) (s : ByteArray) : ByteArray :=
  { s with blocks := s.blocks.modify cur (splice · off data) }

/-- Move the write position on by `n`, and to the next block at a block's end. -/
def advanceWrite (cur n : Nat) (s : ByteArray) : ByteArray :=
  { s with
    writePos := s.writePos + n
    writeCur := if (s.writePos + n) % s.blockSize = 0 then s.next cur else s.writeCur }

/-- Move the read position on by `n`, and to the next block at a block's end. -/
def advanceRead (cur n : Nat) (s : ByteArray) : ByteArray :=
  { s with
    readPos := s.readPos + n
    readCur := if (s.readPos + n) % s.blockSize = 0 then s.next cur else s.readCur }

/-- The loop of `write`; `src` is what is still to be written. -/
def writeLoop : Nat → List UInt8 → M Unit
  | 0, src => if src = [] then pure () else Proc.abort
  | fuel + 1, src =>
    if src = [] then pure ()
    else do
      let s ← Proc.read
      let blockPos := s.writePos % s.blockSize
      let blockSpace := s.blockSize - blockPos
      let writeSize := min blockSpace src.length
      let (cur, _) ← deref s.writeCur
      Proc.update (store cur blockPos (src.take writeSize))
      Proc.update (advanceWrite cur writeSize)
      writeLoop fuel (src.drop writeSize)

/-- `ByteArray::write(data, size)`. -/
def write (data : List UInt8) : M Unit :=
  if data.length = 0 then pure ()
  else do
    expandCapacity data.length
    writeLoop data.length data

/-- The loop of `read`; `size` is how much is still to be read. -/
def readLoop : Nat → Nat → M (List UInt8)
  | 0, size => if size = 0 then pure [] else Proc.abort
  | fuel + 1, size =>
    if size = 0 then pure []
    else do
      let s ← Proc.read
      let blockPos := s.readPos % s.blockSize
      let blockSpace := s.blockSize - blockPos
      let readSize := min blockSpace size
      let (cur, data) ← deref s.readCur
      Proc.update (advanceRead cur readSize)
      let rest ← readLoop fuel (size - readSize)
      pure ((data.drop blockPos).take readSize ++ rest)

/-- `ByteArray::read(buf, size)`: the bytes copied to `buf`. Their number is what it returns. -/
def read (size : Nat) : M (List UInt8) := do
  let s ← Proc.read
  let size := min size s.getUnreadSize
  if size = 0 then pure [] else readLoop size size

/-! ## Positions -/

/-- `while(block_idx--) cur = cur->next;` -/
def walk (s : ByteArray) : Nat → Option Nat → M (Option Nat)
  | 0, cur => pure cur
  | n + 1, cur => do
    let i ← Proc.demand cur
    walk s n (s.next i)

/-- `ByteArray::set_read_position(pos)`. -/
def setReadPosition (pos : Nat) : M Unit := do
  let s ← Proc.read
  if pos > s.writePos then Proc.raise (.outOfRange "ByteArray::set_read_position out of range")
  else do
    let cur ← walk s (pos / s.blockSize) s.root
    Proc.update fun s => { s with readPos := pos, readCur := cur }

/-- `ByteArray::set_write_position(pos)`. -/
def setWritePosition (pos : Nat) : M Unit := do
  let s ← Proc.read
  if pos > s.capacity then expandCapacity (pos - s.capacity) else pure ()
  let s ← Proc.read
  let cur ← walk s (pos / s.blockSize) s.root
  Proc.update fun s => { s with writePos := pos, writeCur := cur }

/-! ## Scatter and gather buffers -/

/-- An `iovec` into a block: the block, the offset of `iov_base` in it, and `iov_len`. -/
structure IoVec where
  block : Nat
  off : Nat
  len : Nat
  deriving DecidableEq, Repr

/-- The loop of `get_read_buffers` and `get_write_buffers`, from position `pos` in block `cur`. -/
def buffersLoop (s : ByteArray) : Nat → Nat → Option Nat → Nat → M (List IoVec)
  | 0, _, _, length => if length = 0 then pure [] else Proc.abort
  | fuel + 1, pos, cur, length =>
    if length = 0 then pure []
    else do
      let blockPos := pos % s.blockSize
      let blockSpace := s.blockSize - blockPos
      let size := min blockSpace length
      let (i, _) ← deref cur
      let cur' := if (pos + size) % s.blockSize = 0 then s.next i else some i
      let rest ← buffersLoop s fuel (pos + size) cur' (length - size)
      pure ({ block := i, off := blockPos, len := size } :: rest)

/-- `ByteArray::get_read_buffers(buffers, length)`. -/
def getReadBuffers (length : Nat) : M (List IoVec) := do
  let s ← Proc.read
  let length := min length s.getUnreadSize
  if length = 0 then pure [] else buffersLoop s length s.readPos s.readCur length

/-- `ByteArray::get_write_buffers(buffers, length)`. -/
def getWriteBuffers (length : Nat) : M (List IoVec) :=
  if length = 0 then pure []
  else do
    expandCapacity length
    let s ← Proc.read
    buffersLoop s length s.writePos s.writeCur length

/-- The bytes the regions hold, in order: what `writev` sends from them. -/
def gather (s : ByteArray) (iovs : List IoVec) : List UInt8 :=
  iovs.flatMap fun v => ((s.blocks.getD v.block []).drop v.off).take v.len

/-- Fill the regions with `data`, in order: what `readv` does with them. -/
def scatter : List IoVec → List UInt8 → ByteArray → ByteArray
  | [], _, s => s
  | v :: iovs, data, s => scatter iovs (data.drop v.len) (store v.block v.off (data.take v.len) s)

/-! ## `to_hex_string` and `clear` -/

/-- One hexadecimal digit as `std::hex` prints it. -/
def hexDigit (n : Nat) : Char := "0123456789abcdef".toList.getD n '0'

/-- A byte with `width(2)`, `fill('0')`, and the blank after it. -/
def hexByte (byte : UInt8) : List Char :=
  [hexDigit (byte.toNat / 16), hexDigit (byte.toNat % 16), ' ']

/-- `ByteArray::to_hex_string()`. -/
def toHexString : M (List Char) := do
  let s ← Proc.read
  let oldReadPos := s.getReadPosition
  let str ← read s.getUnreadSize
  setReadPosition oldReadPos
  pure (str.flatMap hexByte)

/-- `ByteArray::clear()`. -/
def clear : M Unit :=
  Proc.update fun s =>
    { s with
      blocks := []
      readCur := none
      writeCur := none
      writePos := 0
      readPos := 0
      capacity := 0 }

end ByteArray

end Sylar
