import Sylar.ByteArray.Basic

/-!
# Socket streams

The model of `SocketStream::read`, `read_fix_length` and `read_chunked_body`. What a connection still
delivers is a list of segments: each `recv` returns a prefix of the first one, and the end of the list
is the end of the connection, which the stream reports by throwing.

`read_chunked_body` keeps the bytes of its last read in the caller's buffer and a position in them.
The loop takes fuel; every turn consumes a byte, so the number of bytes that can still come is enough
(`loop_isSome`).
-/

namespace Sylar

/-- What a connection still delivers, one segment for each `recv` with a large enough buffer. -/
abbrev Reads := List (List UInt8)

namespace SocketStream

/-- `read(buffer, length)`: `none` where the source throws, at the end of the connection or when
`recv` has no room and returns 0. -/
def read (length : Nat) : Reads → Option (List UInt8 × Reads)
  | [] => none
  | segment :: reads =>
    if length = 0 ∨ segment = [] then none
    else
      some (segment.take length,
        if segment.length ≤ length then reads else segment.drop length :: reads)

/-- The loop of `read_fix_length` over the bytes still missing. -/
def readFixLengthLoop : Nat → Nat → Reads → Option (List UInt8 × Reads)
  | _, 0, reads => some ([], reads)
  | 0, _ + 1, _ => none
  | fuel + 1, length + 1, reads => do
    let (got, reads) ← read (length + 1) reads
    let (rest, reads) ← readFixLengthLoop fuel (length + 1 - got.length) reads
    some (got ++ rest, reads)

/-- `read_fix_length(buffer, length)`. -/
def readFixLength (length : Nat) (reads : Reads) : Option (List UInt8 × Reads) :=
  readFixLengthLoop length length reads

/-! ## Chunked bodies -/

/-- `std::toupper` in the C locale. -/
def toupper (c : UInt8) : UInt8 := if 0x61 ≤ c ∧ c ≤ 0x7A then c - 0x20 else c

/-- The value of a hexadecimal digit, after `toupper`. -/
def hexDigit (c : UInt8) : Option Nat :=
  if 0x30 ≤ c ∧ c ≤ 0x39 then some (c.toNat - 0x30)
  else if 0x41 ≤ c ∧ c ≤ 0x46 then some (c.toNat - 0x41 + 10)
  else none

/-- The local variables of `read_chunked_body`. -/
structure ChunkedReader where
  body : List UInt8
  /-- The bytes of the last read, `read_len` of them. -/
  buffer : List UInt8
  parsed : Nat
  chunkSize : Nat
  tmpSize : Nat
  readChunkSize : Bool
  reads : Reads
  deriving DecidableEq, Repr

namespace ChunkedReader

/-- The read at the top of the loop. -/
def refill (buffSize : Nat) (r : ChunkedReader) : Option ChunkedReader :=
  if r.parsed ≥ r.buffer.length then
    (read buffSize r.reads).map fun (got, reads) => { r with buffer := got, parsed := 0, reads := reads }
  else some r

/-- The rest of a turn: the reader after it, and whether the loop breaks. -/
def consume (r : ChunkedReader) : Bool × ChunkedReader :=
  if r.chunkSize = 0 then
    match hexDigit (toupper (r.buffer[r.parsed]?.getD 0)) with
    | some d =>
      (false, { r with
        parsed := r.parsed + 1
        tmpSize := (r.tmpSize * 16 + d) % 2 ^ 64
        readChunkSize := true })
    | none =>
      if r.readChunkSize then
        -- the line feed is skipped by its index, whether or not it has been read
        if r.tmpSize = 0 then (true, { r with parsed := r.parsed + 2 })
        else (false, { r with
          parsed := r.parsed + 2
          chunkSize := r.tmpSize
          tmpSize := 0
          readChunkSize := false })
      else (false, { r with parsed := r.parsed + 1 })
  else if r.chunkSize ≤ r.buffer.length - r.parsed then
    (false, { r with
      body := r.body ++ (r.buffer.drop r.parsed).take r.chunkSize
      parsed := r.parsed + r.chunkSize
      chunkSize := 0 })
  else
    (false, { r with
      body := r.body ++ r.buffer.drop r.parsed
      chunkSize := r.chunkSize - (r.buffer.length - r.parsed)
      parsed := r.buffer.length })

/-- The loop: whether it broke at the last chunk, or a read threw. -/
def loop (buffSize : Nat) : Nat → ChunkedReader → Option (Bool × ChunkedReader)
  | 0, _ => none
  | fuel + 1, r =>
    match r.refill buffSize with
    | none => some (false, r)
    | some r =>
      match r.consume with
      | (true, r) => some (true, r)
      | (false, r) => loop buffSize fuel r

end ChunkedReader

/-- What `read_chunked_body` answers and leaves behind. -/
structure ChunkedBody where
  ret : Bool
  body : List UInt8
  remained : Nat
  reads : Reads
  deriving DecidableEq, Repr

/-- The end of the call: `remained` is only written when the loop broke. -/
def ChunkedBody.ofLoop (remained : Nat) : Bool × ChunkedReader → ChunkedBody
  | (true, r) => ⟨true, r.body, sizeSub r.buffer.length r.parsed, r.reads⟩
  | (false, r) => ⟨false, r.body, remained, r.reads⟩

/-- The local variables at the start. -/
def ChunkedReader.start (body buffer : List UInt8) (reads : Reads) : ChunkedReader :=
  ⟨body, buffer, 0, 0, 0, false, reads⟩

/-- `read_chunked_body(body, buffer, buff_size, remained)`; `buffer` is the first `remained` bytes of
the caller's buffer. -/
def readChunkedBody (buffSize : Nat) (body buffer : List UInt8) (reads : Reads) : Option ChunkedBody :=
  ((ChunkedReader.start body buffer reads).loop buffSize
    (buffer.length + reads.flatten.length + 1)).map (.ofLoop buffer.length)

end SocketStream

end Sylar
