import Sylar.Http.Receive
import Sylar.Stream.Rest
import Sylar.Stream.Sizes
import Mathlib.Data.Set.List

/-!
# Truncated chunked responses

`recv_response` does not look at what `read_chunked_body` returns. Once the header section of a chunked
response has been read the call returns a response, whatever follows: a connection that ends inside the
body looks like one that ended behind it. So a truncated body is never reported, and the call does what
it should exactly on streams that hold a complete body which the reader decodes
(`reports_of_completeBody`).

A header section may also end the process. Where its end leaves the parser unfinished, as behind an empty
`Connection` header, `body_start` is set and the loop goes on; an assertion fails if the next buffer is
shorter than that.

A complete body is a `ChunkSequence`: chunks, each with any spelling of its size and perhaps an
extension, and a header of value zero.
-/

namespace Sylar.SocketStream

/-! ## Complete bodies -/

/-- A non-empty chunk with its header. -/
structure SizedChunk where
  header : ChunkHeader
  data : List UInt8
  size : header.value = data.length
  nonempty : data ≠ []

def SizedChunk.encode (c : SizedChunk) : List UInt8 := c.header.line ++ (c.data ++ [CR, LF])

/-- Chunks, up to a header of value zero. -/
structure ChunkSequence where
  chunks : List SizedChunk
  last : ChunkHeader
  zero : last.value = 0

namespace ChunkSequence

def text (x : ChunkSequence) : List UInt8 := x.chunks.flatMap SizedChunk.encode ++ x.last.line

def data (x : ChunkSequence) : List UInt8 := x.chunks.flatMap SizedChunk.data

end ChunkSequence

/-- A chunk of the plain kind with its header. -/
def Chunk.sized (c : Chunk) : SizedChunk where
  header :=
    { digits := c.digits
      extension := []
      isHex := c.isHex
      nonempty := fun none => by
        have size := c.size
        rw [none] at size
        exact c.nonempty (List.length_eq_zero_iff.mp size.symm)
      starts := ChunkHeader.starts_nil
      oneLine := ChunkHeader.oneLine_nil }
  data := c.data
  size := c.size
  nonempty := c.nonempty

theorem Chunk.encode_sized (c : Chunk) : c.sized.encode = c.encode := by
  simp only [SizedChunk.encode, Chunk.encode, ChunkHeader.line, Chunk.sized, List.append_assoc,
    List.nil_append, List.cons_append]

/-- A sequence of plain chunks. -/
def plainSequence (chunks : List Chunk) (last : ChunkHeader) (zero : last.value = 0) : ChunkSequence :=
  ⟨chunks.map Chunk.sized, last, zero⟩

theorem text_plainSequence (chunks : List Chunk) (last : ChunkHeader) (zero : last.value = 0) :
    (plainSequence chunks last zero).text = chunks.flatMap Chunk.encode ++ last.line := by
  simp only [plainSequence, ChunkSequence.text, List.flatMap_map, Chunk.encode_sized]

theorem data_plainSequence (chunks : List Chunk) (last : ChunkHeader) (zero : last.value = 0) :
    (plainSequence chunks last zero).data = chunks.flatMap Chunk.data := by
  simp only [plainSequence, ChunkSequence.data, List.flatMap_map]
  rfl

/-! ## What the reader collects -/

namespace ChunkedReader

variable {buffSize : Nat}

/-- If the body has all data of the chunks, their size lines are not cut, or it does not matter. -/
theorem linesClear_of_loop (segments : Reads) {s : List UInt8} (chunks : List Chunk) :
    ∀ {r r' : ChunkedReader} {offset k : Nat} {ret : Bool}, Start r →
    r.stream = chunks.flatMap Chunk.encode ++ s → Fed buffSize r.reads →
    (∀ q, 1 ≤ q → cutAt segments (offset + q) = cutAt r.segments q) →
    r.loop buffSize k = some (ret, r') → r'.body = r.body ++ chunks.flatMap Chunk.data →
    LinesClear segments offset chunks := by
  induction chunks with
  | nil => exact fun _ _ _ _ _ _ => trivial
  | cons c chunks ih =>
    intro r r' offset k ret start here fed cuts run body
    rw [List.flatMap_cons, List.append_assoc] at here
    rw [List.flatMap_cons] at body
    rw [LinesClear, cuts _ (by omega)]
    have clear := clear_of_loop start here fed run body
    obtain ⟨r₁, after, body₁, start₁⟩ := after_chunk start here fed clear
    obtain ⟨l, run₁⟩ := after.goes.loop_of_loop run
    refine ⟨clear, ih start₁ (after.stream_of_append c.encode here rfl) after.fed (fun q pos => ?_) run₁ ?_⟩
    · rw [Nat.add_assoc, cuts _ (by omega), after.cuts]
    · rw [body, body₁, List.append_assoc]

end ChunkedReader

/-- `read_chunked_body` on a complete body of plain chunks: it collects the data exactly when no size
line is cut, or only those of chunks of line feeds. -/
theorem readChunkedBody_iff {buffSize : Nat} {chunks : List Chunk} {last : ChunkHeader}
    {lead rest : List UInt8} {reads : Reads} {chunked : ChunkedBody} (zero : last.value = 0)
    (bytes : lead ++ reads.flatten = chunks.flatMap Chunk.encode ++ (last.line ++ rest))
    (fed : ChunkedReader.Fed buffSize reads) (got : readChunkedBody buffSize [] lead reads = some chunked) :
    chunked.body = chunks.flatMap Chunk.data ↔ LinesClear (lead :: reads) 0 chunks := by
  rw [readChunkedBody] at got
  obtain ⟨⟨ret, r'⟩, run, rfl⟩ := Option.map_eq_some_iff.mp got
  have body : (ChunkedBody.ofLoop lead.length (ret, r')).body = r'.body := by
    cases ret with
    | true => rfl
    | false => rfl
  rw [body]
  constructor
  · intro data
    exact ChunkedReader.linesClear_of_loop (r := ChunkedReader.start [] lead reads) (lead :: reads) chunks
      ⟨rfl, rfl, rfl⟩ bytes fed (fun q _ => by rw [Nat.zero_add]; rfl) run data
  · intro clear
    obtain ⟨r₁, after, body₁, start₁⟩ := ChunkedReader.after_chunks chunks
      (r := ChunkedReader.start [] lead reads) ⟨rfl, rfl, rfl⟩ bytes fed clear
    have line := ChunkedReader.readsLine_header last start₁ (after.stream_of_append _ bytes rfl) after.fed
    rw [zero, Nat.zero_mod, if_pos rfl] at line
    obtain ⟨r₂, ends, body₂⟩ := line
    obtain ⟨k, run₂⟩ := ends.loop_spec
    obtain ⟨n, goes⟩ := after.goes
    obtain ⟨-, rfl⟩ := Prod.mk.inj (ChunkedReader.loop_unique run ((goes k).trans run₂))
    rw [body₂, body₁]
    rfl

theorem readChunkedBody_isSome (buffSize : Nat) (body lead : List UInt8) (reads : Reads) :
    (readChunkedBody buffSize body lead reads).isSome = true := by
  rw [readChunkedBody, Option.isSome_map]
  exact ChunkedReader.loop_isSome _ (Nat.lt_succ_self _)

end Sylar.SocketStream

namespace Sylar.Http

open SocketStream ChunkedReader

/-! ## The call -/

/-- The parser behind the header section of a response, with the bytes it has left and the reads still to
come. -/
def responseHeader (env : Env) (buffSize : Nat) (reads : Reads) :
    Option (Header Response.Action HttpResponseParser) :=
  (responseMachine env.maxSize).recv buffSize (reads.flatten.length + 1) 0
    ((responseMachine env.maxSize).parser .create) [] reads

/-- The header section of a chunked response has been read, and `left` and `rest` are what comes behind
it: bytes already in the buffer, and reads still to come. -/
def AwaitsChunks (env : Env) (buffSize : Nat) (reads : Reads) (left : Str) (rest : Reads) : Prop :=
  ∃ parser, responseHeader env buffSize reads = some (.found parser left rest) ∧
    parser.obj.isChunkedResponse = true

/-- The stream has a complete body: chunks without extensions whose size lines no read cuts after the
carriage return, unless the chunk consists of line feeds, and a header of value zero. -/
def CompleteBody (env : Env) (buffSize : Nat) (reads : Reads) : Prop :=
  ∀ left rest, AwaitsChunks env buffSize reads left rest →
    ∃ (chunks : List Chunk) (last : ChunkHeader) (behind : Str), last.value = 0 ∧
      left ++ rest.flatten = chunks.flatMap Chunk.encode ++ (last.line ++ behind) ∧
      LinesClear (left :: rest) 0 chunks

/-- No action of the response machine makes a body. -/
theorem keeps_bodyless (maxSize : Nat) (parser : HttpResponseParser) (a : Response.Action) :
    ((responseMachine maxSize).action parser a).Keeps fun parser => parser.response.body.isEmpty := by
  cases a with
  | writeValue =>
    intro parser parser' field flen value vlen called holds
    obtain ⟨f, -, rest⟩ := Option.bind_eq_some_iff.mp called
    obtain ⟨v, -, rest⟩ := Option.bind_eq_some_iff.mp rest
    obtain rfl := Option.some.inj rest
    exact holds
  | reasonPhrase | statusCode =>
    intro parser parser' text length called holds
    obtain ⟨s, -, rfl⟩ := Option.map_eq_some_iff.mp called
    exact holds
  | httpVersion =>
    intro parser parser' text length called holds
    rw [HttpResponseParser.onResponseVersion] at called
    split at called
    · obtain rfl := Option.some.inj called
      exact holds
    · split at called
      · obtain rfl := Option.some.inj called
        exact holds
      · obtain rfl := Option.some.inj called
        exact holds
  | writeContentLen | chunkSize => exact fun _ _ holds => holds
  | writeConnectionClose | transChunked | done => exact fun _ holds => holds
  | mark | startField | writeField | startValue => trivial

theorem body_withBody {response : HttpResponse} (none : response.body.isEmpty = true) (body : Str) :
    (response.withBody body).body = body := by
  rw [HttpResponse.withBody]
  split
  · rename_i empty
    rw [List.isEmpty_iff.mp none, List.isEmpty_iff.mp empty]
  · rfl

/-- A chunked response is returned, with whatever `read_chunked_body` has collected. -/
theorem recvResponse_of_awaits {env : Env} {buffSize : Nat} {reads : Reads} {left : Str} {rest : Reads}
    (awaits : AwaitsChunks env buffSize reads left rest) :
    ∃ chunked m, readChunkedBody buffSize [] left rest = some chunked ∧
      recvResponse env buffSize reads = some (.message m chunked.reads) ∧ m.body = chunked.body := by
  obtain ⟨parser, got, isChunked⟩ := awaits
  obtain ⟨chunked, collected⟩ := Option.isSome_iff_exists.mp (readChunkedBody_isSome buffSize [] left rest)
  have bodyless := Machine.recvHeader_keeps (keeps_bodyless env.maxSize) _
    (Machine.recvHeader_of_recv _ got) rfl
  refine ⟨chunked, parser.obj.response.withBody chunked.body, collected, ?_, body_withBody bodyless _⟩
  have answer : recvResponse env buffSize reads = (responseHeader env buffSize reads).bind _ := rfl
  rw [answer, got, Option.bind_some]
  dsimp only
  rw [HttpResponseParser.finish, if_pos isChunked, collected, Option.map_some]

/-- What is behind the header comes in reads as good as the others. -/
theorem AwaitsChunks.fed {env : Env} {buffSize : Nat} {reads : Reads} {left : Str} {rest : Reads}
    (awaits : AwaitsChunks env buffSize reads left rest) (fed : Fed buffSize reads) : Fed buffSize rest := by
  obtain ⟨parser, got, -⟩ := awaits
  exact Machine.recvHeader_fed _ (Machine.recvHeader_of_recv _ got) fed

/-- A complete plain body is what a response is returned with. -/
theorem CompleteBody.data {env : Env} {buffSize : Nat} {reads : Reads} (complete : CompleteBody env buffSize reads)
    (fed : Fed buffSize reads) {left : Str} {rest : Reads} (awaits : AwaitsChunks env buffSize reads left rest) :
    ∃ (x : ChunkSequence) (behind : Str), left ++ rest.flatten = x.text ++ behind ∧ ∀ m after,
      recvResponse env buffSize reads = some (.message m after) → m.body = x.data := by
  obtain ⟨chunks, last, behind, zero, bytes, clear⟩ := complete left rest awaits
  obtain ⟨chunked, m, collected, answer, body⟩ := recvResponse_of_awaits awaits
  have data := (readChunkedBody_iff zero bytes (awaits.fed fed) collected).mpr clear
  refine ⟨plainSequence chunks last zero, behind, ?_, fun m' after answer' => ?_⟩
  · rw [bytes, text_plainSequence, List.append_assoc]
  · obtain ⟨rfl, -⟩ := Received.message.inj (Option.some.inj (answer.symm.trans answer'))
    rw [body, data, data_plainSequence]

end Sylar.Http
