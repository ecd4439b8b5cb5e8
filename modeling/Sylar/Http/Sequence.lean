import Sylar.Http.Framing
import Sylar.Http.ResponseTrip
import Sylar.Http.RoundTrip

/-!
# Messages as they are sent

What successive calls return, compared with what was sent one behind the other: requests that are a request line,
header lines with different names and the body that they announce, and responses that are a status line, header lines,
and a body with a length or in chunks. If the parser leaves every message as it is (`Canonical`) and every call leaves
what is behind its message (`LeavesRest`), the messages come back one by one, in order and unaltered (`Intact`).
-/

namespace Sylar.Http

open Lib Lib.Ragel SocketStream ChunkedReader
open Rfc3986 (question hash)

/-! ## Requests -/

/-- A request as a client sends it, with header names that are different whatever their case. Its target is given in
its parts, as every target of the grammar can be (`mem_lang_uriReference`). -/
structure SentRequest (env : Env) where
  line : RequestLine env.uriRelaxed
  target : Request.Reference env.uriRelaxed
  fields : List Field
  eol : Str
  body : Str
  isTarget : line.target = target.text
  isEol : IsEol eol
  distinct : fields.Pairwise fun f g => nameKey f.name ≠ nameKey g.name
  /-- The length of the body is announced, or there is no body. -/
  whole : body.length = announcedLength env.lexicalCast fields
  room : body.length ≤ env.maxSize

namespace SentRequest

variable {env : Env} (sent : SentRequest env)

def header : Str := sent.line.text ++ (sent.fields.flatMap Field.text ++ sent.eol)

theorem header_ne_nil : sent.header ≠ [] := by
  refine List.append_ne_nil_of_right_ne_nil _ (List.append_ne_nil_of_right_ne_nil _ ?_)
  exact List.length_pos_iff.mp sent.isEol.pos

def frame : Frame where
  header := sent.header
  body := sent.body
  chunks := none
  nonempty := sent.header_ne_nil
  encodes _ mem := absurd mem (Option.not_mem_none _)

/-- The parser leaves the request as it is: a scheme would be dropped. -/
structure Canonical : Prop where
  noScheme : sent.target.scheme = none
  values : OwnValues sent.fields sent.body

/-- The request is the one that was sent. A `connection` may be added to its headers. -/
structure Intact (m : HttpRequest) : Prop where
  method : bytes (httpMethodToString m.method) = sent.line.method
  target : sent.line.target =
    (m.path ++ Rfc3986.behind question sent.target.query) ++ Rfc3986.behind hash sent.target.fragment
  query : m.query = sent.target.query.getD []
  fragment : m.fragment = sent.target.fragment.getD []
  version : bytes "HTTP/" ++ versionText m.version = sent.line.version
  headers : ∀ f ∈ sent.fields, m.headers.find f.name = some f.value
  others : ∀ x ∈ m.headers, nameKey x.1 = nameKey connection ∨ ∃ f ∈ sent.fields, nameKey f.name = nameKey x.1
  body : m.body = sent.body

/-- The name of a method that the parser knows. -/
theorem toString_stringToHttpMethod {s : Str} (known : stringToHttpMethod s ≠ .invalidMethod) :
    bytes (httpMethodToString (stringToHttpMethod s)) = s := by
  have all : ∀ entry ∈ httpMethodMap, bytes (httpMethodToString entry.2) = bytes entry.1 := by decide
  unfold stringToHttpMethod at known ⊢
  split
  · rename_i entry found
    have same := List.find?_some found
    rw [beq_iff_eq] at same
    rw [all entry (List.mem_of_find?_eq_some found), same]
  · rename_i none
    rw [none] at known
    exact absurd rfl known

theorem versionText_number {ok : Bool} (line : RequestLine ok) : bytes "HTTP/" ++ versionText line.number = line.version := by
  rw [RequestLine.number]
  rcases line.isVersion with same | same
  · rw [same]
    decide
  · rw [same]
    decide

/-- What the parser has behind the header section. -/
structure Found (obj : HttpRequestParser) : Prop where
  built : Built sent.fields obj
  head : obj.request.head = ⟨stringToHttpMethod sent.line.method, sent.target.path, sent.target.query.getD [],
    sent.target.fragment.getD [], sent.line.number⟩

variable {sent}

theorem found {buffSize : Nat} (roomy : buffSize ≤ env.maxSize) (tail : Str) (rest : Reads) (fuel : Nat)
    (fits : (sent.header ++ tail).length ≤ buffSize) : ∃ last regs obj, sent.Found obj ∧
    (requestMachine env.uriRelaxed env.maxSize).recvHeader buffSize (fuel + 1)
        ((requestMachine env.uriRelaxed env.maxSize).parser .create) [] ((sent.header ++ tail) :: rest) =
      some (some (⟨last, regs, obj⟩, tail, rest)) := by
  have shape : sent.header ++ tail = sent.line.text ++ (sent.fields.flatMap Field.text ++ (sent.eol ++ tail)) := by
    rw [header]
    simp only [List.append_assoc]
  generalize sent.header ++ tail = text at shape fits
  have room := fits.trans roomy
  obtain ⟨regs, obj, line, built, head⟩ := sent.line.passes_reference sent.target sent.isTarget shape room
  obtain ⟨built', last, regs', got⟩ := built.recvHeader_fields sent.isEol sent.distinct shape line fits room rest fuel
  exact ⟨some last, regs', _, ⟨built', (Field.head_receiveAll sent.fields obj).trans head⟩, got⟩

/-- There is no body without a length. -/
theorem exists_length (some : sent.body ≠ []) : ∃ f ∈ sent.fields, nameKey f.name = nameKey contentLength := by
  by_contra none
  have absent : sentValue sent.fields contentLength = .none :=
    sentValue_none.mpr fun f mem same => none ⟨f, mem, same⟩
  have length := sent.whole
  rw [announcedLength, absent] at length
  exact some (List.length_eq_zero_iff.mp length)

theorem Found.intact {obj : HttpRequestParser} (found : sent.Found obj) (canonical : sent.Canonical) :
    sent.Intact (obj.withBody sent.body) := by
  obtain ⟨built, head⟩ := found
  have head : (obj.withBody sent.body).head = _ := (obj.head_withBody sent.body).trans head
  have text := sent.isTarget
  rw [Request.Reference.text, canonical.noScheme] at text
  refine ⟨?_, ?_, congrArg Head.query head, congrArg Head.fragment head, ?_, fun f mem => ?_, fun x mem => ?_,
    built.body_withBody sent.body⟩
  · rw [show (obj.withBody sent.body).method = stringToHttpMethod sent.line.method from congrArg Head.method head]
    exact toString_stringToHttpMethod sent.line.known
  · rw [show (obj.withBody sent.body).path = sent.target.path from congrArg Head.path head]
    exact text
  · rw [show (obj.withBody sent.body).version = sent.line.number from congrArg Head.version head]
    exact versionText_number sent.line
  · exact (built.returned sent.body).find_of_mem sent.distinct canonical.values mem
  · rcases built.written_withBody sent.body x mem with (isConnection | ⟨f, inFields, same⟩) | ⟨some, isLength⟩
    · exact .inl (by rw [isConnection])
    · exact .inr ⟨f, inFields, by rw [same]⟩
    · rw [isLength]
      exact .inr (exists_length some)

theorem receives {buffSize : Nat} (roomy : buffSize ≤ env.maxSize) (canonical : sent.Canonical) :
    Receives buffSize (recvRequest env buffSize) sent.frame sent.Intact := by
  intro reads more fed flat whole _ ends
  obtain ⟨obj, reads', found, got, left⟩ := recvRequest_behind fed flat whole rfl ends (found roomy)
    (fun obj found => found.built.announced.trans sent.whole.symm) sent.room
  exact ⟨_, reads', found.intact canonical, got, fun _ => left⟩

end SentRequest

/-! ## Responses -/

/-- A header line of a response as it is sent. -/
structure ResponseField where
  name : Str
  blanks : Str
  value : Str
  eol : Str
  isToken : IsToken name
  areBlank : ∀ c ∈ blanks, Response.blank.mem c = true
  inner : ∀ c ∈ value, Response.inner.mem c = true
  outer : ∀ c z, value = c :: z → Response.outer.mem c = true
  isEol : IsEol eol

namespace ResponseField

variable (field : ResponseField)

def text : Str := Response.lineText field.name field.blanks field.value field.eol

def header : Str × Str := (field.name, field.value)

end ResponseField

/-- A body with a length has a header for it, and chunks have one that announces them; neither has the other's. -/
def Payload.AnnouncedBy (fields : List ResponseField) : Payload → Prop
  | .plain body => (∀ f ∈ fields, nameKey f.name ≠ nameKey Response.encodingName) ∧
    (body ≠ [] → ∃ f ∈ fields, nameKey f.name = nameKey contentLength)
  | .chunked _ => (∃ f ∈ fields, nameKey f.name = nameKey Response.encodingName) ∧
    ∀ f ∈ fields, nameKey f.name ≠ nameKey contentLength

theorem Payload.text_of_chunks (payload : Payload) : ∀ cs ∈ payload.chunks, payload.text = encodeChunked cs := by
  intro cs mem
  cases payload with
  | plain body => cases mem
  | chunked chunks =>
    rw [← Option.some.inj mem]
    rfl

namespace HttpResponse

theorem sorted_create : create.headers.Sorted := List.pairwise_singleton ..

theorem find_create {name : Str} (notConnection : nameKey name ≠ nameKey connection) :
    create.headers.find name = none := by
  refine Option.eq_none_iff_forall_ne_some.mpr fun value found => ?_
  obtain ⟨other, mem, same⟩ := sorted_create.mem_of_find found
  obtain ⟨rfl, -⟩ := Prod.mk.inj (List.mem_singleton.mp mem)
  exact notConnection same.symm

end HttpResponse

/-- A response as a server sends it, with header names that are different whatever their case. -/
structure SentResponse (env : Env) where
  version : UInt8
  status : Nat
  reason : Str
  fields : List ResponseField
  payload : Payload
  isVersion : version = 0x11 ∨ version = 0x10
  /-- A status is an `int`. -/
  small : status < 2 ^ 31
  nonempty : reason ≠ []
  inner : ∀ c ∈ reason, Response.inner.mem c = true
  distinct : fields.Pairwise fun f g => nameKey f.name ≠ nameKey g.name
  announced : payload.AnnouncedBy fields
  room : payload.data.length ≤ env.maxSize
  counted : payload.data.length < 2 ^ 64

namespace SentResponse

open Response (encodingName storeAll started statusText)

variable {env : Env} (sent : SentResponse env)

def header : Str :=
  statusText sent.version sent.status sent.reason ++ (sent.fields.flatMap ResponseField.text ++ bytes "\r\n")

theorem header_ne_nil : sent.header ≠ [] := by
  refine List.append_ne_nil_of_right_ne_nil _ (List.append_ne_nil_of_right_ne_nil _ ?_)
  exact List.length_pos_iff.mp isEol_crlf.pos

def frame : Frame where
  header := sent.header
  body := sent.payload.text
  chunks := sent.payload.chunks
  nonempty := sent.header_ne_nil
  encodes := sent.payload.text_of_chunks

/-- The parser leaves the response as it is, and finds its body. -/
structure Canonical : Prop where
  connection : ∀ f ∈ sent.fields, nameKey f.name = nameKey Http.connection → f.value ≠ []
  length : ∀ f ∈ sent.fields, nameKey f.name = nameKey contentLength →
    f.value = bytes (toString sent.payload.data.length)
  encoding : ∀ f ∈ sent.fields, nameKey f.name = nameKey encodingName → f.value.map tolower = bytes "chunked"
  /-- The length as an `int` is the length, or is not positive. -/
  noted : sent.payload.chunks = none → 0 < Response.noted sent.payload.data.length →
    Response.noted sent.payload.data.length = sent.payload.data.length

/-- The response is the one that was sent. A `connection` may be added to its headers, and to those of a chunked
response the length of its body. -/
structure Intact (m : HttpResponse) : Prop where
  version : m.version = sent.version
  status : m.status = sent.status
  reason : m.reason = sent.reason
  headers : ∀ f ∈ sent.fields, m.headers.find f.name = some f.value
  others : ∀ x ∈ m.headers, nameKey x.1 = nameKey connection ∨ (∃ f ∈ sent.fields, nameKey f.name = nameKey x.1) ∨
    sent.payload.chunks.isSome = true ∧ nameKey x.1 = nameKey contentLength
  body : m.body = sent.payload.data

/-- What the parser has behind the header section. -/
def parser : HttpResponseParser :=
  storeAll (sent.fields.map ResponseField.header) (started sent.version sent.status sent.reason)

theorem parser_response : sent.parser.response.version = sent.version ∧ sent.parser.response.status = sent.status ∧
    sent.parser.response.reason = sent.reason ∧ sent.parser.response.body = [] := by
  rw [parser, Response.storeAll_eq]
  exact ⟨rfl, rfl, rfl, rfl⟩

variable {sent}

theorem found {buffSize : Nat} (roomy : buffSize ≤ env.maxSize) (canonical : sent.Canonical) (tail : Str) (rest : Reads)
    (fuel : Nat) (fits : (sent.header ++ tail).length ≤ buffSize) :
    (responseMachine env.maxSize).Finishes (sent.header ++ tail) ∧ ∃ last regs,
      (responseMachine env.maxSize).recvHeader buffSize (fuel + 1) ((responseMachine env.maxSize).parser .create) []
          ((sent.header ++ tail) :: rest) = some (some (⟨last, regs, sent.parser⟩, tail, rest)) := by
  have shape : sent.header ++ tail = statusText sent.version sent.status sent.reason ++
      (sent.fields.flatMap ResponseField.text ++ (bytes "\r\n" ++ tail)) := by
    rw [header]
    simp only [List.append_assoc]
  have isLine : ∀ f ∈ sent.fields, Response.IsLine env.maxSize f.text f.header.1 f.header.2 := fun f mem =>
    Response.isLine f.isToken f.areBlank f.outer f.inner f.isEol ⟨canonical.connection f mem,
      fun same => ⟨_, canonical.length f mem same⟩, canonical.encoding f mem⟩
  generalize sent.header ++ tail = text at shape fits
  obtain ⟨finishes, last, regs, got⟩ := Response.recvHeader_lines ResponseField.header sent.isVersion sent.small
    sent.nonempty sent.inner isLine shape fits (fits.trans roomy) rest fuel
  exact ⟨finishes, some last, regs, got⟩

/-! ### Headers -/

theorem parser_headers : sent.parser.response.headers = (sent.fields.map ResponseField.header).foldl
    (fun m x => OrderedMap.assign nameKey x.1 x.2 m) HttpResponse.create.headers := by
  rw [parser, Response.storeAll_eq]
  rfl

theorem parser_sorted : sent.parser.response.headers.Sorted := by
  rw [parser_headers]
  exact OrderedMap.sorted_foldl_assign _ HttpResponse.sorted_create

theorem parser_find {f : ResponseField} (mem : f ∈ sent.fields) :
    sent.parser.response.headers.find f.name = some f.value := by
  rw [parser_headers, HttpHeaders.find_eq]
  exact OrderedMap.find_foldl_assign (List.pairwise_map.mpr sent.distinct) HttpResponse.sorted_create f.header
    (List.mem_map_of_mem mem)

theorem parser_find_none {name : Str} (notConnection : nameKey name ≠ nameKey connection)
    (absent : ∀ f ∈ sent.fields, nameKey f.name ≠ nameKey name) : sent.parser.response.headers.find name = none := by
  have apart : ∀ x ∈ sent.fields.map ResponseField.header, nameKey name ≠ nameKey x.1 := by
    intro x mem
    obtain ⟨f, inFields, rfl⟩ := List.mem_map.mp mem
    exact (absent f inFields).symm
  rw [parser_headers, HttpHeaders.find_eq, OrderedMap.find_foldl_assign_ne apart HttpResponse.sorted_create, ← HttpHeaders.find_eq]
  exact HttpResponse.find_create notConnection

theorem parser_names : ∀ x ∈ sent.parser.response.headers,
    nameKey x.1 = nameKey connection ∨ ∃ f ∈ sent.fields, nameKey f.name = nameKey x.1 := by
  intro x mem
  rw [parser_headers] at mem
  rcases OrderedMap.key_of_mem_foldl_assign mem with ⟨y, old, same⟩ | ⟨z, new, same⟩
  · obtain rfl := List.mem_singleton.mp old
    exact .inl same
  · obtain ⟨f, inFields, rfl⟩ := List.mem_map.mp new
    exact .inr ⟨f, inFields, same.symm⟩

/-! ### The answer -/

theorem parser_isChunkedResponse : sent.parser.isChunkedResponse = true ↔
    ∃ f ∈ sent.fields, nameKey f.name = nameKey encodingName := by
  rw [parser, Response.isChunkedResponse_storeAll, show (started _ _ _).isChunkedResponse = false from rfl, Bool.false_or,
    List.any_map, List.any_eq_true]
  exact exists_congr fun f => and_congr_right fun _ => decide_eq_true_iff

/-- The length of a body is found. -/
theorem parser_length (casts : CastsDecimals env) (canonical : sent.Canonical) (plain : sent.payload.chunks = none)
    (told : sent.payload.data ≠ [] → ∃ f ∈ sent.fields, nameKey f.name = nameKey contentLength) :
    getContentLength env.lexicalCast sent.parser.contentLen sent.parser.response.headers = sent.payload.data.length := by
  have noted := canonical.noted plain
  by_cases some : ∃ f ∈ sent.fields, nameKey f.name = nameKey contentLength
  · obtain ⟨f, mem, isLength⟩ := some
    have value := canonical.length f mem isLength
    have contentLen : sent.parser.contentLen = Response.noted sent.payload.data.length := by
      refine Response.contentLen_storeAll _ _ (fun x inFields same => ?_) (.inr ⟨_, List.mem_map_of_mem mem, isLength⟩)
      obtain ⟨g, inSent, rfl⟩ := List.mem_map.mp inFields
      rw [ResponseField.header, canonical.length g inSent same, Response.strtol_toString]
      rfl
    have found : sent.parser.response.headers.find (bytes "content-length") = .some f.value := by
      rw [← parser_find mem, HttpHeaders.find_eq, HttpHeaders.find_eq, OrderedMap.find_congr isLength]
      rfl
    rw [getContentLength, contentLen, found, value]
    split
    · rename_i pos
      exact Int.toNat_natCast _ ▸ congrArg Int.toNat (noted pos)
    · dsimp only
      rw [casts _ sent.counted]
      exact UInt64.toNat_ofNat_of_lt sent.counted
  · have absent : ∀ f ∈ sent.fields, nameKey f.name ≠ nameKey contentLength := fun f mem same => some ⟨f, mem, same⟩
    have contentLen : sent.parser.contentLen = -1 := by
      refine Response.contentLen_storeAll _ _ (fun x inFields same => ?_) (.inl rfl)
      obtain ⟨f, inSent, rfl⟩ := List.mem_map.mp inFields
      exact absurd same (absent f inSent)
    have empty : sent.payload.data = [] := by
      by_contra nonempty
      exact some (told nonempty)
    have notFound : sent.parser.response.headers.find (bytes "content-length") = none :=
      parser_find_none HttpRequest.nameKey_contentLength absent
    rw [getContentLength, contentLen, notFound, empty]
    rfl

/-- The header section announces the body. -/
theorem parser_announced (casts : CastsDecimals env) (canonical : sent.Canonical) :
    sent.payload.Announced env sent.parser := by
  have told := sent.announced
  have room := sent.room
  have length := parser_length casts canonical
  cases payload : sent.payload with
  | plain body =>
    rw [payload] at told room length
    obtain ⟨plain, some⟩ := told
    refine ⟨Bool.eq_false_iff.mpr fun isChunked => ?_, room, length rfl some⟩
    obtain ⟨f, mem, same⟩ := parser_isChunkedResponse.mp isChunked
    exact plain f mem same
  | chunked chunks =>
    rw [payload] at told
    exact parser_isChunkedResponse.mpr told.1

/-- A body is set along with its length, which is that of the header if there is one. -/
theorem intact (canonical : sent.Canonical) : sent.Intact (sent.parser.response.withBody sent.payload.data) := by
  obtain ⟨version, status, reason, bodyless⟩ := sent.parser_response
  obtain ⟨status', reason', version'⟩ := Response.withBody_eq sent.parser.response sent.payload.data
  refine ⟨version'.trans version, status'.trans status, reason'.trans reason, fun f mem => ?_, fun x mem => ?_,
    Response.body_withBody bodyless⟩
  · have found := parser_find mem
    rw [HttpResponse.withBody]
    split
    · exact found
    · by_cases isLength : nameKey f.name = nameKey contentLength
      · rw [canonical.length f mem isLength]
        exact parser_sorted.find_assign_self isLength
      · exact (parser_sorted.find_assign_ne isLength).trans found
  · rw [HttpResponse.withBody] at mem
    split at mem
    · exact (parser_names x mem).imp_right .inl
    · rename_i some
      change x ∈ sent.parser.response.headers.assign _ _ at mem
      rw [HttpHeaders.assign_eq] at mem
      rcases OrderedMap.mem_assign mem with old | ⟨-, isLength, -⟩
      · exact (parser_names x old).imp_right .inl
      · have told := sent.announced
        cases payload : sent.payload with
        | plain body =>
          rw [payload] at told some
          obtain ⟨f, inFields, same⟩ := told.2 fun empty => some (List.isEmpty_iff.mpr empty)
          exact .inr (.inl ⟨f, inFields, same.trans isLength.symm⟩)
        | chunked chunks => exact .inr (.inr ⟨rfl, isLength⟩)

theorem receives {buffSize : Nat} (casts : CastsDecimals env) (roomy : buffSize ≤ env.maxSize)
    (canonical : sent.Canonical) : Receives buffSize (recvResponse env buffSize) sent.frame sent.Intact := by
  intro reads more fed flat whole lines ends
  have text : sent.frame.body = sent.payload.text := rfl
  have chunks : sent.frame.chunks = sent.payload.chunks := rfl
  obtain ⟨m, reads', rfl, received⟩ := recvResponse_behind text chunks (found roomy canonical)
    (parser_announced casts canonical) reads more fed flat whole lines ends
  exact ⟨_, reads', intact canonical, received⟩

end SentResponse

/-! ## A connection -/

/-- Successive calls on a connection return the messages that were sent, one by one, in order and unaltered, if the
parser leaves each of them as it is, every header section is inside one read, and what is behind each message is left
for the next call. A buffer is never longer than a string may be. -/
theorem recv_successive {env : Env} {buffSize : Nat} (casts : CastsDecimals env) (roomy : buffSize ≤ env.maxSize) :
    (∀ (messages : List (SentRequest env)) (reads : Reads), Fed buffSize reads →
      reads.flatten = messages.flatMap (fun m => m.frame.text) →
      HeadersWhole reads 0 (messages.map SentRequest.frame) →
      LeavesRest reads 0 (messages.map SentRequest.frame) → (∀ m ∈ messages, m.Canonical) →
      List.Forall₂ SentRequest.Intact messages (successive (recvRequest env buffSize) messages.length reads)) ∧
    (∀ (messages : List (SentResponse env)) (reads : Reads), Fed buffSize reads →
      reads.flatten = messages.flatMap (fun m => m.frame.text) →
      HeadersWhole reads 0 (messages.map SentResponse.frame) →
      LeavesRest reads 0 (messages.map SentResponse.frame) → (∀ m ∈ messages, m.Canonical) →
      List.Forall₂ SentResponse.Intact messages (successive (recvResponse env buffSize) messages.length reads)) := by
  constructor
  · intro messages reads fed flat headers leaves canonical
    exact successive_forall₂ messages (fun m mem => m.receives roomy (canonical m mem)) fed flat headers leaves
  · intro messages reads fed flat headers leaves canonical
    exact successive_forall₂ messages (fun m mem => m.receives casts roomy (canonical m mem)) fed flat headers leaves

/-- `/`. -/
def rootTarget : Request.Reference false where
  path := bytes "/"
  query := none
  fragment := none
  scheme := none
  inQuery _ mem := absurd mem (Option.not_mem_none _)
  inFragment _ mem := absurd mem (Option.not_mem_none _)
  isScheme _ mem := absurd mem (Option.not_mem_none _)
  inPart := mem_lang_of_reads (by decide) (by decide +kernel)

/-- `GET / HTTP/1.1`. -/
def rootSent : SentRequest linuxSigned where
  line := rootLine
  target := rootTarget
  fields := []
  eol := bytes "\r\n"
  body := []
  isTarget := by decide
  isEol := isEol_crlf
  distinct := .nil
  whole := rfl
  room := by decide

theorem canonical_rootSent : rootSent.Canonical where
  noScheme := rfl
  values := ⟨fun _ mem => absurd mem List.not_mem_nil, fun _ mem => absurd mem List.not_mem_nil⟩

theorem distinct_upgrade : [upgrade].Pairwise fun f g => nameKey f.name ≠ nameKey g.name := List.pairwise_singleton ..

/-- `GET / HTTP/1.1`, with `Connection: Upgrade`. -/
def upgradeSent : SentRequest linuxSigned where
  line := rootLine
  target := rootTarget
  fields := [upgrade]
  eol := bytes "\r\n"
  body := []
  isTarget := by decide
  isEol := isEol_crlf
  distinct := distinct_upgrade
  whole := by decide
  room := by decide

/-- `Transfer-Encoding: chunked`. -/
def chunkedField : ResponseField where
  name := bytes "Transfer-Encoding"
  blanks := bytes " "
  value := bytes "chunked"
  eol := bytes "\r\n"
  isToken := ⟨by decide, by decide +kernel⟩
  areBlank := by decide +kernel
  inner := by decide +kernel
  outer := by
    rintro c z eq
    obtain ⟨rfl, -⟩ := List.cons.inj eq
    decide
  isEol := isEol_crlf

/-- A response in one chunk. -/
def helloSent : SentResponse linuxSigned where
  version := 0x11
  status := 200
  reason := bytes "OK"
  fields := [chunkedField]
  payload := .chunked [hello]
  isVersion := .inl rfl
  small := by decide
  nonempty := by decide
  inner := by decide +kernel
  distinct := List.pairwise_singleton ..
  announced := ⟨⟨chunkedField, List.mem_cons_self, by decide⟩, fun f mem => by
    obtain rfl := List.mem_singleton.mp mem
    decide⟩
  room := by decide
  counted := by decide

theorem canonical_helloSent : helloSent.Canonical := by
  refine ⟨fun f mem => ?_, fun f mem same => ?_, fun f mem _ => ?_, fun plain => nomatch plain⟩
  · obtain rfl := List.mem_singleton.mp mem
    decide
  · obtain rfl := List.mem_singleton.mp mem
    exact absurd same (by decide)
  · obtain rfl := List.mem_singleton.mp mem
    decide

set_option maxRecDepth 4000 in
/-- Two requests that come in a read each, and two chunked responses of which the first ends with a
read. -/
theorem recv_successive_two :
    List.Forall₂ SentRequest.Intact [rootSent, rootSent]
      (successive (recvRequest linuxSigned 64) 2 [bytes "GET / HTTP/1.1\r\n\r\n", bytes "GET / HTTP/1.1\r\n\r\n"]) ∧
    List.Forall₂ SentResponse.Intact [helloSent, helloSent] (successive (recvResponse linuxSigned 64) 2
      [bytes "HTTP/1.1 200 OK\r\nTransfer-Encoding: chunked\r\n\r\n", bytes "5\r\nhel",
        bytes "lo\r\n0\r\n\r\n",
        bytes "HTTP/1.1 200 OK\r\nTransfer-Encoding: chunked\r\n\r\n5\r\nhello\r\n0\r\n\r\n"]) := by
  have roomy : 64 ≤ linuxSigned.maxSize := by decide
  constructor
  · refine (recv_successive castsDecimals_linuxSigned roomy).1 [rootSent, rootSent] _ (by decide +kernel)
      (by decide +kernel) (by decide +kernel) ⟨fun _ mem => ?_, fun _ => ?_, fun _ mem => ?_, fun more => ?_, trivial⟩
      fun m mem => ?_
    · cases mem
    · exact ⟨18, by decide +kernel, by decide +kernel, by decide +kernel⟩
    · cases mem
    · exact absurd rfl more
    · obtain rfl : m = rootSent := by simpa using mem
      exact canonical_rootSent
  · refine (recv_successive castsDecimals_linuxSigned roomy).2 [helloSent, helloSent] _ (by decide +kernel)
      (by decide +kernel) (by decide +kernel) ⟨fun cs mem => ?_, fun _ => ?_, fun cs mem => ?_, fun more => ?_, trivial⟩
      fun m mem => ?_
    · obtain rfl := Option.some.inj mem
      exact of_decide_eq_true (by decide +kernel)
    · show EndsRead _ _
      exact of_decide_eq_true (by decide +kernel)
    · obtain rfl := Option.some.inj mem
      exact of_decide_eq_true (by decide +kernel)
    · exact absurd rfl more
    · obtain rfl : m = helloSent := by simpa using mem
      exact canonical_helloSent

set_option maxRecDepth 4000 in
/-- Two requests in one read: the second is lost. A chunked response whose last line break comes in the next read:
what is left of it is taken for the start of the next response, which is lost. And `Connection: Upgrade` comes back as
`keep-alive`. -/
theorem not_recv_successive :
    (¬ ∀ (env : Env) (buffSize : Nat) (messages : List (SentRequest env)) (reads : Reads), Fed buffSize reads →
      reads.flatten = messages.flatMap (fun m => m.frame.text) →
      HeadersWhole reads 0 (messages.map SentRequest.frame) →
      List.Forall₂ SentRequest.Intact messages (successive (recvRequest env buffSize) messages.length reads)) ∧
    (¬ ∀ (env : Env) (buffSize : Nat) (messages : List (SentResponse env)) (reads : Reads), Fed buffSize reads →
      reads.flatten = messages.flatMap (fun m => m.frame.text) →
      HeadersWhole reads 0 (messages.map SentResponse.frame) →
      List.Forall₂ SentResponse.Intact messages (successive (recvResponse env buffSize) messages.length reads)) ∧
    ¬ List.Forall₂ SentRequest.Intact [upgradeSent] (successive (recvRequest linuxSigned 64) 1 [upgradeSent.header]) := by
  refine ⟨fun all => ?_, fun all => ?_, fun both => ?_⟩
  · have both := all linuxSigned 64 [rootSent, rootSent]
      [bytes "GET / HTTP/1.1\r\n\r\nGET / HTTP/1.1\r\n\r\n"] (by decide +kernel) (by decide +kernel)
      (by decide +kernel)
    have lost : (successive (recvRequest linuxSigned 64) 2
        [bytes "GET / HTTP/1.1\r\n\r\nGET / HTTP/1.1\r\n\r\n"]).length = 1 := by decide +kernel
    cases lost.symm.trans both.length_eq.symm
  · have both := all linuxSigned 64 [helloSent, helloSent]
      [bytes "HTTP/1.1 200 OK\r\nTransfer-Encoding: chunked\r\n\r\n5\r\nhello\r\n0\r\n",
        bytes "\r\nHTTP/1.1 200 OK\r\nTransfer-Encoding: chunked\r\n\r\n5\r\nhello\r\n0\r\n\r\n"]
      (by decide +kernel) (by decide +kernel) (by decide +kernel)
    have lost : (successive (recvResponse linuxSigned 64) 2
        [bytes "HTTP/1.1 200 OK\r\nTransfer-Encoding: chunked\r\n\r\n5\r\nhello\r\n0\r\n",
          bytes "\r\nHTTP/1.1 200 OK\r\nTransfer-Encoding: chunked\r\n\r\n5\r\nhello\r\n0\r\n\r\n"]).length =
        1 := by decide +kernel
    cases lost.symm.trans both.length_eq.symm
  · have values : (successive (recvRequest linuxSigned 64) 1 [upgradeSent.header]).map (fun m =>
        m.headers.find (bytes "Connection")) = [some (bytes "keep-alive")] := by decide +kernel
    obtain ⟨m, rest, intact, -, eq⟩ := List.forall₂_cons_left_iff.mp both
    rw [eq, List.map_cons] at values
    have sent := intact.headers upgrade List.mem_cons_self
    have name : upgrade.name = bytes "Connection" := rfl
    rw [← name, sent] at values
    cases (List.cons.inj values).1

end Sylar.Http
