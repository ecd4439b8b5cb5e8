import Sylar.Http.RequestHeaders
import Sylar.Http.Robust

/-!
# The headers of a received request

A request that is sent as a request line, header lines with different names, and the body that they announce, and
comes in one read. `Built` says what the parser has made of the header lines it has read: every header but
`connection` is as it was sent, and of `connection` only the flag is known. The flag decides what is in the
request that is returned, and the length of the body replaces the `content-length`.
-/

namespace Sylar.Http

open Lib Lib.Ragel

/-! ## What was sent -/

/-- The value that was sent under a name. -/
def sentValue (fields : List Field) (name : Str) : Option Str :=
  (fields.find? fun field => nameKey field.name == nameKey name).map Field.value

/-- The flag that follows from the header lines. -/
def closes (fields : List Field) : Bool :=
  match sentValue fields connection with
  | none => true
  | some value => sameNoCase value (bytes "close")

section SentValue

variable {fields : List Field} {field : Field} {name : Str}

theorem sentValue_none : sentValue fields name = none ↔ ∀ f ∈ fields, nameKey f.name ≠ nameKey name := by
  rw [sentValue, Option.map_eq_none_iff, List.find?_eq_none]
  exact forall_congr' fun f => imp_congr_right fun _ => not_congr beq_iff_eq

theorem sentValue_append_self (new : ∀ f ∈ fields, nameKey f.name ≠ nameKey name)
    (same : nameKey field.name = nameKey name) : sentValue (fields ++ [field]) name = some field.value := by
  have none : (fields.find? fun f => nameKey f.name == nameKey name) = none :=
    Option.map_eq_none_iff.mp (sentValue_none.mpr new)
  simp [sentValue, List.find?_append, none, same]

theorem sentValue_append_ne (ne : nameKey field.name ≠ nameKey name) :
    sentValue (fields ++ [field]) name = sentValue fields name := by
  simp [sentValue, List.find?_append, ne]

/-- Under the name of a header line is its value. -/
theorem sentValue_of_mem (distinct : fields.Pairwise fun f g => nameKey f.name ≠ nameKey g.name)
    (mem : field ∈ fields) (same : nameKey field.name = nameKey name) : sentValue fields name = some field.value := by
  induction fields with
  | nil => cases mem
  | cons f fields ih =>
    obtain ⟨apart, distinct⟩ := List.pairwise_cons.mp distinct
    rcases List.mem_cons.mp mem with rfl | mem
    · simp [sentValue, same]
    · have ne : nameKey f.name ≠ nameKey name := fun eq => apart field mem (eq.trans same.symm)
      rw [← ih distinct mem]
      simp [sentValue, ne]

end SentValue

/-! ## What the parser makes of it -/

/-- A name that the parser itself or one of the header lines has written. -/
def Written (fields : List Field) (name : Str) : Prop := name = connection ∨ ∃ field ∈ fields, field.name = name

/-- The parser behind some header lines. -/
structure Built (fields : List Field) (parser : HttpRequestParser) : Prop where
  good : parser.errno = 0
  noXml : parser.xmlSent = false
  noJson : parser.jsonSent = false
  length : parser.contentLen = 0
  http : parser.request.isWebsocket = false
  bodyless : parser.request.body = []
  sorted : parser.request.headers.Sorted
  written : parser.request.headers.Named (Written fields)
  kept : ∀ name, nameKey name ≠ nameKey connection → parser.request.headers.find name = sentValue fields name
  flag : parser.request.autoClose = closes fields

namespace Built

variable {fields : List Field} {parser : HttpRequestParser}

theorem create : Built [] .create where
  good := rfl
  noXml := rfl
  noJson := rfl
  length := rfl
  http := rfl
  bodyless := rfl
  sorted := HttpRequest.sorted_initHeaders List.Pairwise.nil
  written := HttpRequest.named_initHeaders (fun _ mem => absurd mem List.not_mem_nil) (.inl rfl)
  kept _ notConnection := HttpRequest.find_initHeaders_ne List.Pairwise.nil notConnection
  flag := rfl

/-- A callback that changes none of the headers, behind the `get_request` that every callback begins with. -/
theorem callback (built : Built fields parser) {r : HttpRequest}
    (http : r.isWebsocket = parser.getRequest.isWebsocket) (headers : r.headers = parser.getRequest.headers)
    (flag : r.autoClose = parser.getRequest.autoClose) (body : r.body = parser.getRequest.body) :
    Built fields { parser with request := r } where
  good := built.good
  noXml := built.noXml
  noJson := built.noJson
  length := built.length
  http := by
    rw [http, HttpRequestParser.getRequest, HttpRequest.isWebsocket_initHeaders]
    exact built.http
  bodyless := body.trans (HttpRequest.body_initHeaders.trans built.bodyless)
  sorted := by
    rw [headers]
    exact HttpRequest.sorted_initHeaders built.sorted
  written := by
    rw [headers]
    exact HttpRequest.named_initHeaders built.written (.inl rfl)
  kept name notConnection := by
    rw [headers, HttpRequestParser.getRequest, HttpRequest.find_initHeaders_ne built.sorted notConnection]
    exact built.kept name notConnection
  flag := by
    rw [flag, HttpRequestParser.getRequest, HttpRequest.autoClose_initHeaders]
    exact built.flag

/-- A header line. -/
theorem receive (built : Built fields parser) {field : Field}
    (new : ∀ f ∈ fields, nameKey f.name ≠ nameKey field.name) : Built (fields ++ [field]) (field.receive parser) := by
  have before : Built fields { parser with request := parser.getRequest } := built.callback rfl rfl rfl rfl
  have sorted : parser.getRequest.headers.Sorted := before.sorted
  have written : parser.getRequest.headers.Named (Written (fields ++ [field])) := fun x mem =>
    (before.written x mem).imp_right fun ⟨f, inFields, eq⟩ => ⟨f, List.mem_append_left _ inFields, eq⟩
  refine ⟨built.good, built.noXml, built.noJson, built.length, ?_, ?_, HttpRequest.sorted_setHeader sorted, ?_, ?_, ?_⟩
  · exact HttpRequest.isWebsocket_setHeader.trans before.http
  · exact HttpRequest.body_setHeader.trans before.bodyless
  · exact HttpRequest.named_setHeader written (.inl rfl)
      (.inr ⟨field, List.mem_append_right _ List.mem_cons_self, rfl⟩)
  · intro name notConnection
    by_cases same : nameKey field.name = nameKey name
    · rw [sentValue_append_self (fun f mem eq => new f mem (eq.trans same.symm)) same]
      exact HttpRequest.find_setHeader_self sorted same.symm
    · rw [sentValue_append_ne same]
      exact (HttpRequest.find_setHeader_ne sorted (fun eq => same eq.symm) notConnection).trans
        (before.kept name notConnection)
  · by_cases same : nameKey field.name = nameKey connection
    · rw [closes, sentValue_append_self (fun f mem eq => new f mem (eq.trans same.symm)) same]
      change (parser.getRequest.setHeader field.name field.value).autoClose = _
      rw [HttpRequest.setHeader_connection same]
    · rw [closes, sentValue_append_ne same]
      change (parser.getRequest.setHeader field.name field.value).autoClose = _
      rw [HttpRequest.setHeader_other same]
      exact before.flag

/-- All header lines. -/
theorem receiveAll (more : List Field) : ∀ {fields : List Field} {parser : HttpRequestParser}, Built fields parser →
    (fields ++ more).Pairwise (fun f g => nameKey f.name ≠ nameKey g.name) →
    Built (fields ++ more) (more.foldl (fun parser field => field.receive parser) parser) := by
  induction more with
  | nil =>
    intro fields parser built _
    rw [List.append_nil]
    exact built
  | cons field more ih =>
    intro fields parser built distinct
    have new : ∀ f ∈ fields, nameKey f.name ≠ nameKey field.name := fun f mem =>
      (List.pairwise_append.mp distinct).2.2 f mem field List.mem_cons_self
    rw [← List.singleton_append, ← List.append_assoc] at distinct ⊢
    exact ih (built.receive new) distinct

end Built

/-! ## The request line -/

/-- The offsets are not behind the byte that is read. -/
structure UpTo (p : Nat) (regs : Registers) : Prop where
  mark : regs.mark ≤ p
  query : regs.queryStart ≤ p

section Line

variable {ok : Bool} {maxSize : Nat} {text : Str}

/-- A callback that takes the piece of the text from an offset to the byte that is read. -/
theorem exec_element {obj : HttpRequestParser} {callback : HttpRequestParser → Str → Nat → Option HttpRequestParser}
    {f : Str → HttpRequestParser} (takes : ∀ s length, callback obj s length = (string maxSize s length).map f)
    {r : Register} {p : Nat} {regs : Registers} (le : regs.get r ≤ p) (room : p ≤ maxSize) :
    (Op.element r callback).exec text p regs obj =
      some (regs, f ((text.drop (regs.get r)).take (p - regs.get r))) := by
  have small : p - regs.get r ≤ maxSize := (Nat.sub_le ..).trans room
  rw [Op.exec, sizeSub_of_le le, takes, string, if_pos small]
  rfl

/-- An action of a target. -/
theorem Built.exec_target {a : Request.Action} (mem : a ∈ RequestLine.targetActions) {fields : List Field}
    {obj : HttpRequestParser} (built : Built fields obj) {p : Nat} {regs : Registers} (behind : UpTo p regs)
    (room : p ≤ maxSize) :
    ∃ regs' obj', (obj.action maxSize a).exec text p regs obj = some (regs', obj') ∧ Built fields obj' ∧
      UpTo p regs' := by
  simp only [RequestLine.targetActions, List.mem_cons, List.not_mem_nil, or_false] at mem
  rcases mem with rfl | rfl | rfl | rfl | rfl | rfl
  · exact ⟨_, obj, rfl, built, ⟨Nat.le_refl p, behind.query⟩⟩
  · refine ⟨regs, _, exec_element (fun _ _ => rfl) behind.mark room, ?_, behind⟩
    exact built.callback rfl rfl rfl rfl
  · exact ⟨regs, obj, rfl, built, behind⟩
  · exact ⟨_, obj, rfl, built, ⟨behind.mark, Nat.le_refl p⟩⟩
  · refine ⟨regs, _, exec_element (fun _ _ => rfl) behind.query room, ?_, behind⟩
    exact built.callback rfl rfl rfl rfl
  · refine ⟨regs, _, exec_element (fun _ _ => rfl) behind.mark room, ?_, behind⟩
    exact built.callback rfl rfl rfl rfl

/-- All actions of a target, in their order. -/
theorem Built.run_target {fields : List Field} (trace : List (Request.Action × Nat)) :
    ∀ {p : Nat} {obj : HttpRequestParser} {regs : Registers}, Built fields obj → UpTo p regs →
      (∀ x ∈ trace, x.1 ∈ RequestLine.targetActions ∧ p ≤ x.2 ∧ x.2 ≤ maxSize) →
      trace.Pairwise (fun x y => x.2 ≤ y.2) →
      ∃ regs' obj', (requestMachine ok maxSize).run text trace regs obj = some (regs', obj') ∧ Built fields obj' := by
  induction trace with
  | nil => exact fun {p obj regs} built _ _ _ => ⟨regs, obj, rfl, built⟩
  | cons x trace ih =>
    intro p obj regs built behind all sorted
    obtain ⟨later, sorted⟩ := List.pairwise_cons.mp sorted
    obtain ⟨action, le, room⟩ := all x List.mem_cons_self
    have here : UpTo x.2 regs := ⟨behind.mark.trans le, behind.query.trans le⟩
    obtain ⟨regs₁, obj₁, exec, built₁, behind₁⟩ := built.exec_target action here room
    obtain ⟨regs', obj', rest, built'⟩ := ih built₁ behind₁
      (fun y mem => ⟨(all y (List.mem_cons_of_mem x mem)).1, later y mem, (all y (List.mem_cons_of_mem x mem)).2.2⟩)
      sorted
    refine ⟨regs', obj', ?_, built'⟩
    rw [Machine.run]
    change (Op.exec text x.2 regs obj (obj.action maxSize x.1)).bind _ = _
    rw [exec]
    exact rest

/-- The method is one that the parser knows. -/
theorem RequestLine.run_method (line : RequestLine ok) {rest : Str} (shape : text = line.text ++ rest)
    (room : text.length ≤ maxSize) :
    ∃ regs obj, (requestMachine ok maxSize).run text [(.mark, 0), (.requestMethod, line.method.length)] .init .create =
      some (regs, obj) ∧ Built [] obj ∧ UpTo line.method.length regs ∧
      obj.request.head = { HttpRequest.create.head with method := stringToHttpMethod line.method } := by
  have piece : string maxSize text (sizeSub line.method.length 0) = some line.method := by
    have parts : text = [] ++ (line.method ++
        ((bytes " " ++ (line.target ++ (bytes " " ++ (line.version ++ line.eol)))) ++ rest)) := by
      rw [shape, RequestLine.text, List.append_assoc]
      rfl
    rw [sizeSub_of_le (Nat.zero_le _)]
    exact string_piece parts room
  have called : HttpRequestParser.create.onRequestMethod maxSize text (sizeSub line.method.length 0) =
      some { HttpRequestParser.create with
        request := { HttpRequestParser.create.getRequest with method := stringToHttpMethod line.method } } := by
    rw [HttpRequestParser.onRequestMethod, piece, Option.map_some]
    dsimp only
    rw [if_neg line.known]
  have run : (requestMachine ok maxSize).run text [(.mark, 0), (.requestMethod, line.method.length)] .init .create =
      some (.init, { HttpRequestParser.create with
        request := { HttpRequestParser.create.getRequest with method := stringToHttpMethod line.method } }) := by
    rw [Machine.run]
    change ((HttpRequestParser.create.onRequestMethod maxSize text (sizeSub line.method.length 0)).map _).bind _ = _
    rw [called]
    rfl
  refine ⟨_, _, run, Built.create.callback rfl rfl rfl rfl, ⟨Nat.zero_le _, Nat.zero_le _⟩, ?_⟩
  have kept : HttpRequestParser.create.getRequest.head = HttpRequest.create.head :=
    HttpRequestParser.create.head_getRequest
  rw [← kept]
  rfl

/-- The number that the parser has for the version. -/
def RequestLine.number (line : RequestLine ok) : UInt8 := if line.version = bytes "HTTP/1.1" then 0x11 else 0x10

/-- The version is one of those that the parser knows. -/
theorem RequestLine.run_version (line : RequestLine ok) {rest : Str} (shape : text = line.text ++ rest)
    {fields : List Field} {obj : HttpRequestParser} (built : Built fields obj) (regs : Registers) :
    ∃ regs' obj', (requestMachine ok maxSize).run text [(.mark, line.method.length + line.target.length + 2),
        (.httpVersion, line.method.length + line.target.length + line.version.length + 2)] regs obj =
      some (regs', obj') ∧ Built fields obj' ∧ obj'.request.head = { obj.request.head with version := line.number } := by
  let before := line.method ++ (bytes " " ++ (line.target ++ bytes " "))
  have start : before.length = line.method.length + line.target.length + 2 := by
    simp only [before, List.length_append]
    change _ + (1 + (_ + 1)) = _
    omega
  have piece : (text.drop before.length).take line.version.length = line.version := by
    have parts : text = before ++ (line.version ++ (line.eol ++ rest)) := by
      rw [shape, RequestLine.text]
      simp only [before, List.append_assoc]
    rw [parts, List.drop_left, List.take_left]
  have length : sizeSub (line.method.length + line.target.length + line.version.length + 2)
      (line.method.length + line.target.length + 2) = line.version.length := by
    rw [sizeSub_of_le (by omega)]
    omega
  have called : obj.onRequestVersion (text.drop before.length) line.version.length =
      some { obj with request := { obj.getRequest with version := line.number } } := by
    unfold HttpRequestParser.onRequestVersion sameFirst RequestLine.number
    rw [piece]
    rcases line.isVersion with same | same
    · rw [same]
      rfl
    · rw [same]
      rfl
  have run : (requestMachine ok maxSize).run text [(.mark, line.method.length + line.target.length + 2),
      (.httpVersion, line.method.length + line.target.length + line.version.length + 2)] regs obj =
      some ({ regs with mark := before.length },
        { obj with request := { obj.getRequest with version := line.number } }) := by
    rw [Machine.run, ← start]
    change ((obj.onRequestVersion (text.drop before.length) (sizeSub _ before.length)).map _).bind _ = _
    rw [start, length, ← start, called]
    rfl
  refine ⟨_, _, run, built.callback rfl rfl rfl rfl, ?_⟩
  rw [← obj.head_getRequest]
  rfl

/-- The request line, whose parts are run one after the other. -/
theorem RequestLine.passes_of_runs (line : RequestLine ok) {lu : List (Event Request.Action)}
    (tu : Trace ok 2 Request.uriReference line.target lu) {regs₁ regs₂ regs₃ : Registers}
    {obj₁ obj₂ obj₃ : HttpRequestParser}
    (method : (requestMachine ok maxSize).run text [(.mark, 0), (.requestMethod, line.method.length)] .init .create =
      some (regs₁, obj₁))
    (target : (requestMachine ok maxSize).run text (executed (lu.map (Event.shift (line.method.length + 1)))) regs₁ obj₁ =
      some (regs₂, obj₂))
    (version : (requestMachine ok maxSize).run text [(.mark, line.method.length + line.target.length + 2),
      (.httpVersion, line.method.length + line.target.length + line.version.length + 2)] regs₂ obj₂ =
      some (regs₃, obj₃)) :
    (requestMachine ok maxSize).Passes text 0 line.text ⟨(requestMachine ok maxSize).start, .init, .create⟩
      ⟨Request.firstLine, regs₃, obj₃⟩ := by
  refine ⟨executed (line.events lu), ?_, ?_⟩
  · rw [Nat.zero_add]
    exact line.scan maxSize tu
  · rw [line.executed_events tu, run_append, method, Option.bind_some, run_append, target, Option.bind_some]
    exact version

/-- The request line. -/
theorem RequestLine.passes (line : RequestLine ok) {rest : Str} (shape : text = line.text ++ rest)
    (room : text.length ≤ maxSize) :
    ∃ regs obj, (requestMachine ok maxSize).Passes text 0 line.text
      ⟨(requestMachine ok maxSize).start, .init, .create⟩ ⟨Request.firstLine, regs, obj⟩ ∧ Built [] obj := by
  obtain ⟨lu, tu⟩ := exists_trace ok 2 Request.uriReference line.target
  obtain ⟨regs₁, obj₁, method, built₁, behind₁, -⟩ := line.run_method shape room
  have sorted : (executed (lu.map (Event.shift (line.method.length + 1)))).Pairwise fun x y => x.2 ≤ y.2 := by
    refine List.Pairwise.sublist (eraseDups_sublist _) (List.pairwise_map.mpr (List.pairwise_map.mpr ?_))
    refine tu.sorted.imp fun {t t'} before => Nat.add_le_add_left ?_ _
    rcases before with lt | ⟨eq, -⟩
    · exact Nat.le_of_lt lt
    · exact Nat.le_of_eq eq
  have within : ∀ x ∈ executed (lu.map (Event.shift (line.method.length + 1))),
      x.1 ∈ targetActions ∧ line.method.length ≤ x.2 ∧ x.2 ≤ maxSize := by
    intro x mem
    rw [executed, List.mem_eraseDups, List.map_map] at mem
    obtain ⟨t, inside, rfl⟩ := List.mem_map.mp mem
    have le := ((tu.mem t).mp inside).pos_le
    have length : line.method.length + 1 + line.target.length ≤ text.length := by
      rw [shape, RequestLine.text]
      simp only [List.length_append]
      change _ ≤ _ + (1 + _) + _
      omega
    refine ⟨line.target_actions tu t inside, ?_, ?_⟩
    · change _ ≤ line.method.length + 1 + t.pos
      omega
    · change line.method.length + 1 + t.pos ≤ maxSize
      omega
  obtain ⟨regs₂, obj₂, target, built₂⟩ := built₁.run_target _ behind₁ within sorted
  obtain ⟨regs₃, obj₃, version, built₃, -⟩ := line.run_version shape built₂ regs₂
  exact ⟨regs₃, obj₃, line.passes_of_runs tu method target version, built₃⟩

end Line

/-! ## The whole request -/

/-- The length that the header lines announce. -/
def announcedLength (lexicalCast : Str → Option UInt64) (fields : List Field) : Nat :=
  match sentValue fields contentLength with
  | none => 0
  | some value => ((lexicalCast value).getD 0).toNat

/-- A request as a client sends it, with header names that are different whatever their case and the body that is
announced, and small enough for one read. -/
structure Sent (env : Env) (buffSize : Nat) where
  line : RequestLine env.uriRelaxed
  fields : List Field
  eol : Str
  body : Str
  isEol : IsEol eol
  distinct : fields.Pairwise fun f g => nameKey f.name ≠ nameKey g.name
  whole : body.length = announcedLength env.lexicalCast fields
  fits : ((line.text ++ fields.flatMap Field.text) ++ (eol ++ body)).length ≤ buffSize
  room : ((line.text ++ fields.flatMap Field.text) ++ (eol ++ body)).length ≤ env.maxSize

/-- `get_header`. -/
def HttpRequest.getHeader (r : HttpRequest) (name : Str) : Str := (r.headers.find name).getD []

/-- The headers of a request that is returned. -/
structure Returned (fields : List Field) (body : Str) (m : HttpRequest) : Prop where
  connection : ∀ name, nameKey name = nameKey Http.connection →
    m.headers.find name = some (connectionValue (closes fields))
  length : body ≠ [] → ∀ name, nameKey name = nameKey contentLength →
    m.headers.find name = some (bytes (toString body.length))
  kept : ∀ name, nameKey name ≠ nameKey Http.connection → (body ≠ [] → nameKey name ≠ nameKey contentLength) →
    m.headers.find name = sentValue fields name
  flag : m.autoClose = closes fields

theorem HttpRequestParser.head_withBody (parser : HttpRequestParser) (body : Str) :
    (parser.withBody body).head = parser.request.head := by
  rw [withBody]
  split
  · exact parser.head_getRequest
  · exact HttpRequest.head_initHeaders.trans ((HttpRequest.head_setBody body).trans parser.head_getRequest)

namespace Built

variable {env : Env} {fields : List Field} {parser : HttpRequestParser}

theorem announced (built : Built fields parser) :
    getContentLength env.lexicalCast parser.contentLen parser.request.headers =
      announcedLength env.lexicalCast fields := by
  rw [getContentLength, built.length, if_neg (Int.lt_irrefl 0), announcedLength,
    ← built.kept contentLength HttpRequest.nameKey_contentLength]
  rfl

/-- Without a body. -/
theorem returned_empty (built : Built fields parser) : Returned fields [] parser.getRequest where
  connection name same := by
    rw [← built.flag]
    exact HttpRequest.find_initHeaders_connection built.sorted built.http same
  length some := absurd rfl some
  kept name notConnection _ :=
    (HttpRequest.find_initHeaders_ne built.sorted notConnection).trans (built.kept name notConnection)
  flag := HttpRequest.autoClose_initHeaders.trans built.flag

/-- With a body: its length is written over what was sent. -/
theorem returned_body (built : Built fields parser) {body : Str} (some : body ≠ []) :
    Returned fields body (parser.getRequest.setBody body).initHeaders := by
  have before : Built fields { parser with request := parser.getRequest } := built.callback rfl rfl rfl rfl
  have sorted : (parser.getRequest.setBody body).headers.Sorted := HttpRequest.sorted_setHeader before.sorted
  have http : (parser.getRequest.setBody body).isWebsocket = false :=
    HttpRequest.isWebsocket_setHeader.trans before.http
  have flag : (parser.getRequest.setBody body).autoClose = closes fields := by
    change (parser.getRequest.setHeader _ _).autoClose = _
    rw [HttpRequest.setHeader_other HttpRequest.nameKey_contentLength]
    exact before.flag
  refine ⟨fun name same => ?_, fun _ name same => ?_, fun name notConnection notLength => ?_, ?_⟩
  · rw [← flag]
    exact HttpRequest.find_initHeaders_connection sorted http same
  · have notConnection : nameKey name ≠ nameKey connection := by
      rw [same]
      exact HttpRequest.nameKey_contentLength
    rw [HttpRequest.find_initHeaders_ne sorted notConnection]
    exact HttpRequest.find_setHeader_self before.sorted same
  · rw [HttpRequest.find_initHeaders_ne sorted notConnection]
    exact (HttpRequest.find_setHeader_ne before.sorted (notLength some) notConnection).trans
      (before.kept name notConnection)
  · exact HttpRequest.autoClose_initHeaders.trans flag

/-- A header section at the front of the first read is found, with what is behind it left. -/
theorem recvHeader_fields {obj : HttpRequestParser} {regs : Registers} {text line eol tail : Str} {buffSize : Nat}
    (built : Built [] obj) (isEol : IsEol eol) (distinct : fields.Pairwise fun f g => nameKey f.name ≠ nameKey g.name)
    (shape : text = line ++ (fields.flatMap Field.text ++ (eol ++ tail)))
    (passes : (requestMachine env.uriRelaxed env.maxSize).Passes text 0 line
      ⟨(requestMachine env.uriRelaxed env.maxSize).start, .init, .create⟩ ⟨Request.firstLine, regs, obj⟩)
    (fits : text.length ≤ buffSize) (room : text.length ≤ env.maxSize) (reads : Reads) (fuel : Nat) :
    Built fields (fields.foldl (fun obj field => field.receive obj) obj) ∧ ∃ last regs',
      (requestMachine env.uriRelaxed env.maxSize).recvHeader buffSize (fuel + 1)
          ((requestMachine env.uriRelaxed env.maxSize).parser .create) [] (text :: reads) =
        some (some (⟨some last, regs', fields.foldl (fun obj field => field.receive obj) obj⟩, tail, reads)) := by
  have some := isEol.pos
  have nonempty : text ≠ [] := by
    refine List.ne_nil_of_length_pos ?_
    rw [shape, List.length_append, List.length_append, List.length_append]
    omega
  obtain ⟨q, start, regs₂, all⟩ := Field.passes_all room fields regs obj shape List.mem_cons_self
  have built' := Built.receiveAll fields built distinct
  have head := passes.append (by rw [Nat.zero_add]; exact all)
  have plain : ((fields.foldl (fun obj field => field.receive obj) obj).xmlSent ||
      (fields.foldl (fun obj field => field.receive obj) obj).jsonSent) = false := by
    rw [built'.noXml, built'.noJson]
    rfl
  have whole : text = (line ++ fields.flatMap Field.text) ++ (eol ++ tail) := by rw [shape, List.append_assoc]
  rw [whole] at head
  obtain ⟨regs', executed⟩ := Request.execute_end isEol start head plain
  obtain ⟨parsed, length⟩ :=
    Nat.exists_eq_succ_of_ne_zero (by omega : (line ++ fields.flatMap Field.text).length + eol.length ≠ 0)
  have good : (requestMachine env.uriRelaxed env.maxSize).failed
      (fields.foldl (fun obj field => field.receive obj) obj) = false := by
    change (_ != 0) = false
    rw [built'.good]
    rfl
  have rest : text.drop (parsed + 1) = tail := by
    rw [← Nat.succ_eq_add_one, ← length, whole, ← List.append_assoc, ← List.length_append, List.drop_left]
  rw [length, ← whole] at executed
  have header := Machine.recvHeader_of_execute fuel reads nonempty fits executed good
    (Request.last_steps env.uriRelaxed).2.2
  rw [rest] at header
  exact ⟨built', _, _, header⟩

/-- The end of the call, with the whole body in the buffer. -/
theorem finish (built : Built fields parser) {body : Str}
    (whole : body.length = announcedLength env.lexicalCast fields) (room : body.length ≤ env.maxSize) :
    parser.finish env body [] = .message (parser.withBody body) [] := by
  have got : recvBody body.length body [] = some (body, []) := by
    rw [recvBody, if_pos (Nat.le_refl _), List.take_length]
  exact parser.finish_of_recvBody (built.announced.trans whole.symm) room got rfl

theorem returned (built : Built fields parser) (body : Str) : Returned fields body (parser.withBody body) := by
  rw [HttpRequestParser.withBody]
  split
  · rename_i empty
    rw [empty]
    exact built.returned_empty
  · rename_i some
    exact built.returned_body some

theorem body_withBody (built : Built fields parser) (body : Str) : (parser.withBody body).body = body := by
  rw [HttpRequestParser.withBody]
  split
  · rename_i empty
    rw [empty]
    exact HttpRequest.body_initHeaders.trans built.bodyless
  · exact HttpRequest.body_initHeaders

theorem sorted_withBody (built : Built fields parser) (body : Str) : (parser.withBody body).headers.Sorted := by
  have before : Built fields { parser with request := parser.getRequest } := built.callback rfl rfl rfl rfl
  rw [HttpRequestParser.withBody]
  split
  · exact before.sorted
  · exact HttpRequest.sorted_initHeaders (HttpRequest.sorted_setHeader before.sorted)

theorem written_withBody (built : Built fields parser) (body : Str) : (parser.withBody body).headers.Named fun name =>
    Written fields name ∨ body ≠ [] ∧ name = contentLength := by
  have before : Built fields { parser with request := parser.getRequest } := built.callback rfl rfl rfl rfl
  have written : parser.getRequest.headers.Named fun name => Written fields name ∨ body ≠ [] ∧ name = contentLength :=
    fun x mem => .inl (before.written x mem)
  rw [HttpRequestParser.withBody]
  split
  · exact written
  · rename_i some
    exact HttpRequest.named_initHeaders
      (HttpRequest.named_setHeader written (.inl (.inl rfl)) (.inr ⟨some, rfl⟩)) (.inl (.inl rfl))

end Built

section Values

variable {fields : List Field} {body : Str}

/-- What is sent as `connection` is one of the two values that the code writes, and what is sent as
`content-length`, if it announces a body, is its length in decimal. -/
structure OwnValues (fields : List Field) (body : Str) : Prop where
  connection : ∀ f ∈ fields, nameKey f.name = nameKey Http.connection →
    f.value = bytes "close" ∨ f.value = bytes "keep-alive"
  length : ∀ f ∈ fields, nameKey f.name = nameKey contentLength → body ≠ [] → f.value = bytes (toString body.length)

/-- Such values are returned as they were sent. -/
theorem Returned.find_of_mem {m : HttpRequest} (returned : Returned fields body m)
    (distinct : fields.Pairwise fun f g => nameKey f.name ≠ nameKey g.name) (own : OwnValues fields body) {f : Field}
    (mem : f ∈ fields) : m.headers.find f.name = some f.value := by
  by_cases isConnection : nameKey f.name = nameKey Http.connection
  · have flag : closes fields = sameNoCase f.value (bytes "close") := by
      rw [closes, sentValue_of_mem distinct mem isConnection]
    rw [returned.connection f.name isConnection, flag]
    rcases own.connection f mem isConnection with same | same
    · rw [same]
      rfl
    · rw [same]
      rfl
  · by_cases isLength : body ≠ [] ∧ nameKey f.name = nameKey contentLength
    · rw [returned.length isLength.1 f.name isLength.2, own.length f mem isLength.2 isLength.1]
    · rw [returned.kept f.name isConnection fun some same => isLength ⟨some, same⟩, sentValue_of_mem distinct mem rfl]

end Values

namespace Sent

variable {env : Env} {buffSize : Nat} (sent : Sent env buffSize)

def head : Str := sent.line.text ++ sent.fields.flatMap Field.text

def text : Str := sent.head ++ (sent.eol ++ sent.body)

theorem shape : sent.text = sent.line.text ++ (sent.fields.flatMap Field.text ++ (sent.eol ++ sent.body)) :=
  List.append_assoc ..

/-- The header section is read, behind a request line, and the parser has the body left. -/
theorem received {regs₁ : Registers} {obj₁ : HttpRequestParser}
    (line : (requestMachine env.uriRelaxed env.maxSize).Passes sent.text 0 sent.line.text
      ⟨(requestMachine env.uriRelaxed env.maxSize).start, .init, .create⟩ ⟨Request.firstLine, regs₁, obj₁⟩)
    (built : Built [] obj₁) :
    Built sent.fields (sent.fields.foldl (fun obj field => field.receive obj) obj₁) ∧
      recvRequest env buffSize [sent.text] =
        some (.message ((sent.fields.foldl (fun obj field => field.receive obj) obj₁).withBody sent.body) []) := by
  obtain ⟨built', last, regs, header⟩ := built.recvHeader_fields sent.isEol sent.distinct sent.shape line sent.fits sent.room
    [] [sent.text].flatten.length
  have room : sent.body.length ≤ env.maxSize := by
    have room := sent.room
    simp only [List.length_append] at room
    omega
  refine ⟨built', ?_⟩
  rw [recvRequest_eq, header]
  exact congrArg Option.some (built'.finish sent.whole room)

/-- The request that is returned. -/
theorem returned : ∃ m, recvRequest env buffSize [sent.text] = some (.message m []) ∧
    Returned sent.fields sent.body m := by
  obtain ⟨regs, obj, line, built⟩ := sent.line.passes sent.shape sent.room
  obtain ⟨built', received⟩ := sent.received line built
  exact ⟨_, received, built'.returned sent.body⟩

/-- The client asks that the connection is closed, or says nothing about it. -/
def MayClose : Prop :=
  (∃ f ∈ sent.fields, nameKey f.name = nameKey connection ∧ IsClose f.value) ∨
    ∀ f ∈ sent.fields, nameKey f.name ≠ nameKey connection

/-- The request that `recv_request` returns has every header with the value that was sent, and is to be closed
only if it may be. -/
def Faithful : Prop :=
  ∃ m rest, recvRequest env buffSize [sent.text] = some (.message m rest) ∧
    (∀ f ∈ sent.fields, m.getHeader f.name = f.value) ∧ (m.autoClose = true → sent.MayClose)

/-- The header lines have values that come back. -/
def Canonical : Prop := OwnValues sent.fields sent.body

/-- A value has no zero in it, so the code sees all of it. -/
theorem isClose_of_sameNoCase (field : Field) (same : sameNoCase field.value (bytes "close") = true) :
    IsClose field.value := by
  have noZero : Request.inner.mem 0 = false := by decide
  have whole : cStr field.value = field.value := by
    refine List.takeWhile_eq_self_iff.mpr fun c mem => decide_eq_true fun zero => ?_
    have inside := field.inner c mem
    rw [zero, noZero] at inside
    cases inside
  rw [sameNoCase, beq_iff_eq, folded, whole] at same
  exact same

theorem mayClose (flag : closes sent.fields = true) : sent.MayClose := by
  unfold closes at flag
  split at flag
  · rename_i none
    exact .inr (sentValue_none.mp none)
  · rename_i value found
    obtain ⟨f, isFirst, rfl⟩ := Option.map_eq_some_iff.mp found
    have same := List.find?_some isFirst
    rw [beq_iff_eq] at same
    exact .inl ⟨f, List.mem_of_find?_eq_some isFirst, same, isClose_of_sameNoCase f flag⟩

variable {sent}

theorem Faithful.canonical (faithful : sent.Faithful) : sent.Canonical := by
  obtain ⟨m, rest, got, headers, -⟩ := faithful
  obtain ⟨m', got', returned⟩ := sent.returned
  obtain ⟨rfl, -⟩ := Received.message.inj (Option.some.inj (got'.symm.trans got))
  constructor
  · intro f mem isConnection
    rw [← headers f mem, HttpRequest.getHeader, returned.connection f.name isConnection, Option.getD_some]
    cases closes sent.fields with
    | true => exact .inl rfl
    | false => exact .inr rfl
  · intro f mem isLength some
    rw [← headers f mem, HttpRequest.getHeader, returned.length some f.name isLength, Option.getD_some]

theorem Canonical.faithful (canonical : sent.Canonical) : sent.Faithful := by
  obtain ⟨m, got, returned⟩ := sent.returned
  refine ⟨m, [], got, fun f mem => ?_, fun flag => sent.mayClose (returned.flag.symm.trans flag)⟩
  rw [HttpRequest.getHeader, returned.find_of_mem sent.distinct canonical mem, Option.getD_some]

/-- The headers of a request are faithful if and only if they are written as the code writes them. -/
theorem faithful_iff (sent : Sent env buffSize) : sent.Faithful ↔ sent.Canonical :=
  ⟨Faithful.canonical, Canonical.faithful⟩

end Sent

/-! ## An upgrade -/

/-- `GET / HTTP/1.1`. -/
def rootLine : RequestLine false where
  method := bytes "GET"
  target := bytes "/"
  version := bytes "HTTP/1.1"
  eol := bytes "\r\n"
  known := by decide
  letters := by decide +kernel
  isTarget := mem_lang_of_reads (by decide) (by decide +kernel)
  isVersion := .inl rfl
  isEol := .inl rfl

/-- `Connection: Upgrade`. -/
def upgrade : Field where
  name := bytes "Connection"
  blanks := bytes " "
  value := bytes "Upgrade"
  eol := bytes "\r\n"
  isToken := ⟨by decide, by decide +kernel⟩
  areBlank := by decide +kernel
  inner := by decide +kernel
  flush := by
    rintro c z eq
    obtain ⟨rfl, -⟩ := List.cons.inj eq
    decide
  isEol := .inl rfl

def upgradeRequest : Sent linux 96 where
  line := rootLine
  fields := [upgrade]
  eol := bytes "\r\n"
  body := []
  isEol := .inl rfl
  distinct := List.pairwise_singleton ..
  whole := by decide
  fits := by decide
  room := by decide

/-- A client that asks for an upgrade finds `keep-alive`. -/
theorem not_faithful_upgrade : upgradeRequest.text = bytes "GET / HTTP/1.1\r\nConnection: Upgrade\r\n\r\n" ∧
    ¬ upgradeRequest.Faithful := by
  refine ⟨by decide, fun faithful => ?_⟩
  have written := faithful.canonical.connection upgrade List.mem_cons_self (by decide)
  revert written
  decide

end Sylar.Http
