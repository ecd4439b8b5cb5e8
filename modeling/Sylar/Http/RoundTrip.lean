import Sylar.Http.RequestTrip

/-!
# The round trip of a request

A request that a caller has made is printed by `operator<<` and comes back in one read. The parts of its target are
any that the grammar derives, its headers any that the setters leave (`isMade_run`). Three things are lost: a method
with a hyphen, which the table has and the grammar has not; a path with a colon in its first segment, of which the
grammar takes the front for a scheme; and headers without `connection`, to which the parser adds it. Everything else
comes back (`comesBack_iff`).
-/

namespace Sylar.Http

open Lib Lib.Ragel

/-! ## Requests that a caller makes -/

namespace HttpRequest

variable {Name Value : Str → Prop} {r : HttpRequest}

/-- The headers are such as a caller makes, with the flag that is set; an upgrade has no `connection`. -/
structure IsMade (Name Value : Str → Prop) (r : HttpRequest) : Prop where
  made : Made Name Value r.autoClose r.body r.headers
  upgraded : r.isWebsocket = true → r.headers.Named fun name => nameKey name ≠ nameKey connection

theorem setHeader_flag (r : HttpRequest) :
    r.setHeader connection (connectionValue r.autoClose) =
      { r with headers := r.headers.assign connection (connectionValue r.autoClose) } := by
  have same : sameNoCase (connectionValue r.autoClose) (bytes "close") = r.autoClose := by
    cases r.autoClose <;> decide
  rw [setHeader_connection rfl, same, setAutoClose, if_pos rfl]

section

variable (own : ∀ name, Name name → OwnName name)

include own

theorem IsMade.initHeaders (isMade : r.IsMade Name Value) : r.initHeaders.IsMade Name Value := by
  rw [HttpRequest.initHeaders]
  split
  · exact isMade
  · rename_i http
    change (r.setHeader connection (connectionValue r.autoClose)).IsMade Name Value
    rw [setHeader_flag]
    exact ⟨isMade.made.setClose own r.autoClose, fun upgraded => absurd upgraded http⟩

/-- No call of a caller takes this away. -/
theorem IsMade.mutate (isMade : r.IsMade Name Value) {c : Mutator} (proper : Proper Name Value c) :
    (r.mutate c).IsMade Name Value := by
  cases c with
  | setHeader name value =>
    obtain ⟨isName, isValue⟩ := proper
    change (r.setHeader name value).IsMade Name Value
    rw [setHeader_other (own name isName).connection]
    refine ⟨isMade.made.setHeader own isName isValue, fun upgraded => ?_⟩
    exact (isMade.upgraded upgraded).assign (own name isName).connection
  | delHeader name =>
    exact ⟨isMade.made.erase proper, fun upgraded x mem =>
      isMade.upgraded upgraded x (isMade.made.sorted.mem_erase.mp mem).1⟩
  | setHeaders v => exact absurd proper id
  | setClose v =>
    change (r.setAutoClose v).IsMade Name Value
    rw [setAutoClose]
    split
    · exact isMade
    · dsimp only
      split
      · rename_i upgraded
        exact ⟨isMade.made.unconnected (isMade.upgraded upgraded) v, isMade.upgraded⟩
      · rename_i http
        exact ⟨isMade.made.setClose own v, fun upgraded => absurd upgraded http⟩
  | setWebsocket v =>
    change (r.setWebsocket v).IsMade Name Value
    rw [setWebsocket]
    split
    · exact isMade
    · dsimp only
      split
      · refine ⟨isMade.made.erase Made.connection_ne_length, fun _ x mem => ?_⟩
        exact (isMade.made.sorted.mem_erase.mp mem).2
      · rename_i http
        rw [setHeader_flag]
        exact ⟨isMade.made.setClose own r.autoClose, fun upgraded => absurd upgraded http⟩
  | initHeaders => exact isMade.initHeaders own
  | setBody v =>
    change (r.setBody v).IsMade Name Value
    rw [setBody, setHeader_other nameKey_contentLength]
    refine ⟨isMade.made.setBody own v, fun upgraded => ?_⟩
    exact (isMade.upgraded upgraded).assign nameKey_contentLength

/-- The headers of a request that is made by proper calls. -/
theorem isMade_run {version : UInt8} {autoClose : Bool} {calls : List Mutator}
    (run : Run (Guarded Step fun _ c => Proper Name Value c) (construct version autoClose) calls r) :
    r.IsMade Name Value := by
  have start : (construct version autoClose).IsMade Name Value :=
    IsMade.initHeaders own ⟨.nil autoClose, fun upgraded => nomatch upgraded⟩
  refine run.invariant (I := IsMade Name Value) (fun s c t isMade step => ?_) start
  rw [← step.1]
  exact isMade.mutate own step.2

end

end HttpRequest

/-- A value without control characters that does not begin with a blank. -/
structure IsFieldValue (value : Str) : Prop where
  flush : Flush value
  printable : ∀ c ∈ value, ByteSet.cntrl.mem c = false

/-- A request whose parts the grammar has, and whose headers the setters have made. -/
structure Sendable (ok : Bool) (r : HttpRequest) : Prop where
  method : r.method ≠ .invalidMethod
  version : r.version = 0x11 ∨ r.version = 0x10
  path : r.path ∈ lang ok (alt Request.hierPart Request.relativePart)
  query : r.query ∈ lang ok Request.query
  fragment : r.fragment ∈ lang ok Request.fragmentRule
  headers : ∃ close, Made OwnName IsFieldValue close r.body r.headers

/-- What is printed is received. -/
def ComesBack (env : Env) (buffSize : Nat) (r : HttpRequest) : Prop :=
  ∃ m rest, recvRequest env buffSize [r.print] = some (.message m rest) ∧
    m.head = r.head ∧ m.headers = r.headers ∧ m.body = r.body

/-- What the printed text does not lose: the grammar has no hyphen in a method, a path with a colon in its first
segment is read as one with a scheme, and the parser adds a `connection` that is not there. -/
structure Readable (ok : Bool) (r : HttpRequest) : Prop where
  method : r.method ≠ .msearch
  path : r.path ∈ lang ok Request.relativePart
  connected : (r.headers.find connection).isSome = true

/-! ## The printed text -/

theorem mem_httpMethodMap {m : HttpMethod} (valid : m ≠ .invalidMethod) : ∃ name, (name, m) ∈ httpMethodMap := by
  cases m with
  | invalidMethod => exact absurd rfl valid
  | _ => simp [httpMethodMap]

/-- The names of the methods are different, and so are the methods. -/
theorem method_entry {m : HttpMethod} (valid : m ≠ .invalidMethod) : (httpMethodToString m, m) ∈ httpMethodMap := by
  unfold httpMethodToString
  split
  · rename_i entry found
    have same := List.find?_some found
    rw [beq_iff_eq] at same
    exact same ▸ List.mem_of_find?_eq_some found
  · rename_i none
    obtain ⟨name, mem⟩ := mem_httpMethodMap valid
    exact absurd (beq_self_eq_true m) (List.find?_eq_none.mp none _ mem)

theorem stringToHttpMethod_toString {m : HttpMethod} (valid : m ≠ .invalidMethod) :
    stringToHttpMethod (bytes (httpMethodToString m)) = m := by
  have all : ∀ entry ∈ httpMethodMap, stringToHttpMethod (bytes entry.1) = entry.2 := by decide
  exact all (httpMethodToString m, m) (method_entry valid)

theorem known_toString {m : HttpMethod} (valid : m ≠ .invalidMethod) :
    stringToHttpMethod (bytes (httpMethodToString m)) ≠ .invalidMethod := by
  rw [stringToHttpMethod_toString valid]
  exact valid

/-- The bytes that the grammar has in a method. -/
def methodByte : ByteSet := ByteSet.upper.union .digit

theorem method_letter {m : HttpMethod} (valid : m ≠ .invalidMethod) :
    ∃ c z, bytes (httpMethodToString m) = c :: z ∧ methodByte.mem c = true := by
  have all : ∀ entry ∈ httpMethodMap, (bytes entry.1).head?.any methodByte.mem = true := by decide
  obtain ⟨c, head, letter⟩ := (Option.any_eq_true ..).mp (all (httpMethodToString m, m) (method_entry valid))
  obtain ⟨z, eq⟩ := List.head?_eq_some_iff.mp head
  exact ⟨c, z, eq, letter⟩

theorem method_spaceless {m : HttpMethod} (valid : m ≠ .invalidMethod) : (0x20 : UInt8) ∉ bytes (httpMethodToString m) := by
  have all : ∀ entry ∈ httpMethodMap, (0x20 : UInt8) ∉ bytes entry.1 := by decide
  exact all (httpMethodToString m, m) (method_entry valid)

/-- One of the names has a byte that the grammar does not have in a method. -/
theorem method_bytes {m : HttpMethod} (valid : m ≠ .invalidMethod) :
    (∀ c ∈ bytes (httpMethodToString m), methodByte.mem c = true) ↔ m ≠ .msearch := by
  have all : ∀ entry ∈ httpMethodMap, (bytes entry.1).all methodByte.mem = (entry.2 != .msearch) := by decide
  rw [← List.all_eq_true, all (httpMethodToString m, m) (method_entry valid), bne_iff_ne]

namespace HttpRequest

/-- The target and the version of the request line. -/
def target (r : HttpRequest) : Str := r.path ++ (delimited "?" r.query ++ delimited "#" r.fragment)

def versionName (r : HttpRequest) : Str := if r.version = 0x11 then bytes "HTTP/1.1" else bytes "HTTP/1.0"

theorem isVersion_versionName (r : HttpRequest) :
    r.versionName = bytes "HTTP/1.1" ∨ r.versionName = bytes "HTTP/1.0" := by
  rw [versionName]
  split
  · exact .inl rfl
  · exact .inr rfl

theorem print_eq {r : HttpRequest} (version : r.version = 0x11 ∨ r.version = 0x10) :
    r.print = (bytes (httpMethodToString r.method) ++ (bytes " " ++ (r.target ++ (bytes " " ++
      (r.versionName ++ bytes "\r\n"))))) ++ (r.headers.print ++ (bytes "\r\n" ++ r.body)) := by
  have number : bytes " HTTP/" ++ versionText r.version = bytes " " ++ r.versionName := by
    rw [versionName]
    rcases version with same | same
    · rw [same]
      decide
    · rw [same]
      decide
  rw [print, bodyText_eq, target]
  simp only [List.append_assoc]
  rw [← List.append_assoc (bytes " HTTP/"), number]
  simp only [List.append_assoc]

end HttpRequest

/-! ## Header lines -/

/-- A header that the grammar has as a line. -/
structure IsLine (x : Str × Str) : Prop where
  isToken : IsToken x.1
  inner : ∀ c ∈ x.2, Request.inner.mem c = true
  flush : Flush x.2

theorem mem_inner_of_printable {c : UInt8} (printable : ByteSet.cntrl.mem c = false) : Request.inner.mem c = true := by
  have sub : ((ByteSet.of "\r\n").union Request.httpCtl).subset .cntrl = true := by decide
  rw [Request.inner, ByteSet.mem_diff, ByteSet.mem_any, Bool.true_and, Bool.not_eq_true', ← Bool.not_eq_true]
  intro here
  rw [ByteSet.mem_of_subset sub here] at printable
  cases printable

theorem isToken_connection : IsToken connection := ⟨by decide, by decide +kernel⟩

theorem isToken_contentLength : IsToken contentLength := ⟨by decide, by decide +kernel⟩

theorem isLine_connection (close : Bool) : IsLine (connection, connectionValue close) where
  isToken := isToken_connection
  inner := by
    have both : ∀ close, (connectionValue close).all Request.inner.mem = true := by decide +kernel
    exact List.all_eq_true.mp (both close)
  flush := by
    intro c z eq
    cases close with
    | true =>
      obtain ⟨rfl, -⟩ := List.cons.inj eq
      decide
    | false =>
      obtain ⟨rfl, -⟩ := List.cons.inj eq
      decide

theorem isLine_contentLength (n : Nat) : IsLine (contentLength, bytes (toString n)) := by
  have digits : ∀ c ∈ bytes (toString n), Request.inner.mem c = true ∧ c ≠ 0x20 ∧ c ≠ 0x09 := by
    intro c mem
    obtain ⟨d, small, rfl⟩ := isDigits_toString n c mem
    clear mem
    revert d
    decide
  refine ⟨isToken_contentLength, fun c mem => (digits c mem).1, fun c z eq => ?_⟩
  change bytes (toString n) = c :: z at eq
  exact (digits c (by rw [eq]; exact List.mem_cons_self)).2

theorem Made.isLine {close : Bool} {body : Str} {h : HttpHeaders} (made : Made OwnName IsFieldValue close body h) :
    ∀ x ∈ h, IsLine x := by
  intro x mem
  rcases made.entries x mem with rfl | rfl | ⟨name, value⟩
  · exact isLine_connection close
  · exact isLine_contentLength body.length
  · exact ⟨name.token, fun c inValue => mem_inner_of_printable (value.printable c inValue), value.flush⟩

/-- The header of a line. -/
def Field.header (field : Field) : Str × Str := (field.name, field.value)

theorem space_blank : ∀ c ∈ bytes " ", Request.blank.mem c = true := by decide +kernel

/-- Printed headers are header lines. -/
theorem exists_fields {h : HttpHeaders} (lines : ∀ x ∈ h, IsLine x) :
    ∃ fields : List Field, fields.map Field.header = h ∧ fields.flatMap Field.text = h.print := by
  induction h with
  | nil => exact ⟨[], rfl, rfl⟩
  | cons x h ih =>
    obtain ⟨fields, headers, text⟩ := ih fun y mem => lines y (List.mem_cons_of_mem x mem)
    have line := lines x List.mem_cons_self
    let field : Field :=
      ⟨x.1, bytes " ", x.2, bytes "\r\n", line.isToken, space_blank, line.inner, line.flush, .inl rfl⟩
    refine ⟨field :: fields, ?_, ?_⟩
    · rw [List.map_cons, headers]
      rfl
    · have same : field.text = headerLine x := by
        rw [Field.text, headerLine]
        simp only [List.append_assoc]
        rfl
      rw [List.flatMap_cons, text, same]
      rfl

section Fields

variable {h : HttpHeaders} {fields : List Field}

theorem distinct_of_sorted (sorted : h.Sorted) (headers : fields.map Field.header = h) :
    fields.Pairwise fun f g => nameKey f.name ≠ nameKey g.name := by
  subst headers
  exact (List.pairwise_map.mp sorted).imp ne_of_lt

/-- What is sent under a name is what the headers have there. -/
theorem sentValue_eq_find (sorted : h.Sorted) (headers : fields.map Field.header = h) (name : Str) :
    sentValue fields name = h.find name := by
  have distinct := distinct_of_sorted sorted headers
  subst headers
  cases found : HttpHeaders.find name (fields.map Field.header) with
  | none =>
    refine sentValue_none.mpr fun field mem same => ?_
    rw [sorted.find_of_mem (List.mem_map_of_mem mem) same] at found
    cases found
  | some value =>
    obtain ⟨other, mem, same⟩ := sorted.mem_of_find found
    obtain ⟨field, inFields, eq⟩ := List.mem_map.mp mem
    obtain ⟨rfl, rfl⟩ := Prod.mk.inj eq
    exact sentValue_of_mem distinct inFields same

end Fields

/-! ## What comes back -/

section Trip

variable {env : Env} {buffSize : Nat} {r : HttpRequest} {close : Bool} {fields : List Field}

/-- The announced length is that of the body. -/
theorem announcedLength_eq (casts : CastsDecimals env) (made : Made OwnName IsFieldValue close r.body r.headers)
    (headers : fields.map Field.header = r.headers) (small : r.body.length < 2 ^ 64) :
    r.body.length = announcedLength env.lexicalCast fields := by
  rw [announcedLength, sentValue_eq_find made.sorted headers]
  cases found : r.headers.find contentLength with
  | none =>
    have empty : r.body = [] := by
      by_contra some
      rw [made.sorted.find_of_mem (made.counted some) rfl] at found
      cases found
    rw [empty]
    rfl
  | some value =>
    obtain ⟨other, mem, same⟩ := made.sorted.mem_of_find found
    obtain ⟨-, rfl⟩ := Prod.mk.inj (made.length_spelled (fun _ own => own) mem same)
    dsimp only
    rw [casts _ small]
    exact (UInt64.toNat_ofNat_of_lt small).symm

/-- The flag that follows from the header lines is the one that was printed. -/
theorem closes_eq (made : Made OwnName IsFieldValue close r.body r.headers)
    (headers : fields.map Field.header = r.headers) (connected : (r.headers.find connection).isSome = true) :
    (connection, connectionValue close) ∈ r.headers ∧ closes fields = close := by
  obtain ⟨value, found⟩ := Option.isSome_iff_exists.mp connected
  obtain ⟨other, mem, same⟩ := made.sorted.mem_of_find found
  have spelled := made.connection_spelled (fun _ own => own) mem same
  have flag : sameNoCase (connectionValue close) (bytes "close") = close := by cases close <;> decide
  obtain ⟨rfl, rfl⟩ := Prod.mk.inj spelled
  refine ⟨mem, ?_⟩
  rw [closes, sentValue_eq_find made.sorted headers, found]
  exact flag

/-- The headers that come back are those that were printed, if `connection` was among them. -/
theorem headers_eq (made : Made OwnName IsFieldValue close r.body r.headers)
    (headers : fields.map Field.header = r.headers) (connected : (r.headers.find connection).isSome = true)
    {m : HttpRequest} (returned : Returned fields r.body m) (sorted : m.headers.Sorted)
    (written : m.headers.Named fun name => Written fields name ∨ r.body ≠ [] ∧ name = contentLength) :
    m.headers = r.headers := by
  obtain ⟨mem, flag⟩ := closes_eq made headers connected
  refine sorted.eq_of_find made.sorted (fun x inHeaders => ?_) fun name => ?_
  · rcases written x inHeaders with (same | ⟨field, inFields, same⟩) | ⟨some, same⟩
    · exact ⟨_, same ▸ mem⟩
    · refine ⟨field.value, ?_⟩
      rw [← headers, ← same]
      exact List.mem_map_of_mem inFields
    · exact ⟨_, same ▸ made.counted some⟩
  · by_cases isConnection : nameKey name = nameKey connection
    · rw [returned.connection name isConnection, flag, made.sorted.find_of_mem mem isConnection.symm]
    · by_cases isLength : r.body ≠ [] ∧ nameKey name = nameKey contentLength
      · rw [returned.length isLength.1 name isLength.2,
          made.sorted.find_of_mem (made.counted isLength.1) isLength.2.symm]
      · rw [returned.kept name isConnection fun some same => isLength ⟨some, same⟩,
          sentValue_eq_find made.sorted headers]

/-- The request line that is printed, when it is one of the grammar. -/
def HttpRequest.requestLine {ok : Bool} (r : HttpRequest) (valid : r.method ≠ .invalidMethod)
    (letters : ∀ c ∈ bytes (httpMethodToString r.method), methodByte.mem c = true)
    (isTarget : r.target ∈ lang ok Request.uriReference) : RequestLine ok where
  method := bytes (httpMethodToString r.method)
  target := r.target
  version := r.versionName
  eol := bytes "\r\n"
  known := known_toString valid
  letters := letters
  isTarget := isTarget
  isVersion := r.isVersion_versionName
  isEol := isEol_crlf

theorem received_reference (casts : CastsDecimals env) (sendable : Sendable env.uriRelaxed r)
    (read : OneRead env buffSize r.print)
    (letters : ∀ c ∈ bytes (httpMethodToString r.method), methodByte.mem c = true)
    (t : Request.Reference env.uriRelaxed) (isTarget : r.target = t.text) :
    ∃ m, recvRequest env buffSize [r.print] = some (.message m []) ∧
      m.head = ⟨r.method, t.path, t.query.getD [], t.fragment.getD [], r.version⟩ ∧ m.body = r.body ∧
      (m.headers.find connection).isSome = true ∧
      ((r.headers.find connection).isSome = true → m.headers = r.headers) := by
  obtain ⟨close, made⟩ := sendable.headers
  obtain ⟨fields, headers, text⟩ := exists_fields made.isLine
  let line := r.requestLine sendable.method letters (Request.mem_lang_uriReference.mpr ⟨t, isTarget⟩)
  have shape : r.print = (line.text ++ fields.flatMap Field.text) ++ (bytes "\r\n" ++ r.body) := by
    rw [HttpRequest.print_eq sendable.version, text, ← List.append_assoc]
    rfl
  have counted : r.body.length < 2 ^ 64 := by
    have counted := read.counted
    rw [shape] at counted
    simp only [List.length_append] at counted
    omega
  let sent : Sent env buffSize :=
    ⟨line, fields, bytes "\r\n", r.body, isEol_crlf, distinct_of_sorted made.sorted headers,
      announcedLength_eq casts made headers counted, shape ▸ read.fits, shape ▸ read.room⟩
  have sentText : sent.text = r.print := shape.symm
  obtain ⟨regs, obj, passes, built, head⟩ := line.passes_reference t isTarget sent.shape sent.room
  obtain ⟨built', received⟩ := sent.received passes built
  rw [sentText] at received
  have number : line.number = r.version := by
    change (if r.versionName = bytes "HTTP/1.1" then (0x11 : UInt8) else 0x10) = r.version
    rcases sendable.version with same | same
    · rw [HttpRequest.versionName, same]
      rfl
    · rw [HttpRequest.versionName, same]
      rfl
  refine ⟨_, received, ?_, built'.body_withBody r.body, ?_, fun connected => ?_⟩
  · rw [HttpRequestParser.head_withBody, Field.head_receiveAll, head, number]
    exact congrArg (Head.mk · _ _ _ _) (stringToHttpMethod_toString sendable.method)
  · rw [(built'.returned r.body).connection connection rfl]
    rfl
  · exact headers_eq made headers connected (built'.returned r.body) (built'.sorted_withBody r.body)
      (built'.written_withBody r.body)

theorem target_spaceless {ok : Bool} (sendable : Sendable ok r) : (0x20 : UInt8) ∉ r.target := by
  have path : (0x20 : UInt8) ∉ r.path := not_mem_of_mem_lang (by decide) (by decide) sendable.path
  have query : (0x20 : UInt8) ∉ r.query := not_mem_of_mem_lang (by decide) (by decide) sendable.query
  have fragment : (0x20 : UInt8) ∉ r.fragment := not_mem_of_mem_lang (by decide) (by decide) sendable.fragment
  rw [HttpRequest.target, delimited, delimited]
  split <;> split <;> simp [path, query, fragment, bytes]

/-- A request that comes back was printed with a request line of the grammar. -/
theorem line_of_received (sendable : Sendable env.uriRelaxed r) (read : OneRead env buffSize r.print) {m : HttpRequest}
    {rest : Reads} (received : recvRequest env buffSize [r.print] = some (.message m rest)) :
    (∀ c ∈ bytes (httpMethodToString r.method), methodByte.mem c = true) ∧
      r.target ∈ lang env.uriRelaxed Request.uriReference := by
  obtain ⟨c, y, method, letter⟩ := method_letter sendable.method
  have shape := HttpRequest.print_eq sendable.version
  simp only [List.append_assoc] at shape
  have nonempty : r.print ≠ [] := by
    rw [shape, method, List.cons_append]
    exact List.cons_ne_nil c _
  rw [recvRequest_eq] at received
  obtain ⟨_ | x, header, answer⟩ := Option.map_eq_some_iff.mp received
  · cases answer
  · have finishes := Machine.finishes_of_recvHeader nonempty read.fits header
    obtain ⟨last, state, isFinal⟩ := (Option.any_eq_true ..).mp finishes
    obtain ⟨u, v, eq, inside⟩ := exists_mem_lang_of_scan state isFinal
    exact RequestLine.parts_of_main method letter (method_spaceless sendable.method) (target_spaceless sendable)
      (shape.symm.trans eq) inside

/-- A query or a fragment, if there is one. -/
def present (s : Str) : Option Str := if s.isEmpty then none else some s

theorem getD_present (s : Str) : (present s).getD [] = s := by
  cases s with
  | nil => rfl
  | cons c s => rfl

theorem mem_present {s u : Str} (mem : u ∈ present s) : u = s := by
  cases s with
  | nil => cases mem
  | cons c s => exact (Option.some.inj mem).symm

/-- The target that is printed, when its path needs no scheme. -/
def HttpRequest.reference {ok : Bool} (r : HttpRequest) (path : r.path ∈ lang ok Request.relativePart)
    (query : r.query ∈ lang ok Request.query) (fragment : r.fragment ∈ lang ok Request.fragmentRule) :
    Request.Reference ok where
  path := r.path
  query := present r.query
  fragment := present r.fragment
  scheme := none
  inQuery q mem := by
    rw [mem_present mem, ← Request.lang_query]
    exact query
  inFragment f mem := by
    rw [mem_present mem, ← Request.lang_fragmentRule]
    exact fragment
  isScheme s mem := nomatch mem
  inPart := path

theorem text_reference {ok : Bool} {path : r.path ∈ lang ok Request.relativePart}
    {query : r.query ∈ lang ok Request.query} {fragment : r.fragment ∈ lang ok Request.fragmentRule} :
    r.target = (r.reference path query fragment).text := by
  have part : ∀ s, delimited "?" s = Rfc3986.behind Rfc3986.question (present s) ∧
      delimited "#" s = Rfc3986.behind Rfc3986.hash (present s) := by
    intro s
    cases s with
    | nil => exact ⟨rfl, rfl⟩
    | cons c s => exact ⟨rfl, rfl⟩
  rw [HttpRequest.target, (part r.query).1, (part r.fragment).2, ← List.append_assoc]
  rfl

/-- A target from which the parser takes the same path, query and fragment has no scheme. -/
theorem scheme_none {ok : Bool} {t : Request.Reference ok} (isTarget : r.target = t.text) (path : t.path = r.path)
    (query : t.query.getD [] = r.query) (fragment : t.fragment.getD [] = r.fragment) : t.scheme = none := by
  have part : ∀ (d : String) (c : UInt8) (o : Option Str), (bytes d).length = 1 →
      (delimited d (o.getD [])).length ≤ (Rfc3986.behind c o).length := by
    intro d c o one
    cases o with
    | none => exact Nat.le_refl _
    | some u =>
      rw [delimited, List.length_append]
      split
      · exact Nat.le_succ_of_le (Nat.le_of_eq (Nat.zero_add _))
      · rw [one]
        exact Nat.le_of_eq (Nat.add_comm ..)
  have length := congrArg List.length isTarget
  rw [HttpRequest.target, Request.Reference.text, Request.Target.text, Request.Target.pathQuery, ← query, ← fragment] at length
  simp only [List.length_append, path] at length
  have first := part "?" Rfc3986.question t.query rfl
  have second := part "#" Rfc3986.hash t.fragment rfl
  cases named : t.scheme with
  | none => rfl
  | some s =>
    rw [named, Rfc3986.before, List.length_append, List.length_singleton] at length
    omega

/-- A request that a caller makes comes back if and only if the printed text loses nothing of it. -/
theorem comesBack_iff (casts : CastsDecimals env) (sendable : Sendable env.uriRelaxed r)
    (read : OneRead env buffSize r.print) : ComesBack env buffSize r ↔ Readable env.uriRelaxed r := by
  constructor
  · rintro ⟨m, rest, received, head, headers, -⟩
    obtain ⟨letters, isTarget⟩ := line_of_received sendable read received
    obtain ⟨t, isTarget⟩ := Request.mem_lang_uriReference.mp isTarget
    obtain ⟨m', received', head', -, connected, -⟩ := received_reference casts sendable read letters t isTarget
    obtain ⟨rfl, -⟩ := Received.message.inj (Option.some.inj (received'.symm.trans received))
    have same := head'.symm.trans head
    have path : t.path = r.path := congrArg Head.path same
    have noScheme := scheme_none isTarget path (congrArg Head.query same) (congrArg Head.fragment same)
    have inPart := t.inPart
    rw [noScheme, path] at inPart
    exact ⟨(method_bytes sendable.method).mp letters, inPart, headers ▸ connected⟩
  · rintro ⟨method, path, connected⟩
    obtain ⟨m, received, head, body, -, headers⟩ := received_reference casts sendable read
      ((method_bytes sendable.method).mpr method) (r.reference path sendable.query sendable.fragment) text_reference
    refine ⟨m, [], received, head.trans ?_, headers connected, body⟩
    change (⟨r.method, r.path, (present r.query).getD [], (present r.fragment).getD [], r.version⟩ : Head) = r.head
    rw [getD_present, getD_present]
    rfl

end Trip

/-! ## Requests with a body and with a hyphen -/

/-- `POST /a?x=1`, with a header, and a body of two bytes. -/
def postRequest : HttpRequest :=
  { ((HttpRequest.construct 0x10 false).setHeader (bytes "accept") (bytes "*/*")).setBody (bytes "hi") with
    method := .post
    path := bytes "/a"
    query := bytes "x=1" }

theorem accept_own : OwnName (bytes "accept") where
  token := ⟨by decide, by decide +kernel⟩
  connection := by decide
  length := by decide

theorem sendable_postRequest : Sendable false postRequest where
  method := by decide
  version := .inr rfl
  path := mem_lang_of_reads (by decide) (by decide +kernel)
  query := mem_lang_of_reads (by decide) (by decide +kernel)
  fragment := mem_lang_of_reads (by decide) (by decide +kernel)
  headers := by
    have own : ∀ name, OwnName name → OwnName name := fun _ own => own
    have isValue : IsFieldValue (bytes "*/*") := by
      refine ⟨fun c z eq => ?_, by decide +kernel⟩
      obtain ⟨rfl, -⟩ := List.cons.inj eq
      decide
    have start : (HttpRequest.construct 0x10 false).IsMade OwnName IsFieldValue :=
      HttpRequest.isMade_run own (.nil _)
    have header := start.mutate own (c := .setHeader (bytes "accept") (bytes "*/*")) ⟨accept_own, isValue⟩
    exact ⟨_, (header.mutate own (c := .setBody (bytes "hi")) trivial).made⟩

theorem comesBack_iff_post : ComesBack linuxSigned 128 postRequest :=
  (comesBack_iff castsDecimals_linuxSigned sendable_postRequest ⟨by decide, by decide, by decide⟩).mpr
    ⟨by decide, mem_lang_of_reads (by decide) (by decide +kernel), by decide⟩

/-- `M-SEARCH / HTTP/1.1`. -/
def searchRequest : HttpRequest := { HttpRequest.construct 0x11 true with method := .msearch }

theorem not_comesBack_search : (Sendable false searchRequest ∧ OneRead linuxSigned 128 searchRequest.print) ∧
    ¬ ComesBack linuxSigned 128 searchRequest := by
  refine ⟨⟨⟨by decide, .inl rfl, ?_, ?_, ?_, ?_⟩, ⟨by decide, by decide, by decide⟩⟩, ?_⟩
  · exact mem_lang_of_reads (by decide) (by decide +kernel)
  · exact mem_lang_of_reads (by decide) (by decide +kernel)
  · exact mem_lang_of_reads (by decide) (by decide +kernel)
  · exact ⟨_, (HttpRequest.isMade_run (fun _ own => own) (.nil _)).made⟩
  · rintro ⟨m, rest, received, -⟩
    have refused : recvRequest linuxSigned 128 [searchRequest.print] = some .null := by decide +kernel
    rw [refused] at received
    cases received

end Sylar.Http
