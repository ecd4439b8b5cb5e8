import Sylar.Http.Mutators
import Sylar.Http.Session
import Sylar.Lib.Paths

/-!
# Printing messages

`operator<<` of `HttpRequest` and `HttpResponse`, and the messages that a caller makes with the constructor and
the setters. What a caller can put into the headers is the same for both: `connection` comes from the setter of
the flag, `content-length` from `set_body`, and every other header is a token with a value (`Made`).

There is no setter for the cookies of a response, so none are printed.
-/

namespace Sylar.Http

open Lib

/-! ## Tables -/

/-- `http_method_to_string`. -/
def httpMethodToString (m : HttpMethod) : String :=
  match httpMethodMap.find? fun entry => entry.2 == m with
  | some entry => entry.1
  | none => "<unknown>"

/-- `HTTP_STATUS_MAP`. -/
def httpStatusMap : List (Int × String) :=
  [(100, "Continue"), (101, "Switching Protocols"), (102, "Processing"), (200, "OK"), (201, "Created"),
    (202, "Accepted"), (203, "Non-Authoritative Information"), (204, "No Content"), (205, "Reset Content"),
    (206, "Partial Content"), (207, "Multi-Status"), (208, "Already Reported"), (226, "IM Used"),
    (300, "Multiple Choices"), (301, "Moved Permanently"), (302, "Found"), (303, "See Other"),
    (304, "Not Modified"), (305, "Use Proxy"), (307, "Temporary Redirect"), (308, "Permanent Redirect"),
    (400, "Bad Request"), (401, "Unauthorized"), (402, "Payment Required"), (403, "Forbidden"),
    (404, "Not Found"), (405, "Method Not Allowed"), (406, "Not Acceptable"),
    (407, "Proxy Authentication Required"), (408, "Request Timeout"), (409, "Conflict"), (410, "Gone"),
    (411, "Length Required"), (412, "Precondition Failed"), (413, "Payload Too Large"), (414, "URI Too Long"),
    (415, "Unsupported Media Type"), (416, "Range Not Satisfiable"), (417, "Expectation Failed"),
    (421, "Misdirected Request"), (422, "Unprocessable Entity"), (423, "Locked"), (424, "Failed Dependency"),
    (426, "Upgrade Required"), (428, "Precondition Required"), (429, "Too Many Requests"),
    (431, "Request Header Fields Too Large"), (451, "Unavailable For Legal Reasons"),
    (500, "Internal Server Error"), (501, "Not Implemented"), (502, "Bad Gateway"),
    (503, "Service Unavailable"), (504, "Gateway Timeout"), (505, "HTTP Version Not Supported"),
    (506, "Variant Also Negotiates"), (507, "Insufficient Storage"), (508, "Loop Detected"),
    (510, "Not Extended"), (511, "Network Authentication Required")]

/-- `http_status_to_string`. -/
def httpStatusToString (s : Int) : String :=
  match httpStatusMap.find? fun entry => entry.1 == s with
  | some entry => entry.2
  | none => "<unknown>"

/-! ## The text of a message -/

/-- `(uint32_t(version_) >> 4) << '.' << (uint32_t(version_) & 0x0F)`. -/
def versionText (v : UInt8) : Str :=
  bytes (toString (v.toNat >>> 4)) ++ bytes "." ++ bytes (toString (v.toNat &&& 0x0F))

def headerLine (x : Str × Str) : Str := x.1 ++ bytes ": " ++ x.2 ++ bytes "\r\n"

/-- The loop over the headers. -/
def HttpHeaders.print (h : HttpHeaders) : Str := h.flatMap headerLine

/-- The empty line, with the body if there is one. -/
def bodyText (body : Str) : Str := if body.isEmpty then bytes "\r\n" else bytes "\r\n" ++ body

/-- A part of a target with its delimiter, or nothing. -/
def delimited (delimiter : String) (s : Str) : Str := (if s.isEmpty then [] else bytes delimiter) ++ s

/-- `operator<<(std::ostream&, const HttpRequest&)`. -/
def HttpRequest.print (r : HttpRequest) : Str :=
  bytes (httpMethodToString r.method) ++ bytes " " ++ r.path ++ delimited "?" r.query ++ delimited "#" r.fragment ++
    bytes " HTTP/" ++ versionText r.version ++ bytes "\r\n" ++ r.headers.print ++ bodyText r.body

/-- `operator<<(std::ostream&, const HttpResponse&)`. The reason is that of the status. -/
def HttpResponse.print (r : HttpResponse) : Str :=
  bytes "HTTP/" ++ versionText r.version ++ bytes " " ++ bytes (toString (r.status.emod (2 ^ 32)).toNat) ++
    bytes " " ++ bytes (httpStatusToString r.status) ++ bytes "\r\n" ++ r.headers.print ++ bodyText r.body

/-- The empty line comes before the body, if there is one or not. -/
theorem bodyText_eq (body : Str) : bodyText body = bytes "\r\n" ++ body := by
  cases body with
  | nil => rfl
  | cons c body => rfl

/-- The text comes in one read, and there is room for it. -/
structure OneRead (env : Env) (buffSize : Nat) (text : Str) : Prop where
  fits : text.length ≤ buffSize
  room : text.length ≤ env.maxSize
  counted : text.length < 2 ^ 64

/-! ## Headers that a caller makes -/

/-- The bytes of a token: no control characters and no separators. -/
def tokenByte : ByteSet := ByteSet.ascii.diff (ByteSet.cntrl.union Request.httpSeparator)

structure IsToken (s : Str) : Prop where
  nonempty : s ≠ []
  all : ∀ c ∈ s, tokenByte.mem c = true

/-- The name of the header that `set_body` sets. -/
def contentLength : Str := bytes "content-length"

/-- The name of a header that a caller sets by `set_header`. -/
structure OwnName (name : Str) : Prop where
  token : IsToken name
  connection : nameKey name ≠ nameKey connection
  length : nameKey name ≠ nameKey contentLength

/-- No blank at the start. -/
def Flush (value : Str) : Prop := ∀ c z, value = c :: z → c ≠ 0x20 ∧ c ≠ 0x09

/-- The headers of a message with this flag and this body. An upgrade takes `connection` away. -/
structure Made (Name Value : Str → Prop) (close : Bool) (body : Str) (h : HttpHeaders) : Prop where
  sorted : h.Sorted
  counted : body ≠ [] → (contentLength, bytes (toString body.length)) ∈ h
  entries : ∀ x ∈ h, x = (Http.connection, connectionValue close) ∨
    x = (contentLength, bytes (toString body.length)) ∨ (Name x.1 ∧ Value x.2)

namespace Made

variable {Name Value : Str → Prop} {close : Bool} {body : Str} {h : HttpHeaders} {name value : Str}

theorem connection_ne_length : nameKey Http.connection ≠ nameKey contentLength := by decide

theorem nil (close : Bool) : Made Name Value close [] [] where
  sorted := OrderedMap.Sorted.nil
  counted some := absurd rfl some
  entries _ mem := absurd mem List.not_mem_nil

theorem erase (made : Made Name Value close body h) (notLength : nameKey name ≠ nameKey contentLength) :
    Made Name Value close body (h.erase name) :=
  ⟨made.sorted.erase, fun some => made.sorted.mem_erase.mpr ⟨made.counted some, notLength.symm⟩,
    fun x mem => made.entries x (made.sorted.mem_erase.mp mem).1⟩

/-- Without `connection` the headers do not depend on the flag. -/
theorem unconnected (made : Made Name Value close body h)
    (none : h.Named fun name => nameKey name ≠ nameKey Http.connection) (v : Bool) : Made Name Value v body h where
  sorted := made.sorted
  counted := made.counted
  entries x mem := by
    rcases made.entries x mem with rfl | rest
    · exact absurd rfl (none _ mem)
    · exact .inr rest

section Assign

variable (own : ∀ name, Name name → OwnName name)

include own

/-- The names at the places that the code itself uses are its own. -/
theorem connection_spelled (made : Made Name Value close body h) {x : Str × Str} (mem : x ∈ h)
    (same : nameKey x.1 = nameKey Http.connection) : x = (Http.connection, connectionValue close) := by
  rcases made.entries x mem with eq | rfl | ⟨name, -⟩
  · exact eq
  · exact absurd same.symm connection_ne_length
  · exact absurd same (own _ name).connection

theorem length_spelled (made : Made Name Value close body h) {x : Str × Str} (mem : x ∈ h)
    (same : nameKey x.1 = nameKey contentLength) : x = (contentLength, bytes (toString body.length)) := by
  rcases made.entries x mem with rfl | eq | ⟨name, -⟩
  · exact absurd same connection_ne_length
  · exact eq
  · exact absurd same (own _ name).length

theorem setHeader (made : Made Name Value close body h) (isName : Name name) (isValue : Value value) :
    Made Name Value close body (h.assign name value) := by
  have kept : ∀ x ∈ h, nameKey x.1 ≠ nameKey name → x ∈ h.assign name value := by
    intro x mem ne
    rw [HttpHeaders.assign_eq, OrderedMap.mem_assign_iff made.sorted]
    exact .inl ⟨mem, ne⟩
  refine ⟨made.sorted.assign, fun some => kept _ (made.counted some) (own name isName).length.symm, fun x mem => ?_⟩
  rw [HttpHeaders.assign_eq] at mem
  rcases OrderedMap.mem_assign mem with old | ⟨rfl, place, rfl | ⟨y, mem', eq⟩⟩
  · exact made.entries x old
  · exact .inr (.inr ⟨isName, isValue⟩)
  · -- the name that was there first stays
    rw [eq] at place
    rcases made.entries y mem' with rfl | rfl | ⟨isName', -⟩
    · exact absurd place.symm (own name isName).connection
    · exact absurd place.symm (own name isName).length
    · exact .inr (.inr ⟨eq ▸ isName', isValue⟩)

theorem setClose (made : Made Name Value close body h) (v : Bool) :
    Made Name Value v body (h.assign Http.connection (connectionValue v)) := by
  have entries : ∀ x, x ∈ h.assign Http.connection (connectionValue v) ↔
      (x ∈ h ∧ nameKey x.1 ≠ nameKey Http.connection) ∨ x = (Http.connection, connectionValue v) := by
    intro x
    rw [HttpHeaders.assign_eq]
    exact OrderedMap.mem_assign_of_spelled made.sorted fun y mem same =>
      congrArg Prod.fst (made.connection_spelled own mem same)
  refine ⟨made.sorted.assign, fun some => ?_, fun x mem => ?_⟩
  · exact (entries _).mpr (.inl ⟨made.counted some, connection_ne_length.symm⟩)
  · rcases (entries x).mp mem with ⟨old, ne⟩ | rfl
    · rcases made.entries x old with rfl | rfl | own'
      · exact absurd rfl ne
      · exact .inr (.inl rfl)
      · exact .inr (.inr own')
    · exact .inl rfl

theorem setBody (made : Made Name Value close body h) (v : Str) :
    Made Name Value close v (h.assign contentLength (bytes (toString v.length))) := by
  have entries : ∀ x, x ∈ h.assign contentLength (bytes (toString v.length)) ↔
      (x ∈ h ∧ nameKey x.1 ≠ nameKey contentLength) ∨ x = (contentLength, bytes (toString v.length)) := by
    intro x
    rw [HttpHeaders.assign_eq]
    exact OrderedMap.mem_assign_of_spelled made.sorted fun y mem same =>
      congrArg Prod.fst (made.length_spelled own mem same)
  refine ⟨made.sorted.assign, fun _ => (entries _).mpr (.inr rfl), fun x mem => ?_⟩
  rcases (entries x).mp mem with ⟨old, ne⟩ | rfl
  · rcases made.entries x old with rfl | rfl | own'
    · exact .inl rfl
    · exact absurd rfl ne
    · exact .inr (.inr own')
  · exact .inr (.inl rfl)

end Assign

end Made

/-! ## Calls of a caller -/

/-- The calls that leave `connection` to the setters of the flags and `content-length` to `set_body`. -/
def Proper (Name Value : Str → Prop) : Mutator → Prop
  | .setHeader name value => Name name ∧ Value value
  | .delHeader name => nameKey name ≠ nameKey contentLength
  | .setHeaders _ => False
  | _ => True

end Sylar.Http
