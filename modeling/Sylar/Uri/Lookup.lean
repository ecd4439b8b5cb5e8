import Sylar.Address.Lookup
import Sylar.Uri.Ports

/-!
# What a URI asks for

`get_address` hands the host of the URI to `lookup_ip_address`, which splits it again as if a port could
follow. The grammar leaves nothing to split: a host that `create` has made has no colon unless it is in
brackets, and nothing behind the bracket that closes it. So the node asked for is the host without its
brackets, and the service is empty.
-/

namespace Sylar.Uri

open Lib Lib.Ragel Http UriParser
open Rfc3986 (Authority Parts Free closing opening)

/-- A host without its brackets. -/
def withoutBrackets (h : Str) : Str := if h.head? = some opening then (h.drop 1).dropLast else h

theorem host_mem {s : Str} {uri : Uri} (accepted : create s = some (some uri)) :
    uri.host ∈ lang false UriParser.host := by
  have inside := mem_lang_of_create accepted
  rw [lang_uriReference, Rfc3986.mem_lang_reference] at inside
  obtain ⟨p, valid, rfl⟩ := inside
  cases empty : emptyPort p with
  | true => cases (create_throws valid empty).symm.trans accepted
  | false =>
    obtain ⟨n, made⟩ := create_text valid empty
    cases made.symm.trans accepted
    show p.authority.elim [] (fun a => a.host) ∈ _
    cases named : p.authority with
    | none => exact nil_mem_lang.mpr (by decide)
    | some a => exact (valid.authority a named).host

/-- A host is plain, or something in brackets. -/
theorem host_cases {h : Str} (inside : h ∈ lang false UriParser.host) :
    Free (.of ":/?#@[]") h ∨ ∃ b, b ≠ [] ∧ h = opening :: (b ++ [closing]) ∧ Free (.of "/?#@[]") b := by
  rcases mem_lang_alt.mp inside with inside | inside
  · rw [ipLiteral, cat, cat, cat, mem_lang_seq] at inside
    obtain ⟨_, first, _, rest, rfl⟩ := inside
    obtain ⟨b, inB, _, last, rfl⟩ := mem_lang_seq.mp rest
    obtain rfl := (mem_lang_lit "[").mp first
    obtain rfl := (mem_lang_lit "]").mp last
    refine .inr ⟨b, ?_, rfl, .of_mem_lang (by decide) (by decide) inB⟩
    rintro rfl
    exact absurd (nil_mem_lang.mp inB) (by decide)
  · exact .inl (.of_mem_lang (by decide) (by decide) inside)

/-- A host has no zero byte, so that it is a C string as it is. -/
theorem cString_host {h : Str} (inside : h ∈ lang false UriParser.host) :
    cString (withoutBrackets h) = withoutBrackets h := by
  have free : Free (.single 0) h := .of_mem_lang (by decide) (by decide) inside
  rw [cString, List.takeWhile_eq_self_iff]
  intro c mem
  have member : c ∈ h := by
    rw [withoutBrackets] at mem
    split at mem
    · exact List.mem_of_mem_drop (List.mem_of_mem_dropLast mem)
    · exact mem
  rw [bne_iff_ne]
  rintro rfl
  exact free.not_mem (by decide) member

theorem nodeAndService_host {h : Str} (inside : h ∈ lang false UriParser.host) :
    Address.nodeAndService h = (withoutBrackets h, []) := by
  rcases host_cases inside with free | ⟨b, some, rfl, free⟩
  · have head : h.head? ≠ Option.some opening := by
      intro eq
      exact free.not_mem (by decide) (List.mem_of_head? eq)
    rw [withoutBrackets, if_neg head]
    exact Address.nodeAndService_plain (free.not_mem (by decide)) (free.not_mem (by decide))
  · have head : (opening :: (b ++ [closing])).head? = Option.some opening := rfl
    have bare : withoutBrackets (opening :: (b ++ [closing])) = b := by
      rw [withoutBrackets, if_pos head, List.drop_one, List.tail_cons, List.dropLast_concat]
    rw [bare]
    exact Address.nodeAndService_brackets some (free.not_mem (by decide))

/-- The address of a URI is the first IP address that the system finds for its host, with the URI's port: whatever
text was accepted, no part of the host is taken for a service, and nothing else is asked. -/
theorem getAddress_eq (host : Host) (getaddrinfo : GetAddrInfo) {s : Str} {uri : Uri}
    (accepted : create s = some (some uri)) :
    uri.getAddress host (fun h => IPAddress.lookupFirstIpAddress getaddrinfo h 0 0) =
      ((getaddrinfo (withoutBrackets uri.host) [] ⟨AF_UNSPEC, 0, 0⟩).bind IPAddress.firstOf).map fun addr =>
        addr.setPort host uri.getPort.toBitVec := by
  have inside := host_mem accepted
  rw [getAddress, IPAddress.lookupFirstIpAddress_eq, nodeAndService_host inside, cString_host inside]
  rfl

/-- The loopback address in brackets, found at the second place of the answer. -/
theorem getAddress_eq_loopback :
    (⟨0, bytes "http", [], bytes "[::1]", bytes "/", [], []⟩ : Uri).getAddress .little (fun h =>
        IPAddress.lookupFirstIpAddress (fun _ _ _ => some [none, some (.inet6 IPv6Address.empty.address rfl)]) h 0 0) =
      ((some [none, some (.inet6 IPv6Address.empty.address rfl)]).bind IPAddress.firstOf).map fun addr =>
        addr.setPort .little
          (⟨0, bytes "http", [], bytes "[::1]", bytes "/", [], []⟩ : Uri).getPort.toBitVec := by
  have accepted : create (bytes "http://[::1]/") =
      some (some ⟨0, bytes "http", [], bytes "[::1]", bytes "/", [], []⟩) := by decide +kernel
  exact getAddress_eq .little _ accepted

end Sylar.Uri
