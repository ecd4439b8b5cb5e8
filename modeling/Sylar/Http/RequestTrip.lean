import Sylar.Http.Target
import Sylar.Http.Faithful

/-!
# Request lines with a known target

What the parser has behind a request line whose target is known in its parts. The actions on a target are executed in
the order of the text, and each callback takes the piece that the action before it marked; so the request has the
path, the query and the fragment that were written, and the empty string where there was none
(`passes_reference`).
-/

namespace Sylar.Http

open Lib Lib.Ragel
open Rfc3986 (behind before question hash)

/-! ## Targets -/

namespace HttpRequestParser

variable (parser : HttpRequestParser) (s : Str)

def withPath : HttpRequestParser := { parser with request := { parser.getRequest with path := s } }
def withQuery : HttpRequestParser := { parser with request := { parser.getRequest with query := s } }
def withFragment : HttpRequestParser := { parser with request := { parser.getRequest with fragment := s } }

end HttpRequestParser

namespace Request.Target

variable {ok : Bool} {maxSize n k : Nat} (t : Target ok)

/-- What the parser does with a target. -/
def receive (parser : HttpRequestParser) : HttpRequestParser :=
  let parser := parser.withPath t.path
  let parser := t.query.elim parser parser.withQuery
  t.fragment.elim parser parser.withFragment

theorem head_receive (parser : HttpRequestParser) : (t.receive parser).request.head =
    { parser.request.head with
      path := t.path
      query := t.query.getD parser.request.query
      fragment := t.fragment.getD parser.request.fragment } := by
  have path : (parser.withPath t.path).request.head = { parser.request.head with path := t.path } := by
    rw [← parser.head_getRequest]
    rfl
  have query : ∀ parser s, (HttpRequestParser.withQuery parser s).request.head =
      { parser.request.head with query := s } := fun parser s => by
    rw [← parser.head_getRequest]
    rfl
  have fragment : ∀ parser s, (HttpRequestParser.withFragment parser s).request.head =
      { parser.request.head with fragment := s } := fun parser s => by
    rw [← parser.head_getRequest]
    rfl
  rw [receive]
  cases t.query with
  | none =>
    cases t.fragment with
    | none => exact path
    | some f => exact (fragment _ f).trans (by rw [Option.elim_none, path]; rfl)
  | some q =>
    cases t.fragment with
    | none => exact (query _ q).trans (by rw [path]; rfl)
    | some f => exact (fragment _ f).trans (by rw [Option.elim_some, query, path]; rfl)

/-- The actions on a part behind its delimiter. -/
def optionCalls (a b : Action) (k : Nat) : Option Str → List (Action × Nat)
  | none => []
  | some u => [(a, k + 1), (b, k + 1 + u.length)]

/-- The actions on a target, from an offset on. -/
def calls (k : Nat) : List (Action × Nat) :=
  [(.mark, k), (.requestPath, k + t.path.length)] ++
    (optionCalls .startQuery .queryString (k + t.path.length) t.query ++
      ([(.requestUri, k + t.pathQuery.length)] ++ optionCalls .mark .fragment (k + t.pathQuery.length) t.fragment))

theorem executed_events : executed ((t.events n).map (.shift k)) = t.calls k := by
  rw [events, uriEvents, calls]
  cases t.query with
  | none =>
    cases t.fragment with
    | none => simp [executed, List.eraseDups_cons, queryEvents, fragmentEvents, optionCalls, Event.shift]
    | some f => simp [executed, List.eraseDups_cons, queryEvents, fragmentEvents, optionCalls, Event.shift, Nat.add_assoc]
  | some q =>
    cases t.fragment with
    | none => simp [executed, List.eraseDups_cons, queryEvents, fragmentEvents, optionCalls, Event.shift, Nat.add_assoc]
    | some f => simp [executed, List.eraseDups_cons, queryEvents, fragmentEvents, optionCalls, Event.shift, Nat.add_assoc]

/-- An action that notes where a piece of the text begins, and the callback that takes the piece behind it. -/
theorem run_piece (ok : Bool) (obj : HttpRequestParser) {a b : Action} {callback : HttpRequestParser → Str → Nat → Option HttpRequestParser}
    {f : Str → HttpRequestParser} {text pre piece post : Str} {r : Register}
    (marks : obj.action maxSize a = .mark r) (acts : obj.action maxSize b = .element r callback)
    (takes : ∀ s length, callback obj s length = (string maxSize s length).map f)
    (shape : text = pre ++ (piece ++ post)) (room : text.length ≤ maxSize) (regs : Registers) :
    (requestMachine ok maxSize).run text [(a, pre.length), (b, pre.length + piece.length)] regs obj =
      some (regs.set pre.length r, f piece) := by
  have start : (regs.set pre.length r).get r = pre.length := by cases r <;> rfl
  have exec : (obj.action maxSize b).exec text (pre.length + piece.length) (regs.set pre.length r) obj =
      some (regs.set pre.length r, f piece) := by
    rw [acts, Op.exec, start, sizeSub_of_le (Nat.le_add_right ..), Nat.add_sub_cancel_left, takes,
      string_piece shape room]
    rfl
  rw [Machine.run]
  change ((obj.action maxSize a).exec text pre.length regs obj).bind _ = _
  rw [marks]
  change ((obj.action maxSize b).exec text (pre.length + piece.length) (regs.set pre.length r) obj).bind _ = _
  rw [exec]
  rfl

theorem run_option (ok : Bool) (obj : HttpRequestParser) {a b : Action} {callback : HttpRequestParser → Str → Nat → Option HttpRequestParser}
    {f : Str → HttpRequestParser} {text pre post : Str} {c : UInt8} {o : Option Str} {r : Register}
    (marks : obj.action maxSize a = .mark r) (acts : obj.action maxSize b = .element r callback)
    (takes : ∀ s length, callback obj s length = (string maxSize s length).map f)
    (shape : text = pre ++ (behind c o ++ post)) (room : text.length ≤ maxSize) (regs : Registers) : ∃ regs',
    (requestMachine ok maxSize).run text (optionCalls a b pre.length o) regs obj = some (regs', o.elim obj f) := by
  cases o with
  | none => exact ⟨regs, rfl⟩
  | some u =>
    have shape' : text = (pre ++ [c]) ++ (u ++ post) := by
      rw [shape, List.append_assoc]
      rfl
    have piece := run_piece ok obj marks acts takes shape' room regs
    rw [List.length_append] at piece
    exact ⟨_, piece⟩

theorem run_calls {text pre rest : Str} (shape : text = pre ++ (t.text ++ rest)) (room : text.length ≤ maxSize)
    (regs : Registers) (obj : HttpRequestParser) : ∃ regs',
    (requestMachine ok maxSize).run text (t.calls pre.length) regs obj = some (regs', t.receive obj) := by
  have pathShape : text = pre ++ (t.path ++ (behind question t.query ++ (behind hash t.fragment ++ rest))) := by
    rw [shape, Target.text, Target.pathQuery]
    simp only [List.append_assoc]
  have queryShape : text = (pre ++ t.path) ++ (behind question t.query ++ (behind hash t.fragment ++ rest)) := by
    rw [pathShape, List.append_assoc]
  have fragmentShape : text = (pre ++ t.pathQuery) ++ (behind hash t.fragment ++ rest) := by
    rw [pathShape, Target.pathQuery]
    simp only [List.append_assoc]
  have path := run_piece ok obj (a := .mark) (b := .requestPath) (f := obj.withPath) rfl rfl (fun _ _ => rfl) pathShape
    room regs
  obtain ⟨regs₁, query⟩ := run_option ok (obj.withPath t.path) (a := .startQuery) (b := .queryString) rfl rfl
    (fun _ _ => rfl) queryShape room (regs.set pre.length .mark)
  obtain ⟨regs₂, fragment⟩ := run_option ok (t.query.elim (obj.withPath t.path) (obj.withPath t.path).withQuery)
    (a := .mark) (b := .fragment) rfl rfl (fun _ _ => rfl) fragmentShape room regs₁
  rw [List.length_append] at query fragment
  refine ⟨regs₂, ?_⟩
  rw [calls, run_append, path, Option.bind_some, run_append, query, Option.bind_some]
  exact fragment

end Request.Target

namespace Built

open Request

variable {ok : Bool} {maxSize : Nat} {fields : List Field} {parser : HttpRequestParser}

theorem receive_target (built : Built fields parser) (t : Target ok) : Built fields (t.receive parser) := by
  have path : Built fields (parser.withPath t.path) := built.callback rfl rfl rfl rfl
  have query : Built fields (t.query.elim (parser.withPath t.path) (parser.withPath t.path).withQuery) := by
    cases t.query with
    | none => exact path
    | some q => exact path.callback rfl rfl rfl rfl
  rw [Target.receive]
  cases t.fragment with
  | none => exact query
  | some f => exact query.callback rfl rfl rfl rfl

end Built

section Line

open Request

variable {ok : Bool} {maxSize : Nat}

/-- The actions on a target behind a method. A scheme leaves the mark that was set before it. -/
theorem Reference.run (r : Reference ok) {n : Nat} {text pre rest : Str} (shape : text = pre ++ (r.text ++ rest))
    (room : text.length ≤ maxSize) (regs : Registers) (obj : HttpRequestParser) : ∃ regs',
    (requestMachine ok maxSize).run text (executed ((r.events n).map (Event.shift pre.length))) regs obj =
      some (regs', r.toTarget.receive obj) := by
  have behind : ∀ (n : Nat) (pre' : Str) (regs : Registers), text = pre' ++ (r.toTarget.text ++ rest) → ∃ regs',
      (requestMachine ok maxSize).run text (executed ((r.toTarget.events n).map (Event.shift pre'.length))) regs obj =
        some (regs', r.toTarget.receive obj) := by
    intro n pre' regs shape
    rw [Target.executed_events]
    exact r.toTarget.run_calls shape room regs obj
  rw [Reference.events]
  cases named : r.scheme with
  | none =>
    refine behind (n + 7) pre regs ?_
    rw [shape, Reference.text, named]
    rfl
  | some s =>
    have shape' : text = (pre ++ (s ++ [Rfc3986.colon])) ++ (r.toTarget.text ++ rest) := by
      rw [shape, Reference.text, named, before]
      simp only [List.append_assoc]
    have length : (pre ++ (s ++ [Rfc3986.colon])).length = pre.length + (s.length + 1) := by
      simp only [List.length_append, List.length_singleton]
    obtain ⟨regs', ran⟩ := behind n _ { regs with mark := pre.length } shape'
    rw [length] at ran
    refine ⟨regs', ?_⟩
    have apart : ∀ t ∈ [(⟨0, n + 7, .mark⟩ : Event Action).shift pre.length],
        ∀ t' ∈ (r.toTarget.events n).map (Event.shift (pre.length + (s.length + 1))), t.pos < t'.pos := by
      intro t mem t' mem'
      obtain rfl := List.mem_singleton.mp mem
      obtain ⟨t', -, rfl⟩ := List.mem_map.mp mem'
      dsimp only [Event.shift]
      omega
    rw [List.map_cons, map_shift_shift, ← List.singleton_append, executed_append apart, run_append]
    exact ran

/-- What the parser has behind the request line. -/
theorem RequestLine.passes_reference (line : RequestLine ok) (r : Reference ok) (isTarget : line.target = r.text)
    {text rest : Str} (shape : text = line.text ++ rest) (room : text.length ≤ maxSize) :
    ∃ regs obj, (requestMachine ok maxSize).Passes text 0 line.text
      ⟨(requestMachine ok maxSize).start, .init, .create⟩ ⟨Request.firstLine, regs, obj⟩ ∧ Built [] obj ∧
      obj.request.head = ⟨stringToHttpMethod line.method, r.path, r.query.getD [], r.fragment.getD [], line.number⟩ := by
  obtain ⟨regs₁, obj₁, method, built, -, head⟩ := line.run_method shape room
  have behind : text = (line.method ++ bytes " ") ++ (r.text ++ (bytes " " ++ (line.version ++ line.eol) ++ rest)) := by
    rw [shape, RequestLine.text, isTarget]
    simp only [List.append_assoc]
  obtain ⟨regs₂, target⟩ := Reference.run r (n := 2) behind room regs₁ obj₁
  rw [List.length_append] at target
  obtain ⟨regs₃, obj₃, version, built', head'⟩ := line.run_version shape (built.receive_target r.toTarget) regs₂
  have trace : Trace ok 2 uriReference line.target (r.events 2) := isTarget ▸ r.trace
  refine ⟨regs₃, obj₃, line.passes_of_runs trace method target version, built', ?_⟩
  have query : obj₁.request.query = [] := congrArg Head.query head
  have fragment : obj₁.request.fragment = [] := congrArg Head.fragment head
  rw [head', Target.head_receive, head, query, fragment]

end Line

end Sylar.Http
