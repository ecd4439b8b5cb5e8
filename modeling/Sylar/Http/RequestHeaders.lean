import Sylar.Http.RequestLine

/-!
# Header lines of a request

The states of the request machine between the request line and the end of the header section. No rule of the
grammar is for one header only, so that there are few of them, and each is the state behind a sample of the text.
None of the moves in them has a condition.
-/

namespace Sylar.Http

open Lib Lib.Ragel

namespace Request

/-! ## States -/

/-- The state behind a sample. -/
def past (q : State Action) (w : Str) : State Action :=
  (Scan.scan (step false) (fun _ => false) q 0 w).state.getD []

/-- Behind the request line. -/
def firstLine : State Action := [RequestLine.around eps]

/-- Behind a header line. -/
def nextLine : State Action := past firstLine (bytes "x:y\r\n")

def lineStarts : List (State Action) := [firstLine, nextLine]

def inName : State Action := past firstLine (bytes "x")
def colon : State Action := past firstLine (bytes "x:")
def inBlank : State Action := past firstLine (bytes "x: ")
def inValue : State Action := past firstLine (bytes "x:y")
def blankInValue : State Action := past firstLine (bytes "x:y ")
def valueCr : State Action := past firstLine (bytes "x:y\r")
def lastCr : State Action := past firstLine (bytes "\r")
def endState : State Action := past firstLine (bytes "\r\n")

/-! ## Bytes -/

def blank : ByteSet := .of " \t"

/-- The bytes that a value can have in it. -/
def inner : ByteSet := ByteSet.any.diff (ByteSet.of "\r\n" |>.union httpCtl)

/-- Those that it can begin with. -/
def outer : ByteSet := inner.diff blank

/-! ## Moves -/

variable {ok : Bool}

/-- A name, up to its colon. -/
theorem name_steps (ok : Bool) :
    (∀ q ∈ lineStarts, tries ok q tokenByte 0x78 = some (inName, [.startField])) ∧
      tries ok inName tokenByte 0x78 = some (inName, []) ∧ step ok inName 0x3A = some (colon, [.writeField]) := by
  revert ok
  decide +kernel

/-- Before a value. -/
theorem blank_steps (ok : Bool) :
    ∀ q ∈ [colon, inBlank], tries ok q blank 0x20 = some (inBlank, [.startValue]) ∧
      tries ok q outer 0x79 = some (inValue, [.startValue]) ∧
      step ok q 0x0D = some (valueCr, [.startValue, .writeValue]) ∧
      step ok q 0x0A = some (nextLine, [.startValue, .writeValue]) := by
  revert ok
  decide +kernel

/-- In a value and behind it. -/
theorem value_steps (ok : Bool) :
    (∀ q ∈ [inValue, blankInValue], tries ok q outer 0x79 = some (inValue, []) ∧
      tries ok q blank 0x20 = some (blankInValue, []) ∧ step ok q 0x0D = some (valueCr, [.writeValue]) ∧
      step ok q 0x0A = some (nextLine, [.writeValue])) ∧
    step ok valueCr 0x0A = some (nextLine, []) := by
  revert ok
  decide +kernel

/-- The empty line. -/
theorem last_steps (ok : Bool) : (∀ q ∈ lineStarts, step ok q 0x0D = some (lastCr, [.startField]) ∧
    step ok q 0x0A = some (endState, [.startField, .done])) ∧
      step ok lastCr 0x0A = some (endState, [.done]) ∧ final endState = true := by
  revert ok
  decide +kernel

/-! ## Names and values -/

theorem startsField (maxSize : Nat) : (requestMachine ok maxSize).StartsField [.startField] where
  running := rfl
  run _ _ _ _ := rfl

theorem mem_inner {c : UInt8} (inside : inner.mem c = true) : blank.mem c = true ∨ outer.mem c = true := by
  by_cases isBlank : blank.mem c = true
  · exact .inl isBlank
  · rw [outer, ByteSet.mem_diff, inside, Bool.eq_false_iff.mpr isBlank]
    exact .inr rfl

def valueStages (ok : Bool) (maxSize : Nat) :
    (requestMachine ok maxSize).ValueStages .startValue [.writeValue] blank outer inner colon nextLine where
  leads := [colon, inBlank]
  values := [inValue, blankInValue]
  cr := valueCr
  begun := List.mem_cons_self
  marks _ := rfl
  running a mem := by
    rcases List.mem_cons.mp mem with rfl | mem
    · rfl
    · obtain rfl := List.mem_singleton.mp mem
      rfl
  onLead q mem c isBlank := ⟨inBlank, List.mem_cons_of_mem _ List.mem_cons_self,
    goes_of_tries 0x20 (blank_steps ok q mem).1 c isBlank⟩
  onFirst q mem c isOuter := ⟨inValue, List.mem_cons_self,
    goes_of_tries 0x79 (blank_steps ok q mem).2.1 c isOuter⟩
  onRest q mem c isInner := by
    obtain ⟨onOuter, onBlank, -⟩ := (value_steps ok).1 q mem
    rcases mem_inner isInner with isBlank | isOuter
    · exact ⟨blankInValue, List.mem_cons_of_mem _ List.mem_cons_self, goes_of_tries 0x20 onBlank c isBlank⟩
    · exact ⟨inValue, List.mem_cons_self, goes_of_tries 0x79 onOuter c isOuter⟩
  onEmpty q mem := ⟨(blank_steps ok q mem).2.2.1, (blank_steps ok q mem).2.2.2⟩
  onEnd q mem := ⟨((value_steps ok).1 q mem).2.2.1, ((value_steps ok).1 q mem).2.2.2⟩
  onLf := (value_steps ok).2

/-- The name of a header with its colon. -/
theorem passes_colon {maxSize : Nat} (text : Str) {name : Str} (token : IsToken name) {q : State Action}
    (start : q ∈ lineStarts) (p : Nat) (regs : Registers) (obj : HttpRequestParser) :
    (requestMachine ok maxSize).Passes text p (name ++ [0x3A]) ⟨q, regs, obj⟩
      ⟨colon, { regs with fieldStart := p, fieldLen := name.length }, obj⟩ := by
  obtain ⟨starts, goesOn, onColon⟩ := name_steps ok
  obtain ⟨q', here, named⟩ := Machine.passes_name (fun _ q => q = inName) tokenByte text
    (fun c isToken => ⟨inName, [.startField], rfl, goes_of_tries 0x78 (starts q start) c isToken,
      startsField maxSize⟩)
    (fun u q c here isToken => ⟨inName, rfl, by
      rw [here]
      exact goes_of_tries 0x78 goesOn c isToken⟩)
    token.nonempty token.all p regs obj
  subst here
  refine named.append (Machine.Passes.byte onColon rfl ?_)
  change some (_, obj) = _
  rw [sizeSub_of_le (Nat.le_add_right ..), Nat.add_sub_cancel_left]

theorem mem_blank {c : UInt8} : blank.mem c = true ↔ c = 0x20 ∨ c = 0x09 := by
  have parts : blank = ((⟨0⟩ : ByteSet).union (.single 0x20)).union (.single 0x09) := by decide
  rw [parts, ByteSet.mem_union, ByteSet.mem_union, ByteSet.not_mem_empty, Bool.false_or, Bool.or_eq_true_iff,
    ByteSet.mem_single, ByteSet.mem_single]

end Request

/-! ## Header sections -/

/-- A header line as it is sent. -/
structure Field where
  name : Str
  blanks : Str
  value : Str
  eol : Str
  isToken : IsToken name
  areBlank : ∀ c ∈ blanks, Request.blank.mem c = true
  inner : ∀ c ∈ value, Request.inner.mem c = true
  flush : Flush value
  isEol : IsEol eol

namespace Field

variable {ok : Bool} {maxSize : Nat} (field : Field)

def text : Str := field.name ++ (bytes ":" ++ (field.blanks ++ (field.value ++ field.eol)))

/-- What the parser does with a header line. -/
def receive (obj : HttpRequestParser) : HttpRequestParser :=
  { obj with request := obj.getRequest.setHeader field.name field.value }

/-- A header line changes nothing that the request line says. -/
theorem head_receiveAll (fields : List Field) : ∀ obj : HttpRequestParser,
    (fields.foldl (fun obj field => field.receive obj) obj).request.head = obj.request.head := by
  induction fields with
  | nil => exact fun obj => rfl
  | cons field fields ih =>
    intro obj
    rw [List.foldl_cons, ih]
    exact (HttpRequest.head_setHeader field.name field.value).trans obj.head_getRequest

theorem outer : ∀ c z, field.value = c :: z → Request.outer.mem c = true := by
  intro c z eq
  have inside := field.inner c (by rw [eq]; exact List.mem_cons_self)
  rcases Request.mem_inner inside with isBlank | isOuter
  · obtain ⟨notSpace, notTab⟩ := field.flush c z eq
    rcases Request.mem_blank.mp isBlank with same | same
    · exact absurd same notSpace
    · exact absurd same notTab
  · exact isOuter

theorem run_writeValue {text : Str} {regs : Registers} {fpc : Nat} (obj : HttpRequestParser)
    (name : string maxSize (text.drop regs.fieldStart) regs.fieldLen = some field.name)
    (value : string maxSize (text.drop regs.mark) (sizeSub fpc regs.mark) = some field.value) :
    (requestMachine ok maxSize).run text [(.writeValue, fpc)] regs obj = some (regs, field.receive obj) := by
  rw [Machine.run]
  change ((HttpRequestParser.onRequestHttpField maxSize obj _ _ _ _).map _).bind _ = _
  rw [HttpRequestParser.onRequestHttpField, name, value]
  rfl

theorem passes {text pre post : Str} (shape : text = pre ++ (field.text ++ post)) (room : text.length ≤ maxSize)
    {q : State Request.Action} (start : q ∈ Request.lineStarts) (regs : Registers) (obj : HttpRequestParser) :
    ∃ regs', (requestMachine ok maxSize).Passes text pre.length field.text ⟨q, regs, obj⟩
      ⟨Request.nextLine, regs', field.receive obj⟩ := by
  let before := pre ++ (field.name ++ (bytes ":" ++ field.blanks))
  have named : text = pre ++ (field.name ++ (bytes ":" ++ (field.blanks ++ (field.value ++ (field.eol ++ post))))) := by
    rw [shape, Field.text]
    simp only [List.append_assoc]
  have valued : text = before ++ (field.value ++ (field.eol ++ post)) := by
    rw [named]
    simp only [before, List.append_assoc]
  have stop : pre.length + (field.name ++ [0x3A]).length + field.blanks.length = before.length := by
    simp only [before, List.length_append]
    change _ + (_ + 1) + _ = _ + (_ + (1 + _))
    omega
  have colon : (requestMachine ok maxSize).Passes text pre.length (field.name ++ [0x3A]) ⟨q, regs, obj⟩
      ⟨Request.colon, { regs with fieldStart := pre.length, fieldLen := field.name.length }, obj⟩ :=
    Request.passes_colon text field.isToken start pre.length regs obj
  have value : (requestMachine ok maxSize).Passes text (pre.length + (field.name ++ [0x3A]).length)
      (field.blanks ++ (field.value ++ field.eol))
      ⟨Request.colon, { regs with fieldStart := pre.length, fieldLen := field.name.length }, obj⟩
      ⟨Request.nextLine, ⟨pre.length + (field.name ++ [0x3A]).length + field.blanks.length, pre.length,
        field.name.length, regs.queryStart⟩, field.receive obj⟩ := by
    refine (Request.valueStages ok maxSize).passes field.areBlank field.outer
      (fun d mem => field.inner d (List.mem_of_mem_tail mem)) field.isEol ?_
    refine field.run_writeValue obj (string_piece named room) ?_
    rw [stop, sizeSub_of_le (Nat.le_add_right ..), Nat.add_sub_cancel_left]
    exact string_piece valued room
  have whole := colon.append value
  rw [List.append_assoc] at whole
  exact ⟨_, whole⟩

/-- Header lines one behind the other. -/
theorem passes_all {text : Str} (room : text.length ≤ maxSize) (fields : List Field) :
    ∀ {pre post : Str} {q : State Request.Action} (regs : Registers) (obj : HttpRequestParser),
      text = pre ++ (fields.flatMap Field.text ++ post) → q ∈ Request.lineStarts →
      ∃ q' ∈ Request.lineStarts, ∃ regs',
        (requestMachine ok maxSize).Passes text pre.length (fields.flatMap Field.text) ⟨q, regs, obj⟩
          ⟨q', regs', fields.foldl (fun obj field => field.receive obj) obj⟩ := by
  induction fields with
  | nil =>
    intro pre post q regs obj _ start
    exact ⟨q, start, regs, Machine.Passes.nil ..⟩
  | cons field fields ih =>
    intro pre post q regs obj shape start
    rw [List.flatMap_cons, List.append_assoc] at shape
    obtain ⟨regs₁, first⟩ := field.passes shape room start regs obj
    have further : text = (pre ++ field.text) ++ (fields.flatMap Field.text ++ post) := by
      rw [shape, List.append_assoc]
    obtain ⟨q', start', regs', rest⟩ := ih regs₁ (field.receive obj) further
      (List.mem_cons_of_mem _ List.mem_cons_self)
    rw [List.length_append] at rest
    exact ⟨q', start', regs', first.append rest⟩

end Field

/-- The empty line: the parser is finished behind it. -/
theorem Request.execute_end {ok : Bool} {maxSize : Nat} {head eol tail : Str} (isEol : IsEol eol)
    {s : Place Request.Action HttpRequestParser} (start : s.q ∈ lineStarts) {obj : HttpRequestParser}
    (passes : (requestMachine ok maxSize).Passes (head ++ (eol ++ tail)) 0 head
      ⟨(requestMachine ok maxSize).start, .init, obj⟩ s)
    (plain : (s.obj.xmlSent || s.obj.jsonSent) = false) :
    ∃ regs, (requestMachine ok maxSize).execute ((requestMachine ok maxSize).parser obj) (head ++ (eol ++ tail)) =
      some (⟨some endState, regs, s.obj⟩, head.length + eol.length) := by
  have done : ∀ (text : Str) (p : Nat) (regs : Registers),
      (requestMachine ok maxSize).run text [(.done, p)] regs s.obj = some (regs, s.obj) := by
    intro text p regs
    rw [Machine.run]
    change (Op.exec text p regs s.obj (if (s.obj.xmlSent || s.obj.jsonSent) = true then _ else _)).bind _ = _
    rw [plain, if_neg Bool.false_ne_true]
    rfl
  obtain ⟨first, onLast, -⟩ := last_steps ok
  obtain ⟨onCr, onLf⟩ := first s.q start
  rcases isEol with rfl | rfl
  · have cr : (requestMachine ok maxSize).Passes (head ++ ([0x0D, 0x0A] ++ tail)) (0 + head.length) [0x0D] s
        ⟨lastCr, { s.regs with fieldStart := 0 + head.length }, s.obj⟩ := Machine.Passes.byte onCr rfl rfl
    have upTo := passes.append cr
    rw [show head ++ ([0x0D, 0x0A] ++ tail) = (head ++ [0x0D]) ++ 0x0A :: tail by simp] at upTo ⊢
    have length : head.length + ([0x0D, 0x0A] : Str).length = (head ++ [0x0D]).length + 1 := by
      rw [List.length_append]
      rfl
    rw [length]
    exact ⟨_, upTo.execute onLast rfl (done _ _ _)⟩
  · refine ⟨{ s.regs with fieldStart := head.length }, Machine.Passes.execute passes onLf rfl ?_⟩
    exact done _ _ { s.regs with fieldStart := head.length }

end Sylar.Http
