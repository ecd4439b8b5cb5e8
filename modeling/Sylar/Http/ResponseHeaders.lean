import Sylar.Http.ResponseLines

/-!
# Header lines of a response

What the response parser does with the header lines that are printed. The line of an ordinary name is read by the rule
for all names; the white space before its value is dropped, whatever it is (`stripped`). `connection` and
`content-length` are also read by rules of their own, and the length of the body is noted besides as an `int`.
-/

namespace Sylar.Http

open Lib Lib.Ragel

namespace Response

/-! ## Names -/

/-- A name that has no rule of its own. -/
def Ordinary (name : Str) : Prop := ∀ x ∈ special, nameKey name ≠ nameKey x.1

theorem cStr_token {name : Str} (token : IsToken name) : cStr name = name := by
  refine List.takeWhile_eq_self_iff.mpr fun c mem => decide_eq_true fun zero => ?_
  have nonzero : tokenByte.mem 0 = false := by decide
  rw [← zero, token.all c mem] at nonzero
  cases nonzero

/-- Behind an ordinary name the colon is read by the rule for all names. -/
theorem InName.colon {name : Str} {q : State Action} (inName : InName name q) (token : IsToken name)
    (ordinary : Ordinary name) : step false q 0x3A = some (Response.colon, [.writeField]) := by
  have alone : Goes false [nameRule] (.single 0x3A) Response.colon [.writeField] :=
    goes_of_passage 0x3A (by simp [passages])
  rw [step_of_only inName.nodup inName.field fun e mem ne m moved => ?_,
    alone 0x3A ((ByteSet.mem_single ..).mpr rfl)]
  obtain ⟨x, isSpecial, same, inLeft⟩ := (inName.entries e mem).resolve_left ne
  obtain ⟨plain, folded⟩ := special_lower x isSpecial
  have lt : name.length < x.1.length := by
    refine Nat.lt_of_le_of_ne (InName.length_le same) fun whole => ordinary x isSpecial (nameKey_inj.mpr ?_)
    rw [whole, List.take_length] at same
    rw [Http.folded, Http.folded, cStr_token token, plain, same, folded]
  obtain ⟨away, -⟩ := Bool.and_eq_true_iff.mp
    (follows_of_left isSpecial (List.length_pos_iff.mpr token.nonempty) (Nat.le_of_lt lt) inLeft moved)
  rw [beq_false_of_ne (Nat.ne_of_lt lt), Bool.or_false, Bool.not_eq_true'] at away
  exact away

variable {maxSize : Nat}

/-- An ordinary name with its colon. -/
theorem passes_colon (maxSize : Nat) (text : Str) {name : Str} (token : IsToken name) (ordinary : Ordinary name) {q : State Action}
    (start : q ∈ lineStarts) (p : Nat) (regs : Registers) (obj : HttpResponseParser) :
    (responseMachine maxSize).Passes text p (name ++ [0x3A]) ⟨q, regs, obj⟩
      ⟨colon, { regs with fieldStart := p, fieldLen := name.length }, obj⟩ := by
  obtain ⟨q', ⟨-, inName⟩, named⟩ : ∃ q', (1 ≤ name.length ∧ InName name q') ∧
      (responseMachine maxSize).Passes text p name ⟨q, regs, obj⟩ ⟨q', { regs with fieldStart := p }, obj⟩ :=
    Machine.passes_name
    (fun u q => 1 ≤ u.length ∧ InName u q) tokenByte text
    (fun c isToken => by
      obtain ⟨q', as, inName, next, acts⟩ := starts_name start isToken
      exact ⟨q', as, ⟨Nat.le_refl 1, inName⟩, next, startsField maxSize acts⟩)
    (fun u q c ⟨pos, inName⟩ isToken => by
      obtain ⟨q', inName', next⟩ := inName.next pos isToken
      exact ⟨q', ⟨List.length_append ▸ Nat.le_add_right_of_le pos, inName'⟩, next⟩)
    token.nonempty token.all p regs obj
  refine named.append (Machine.Passes.byte (inName.colon token ordinary) rfl ?_)
  change some (_, obj) = _
  rw [sizeSub_of_le (Nat.le_add_right ..), Nat.add_sub_cancel_left]

/-! ## Values -/

/-- What is left of a value. -/
def stripped (value : Str) : Str := value.dropWhile blank.mem

theorem isLead {q : State Action} (mem : q ∈ [colon, inBlank]) : q = colon ∨ q = inBlank := by
  rwa [List.mem_cons, List.mem_singleton] at mem

theorem stripped_connectionValue (close : Bool) : stripped (connectionValue close) = connectionValue close := by
  cases close <;> decide

theorem digit_of_mem_toString (n : Nat) : ∀ c ∈ bytes (toString n), ByteSet.digit.mem c = true := by
  intro c mem
  obtain ⟨d, small, rfl⟩ := isDigits_toString n c mem
  exact (digit_facts d small).2.2.2.1

theorem stripped_toString (n : Nat) : stripped (bytes (toString n)) = bytes (toString n) := by
  refine List.dropWhile_eq_self_iff.mpr fun lt isBlank => ?_
  have apart : blank.disjoint .digit = true := by decide
  have digit := digit_of_mem_toString n _ (List.getElem_mem lt)
  rw [ByteSet.not_mem_of_disjoint apart isBlank] at digit
  cases digit

def valueStages (maxSize : Nat) :
    (responseMachine maxSize).ValueStages .startValue [.writeValue] blank outer inner colon nextLine where
  leads := [colon, inBlank]
  values := [inValue]
  cr := valueCr
  begun := List.mem_cons_self
  marks _ := rfl
  running a mem := by
    rcases List.mem_cons.mp mem with rfl | mem
    · rfl
    · obtain rfl := List.mem_singleton.mp mem
      rfl
  onLead q mem c isBlank := by
    refine ⟨inBlank, List.mem_cons_of_mem _ List.mem_cons_self, ?_⟩
    rcases isLead mem with rfl | rfl
    · exact goes_of_passage 0x20 (by simp [passages]) c isBlank
    · exact goes_of_passage 0x20 (by simp [passages]) c isBlank
  onFirst q mem c isOuter := by
    refine ⟨inValue, List.mem_cons_self, ?_⟩
    rcases isLead mem with rfl | rfl
    · exact goes_of_passage 0x79 (by simp [passages]) c isOuter
    · exact goes_of_passage 0x79 (by simp [passages]) c isOuter
  onRest q mem c isInner := by
    obtain rfl := List.mem_singleton.mp mem
    exact ⟨inValue, List.mem_cons_self, goes_of_passage 0x79 (by simp [passages]) c isInner⟩
  onEmpty q mem := by
    rcases isLead mem with rfl | rfl
    · exact ⟨step_of_passage (by simp [passages]), step_of_passage (by simp [passages])⟩
    · exact ⟨step_of_passage (by simp [passages]), step_of_passage (by simp [passages])⟩
  onEnd q mem := by
    obtain rfl := List.mem_singleton.mp mem
    exact ⟨step_of_passage (by simp [passages]), step_of_passage (by simp [passages])⟩
  onLf := step_of_passage (by simp [passages])

theorem outer_of_stripped {value : Str} (isInner : ∀ c ∈ value, inner.mem c = true) {c : UInt8} {z : Str}
    (eq : stripped value = c :: z) : outer.mem c = true := by
  have nonempty : value.dropWhile blank.mem ≠ [] := by
    rw [show value.dropWhile blank.mem = c :: z from eq]
    exact List.cons_ne_nil c z
  have notBlank := List.head_dropWhile_not blank.mem nonempty
  rw [(List.head_eq_iff_head?_eq_some nonempty).mpr (congrArg List.head? eq)] at notBlank
  have inside : c ∈ value := (List.dropWhile_suffix blank.mem).mem
    (show c ∈ stripped value from eq ▸ List.mem_cons_self)
  rw [outer, ByteSet.mem_diff, isInner c inside, notBlank]
  rfl

/-! ## Words in any case -/

section Words

variable {text : Str} {q q' : State Action}

theorem passes_follow {w : Str} : ∀ {v : Str} {q : State Action}, follow q w = some q' → v.map tolower = w →
    ∀ (p : Nat) (regs : Registers) (obj : HttpResponseParser),
      (responseMachine maxSize).Passes text p v ⟨q, regs, obj⟩ ⟨q', regs, obj⟩ := by
  induction w with
  | nil =>
    intro v q followed same p regs obj
    obtain rfl := List.map_eq_nil_iff.mp same
    obtain rfl := Option.some.inj followed
    exact Machine.Passes.nil ..
  | cons c w ih =>
    intro v q followed same p regs obj
    obtain ⟨d, v, rfl, rfl, rfl⟩ := List.map_eq_cons_iff.mp same
    obtain ⟨⟨q₁, as⟩, tried, rest⟩ := Option.bind_eq_some_iff.mp followed
    dsimp only at rest
    split at rest
    · rename_i nothing
      rw [nothing] at tried
      exact Machine.Passes.cons (goes_of_tries _ tried d (mem_eitherCase d)) rfl rfl (ih rest rfl (p + 1) regs obj)
    · cases rest

/-- A word whose first byte alone executes something. -/
theorem passes_word (maxSize : Nat) (text : Str) {firsts : List (List Action)} {v w : Str} (behind : behindWord firsts q w = some q')
    (same : v.map tolower = w) : ∃ as ∈ firsts, ∀ (p : Nat) (regs regs' : Registers) (obj : HttpResponseParser),
      as.any (responseMachine maxSize).breaks = false →
      (responseMachine maxSize).run text (as.map (·, p)) regs obj = some (regs', obj) →
      (responseMachine maxSize).Passes text p v ⟨q, regs, obj⟩ ⟨q', regs', obj⟩ := by
  cases w with
  | nil => cases behind
  | cons c w =>
    obtain ⟨d, v, rfl, rfl, rfl⟩ := List.map_eq_cons_iff.mp same
    obtain ⟨⟨q₁, as⟩, tried, rest⟩ := Option.bind_eq_some_iff.mp behind
    dsimp only at rest
    split at rest
    · rename_i isFirst
      refine ⟨as, isFirst, fun p regs regs' obj running run => ?_⟩
      exact Machine.Passes.cons (goes_of_tries _ tried d (mem_eitherCase d)) running run
        (passes_follow rest rfl (p + 1) regs' obj)
    · cases rest

/-- A name with a rule of its own, in any case, with its colon. -/
theorem passes_own_colon (maxSize : Nat) (text : Str) {x : Str × Rule} (isSpecial : x ∈ special) {name : Str} (same : name.map tolower = x.1)
    (start : q ∈ lineStarts) (p : Nat) (regs : Registers) (obj : HttpResponseParser) :
    (responseMachine maxSize).Passes text p (name ++ [0x3A]) ⟨q, regs, obj⟩
      ⟨colonOf x.1, { regs with fieldStart := p, fieldLen := name.length }, obj⟩ := by
  obtain ⟨as, acts, passes⟩ := passes_word maxSize text (fixedMoves.name x isSpecial q start) same
  have starts := startsField maxSize acts
  refine (passes p regs _ obj starts.running (starts.run text p regs obj)).append
    (Machine.Passes.byte (fixedMoves.colon x isSpecial) rfl ?_)
  change some (_, obj) = _
  rw [sizeSub_of_le (Nat.le_add_right ..), Nat.add_sub_cancel_left]

end Words

/-! ## Header lines -/

/-- The name of the header that announces chunks. -/
def encodingName : Str := bytes "transfer-encoding"

/-- A header line as it is sent. -/
def lineText (name blanks value eol : Str) : Str := (name ++ [0x3A]) ++ (blanks ++ (value ++ eol))

/-- A header whose name has a rule of its own has a value that the rule knows. An empty flag is none: the parser goes
on behind the end of the header section then. -/
structure Spelled (name value : Str) : Prop where
  flag : nameKey name = nameKey Http.connection → value ≠ []
  length : nameKey name = nameKey Http.contentLength → ∃ n : Nat, value = bytes (toString n)
  encoding : nameKey name = nameKey encodingName → value.map tolower = bytes "chunked"

/-- What the callback does with a header. -/
def hold (obj : HttpResponseParser) (name value : Str) : HttpResponseParser :=
  { obj with
    response := obj.response.setHeader name value
    isChunked := obj.isChunked || (name == encodingName && value == bytes "chunked") }

/-- What the parser does with a header line. -/
def store (obj : HttpResponseParser) (name value : Str) : HttpResponseParser :=
  { hold obj name value with
    contentLen := if nameKey name = nameKey Http.contentLength then toInt (strtol 10 value) else obj.contentLen
    chunked := obj.chunked || decide (nameKey name = nameKey encodingName) }

/-- The ends of a line on which its value is written. -/
theorem endsLine_spec (maxSize : Nat) {q : State Action} (ends : endsLine q = true) : ∃ cr, ∃ next ∈ lineStarts,
    (responseMachine maxSize).Ends cr next q [.writeValue] ∧ (responseMachine maxSize).step cr 0x0A = some (next, []) := by
  obtain ⟨⟨cr, as⟩, onCr, both⟩ := (Option.any_eq_true ..).mp ends
  obtain ⟨written, some⟩ := Bool.and_eq_true_iff.mp both
  obtain rfl := of_decide_eq_true written
  obtain ⟨next, start, moves⟩ := List.any_eq_true.mp some
  obtain ⟨onLf, onCrLf⟩ := Bool.and_eq_true_iff.mp moves
  exact ⟨cr, next, start, ⟨onCr, of_decide_eq_true onLf⟩, of_decide_eq_true onCrLf⟩

theorem special_of_key {name : Str} (token : IsToken name) {x : Str × Rule} (isSpecial : x ∈ special)
    (same : nameKey name = nameKey x.1) : name.map tolower = x.1 := by
  obtain ⟨plain, lower⟩ := special_lower x isSpecial
  rw [nameKey_inj, folded, folded, cStr_token token, plain, lower] at same
  exact same

/-- A line is read as a header, wherever it begins. -/
def IsLine (maxSize : Nat) (line name value : Str) : Prop :=
  ∀ ⦃text pre post : Str⦄ ⦃q : State Action⦄, text = pre ++ (line ++ post) → text.length ≤ maxSize → q ∈ lineStarts →
    ∀ (regs : Registers) (obj : HttpResponseParser), ∃ q' ∈ lineStarts, ∃ regs',
      (responseMachine maxSize).Passes text pre.length line ⟨q, regs, obj⟩ ⟨q', regs', store obj name value⟩

section Lines

variable {text pre before rest post name blanks value eol : Str} {q : State Action} {m queryStart : Nat}

theorem run_writeValue (queryStart : Nat) (obj : HttpResponseParser) {rest more : Str} (named : text = pre ++ (name ++ rest))
    (valued : text = before ++ (value ++ more)) (room : text.length ≤ maxSize) :
    (responseMachine maxSize).run text [(.writeValue, before.length + value.length)]
      ⟨before.length, pre.length, name.length, queryStart⟩ obj =
      some (⟨before.length, pre.length, name.length, queryStart⟩, hold obj name value) := by
  rw [Machine.run]
  change ((HttpResponseParser.onResponseHttpField maxSize obj _ _ _ _).map _).bind _ = _
  dsimp only
  rw [HttpResponseParser.onResponseHttpField, string_piece named room, sizeSub_of_le (Nat.le_add_right ..),
    Nat.add_sub_cancel_left, string_piece valued room]
  rfl

theorem store_of_ne (obj : HttpResponseParser) (length : nameKey name ≠ nameKey Http.contentLength)
    (encoding : nameKey name ≠ nameKey encodingName) : store obj name value = hold obj name value := by
  rw [store, if_neg length, decide_eq_false encoding, Bool.or_false]
  rfl

theorem mem_special : (encodingName, transferEncodingChunked.numbered 6) ∈ special ∧
    (Http.connection, connClose.numbered 11) ∈ special ∧ (Http.contentLength, contentLength.numbered 12) ∈ special :=
  ⟨List.mem_cons_self, List.mem_cons_of_mem _ List.mem_cons_self,
    List.mem_cons_of_mem _ (List.mem_cons_of_mem _ List.mem_cons_self)⟩

/-- The flag, whose value is read along with `close` as far as it agrees. -/
theorem passes_flag (some : value ≠ []) (begins : ∀ c z, value = c :: z → outer.mem c = true)
    (isInner : ∀ c ∈ value, inner.mem c = true) (isEol : IsEol eol) (named : text = pre ++ (name ++ rest))
    (valued : text = before ++ (value ++ (eol ++ post))) (room : text.length ≤ maxSize)
    (lead : q ∈ leadsOf Http.connection) (obj : HttpResponseParser) : ∃ q' ∈ lineStarts,
      (responseMachine maxSize).Passes text before.length (value ++ eol) ⟨q, ⟨m, pre.length, name.length, queryStart⟩, obj⟩
        ⟨q', ⟨before.length, pre.length, name.length, queryStart⟩, hold obj name value⟩ := by
  have written := run_writeValue queryStart obj named valued room
  obtain ⟨c, z, rfl⟩ := List.exists_cons_of_ne_nil some
  obtain ⟨q₁, isValue, first⟩ := stays_spec fixedMoves.flagFirst lead (begins c z rfl)
  obtain ⟨q₂, isValue₂, further⟩ : ∃ q₂ ∈ flagValues, (responseMachine maxSize).Passes text (before.length + 1) z
      ⟨q₁, ⟨before.length, pre.length, name.length, queryStart⟩, obj⟩
      ⟨q₂, ⟨before.length, pre.length, name.length, queryStart⟩, obj⟩ :=
    Machine.Passes.loop text (· ∈ flagValues) _ obj
      (fun q mem d inZ => stays_spec fixedMoves.flagRest mem (isInner d (List.mem_cons_of_mem c inZ)))
      (before.length + 1) isValue
  obtain ⟨cr, q', start, ends, onLf⟩ := endsLine_spec maxSize (List.all_eq_true.mp fixedMoves.flagEnd q₂ isValue₂)
  refine ⟨q', start, Machine.Passes.cons first rfl rfl (further.append ?_)⟩
  refine ends.passes onLf isEol rfl ?_
  rw [List.length_cons, Nat.add_comm z.length, ← Nat.add_assoc] at written
  exact written

/-- The length of a body, which is noted as an `int`, too. -/
theorem passes_length (n : Nat) (isEol : IsEol eol) (named : text = pre ++ (name ++ rest))
    (valued : text = before ++ (bytes (toString n) ++ (eol ++ post))) (room : text.length ≤ maxSize)
    (lead : q ∈ leadsOf Http.contentLength) (obj : HttpResponseParser) :
    (responseMachine maxSize).Passes text before.length (bytes (toString n) ++ eol)
      ⟨q, ⟨m, pre.length, name.length, queryStart⟩, obj⟩
      ⟨nextLine, ⟨before.length, pre.length, name.length, queryStart⟩,
        hold { obj with contentLen := toInt (strtol 10 (bytes (toString n))) } name (bytes (toString n))⟩ := by
  have digits := isDigits_toString n
  have some := bytes_toString_ne_nil n
  have number : strtol 10 (text.drop before.length) = strtol 10 (bytes (toString n)) := by
    have alone : strtol 10 (bytes (toString n) ++ []) = _ := strtol_digits digits some fun c z eq => nomatch eq
    rw [List.append_nil] at alone
    rw [valued, List.drop_left, alone]
    refine strtol_digits digits some fun c z eq => ?_
    rcases isEol with rfl | rfl
    · obtain ⟨rfl, -⟩ := List.cons.inj eq
      rfl
    · obtain ⟨rfl, -⟩ := List.cons.inj eq
      rfl
  have first : Goes false q .digit inLength [.startValue] := by
    simp only [leadsOf, List.mem_cons, List.not_mem_nil, or_false] at lead
    rcases lead with rfl | rfl
    · exact goes_of_passage 0x31 (by simp [passages])
    · exact goes_of_passage 0x31 (by simp [passages])
  have further : Goes false inLength .digit inLength [] := goes_of_passage 0x31 (by simp [passages])
  have digitsRead : (responseMachine maxSize).Passes text before.length (bytes (toString n))
      ⟨q, ⟨m, pre.length, name.length, queryStart⟩, obj⟩
      ⟨inLength, ⟨before.length, pre.length, name.length, queryStart⟩, obj⟩ :=
    Machine.Passes.piece first further rfl rfl some (digit_of_mem_toString n)
  have ends : (responseMachine maxSize).Ends lengthCr nextLine inLength [.writeContentLen, .writeValue] :=
    ⟨step_of_passage (by simp [passages]), step_of_passage (by simp [passages])⟩
  refine digitsRead.append (ends.passes (step_of_passage (by simp [passages])) isEol rfl ?_)
  change (responseMachine maxSize).run text [(.writeValue, before.length + (bytes (toString n)).length)] _
    { obj with contentLen := toInt (strtol 10 (text.drop before.length)) } = _
  rw [number]
  exact run_writeValue queryStart _ named valued room

/-- The announcement of chunks, in any case. -/
theorem passes_encoding (same : value.map tolower = bytes "chunked") (isEol : IsEol eol)
    (named : text = pre ++ (name ++ rest)) (valued : text = before ++ (value ++ (eol ++ post)))
    (room : text.length ≤ maxSize) (lead : q ∈ leadsOf encodingName) (obj : HttpResponseParser) :
    (responseMachine maxSize).Passes text before.length (value ++ eol) ⟨q, ⟨m, pre.length, name.length, queryStart⟩, obj⟩
      ⟨chunkedLine, ⟨before.length, pre.length, name.length, queryStart⟩,
        { hold obj name value with chunked := true }⟩ := by
  have written := run_writeValue queryStart obj named valued room
  obtain ⟨as, acts, passes⟩ := passes_word maxSize text (fixedMoves.encoding q lead) same
  obtain rfl := List.mem_singleton.mp acts
  refine (passes before.length _ ⟨before.length, pre.length, name.length, queryStart⟩ obj rfl rfl).append ?_
  have lf : (responseMachine maxSize).step chunkedEnd 0x0A = some (chunkedLine, [.writeValue, .transChunked]) :=
    step_of_passage (by simp [passages])
  have cr : (responseMachine maxSize).step chunkedEnd 0x0D = some (chunkedCr, [.writeValue]) :=
    step_of_passage (by simp [passages])
  have crLf : (responseMachine maxSize).step chunkedCr 0x0A = some (chunkedLine, [.transChunked]) :=
    step_of_passage (by simp [passages])
  have noted : ∀ p regs obj, (responseMachine maxSize).run text [(.transChunked, p)] regs obj =
      some (regs, { obj with chunked := true }) := fun _ _ _ => rfl
  rcases isEol with rfl | rfl
  · exact Machine.Passes.cons cr rfl written (Machine.Passes.byte crLf rfl (noted _ _ _))
  · refine Machine.Passes.byte lf rfl ?_
    rw [List.map_cons, ← List.singleton_append, run_append, written, Option.bind_some]
    exact noted _ _ _

/-- The value of an ordinary name. -/
theorem passes_value (areBlank : ∀ c ∈ blanks, blank.mem c = true) (begins : ∀ c z, value = c :: z → outer.mem c = true)
    (isInner : ∀ c ∈ value, inner.mem c = true) (isEol : IsEol eol) (named : text = pre ++ (name ++ rest))
    (valued : text = before ++ (value ++ (eol ++ post))) (room : text.length ≤ maxSize) {p : Nat}
    (stop : p + blanks.length = before.length) (obj : HttpResponseParser) :
    (responseMachine maxSize).Passes text p (blanks ++ (value ++ eol))
      ⟨colon, ⟨m, pre.length, name.length, queryStart⟩, obj⟩
      ⟨nextLine, ⟨before.length, pre.length, name.length, queryStart⟩, hold obj name value⟩ := by
  have written := run_writeValue queryStart obj named valued room
  rw [← stop] at written ⊢
  exact (valueStages maxSize).passes areBlank begins (fun d mem => isInner d (List.mem_of_mem_tail mem)) isEol written

/-- The blanks behind a name with a rule of its own. -/
theorem passes_own_blanks (maxSize : Nat) (text : Str) (obj : HttpResponseParser)
    (areBlank : ∀ c ∈ blanks, blank.mem c = true) {x : Str × Rule} (isSpecial : x ∈ special) (p : Nat)
    (regs : Registers) : ∃ q' ∈ leadsOf x.1, ∃ m,
      (responseMachine maxSize).Passes text p blanks ⟨colonOf x.1, regs, obj⟩ ⟨q', { regs with mark := m }, obj⟩ := by
  have marks : ∀ obj, (responseMachine maxSize).action obj .startValue = .mark .mark := fun _ => rfl
  refine Machine.Passes.marked marks rfl text obj (fun q mem c inBlanks => ?_) List.mem_cons_self p regs
  exact ⟨blankOf x.1, List.mem_cons_of_mem _ List.mem_cons_self,
    goes_of_tries 0x20 (fixedMoves.lead x isSpecial q mem) c (areBlank c inBlanks)⟩

/-- The value of a name with a rule of its own. -/
theorem passes_own_value (m queryStart : Nat) {x : Str × Rule} (isSpecial : x ∈ special) (same : nameKey name = nameKey x.1)
    (spelled : Spelled name value) (begins : ∀ c z, value = c :: z → outer.mem c = true)
    (isInner : ∀ c ∈ value, inner.mem c = true) (isEol : IsEol eol) (named : text = pre ++ (name ++ rest))
    (valued : text = before ++ (value ++ (eol ++ post))) (room : text.length ≤ maxSize) (lead : q ∈ leadsOf x.1)
    (obj : HttpResponseParser) : ∃ q' ∈ lineStarts,
      (responseMachine maxSize).Passes text before.length (value ++ eol) ⟨q, ⟨m, pre.length, name.length, queryStart⟩, obj⟩
        ⟨q', ⟨before.length, pre.length, name.length, queryStart⟩, store obj name value⟩ := by
  have isNext : nextLine ∈ lineStarts := List.mem_cons_of_mem _ List.mem_cons_self
  have isChunked : chunkedLine ∈ lineStarts :=
    List.mem_cons_of_mem _ (List.mem_cons_of_mem _ (List.mem_cons_of_mem _ List.mem_cons_self))
  simp only [special, List.mem_cons, List.not_mem_nil, or_false] at isSpecial
  rcases isSpecial with rfl | rfl | rfl
  · have notLength : nameKey name ≠ nameKey Http.contentLength := by
      rw [same]
      decide
    refine ⟨chunkedLine, isChunked, ?_⟩
    have isEncoding : decide (nameKey name = nameKey encodingName) = true := decide_eq_true same
    rw [store, if_neg notLength, isEncoding, Bool.or_true]
    exact passes_encoding (spelled.encoding same) isEol named valued room lead obj
  · have notLength : nameKey name ≠ nameKey Http.contentLength := by
      rw [same]
      decide
    have notEncoding : nameKey name ≠ nameKey encodingName := by
      rw [same]
      decide
    rw [store_of_ne obj notLength notEncoding]
    exact passes_flag (spelled.flag same) begins isInner isEol named valued room lead obj
  · have notEncoding : nameKey name ≠ nameKey encodingName := by
      rw [same]
      decide
    obtain ⟨n, rfl⟩ := spelled.length same
    refine ⟨nextLine, isNext, ?_⟩
    rw [store, if_pos same, decide_eq_false notEncoding, Bool.or_false]
    exact passes_length n isEol named valued room lead obj

theorem isLine (token : IsToken name) (areBlank : ∀ c ∈ blanks, blank.mem c = true)
    (begins : ∀ c z, value = c :: z → outer.mem c = true) (isInner : ∀ c ∈ value, inner.mem c = true)
    (isEol : IsEol eol) (spelled : Spelled name value) : IsLine maxSize (lineText name blanks value eol) name value := by
  intro text pre post q shape room start regs obj
  let before := pre ++ ((name ++ [0x3A]) ++ blanks)
  have valued : text = before ++ (value ++ (eol ++ post)) := by
    rw [shape, lineText]
    simp only [before, List.append_assoc]
  have named : text = pre ++ (name ++ ([0x3A] ++ (blanks ++ (value ++ (eol ++ post))))) := by
    rw [valued]
    simp only [before, List.append_assoc]
  have stop : pre.length + (name ++ [0x3A]).length + blanks.length = before.length := by
    simp only [before, List.length_append]
    omega
  by_cases ordinary : Ordinary name
  · have colon := passes_colon maxSize text token ordinary start pre.length regs obj
    have line := colon.append (passes_value areBlank begins isInner isEol named valued room stop obj)
    rw [store_of_ne obj (ordinary _ mem_special.2.2) (ordinary _ mem_special.1)]
    exact ⟨nextLine, List.mem_cons_of_mem _ List.mem_cons_self, _, line⟩
  · obtain ⟨x, isSpecial, same⟩ : ∃ x ∈ special, nameKey name = nameKey x.1 := by
      simpa only [Ordinary, not_forall, not_not, exists_prop] using ordinary
    have colon := passes_own_colon maxSize text isSpecial (special_of_key token isSpecial same) start
      pre.length regs obj
    obtain ⟨q₁, lead, m, blank⟩ := passes_own_blanks maxSize text obj areBlank isSpecial
      (pre.length + (name ++ [0x3A]).length) ⟨regs.mark, pre.length, name.length, regs.queryStart⟩
    obtain ⟨q', start', rest⟩ := passes_own_value m regs.queryStart isSpecial same spelled begins isInner isEol named
      valued room lead obj
    rw [← stop] at rest
    exact ⟨q', start', _, colon.append (blank.append rest)⟩

end Lines

/-! ## Headers one behind the other -/

/-- What the parser does with headers. -/
def storeAll (headers : List (Str × Str)) (obj : HttpResponseParser) : HttpResponseParser :=
  headers.foldl (fun obj x => store obj x.1 x.2) obj

theorem passes_all {α : Type} {line : α → Str} (header : α → Str × Str) {text : Str} (room : text.length ≤ maxSize)
    (xs : List α) (isLine : ∀ x ∈ xs, IsLine maxSize (line x) (header x).1 (header x).2) :
    ∀ {pre post : Str} {q : State Action} (regs : Registers) (obj : HttpResponseParser),
      text = pre ++ (xs.flatMap line ++ post) → q ∈ lineStarts → ∃ q' ∈ lineStarts, ∃ regs',
        (responseMachine maxSize).Passes text pre.length (xs.flatMap line) ⟨q, regs, obj⟩
          ⟨q', regs', storeAll (xs.map header) obj⟩ := by
  induction xs with
  | nil => exact fun regs obj _ start => ⟨_, start, regs, Machine.Passes.nil ..⟩
  | cons x xs ih =>
    intro pre post q regs obj shape start
    rw [List.flatMap_cons, List.append_assoc] at shape
    obtain ⟨q₁, start₁, regs₁, first⟩ := isLine x List.mem_cons_self shape room start regs obj
    have further : text = (pre ++ line x) ++ (xs.flatMap line ++ post) := by rw [shape, List.append_assoc]
    obtain ⟨q', start', regs', rest⟩ := ih (fun y mem => isLine y (List.mem_cons_of_mem x mem)) regs₁
      (store obj (header x).1 (header x).2) further start₁
    rw [List.length_append] at rest
    exact ⟨q', start', regs', first.append rest⟩

/-- Headers change the headers, the length and what is known of chunks. -/
theorem storeAll_eq (headers : List (Str × Str)) : ∀ obj : HttpResponseParser, storeAll headers obj =
    { obj with
      contentLen := (storeAll headers obj).contentLen
      chunked := (storeAll headers obj).chunked
      isChunked := (storeAll headers obj).isChunked
      response := { obj.response with
        headers := headers.foldl (fun m x => OrderedMap.assign nameKey x.1 x.2 m) obj.response.headers } } := by
  induction headers with
  | nil => exact fun obj => rfl
  | cons x headers ih =>
    intro obj
    change storeAll headers (store obj x.1 x.2) = _
    rw [ih, List.foldl_cons, ← HttpHeaders.assign_eq]
    rfl

/-- There are chunks if and only if a header announces them, or they were known before. -/
theorem isChunkedResponse_storeAll (headers : List (Str × Str)) : ∀ obj : HttpResponseParser,
    (storeAll headers obj).isChunkedResponse =
      (obj.isChunkedResponse || headers.any fun x => decide (nameKey x.1 = nameKey encodingName)) := by
  induction headers with
  | nil => exact fun obj => (Bool.or_false _).symm
  | cons x headers ih =>
    intro obj
    have one : (store obj x.1 x.2).isChunkedResponse =
        (obj.isChunkedResponse || decide (nameKey x.1 = nameKey encodingName)) := by
      by_cases same : nameKey x.1 = nameKey encodingName
      · simp [store, hold, HttpResponseParser.isChunkedResponse, same]
      · have other : (x.1 == encodingName) = false := beq_false_of_ne fun eq => same (congrArg nameKey eq)
        simp [store, hold, HttpResponseParser.isChunkedResponse, same, other]
    change (storeAll headers (store obj x.1 x.2)).isChunkedResponse = _
    rw [ih, one, List.any_cons, Bool.or_assoc]

/-- The length is what the header says, if it is there or was known before. -/
theorem contentLen_storeAll {n : Int} (headers : List (Str × Str)) : ∀ obj : HttpResponseParser,
    (∀ x ∈ headers, nameKey x.1 = nameKey Http.contentLength → toInt (strtol 10 x.2) = n) →
    (obj.contentLen = n ∨ ∃ x ∈ headers, nameKey x.1 = nameKey Http.contentLength) →
      (storeAll headers obj).contentLen = n := by
  induction headers with
  | nil =>
    rintro obj - (known | ⟨x, mem, -⟩)
    · exact known
    · cases mem
  | cons x headers ih =>
    intro obj all either
    refine ih (store obj x.1 x.2) (fun y mem => all y (List.mem_cons_of_mem x mem)) ?_
    by_cases here : nameKey x.1 = nameKey Http.contentLength
    · left
      rw [store, if_pos here]
      exact all x List.mem_cons_self here
    · rcases either with known | ⟨y, mem, isLength⟩
      · left
        rw [store, if_neg here]
        exact known
      · rcases List.mem_cons.mp mem with rfl | later
        · exact absurd isLength here
        · exact .inr ⟨y, later, isLength⟩

/-! ## Printed headers -/

/-- A header that is printed: those of the code itself have the values that it gives them, others have an ordinary
name. -/
inductive IsHeader : Str × Str → Prop
  | connection (close : Bool) : IsHeader (Http.connection, connectionValue close)
  | length (n : Nat) : IsHeader (Http.contentLength, bytes (toString n))
  | ordinary {x : Str × Str} (token : IsToken x.1) (ordinary : Ordinary x.1)
      (isInner : ∀ c ∈ x.2, inner.mem c = true) : IsHeader x

/-- The headers with what is left of their values. -/
def strippedAll (headers : HttpHeaders) : HttpHeaders := headers.map fun x => (x.1, stripped x.2)

/-- The pieces of a printed header. -/
theorem headerLine_eq (x : Str × Str) : headerLine x =
    lineText x.1 (bytes " " ++ x.2.takeWhile blank.mem) (stripped x.2) (bytes "\r\n") := by
  have value : x.2.takeWhile blank.mem ++ stripped x.2 = x.2 := List.takeWhile_append_dropWhile
  have same : bytes ": " = [0x3A] ++ bytes " " := rfl
  rw [headerLine, lineText, same]
  simp only [List.append_assoc]
  rw [← List.append_assoc (x.2.takeWhile blank.mem), value]

section Printed

variable {x : Str × Str}

theorem IsHeader.token (isHeader : IsHeader x) : IsToken x.1 := by
  have own : IsToken Http.connection ∧ IsToken Http.contentLength :=
    ⟨⟨by decide, by decide +kernel⟩, ⟨by decide, by decide +kernel⟩⟩
  cases isHeader with
  | connection close => exact own.1
  | length n => exact own.2
  | ordinary token => exact token

theorem IsHeader.inner (isHeader : IsHeader x) : ∀ c ∈ x.2, inner.mem c = true := by
  cases isHeader with
  | connection close =>
    revert close
    decide +kernel
  | length n =>
    have sub : ByteSet.digit.subset Response.inner = true := by decide
    exact fun c mem => ByteSet.mem_of_subset sub (digit_of_mem_toString n c mem)
  | ordinary _ _ isInner => exact isInner

theorem IsHeader.spelled (isHeader : IsHeader x) : Spelled x.1 (stripped x.2) := by
  obtain ⟨encoding, connection, length⟩ := mem_special
  cases isHeader with
  | connection close =>
    have notLength : nameKey Http.connection ≠ nameKey Http.contentLength := by decide
    have notEncoding : nameKey Http.connection ≠ nameKey encodingName := by decide
    rw [stripped_connectionValue]
    refine ⟨fun _ => ?_, fun same => absurd same notLength, fun same => absurd same notEncoding⟩
    cases close <;> decide
  | length n =>
    have notConnection : nameKey Http.contentLength ≠ nameKey Http.connection := by decide
    have notEncoding : nameKey Http.contentLength ≠ nameKey encodingName := by decide
    rw [stripped_toString]
    exact ⟨fun same => absurd same notConnection, fun _ => ⟨n, rfl⟩, fun same => absurd same notEncoding⟩
  | ordinary _ ordinary =>
    exact ⟨fun same => absurd same (ordinary _ connection), fun same => absurd same (ordinary _ length),
      fun same => absurd same (ordinary _ encoding)⟩

theorem IsHeader.isLine (isHeader : IsHeader x) : IsLine maxSize (headerLine x) x.1 (stripped x.2) := by
  rw [headerLine_eq]
  refine Response.isLine isHeader.token (fun c mem => ?_) (fun c z eq => outer_of_stripped isHeader.inner eq)
    (fun c mem => isHeader.inner c ((List.dropWhile_suffix blank.mem).mem mem)) isEol_crlf isHeader.spelled
  rcases List.mem_append.mp mem with space | lead
  · obtain rfl := List.mem_singleton.mp space
    decide
  · exact List.mem_takeWhile_imp lead

end Printed

end Response

end Sylar.Http
