import Sylar.Http.Parser
import Sylar.Lib.Precedes

/-!
# What a request parser finds in its memory

Neither the constructor of `HttpRequestParser` nor `http_parser_init` sets `query_start` and
`uri_relaxed`. What is left in `query_start` is never used: on every way through the machine the action
that reads it comes behind the one that sets it. `uri_relaxed` is read where one of the bytes of
`more_delims` stands in a URI. So two parsers over any memory go through the same calls of `execute` alike
if both find zero or both do not, or if no such byte is met; and else they do not (`alike_iff`).
-/

namespace Sylar.Http

open Lib

/-- The fields of `http_parser` that are not initialised. -/
structure Memory where
  queryStart : Nat
  uriRelaxed : Int
  deriving DecidableEq, Repr

/-- The arguments of `execute`. -/
structure Call where
  data : Str
  offset : Nat
  deriving DecidableEq, Repr

/-- `execute(data, len, offset)`. -/
def Machine.executeAt {A Obj : Type} (machine : Machine A Obj) (parser : Parser A Obj) (call : Call) :
    Option (Parser A Obj × Nat) :=
  match parser.cs with
  | none => some ({ parser with regs := parser.regs.reset }, 0)
  | some q =>
    let scan := machine.scan q call.offset (call.data.drop call.offset)
    (machine.run call.data scan.trace parser.regs.reset parser.obj).map fun (regs, obj) =>
      (⟨scan.state, regs, obj⟩, scan.stop - call.offset)

theorem Machine.executeAt_zero {A Obj : Type} (machine : Machine A Obj) (parser : Parser A Obj) (data : Str) :
    machine.executeAt parser ⟨data, 0⟩ = machine.execute parser data :=
  rfl

namespace Memory

/-- Whether the condition of `more_delims` holds. -/
def relaxed (memory : Memory) : Bool := decide (memory.uriRelaxed ≠ 0)

/-- What a caller sees of a parser after a call: `has_error()`, `is_finished()` and `get_request()`. -/
structure Outcome where
  hasError : Bool
  finished : Bool
  request : HttpRequest
  deriving DecidableEq, Repr

def outcome (machine : Machine Request.Action HttpRequestParser) (parser : Parser Request.Action HttpRequestParser) :
    Outcome :=
  ⟨machine.hasError parser, machine.isFinished parser, parser.obj.getRequest⟩

/-- The outcomes of a sequence of calls, up to one that throws. -/
def outcomes (machine : Machine Request.Action HttpRequestParser) :
    Parser Request.Action HttpRequestParser → List Call → List (Option Outcome)
  | _, [] => []
  | parser, call :: calls =>
    match machine.executeAt parser call with
    | none => [none]
    | some (parser, _) => some (outcome machine parser) :: outcomes machine parser calls

/-- A parser constructed over the memory. -/
def parser (memory : Memory) : Parser Request.Action HttpRequestParser :=
  ⟨some (Ragel.start Request.main), { Registers.init with queryStart := memory.queryStart }, .create⟩

/-- Two parsers constructed over memory accept and reject alike, and produce equal requests. -/
def Alike (maxSize : Nat) (memory memory' : Memory) (calls : List Call) : Prop :=
  outcomes (requestMachine memory.relaxed maxSize) memory.parser calls =
    outcomes (requestMachine memory'.relaxed maxSize) memory'.parser calls

/-! ## `query_start` -/

theorem closes_start : Ragel.Closes 29 .done (Ragel.start Request.main) := by
  intro e mem
  obtain rfl := List.mem_singleton.mp mem
  exact ⟨_, rfl, by decide +kernel⟩

/-- `query_string` comes behind `start_query`. -/
theorem waits_start : Ragel.Waits .startQuery .queryString (Ragel.start Request.main) := by
  intro e mem
  obtain rfl := List.mem_singleton.mp mem
  decide +kernel

/-- Other contents of `query_start`. -/
def withQuery (regs : Registers) (k : Nat) : Registers := { regs with queryStart := k }

/-- An action that neither reads nor sets `query_start`. -/
theorem exec_withQuery (maxSize : Nat) (buffer : Str) (fpc : Nat) (regs : Registers) (k : Nat)
    (parser : HttpRequestParser) {a : Request.Action} (notSet : a ≠ .startQuery) (notRead : a ≠ .queryString) :
    (parser.action maxSize a).exec buffer fpc (withQuery regs k) parser =
      ((parser.action maxSize a).exec buffer fpc regs parser).map fun r => (withQuery r.1 k, r.2) := by
  have element : ∀ callback : HttpRequestParser → Str → Nat → Option HttpRequestParser,
      (Op.element .mark callback).exec buffer fpc (withQuery regs k) parser =
        ((Op.element .mark callback).exec buffer fpc regs parser).map fun r => (withQuery r.1 k, r.2) := by
    intro callback
    simp only [Op.exec, Option.map_map]
    rfl
  cases a with
  | startQuery => exact absurd rfl notSet
  | queryString => exact absurd rfl notRead
  | writeValue =>
    simp only [HttpRequestParser.action, Op.exec, Option.map_map]
    rfl
  | requestMethod | fragment | httpVersion | requestPath => exact element _
  | done =>
    rw [HttpRequestParser.action]
    split
    · exact element _
    · rfl
  | mark | startField | writeField | startValue | requestUri | xml | json => rfl

/-- The execution of a trace in which `start_query` is in front of `query_string`: what was in `query_start`
is there still, unless it has been set. -/
theorem run_withQuery (u : Bool) (maxSize : Nat) (buffer : Str) (k : Nat) (trace : List (Request.Action × Nat)) :
    ∀ (regs : Registers) (parser : HttpRequestParser),
      Ragel.First .startQuery .queryString (trace.map Prod.fst) →
      (requestMachine u maxSize).run buffer trace (withQuery regs k) parser =
        ((requestMachine u maxSize).run buffer trace regs parser).map fun r =>
          (if Request.Action.startQuery ∈ trace.map Prod.fst then r.1 else withQuery r.1 k, r.2) := by
  induction trace with
  | nil => exact fun regs parser _ => rfl
  | cons act trace ih =>
    obtain ⟨a, fpc⟩ := act
    intro regs parser first
    by_cases set : a = .startQuery
    · subst set
      simp [Machine.run, requestMachine, HttpRequestParser.action, Op.exec, withQuery, Registers.set]
    · obtain ⟨notRead, first⟩ := first.resolve_left set
      have exec := exec_withQuery maxSize buffer fpc regs k parser set notRead
      have mem : Request.Action.startQuery ∈ ((a, fpc) :: trace).map Prod.fst ↔
          Request.Action.startQuery ∈ trace.map Prod.fst := by
        rw [List.map_cons, List.mem_cons]
        exact or_iff_right fun eq => set eq.symm
      simp only [mem]
      show ((parser.action maxSize a).exec buffer fpc (withQuery regs k) parser).bind _ =
        Option.map _ (((parser.action maxSize a).exec buffer fpc regs parser).bind _)
      rw [exec]
      cases (parser.action maxSize a).exec buffer fpc regs parser with
      | none => rfl
      | some r => exact ih r.1 r.2 first

/-! ## `uri_relaxed` -/

/-- In this state the byte is read by a rule that looks at `uri_relaxed`. -/
def asks (q : Ragel.State Request.Action) (c : UInt8) : Bool :=
  q.any fun e => e.moves.any fun m => m.conditional && m.on.mem c

theorem step_of_not_asks {q : Ragel.State Request.Action} {c : UInt8} (quiet : asks q c = false) (u u' : Bool) :
    Ragel.step u q c = Ragel.step u' q c := by
  have same : Ragel.taken u q c = Ragel.taken u' q c := by
    have possible : ((q.flatMap Ragel.moves).filter fun m => m.on.mem c && (!m.conditional || u)) =
        (q.flatMap Ragel.moves).filter fun m => m.on.mem c && (!m.conditional || u') := by
      refine List.filter_congr fun m mem => ?_
      obtain ⟨e, mem, moved⟩ := List.mem_flatMap.mp mem
      have asked : ∀ m ∈ e.moves, m.conditional = true → m.on.mem c = false := by
        simpa using List.any_eq_false.mp quiet e mem
      cases conditional : m.conditional with
      | false => simp
      | true => rw [asked m moved conditional, Bool.false_and, Bool.false_and]
    unfold Ragel.taken
    rw [possible]
  unfold Ragel.step
  rw [same]

/-- No byte that is read from the state on asks for `uri_relaxed`. -/
def quiet : Ragel.State Request.Action → Str → Bool
  | _, [] => true
  | q, c :: cs =>
    !asks q c &&
      match Ragel.step false q c with
      | none => true
      | some (q', as) => as.any (· == .done) || quiet q' cs

theorem scan_of_quiet (u u' : Bool) (w : Str) : ∀ {q : Ragel.State Request.Action} {p : Nat},
    quiet q w = true → Ragel.scanTo u .done q p w = Ragel.scanTo u' .done q p w := by
  unfold Ragel.scanTo
  induction w with
  | nil => exact fun _ => rfl
  | cons c w ih =>
    intro q p isQuiet
    obtain ⟨silent, later⟩ := Bool.and_eq_true_iff.mp isQuiet
    have next : ∀ v : Bool, Ragel.step v q c = Ragel.step false q c :=
      fun v => step_of_not_asks (by simpa using silent) v false
    cases step : Ragel.step false q c with
    | none => rw [Scan.scan_cons_none ((next u).trans step), Scan.scan_cons_none ((next u').trans step)]
    | some target =>
      obtain ⟨q', as⟩ := target
      rw [step] at later
      cases breaking : as.any (· == Request.Action.done) with
      | true =>
        rw [Scan.scan_cons_break ((next u).trans step) breaking,
          Scan.scan_cons_break ((next u').trans step) breaking]
      | false =>
        rw [Scan.scan_cons_next ((next u).trans step) breaking,
          Scan.scan_cons_next ((next u').trans step) breaking]
        dsimp only at later
        rw [breaking, Bool.false_or] at later
        rw [ih later]

/-- No byte that is read in the calls asks for `uri_relaxed`. -/
def Unasked : Option (Ragel.State Request.Action) → List Call → Prop
  | some q, call :: calls =>
    quiet q (call.data.drop call.offset) = true ∧
      Unasked (Ragel.scanTo false .done q call.offset (call.data.drop call.offset)).state calls
  | _, _ => True

/-! ## Two parsers -/

/-- The parsers differ in `query_start` at most, and then the action that reads it waits for the one that
sets it. -/
structure Twins (parser parser' : Parser Request.Action HttpRequestParser) : Prop where
  cs : parser'.cs = parser.cs
  obj : parser'.obj = parser.obj
  regs : ∃ k, parser'.regs = withQuery parser.regs k ∧ (k = parser.regs.queryStart ∨
    ∀ q, parser.cs = some q → Ragel.Waits .startQuery .queryString q)
  closes : ∀ q, parser.cs = some q → Ragel.Closes 29 .done q

/-- The machines read the bytes of a call from the state of a parser alike. -/
def ReadsAlike (u u' : Bool) (cs : Option (Ragel.State Request.Action)) (call : Call) : Prop :=
  ∀ q, cs = some q → Ragel.scanTo u .done q call.offset (call.data.drop call.offset) =
    Ragel.scanTo u' .done q call.offset (call.data.drop call.offset)

/-- The actions do not look at `uri_relaxed`. -/
theorem run_relaxed (u u' : Bool) (maxSize : Nat) (buffer : Str) (trace : List (Request.Action × Nat)) :
    (requestMachine u maxSize).run buffer trace = (requestMachine u' maxSize).run buffer trace := by
  induction trace with
  | nil => rfl
  | cons act trace ih =>
    funext regs parser
    rw [Machine.run, Machine.run, ih]
    rfl

/-- A call of `execute` in a state that is no error. -/
theorem executeAt_eq {u : Bool} {maxSize : Nat} {parser : Parser Request.Action HttpRequestParser} {call : Call}
    {q : Ragel.State Request.Action} (cs : parser.cs = some q) :
    (requestMachine u maxSize).executeAt parser call =
      ((requestMachine u maxSize).run call.data
        (Ragel.scanTo u .done q call.offset (call.data.drop call.offset)).trace parser.regs.reset parser.obj).map
        fun r => (⟨(Ragel.scanTo u .done q call.offset (call.data.drop call.offset)).state, r.1, r.2⟩,
          (Ragel.scanTo u .done q call.offset (call.data.drop call.offset)).stop - call.offset) := by
  unfold Machine.executeAt
  rw [cs]
  rfl

/-- The execution of a scan from other contents of `query_start`: the registers end the same, or
`query_string` still waits. -/
theorem run_of_waits {u : Bool} {maxSize : Nat} {buffer w : Str} {p k : Nat} {q : Ragel.State Request.Action}
    {regs : Registers} {obj : HttpRequestParser} (closes : Ragel.Closes 29 .done q)
    (waits : k = regs.queryStart ∨ Ragel.Waits .startQuery .queryString q) :
    ∃ left : Registers → Nat,
      (requestMachine u maxSize).run buffer (Ragel.scanTo u .done q p w).trace (withQuery regs k) obj =
        ((requestMachine u maxSize).run buffer (Ragel.scanTo u .done q p w).trace regs obj).map
          (fun r => (withQuery r.1 (left r.1), r.2)) ∧
      ((∀ regs, left regs = regs.queryStart) ∨
        ∀ q', (Ragel.scanTo u .done q p w).state = some q' → Ragel.Waits .startQuery .queryString q') := by
  rcases waits with rfl | waits
  · exact ⟨Registers.queryStart, Option.map_id'.symm, .inl fun _ => rfl⟩
  · obtain ⟨first, later⟩ := waits.scan u w (p := p) closes
    rw [run_withQuery u maxSize buffer k _ regs obj first]
    by_cases set : Request.Action.startQuery ∈ (Ragel.scanTo u .done q p w).trace.map Prod.fst
    · refine ⟨Registers.queryStart, ?_, .inl fun _ => rfl⟩
      simp only [if_pos set]
      rfl
    · refine ⟨fun _ => k, ?_, .inr fun q' state => (later q' state).resolve_left set⟩
      simp only [if_neg set]

/-- A call of `execute` on both parsers throws on both, or leaves them as alike as they were. -/
theorem Twins.executeAt {u u' : Bool} (maxSize : Nat) {parser parser' : Parser Request.Action HttpRequestParser}
    {call : Call} (twins : Twins parser parser') (same : ReadsAlike u u' parser.cs call) :
    ((requestMachine u maxSize).executeAt parser call = none ∧
      (requestMachine u' maxSize).executeAt parser' call = none) ∨
    ∃ next next' n, (requestMachine u maxSize).executeAt parser call = some (next, n) ∧
      (requestMachine u' maxSize).executeAt parser' call = some (next', n) ∧ Twins next next' ∧
      next.cs = parser.cs.bind fun q =>
        (Ragel.scanTo u .done q call.offset (call.data.drop call.offset)).state := by
  obtain ⟨sameCs, sameObj, ⟨k, regs, waits⟩, closes⟩ := twins
  have reset : parser'.regs.reset = withQuery parser.regs.reset k := by rw [regs]; rfl
  cases cs : parser.cs with
  | none =>
    have cs' : parser'.cs = none := sameCs.trans cs
    refine .inr ⟨{ parser with regs := parser.regs.reset }, { parser' with regs := parser'.regs.reset }, 0,
      ?_, ?_, ⟨sameCs, sameObj, ⟨k, reset, .inr ?_⟩, closes⟩, cs⟩
    · rw [Machine.executeAt, cs]
    · rw [Machine.executeAt, cs']
    · intro q state
      cases cs.symm.trans state
  | some q =>
    have waiting : k = parser.regs.reset.queryStart ∨ Ragel.Waits .startQuery .queryString q :=
      waits.imp_right fun all => all q cs
    obtain ⟨left, ran, still⟩ := run_of_waits (closes q cs) waiting
    rw [executeAt_eq cs, executeAt_eq (sameCs.trans cs), ← same q cs, run_relaxed u' u, reset, sameObj, ran]
    cases (requestMachine u maxSize).run call.data
        (Ragel.scanTo u .done q call.offset (call.data.drop call.offset)).trace parser.regs.reset parser.obj with
    | none => exact .inl ⟨rfl, rfl⟩
    | some r =>
      refine .inr ⟨_, _, _, rfl, rfl, ⟨rfl, rfl, ⟨left r.1, rfl, ?_⟩, (closes q cs).scan _⟩, rfl⟩
      exact still.imp_left fun all => all r.1

theorem Twins.outcome {u u' : Bool} {maxSize : Nat} {parser parser' : Parser Request.Action HttpRequestParser}
    (twins : Twins parser parser') :
    outcome (requestMachine u maxSize) parser = outcome (requestMachine u' maxSize) parser' := by
  unfold Memory.outcome Machine.hasError Machine.isFinished
  rw [twins.cs, twins.obj]
  rfl

theorem Twins.outcomes {u u' : Bool} {maxSize : Nat} (calls : List Call) :
    ∀ {parser parser' : Parser Request.Action HttpRequestParser}, Twins parser parser' →
      u = u' ∨ Unasked parser.cs calls →
      outcomes (requestMachine u maxSize) parser calls = outcomes (requestMachine u' maxSize) parser' calls := by
  induction calls with
  | nil => exact fun _ _ => rfl
  | cons call calls ih =>
    intro parser parser' twins alike
    have quiets : ∀ q, parser.cs = some q → u = u' ∨ quiet q (call.data.drop call.offset) = true := by
      intro q cs
      refine alike.imp_right fun unasked => ?_
      rw [cs] at unasked
      exact unasked.1
    have same : ReadsAlike u u' parser.cs call := by
      intro q cs
      rcases quiets q cs with rfl | isQuiet
      · rfl
      · exact scan_of_quiet u u' _ isQuiet
    rw [Memory.outcomes, Memory.outcomes]
    rcases twins.executeAt maxSize same with ⟨threw, threw'⟩ | ⟨next, next', n, ok, ok', twins', cs'⟩
    · rw [threw, threw']
    · have later : u = u' ∨ Unasked next.cs calls := by
        refine alike.imp_right fun unasked => ?_
        rw [cs']
        cases cs : parser.cs with
        | none =>
          cases calls with
          | nil => trivial
          | cons => trivial
        | some q =>
          rw [cs] at unasked
          rw [Option.bind_some, scan_of_quiet u false _ unasked.1]
          exact unasked.2
      rw [ok, ok']
      dsimp only
      rw [twins'.outcome, ih twins' later]

/-- A socket request whose path starts with a byte of `more_delims`. -/
def bracePath : Call := ⟨bytes "@\x7b", 0⟩

theorem scan_bracePath : ∀ u : Bool,
    (Ragel.scanTo u .done (Ragel.start Request.main) 0 bracePath.data).trace = [(.mark, 0)] ∧
      (Ragel.scanTo u .done (Ragel.start Request.main) 0 bracePath.data).state.isNone = !u := by
  decide +kernel

/-- It is an error if `uri_relaxed` is zero. -/
theorem outcomes_bracePath (maxSize : Nat) (memory : Memory) :
    ∃ o, outcomes (requestMachine memory.relaxed maxSize) memory.parser [bracePath] = [some o] ∧
      o.hasError = !memory.relaxed := by
  obtain ⟨trace, state⟩ := scan_bracePath memory.relaxed
  have executed : (requestMachine memory.relaxed maxSize).executeAt memory.parser bracePath = some
      (⟨(Ragel.scanTo memory.relaxed .done (Ragel.start Request.main) 0 bracePath.data).state,
        memory.parser.regs.reset.set 0 .mark, .create⟩,
        (Ragel.scanTo memory.relaxed .done (Ragel.start Request.main) 0 bracePath.data).stop - 0) := by
    rw [executeAt_eq (q := Ragel.start Request.main) rfl]
    have dropped : bracePath.data.drop bracePath.offset = bracePath.data := rfl
    rw [dropped, show bracePath.offset = 0 from rfl, trace]
    rfl
  have answered : outcomes (requestMachine memory.relaxed maxSize) memory.parser [bracePath] =
      [some (outcome (requestMachine memory.relaxed maxSize)
        ⟨(Ragel.scanTo memory.relaxed .done (Ragel.start Request.main) 0 bracePath.data).state,
          memory.parser.regs.reset.set 0 .mark, .create⟩)] := by
    rw [outcomes, executed]
    rfl
  exact ⟨_, answered, state⟩

/-- Two parsers constructed over any memory go through every sequence of calls alike exactly if
`uri_relaxed` is zero in both or in none of them; and, whatever it is, they go alike through every sequence
in which no byte of `more_delims` is read where a URI may have one. -/
theorem alike_iff (maxSize : Nat) (memory memory' : Memory) :
    ((∀ calls, Alike maxSize memory memory' calls) ↔ memory.relaxed = memory'.relaxed) ∧
      ∀ calls, Unasked (some (Ragel.start Request.main)) calls → Alike maxSize memory memory' calls := by
  have twins : Twins memory.parser memory'.parser := by
    refine ⟨rfl, rfl, ⟨memory'.queryStart, rfl, .inr fun q cs => ?_⟩, fun q cs => ?_⟩
    · obtain rfl := Option.some.inj cs
      exact waits_start
    · obtain rfl := Option.some.inj cs
      exact closes_start
  refine ⟨⟨fun all => ?_, fun same calls => twins.outcomes calls (.inl same)⟩,
    fun calls unasked => twins.outcomes calls (.inr unasked)⟩
  obtain ⟨o, outcomes, error⟩ := outcomes_bracePath maxSize memory
  obtain ⟨o', outcomes', error'⟩ := outcomes_bracePath maxSize memory'
  have same : [some o] = [some o'] := outcomes.symm.trans ((all [bracePath]).trans outcomes')
  obtain rfl : o = o' := Option.some.inj (List.cons.inj same).1
  exact Bool.not_inj (error.symm.trans error')

/-- The same request line, accepted with `uri_relaxed` and rejected without. -/
theorem not_alike_brace : ¬ ∀ (maxSize : Nat) (memory memory' : Memory) (calls : List Call),
    Alike maxSize memory memory' calls := by
  intro claim
  have alike := claim (2 ^ 63 - 1) ⟨0, 0⟩ ⟨0, 1⟩ [⟨bytes "GET /\x7b HTTP/1.1\r\n\r\n", 0⟩]
  revert alike
  unfold Alike
  decide +kernel

end Memory

end Sylar.Http
