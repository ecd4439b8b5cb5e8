import Sylar.Http.Print
import Sylar.Http.Header
import Sylar.Lib.Stages

/-!
# Reading line by line

A parser that is handed the text of a message goes through it piece by piece: `Passes` says from where to where,
with the state of its machine, its offsets and its object. A header line is the same for both parsers: a name,
whose first byte sets `field_start` and whose colon sets `field_len`, and a value, before which every blank moves
`mark` on.
-/

namespace Sylar.Http

open Lib

variable {A Obj : Type}

/-- Where a parser is while it reads. -/
structure Place (A Obj : Type) where
  q : Ragel.State A
  regs : Registers
  obj : Obj

/-- The end of a line, which may be its line feed alone. -/
def IsEol (eol : Str) : Prop := eol = [0x0D, 0x0A] ∨ eol = [0x0A]

theorem isEol_crlf : IsEol (bytes "\r\n") := .inl rfl

theorem IsEol.pos {eol : Str} (isEol : IsEol eol) : 0 < eol.length := by
  rcases isEol with rfl | rfl
  · exact Nat.succ_pos 1
  · exact Nat.succ_pos 0

namespace Machine

variable {machine : Machine A Obj} {text : Str} {p : Nat} {w v : Str} {s s' s'' : Place A Obj}

/-- On a piece of the text, at a position, a parser goes from one place to another and does not break off. -/
def Passes (machine : Machine A Obj) (text : Str) (p : Nat) (w : Str) (s s' : Place A Obj) : Prop :=
  ∃ trace, machine.scan s.q p w = ⟨some s'.q, p + w.length, false, trace⟩ ∧
    machine.run text trace s.regs s.obj = some (s'.regs, s'.obj)

namespace Passes

theorem nil (machine : Machine A Obj) (text : Str) (p : Nat) (s : Place A Obj) : machine.Passes text p [] s s :=
  ⟨[], rfl, rfl⟩

theorem append (first : machine.Passes text p w s s') (second : machine.Passes text (p + w.length) v s' s'') :
    machine.Passes text p (w ++ v) s s'' := by
  obtain ⟨trace, scan, run⟩ := first
  obtain ⟨trace', scan', run'⟩ := second
  rw [Machine.scan] at scan scan'
  refine ⟨trace ++ trace', ?_, ?_⟩
  · rw [Machine.scan, Scan.scan_append_of_running w v (by rw [scan]) (by rw [scan]), scan', scan,
      List.length_append, Nat.add_assoc]
  · rw [run_append, run]
    exact run'

/-- One byte. -/
theorem byte {q q' : Ragel.State A} {c : UInt8} {as : List A} {regs regs' : Registers} {obj obj' : Obj}
    (next : machine.step q c = some (q', as)) (running : as.any machine.breaks = false)
    (run : machine.run text (as.map (·, p)) regs obj = some (regs', obj')) :
    machine.Passes text p [c] ⟨q, regs, obj⟩ ⟨q', regs', obj'⟩ := by
  refine ⟨as.map (·, p), ?_, run⟩
  rw [Machine.scan, Scan.scan_cons_next next running, Scan.scan, Scan.after, List.append_nil]
  rfl

theorem cons {q q' : Ragel.State A} {c : UInt8} {as : List A} {regs regs' : Registers} {obj obj' : Obj}
    (next : machine.step q c = some (q', as)) (running : as.any machine.breaks = false)
    (run : machine.run text (as.map (·, p)) regs obj = some (regs', obj'))
    (rest : machine.Passes text (p + 1) w ⟨q', regs', obj'⟩ s') : machine.Passes text p (c :: w) ⟨q, regs, obj⟩ s' :=
  (byte next running run).append rest

/-- Bytes on which the machine stays in some states and executes nothing. -/
theorem loop (text : Str) (Stays : Ragel.State A → Prop) (regs : Registers) (obj : Obj)
    (stays : ∀ q, Stays q → ∀ c ∈ w, ∃ q', Stays q' ∧ machine.step q c = some (q', [])) :
    ∀ {q : Ragel.State A} (p : Nat), Stays q →
      ∃ q', Stays q' ∧ machine.Passes text p w ⟨q, regs, obj⟩ ⟨q', regs, obj⟩ := by
  induction w with
  | nil => exact fun {q} p here => ⟨q, here, nil machine text p _⟩
  | cons c w ih =>
    intro q p here
    obtain ⟨q₁, here₁, next⟩ := stays q here c List.mem_cons_self
    obtain ⟨q', here', rest⟩ := ih (fun q here d mem => stays q here d (List.mem_cons_of_mem c mem)) (p + 1) here₁
    exact ⟨q', here', cons next rfl rfl rest⟩

/-- A piece of the text, whose first byte alone executes something. -/
theorem piece {q q' : Ragel.State A} {as : List A} {set : ByteSet} {regs regs' : Registers} {obj : Obj}
    (onFirst : ∀ c, set.mem c = true → machine.step q c = some (q', as))
    (onRest : ∀ c, set.mem c = true → machine.step q' c = some (q', [])) (running : as.any machine.breaks = false)
    (run : machine.run text (as.map (·, p)) regs obj = some (regs', obj)) (nonempty : w ≠ [])
    (all : ∀ c ∈ w, set.mem c = true) : machine.Passes text p w ⟨q, regs, obj⟩ ⟨q', regs', obj⟩ := by
  obtain ⟨c, w, rfl⟩ := List.exists_cons_of_ne_nil nonempty
  obtain ⟨q₁, rfl, rest⟩ : ∃ q₁, q₁ = q' ∧ machine.Passes text (p + 1) w ⟨q', regs', obj⟩ ⟨q₁, regs', obj⟩ :=
    loop text (· = q') regs' obj
      (fun q same d mem => ⟨q', rfl, same ▸ onRest d (all d (List.mem_cons_of_mem c mem))⟩) (p + 1) rfl
  exact cons (onFirst c (all c List.mem_cons_self)) running run rest

/-- Bytes on each of which the machine, between some states, only moves `mark` on. -/
theorem marked {leads : List (Ragel.State A)} {mark : A} (marks : ∀ obj, machine.action obj mark = .mark .mark)
    (running : [mark].any machine.breaks = false) (text : Str) (obj : Obj)
    (onLead : ∀ q ∈ leads, ∀ c ∈ w, ∃ q' ∈ leads, machine.step q c = some (q', [mark])) :
    ∀ {q : Ragel.State A}, q ∈ leads → ∀ (p : Nat) (regs : Registers), ∃ q' ∈ leads, ∃ m,
      machine.Passes text p w ⟨q, regs, obj⟩ ⟨q', { regs with mark := m }, obj⟩ := by
  induction w with
  | nil => exact fun {q} isLead p regs => ⟨q, isLead, regs.mark, nil machine text p _⟩
  | cons c w ih =>
    intro q isLead p regs
    have run : machine.run text [(mark, p)] regs obj = some ({ regs with mark := p }, obj) := by
      rw [Machine.run, marks]
      rfl
    obtain ⟨q₁, isLead₁, next⟩ := onLead q isLead c List.mem_cons_self
    obtain ⟨q', isLead', m, rest⟩ := ih (fun q mem d inW => onLead q mem d (List.mem_cons_of_mem c inW)) isLead₁ (p + 1)
      { regs with mark := p }
    exact ⟨q', isLead', m, cons next running run rest⟩

/-- A word that is scanned at the front of a text is scanned in the same way further on. -/
theorem of_scan {q q' : Ragel.State A} {trace : List (A × Nat)} {regs regs' : Registers} {obj obj' : Obj}
    (scan : machine.scan q 0 w = ⟨some q', w.length, false, trace⟩)
    (run : machine.run text (Scan.shifted p trace) regs obj = some (regs', obj')) :
    machine.Passes text p w ⟨q, regs, obj⟩ ⟨q', regs', obj'⟩ := by
  refine ⟨Scan.shifted p trace, ?_, run⟩
  rw [Machine.scan] at scan
  have later : Scan.scan machine.step machine.breaks q (0 + p) w = _ := Scan.scan_shift p w q 0
  rw [Nat.zero_add, scan] at later
  rw [Machine.scan, later, Nat.add_comm w.length]

/-- The end of a header section: a byte on which the parser breaks off. -/
theorem execute {q : Ragel.State A} {c : UInt8} {as : List A} {tail : Str} {regs : Registers} {obj obj' : Obj}
    (passes : machine.Passes (w ++ c :: tail) 0 w ⟨machine.start, .init, obj⟩ s)
    (next : machine.step s.q c = some (q, as)) (breaking : as.any machine.breaks = true)
    (run : machine.run (w ++ c :: tail) ((Scan.upTo machine.breaks as).map (·, w.length)) s.regs s.obj =
      some (regs, obj')) :
    machine.execute (machine.parser obj) (w ++ c :: tail) = some (⟨some q, regs, obj'⟩, w.length + 1) := by
  obtain ⟨trace, scan, ran⟩ := passes
  rw [Machine.scan, Nat.zero_add] at scan
  have whole : machine.scan machine.start 0 (w ++ c :: tail) =
      ⟨some q, w.length + 1, true, trace ++ (Scan.upTo machine.breaks as).map (·, w.length)⟩ := by
    rw [Machine.scan, Scan.scan_append_of_running w (c :: tail) (by rw [scan]) (by rw [scan]),
      Nat.zero_add, Scan.scan_cons_break next breaking, scan]
  rw [Machine.execute, Machine.parser]
  dsimp only
  rw [whole]
  dsimp only
  rw [show Registers.init.reset = .init from rfl, run_append, ran, Option.bind_some, run]
  rfl

end Passes

/-- A header section at the front of the first read, which the parser finishes with its last byte. -/
theorem recvHeader_of_execute (fuel : Nat) (reads : Reads) {buffSize parsed : Nat} {q : Ragel.State A} {regs : Registers} {obj obj' : Obj}
    (some : text ≠ []) (fits : text.length ≤ buffSize)
    (executed : machine.execute (machine.parser obj) text = .some (⟨.some q, regs, obj'⟩, parsed + 1))
    (good : machine.failed obj' = false) (finished : machine.finished q = true) :
    machine.recvHeader buffSize (fuel + 1) (machine.parser obj) [] (text :: reads) =
      .some (.some (⟨.some q, regs, obj'⟩, text.drop (parsed + 1), reads)) := by
  have noError : machine.hasError ⟨.some q, regs, obj'⟩ = false := by
    rw [hasError, good]
    rfl
  rw [recvHeader_turn some fits executed (Nat.succ_pos parsed) noError, isFinished_some, if_pos finished]

/-! ## Header lines -/

/-- The end of a line executes its actions on its first byte. -/
structure Ends (machine : Machine A Obj) (cr lineEnd q : Ragel.State A) (as : List A) : Prop where
  onCr : machine.step q 0x0D = some (cr, as)
  onLf : machine.step q 0x0A = some (lineEnd, as)

theorem Ends.passes {cr lineEnd q : Ragel.State A} {as : List A} {eol : Str} {regs regs' : Registers} {obj obj' : Obj}
    (ends : machine.Ends cr lineEnd q as) (onLf : machine.step cr 0x0A = some (lineEnd, [])) (isEol : IsEol eol)
    (running : as.any machine.breaks = false)
    (run : machine.run text (as.map (·, p)) regs obj = some (regs', obj')) :
    machine.Passes text p eol ⟨q, regs, obj⟩ ⟨lineEnd, regs', obj'⟩ := by
  rcases isEol with rfl | rfl
  · exact Passes.cons ends.onCr running run (Passes.byte onLf rfl rfl)
  · exact Passes.byte ends.onLf running run

/-- The states in which a machine reads the blanks before the value of a header, the value, and the end of the
line. Each byte before the value moves `mark` on, and so does the first one of the value. -/
structure ValueStages (machine : Machine A Obj) (mark : A) (ends : List A) (lead first rest : ByteSet)
    (colon lineEnd : Ragel.State A) where
  leads : List (Ragel.State A)
  values : List (Ragel.State A)
  cr : Ragel.State A
  begun : colon ∈ leads
  marks : ∀ obj, machine.action obj mark = .mark .mark
  running : ∀ a ∈ mark :: ends, machine.breaks a = false
  onLead : ∀ q ∈ leads, ∀ c, lead.mem c = true → ∃ q' ∈ leads, machine.step q c = some (q', [mark])
  onFirst : ∀ q ∈ leads, ∀ c, first.mem c = true → ∃ q' ∈ values, machine.step q c = some (q', [mark])
  onRest : ∀ q ∈ values, ∀ c, rest.mem c = true → ∃ q' ∈ values, machine.step q c = some (q', [])
  onEmpty : ∀ q ∈ leads, machine.Ends cr lineEnd q (mark :: ends)
  onEnd : ∀ q ∈ values, machine.Ends cr lineEnd q ends
  onLf : machine.step cr 0x0A = some (lineEnd, [])

namespace ValueStages

variable {mark : A} {ends : List A} {lead first rest : ByteSet} {colon lineEnd : Ragel.State A}
  (stages : machine.ValueStages mark ends lead first rest colon lineEnd) {regs : Registers} {obj obj' : Obj}

include stages

theorem run_mark : machine.run text [(mark, p)] regs obj = some ({ regs with mark := p }, obj) := by
  rw [Machine.run, stages.marks]
  rfl

theorem quiet_of_subset {as : List A} (sub : as ⊆ mark :: ends) : as.any machine.breaks = false := by
  rw [List.any_eq_false]
  intro a mem
  rw [stages.running a (sub mem)]
  exact Bool.false_ne_true

theorem mark_running : [mark].any machine.breaks = false :=
  stages.quiet_of_subset (List.cons_subset_cons mark (List.nil_subset ends))

/-- The blanks before a value. -/
theorem passes_lead (text : Str) (obj : Obj) {w : Str} (all : ∀ c ∈ w, lead.mem c = true) :
    ∀ {q : Ragel.State A}, q ∈ stages.leads → ∀ (p : Nat) (regs : Registers), ∃ q' ∈ stages.leads, ∃ m,
      machine.Passes text p w ⟨q, regs, obj⟩ ⟨q', { regs with mark := m }, obj⟩ :=
  Passes.marked stages.marks stages.mark_running text obj fun q mem c inW => stages.onLead q mem c (all c inW)

/-- A value behind its blanks, with the end of the line. -/
theorem passes {w v eol : Str} (blanks : ∀ d ∈ w, lead.mem d = true)
    (begins : ∀ c z, v = c :: z → first.mem c = true) (goesOn : ∀ d ∈ v.tail, rest.mem d = true) (isEol : IsEol eol)
    (run : machine.run text (ends.map (·, p + w.length + v.length)) { regs with mark := p + w.length } obj =
      some ({ regs with mark := p + w.length }, obj')) :
    machine.Passes text p (w ++ (v ++ eol)) ⟨colon, regs, obj⟩
      ⟨lineEnd, { regs with mark := p + w.length }, obj'⟩ := by
  obtain ⟨q, isLead, m, blank⟩ := stages.passes_lead text obj blanks stages.begun p regs
  refine blank.append ?_
  cases v with
  | nil =>
    have ended : machine.run text ((mark :: ends).map (·, p + w.length)) { regs with mark := m } obj =
        some ({ regs with mark := p + w.length }, obj') := by
      rw [List.map_cons, ← List.singleton_append, run_append, stages.run_mark, Option.bind_some]
      exact run
    exact (stages.onEmpty q isLead).passes stages.onLf isEol (stages.quiet_of_subset (List.Subset.refl _)) ended
  | cons c v =>
    obtain ⟨q₁, isValue, next⟩ := stages.onFirst q isLead c (begins c v rfl)
    obtain ⟨q', isValue', value⟩ := Passes.loop text (· ∈ stages.values) { regs with mark := p + w.length } obj
      (fun q mem d inV => stages.onRest q mem d (goesOn d inV)) (p + w.length + 1) isValue
    have length : p + w.length + (c :: v).length = p + w.length + 1 + v.length := by
      rw [List.length_cons]
      omega
    rw [length] at run
    refine Passes.cons next stages.mark_running stages.run_mark (value.append ?_)
    exact (stages.onEnd q' isValue').passes stages.onLf isEol
      (stages.quiet_of_subset (List.subset_cons_self mark ends)) run

end ValueStages

/-- The actions on the first byte of a name only set `field_start`. -/
structure StartsField (machine : Machine A Obj) (as : List A) : Prop where
  running : as.any machine.breaks = false
  run : ∀ text p regs obj, machine.run text (as.map (·, p)) regs obj = some ({ regs with fieldStart := p }, obj)

/-- A name, of which the machine knows what has been read. -/
theorem passes_name (Inside : Str → Ragel.State A → Prop) (tokens : ByteSet) {q : Ragel.State A} (text : Str)
    (starts : ∀ c, tokens.mem c = true →
      ∃ q' as, Inside [c] q' ∧ machine.step q c = some (q', as) ∧ machine.StartsField as)
    (goesOn : ∀ u q c, Inside u q → tokens.mem c = true → ∃ q', Inside (u ++ [c]) q' ∧ machine.step q c = some (q', []))
    {name : Str} (some : name ≠ []) (all : ∀ c ∈ name, tokens.mem c = true) (p : Nat) (regs : Registers) (obj : Obj) :
    ∃ q', Inside name q' ∧
      machine.Passes text p name ⟨q, regs, obj⟩ ⟨q', { regs with fieldStart := p }, obj⟩ := by
  have further : ∀ (v u : Str) (q : Ragel.State A) (p : Nat) (regs : Registers), Inside u q →
      (∀ c ∈ v, tokens.mem c = true) →
      ∃ q', Inside (u ++ v) q' ∧ machine.Passes text p v ⟨q, regs, obj⟩ ⟨q', regs, obj⟩ := by
    intro v
    induction v with
    | nil =>
      intro u q p regs inside _
      exact ⟨q, by rwa [List.append_nil], Passes.nil machine text p _⟩
    | cons c v ih =>
      intro u q p regs inside all
      obtain ⟨q₁, inside₁, next⟩ := goesOn u q c inside (all c List.mem_cons_self)
      obtain ⟨q', inside', rest⟩ := ih (u ++ [c]) q₁ (p + 1) regs inside₁ fun d mem =>
        all d (List.mem_cons_of_mem c mem)
      rw [List.append_assoc] at inside'
      exact ⟨q', inside', Passes.cons next rfl rfl rest⟩
  obtain ⟨c, v, rfl⟩ := List.exists_cons_of_ne_nil some
  obtain ⟨q₁, as, inside₁, next, field⟩ := starts c (all c List.mem_cons_self)
  obtain ⟨q', inside', rest⟩ := further v [c] q₁ (p + 1) { regs with fieldStart := p } inside₁ fun d mem =>
    all d (List.mem_cons_of_mem c mem)
  exact ⟨q', inside', Passes.cons next field.running (field.run text p regs obj) rest⟩

end Machine

/-- The string that a callback makes of a piece of the text. -/
theorem string_piece {maxSize : Nat} {text pre piece post : Str} (shape : text = pre ++ (piece ++ post))
    (room : text.length ≤ maxSize) : string maxSize (text.drop pre.length) piece.length = some piece := by
  have small : piece.length ≤ maxSize := by
    rw [shape, List.length_append, List.length_append] at room
    omega
  rw [string, if_pos small, shape, List.drop_left, List.take_left]

end Sylar.Http
