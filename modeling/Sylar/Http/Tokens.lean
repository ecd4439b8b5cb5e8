import Sylar.Http.Parser

/-!
# Tokens

What an action hands to a callback is a token: the bytes from an offset in a register on. When the
buffer is only a piece of the input, because an earlier call of `execute` has consumed what comes before,
the register is right only if it was set in the same call, and the token is whole only if it ends in
the buffer. `Use` says from where to where an action looks; `run_window` is the simulation: where no use
of a trace reaches out of the piece, its execution on the piece is its execution on the input.
-/

namespace Sylar.Http

open Lib

variable {A Obj : Type}

/-! ## Pieces of the input -/

/-- The `n` bytes of the input from position `b` on. -/
def window (stream : Str) (b n : Nat) : Str := (stream.drop b).take n

/-- A token that ends in the window is the same in the window. -/
theorem take_drop_window {stream : Str} {b n i length : Nat}
    (inside : i + b + length ≤ b + n ∨ stream.length ≤ b + n) :
    ((window stream b n).drop i).take length = (stream.drop (i + b)).take length := by
  rw [window, List.drop_take, List.drop_drop, List.take_take, Nat.add_comm b i]
  rcases inside with ends | all
  · rw [Nat.min_eq_left (by omega)]
  · rw [List.take_eq_take_iff, List.length_drop]
    omega

theorem takeWhile_take (f : UInt8 → Bool) (s : Str) : ∀ k : Nat,
    (s.take k).takeWhile f = (s.takeWhile f).take k := by
  induction s with
  | nil => intro k; simp
  | cons c s ih =>
    intro k
    cases k with
    | zero => simp
    | succ k =>
      rw [List.take_succ_cons, List.takeWhile_cons, List.takeWhile_cons]
      split
      · rw [List.take_succ_cons, ih]
      · rw [List.take_nil]

theorem dropWhile_take (f : UInt8 → Bool) (s : Str) : ∀ k : Nat,
    (s.take k).dropWhile f = (s.dropWhile f).take (k - (s.takeWhile f).length) := by
  induction s with
  | nil => intro k; simp
  | cons c s ih =>
    intro k
    cases k with
    | zero => simp
    | succ k =>
      rw [List.take_succ_cons, List.dropWhile_cons, List.dropWhile_cons, List.takeWhile_cons]
      split
      · rw [ih, List.length_cons, Nat.add_sub_add_right]
      · rw [List.length_nil, Nat.sub_zero, List.take_succ_cons]

/-- How far `strtol` looks. -/
def numberLength (text : Str) : Nat := (text.takeWhile isspace).length + (subject text).length

/-- A number that ends in the window is the same in the window. -/
theorem strtol_window {stream : Str} {b n i : Nat} (base : Nat)
    (inside : i + b + numberLength (stream.drop (i + b)) ≤ b + n ∨ stream.length ≤ b + n) :
    strtol base ((window stream b n).drop i) = strtol base (stream.drop (i + b)) := by
  have whole : subject ((window stream b n).drop i) = subject (stream.drop (i + b)) := by
    rw [window, List.drop_take, List.drop_drop, Nat.add_comm b i]
    rcases inside with ends | all
    · rw [subject, dropWhile_take, takeWhile_take, ← subject, List.take_of_length_le]
      rw [numberLength] at ends
      omega
    · rw [List.take_of_length_le]
      rw [List.length_drop]
      omega
  rw [strtol, strtol, whole]

/-! ## What actions look at -/

/-- An action looks from `since` on, and needs what is there up to `last`. -/
structure Use where
  since : Nat
  last : Nat
  deriving DecidableEq, Repr

/-- The use of `length` bytes by an action executed at `fpc`. -/
def Use.of (since fpc length : Nat) : Use := ⟨since, max fpc (since + length)⟩

/-- What an action looks at. `lenAt` is where `field_len` was written. -/
def Op.uses (stream : Str) (regs : Registers) (lenAt fpc : Nat) : Op Obj → List Use
  | .mark _ => []
  | .writeField => [.of regs.fieldStart fpc 0]
  | .httpField _ =>
    [.of regs.fieldStart fpc regs.fieldLen, .of lenAt fpc 0, .of regs.mark fpc (sizeSub fpc regs.mark)]
  | .element r _ => [.of (regs.get r) fpc (sizeSub fpc (regs.get r))]
  | .number _ _ => [.of regs.mark fpc (numberLength (stream.drop regs.mark))]
  | .note _ => []

def Op.lenAt (lenAt fpc : Nat) : Op Obj → Nat
  | .writeField => fpc
  | _ => lenAt

/-- A callback looks at no more than the bytes it is given. -/
def Op.Local : Op Obj → Prop
  | .httpField callback => ∀ (obj : Obj) (field field' : Str) (flen : Nat) (value value' : Str) (vlen : Nat),
    field.take flen = field'.take flen → value.take vlen = value'.take vlen →
    callback obj field flen value vlen = callback obj field' flen value' vlen
  | .element _ callback => ∀ (obj : Obj) (text text' : Str) (length : Nat),
    text.take length = text'.take length → callback obj text length = callback obj text' length
  | _ => True

/-- What the actions of a trace look at, when it is executed on the whole input. -/
def Machine.uses (machine : Machine A Obj) (stream : Str) :
    List (A × Nat) → Registers → Nat → Obj → List Use
  | [], _, _, _ => []
  | (a, fpc) :: trace, regs, lenAt, obj =>
    (machine.action obj a).uses stream regs lenAt fpc ++
      match (machine.action obj a).exec stream fpc regs obj with
      | none => []
      | some (regs, obj') => machine.uses stream trace regs ((machine.action obj a).lenAt lenAt fpc) obj'

/-- Where `field_len` was written last. -/
def Machine.lenAt (machine : Machine A Obj) (stream : Str) :
    List (A × Nat) → Registers → Nat → Obj → Nat
  | [], _, lenAt, _ => lenAt
  | (a, fpc) :: trace, regs, lenAt, obj =>
    match (machine.action obj a).exec stream fpc regs obj with
    | none => (machine.action obj a).lenAt lenAt fpc
    | some (regs, obj') => machine.lenAt stream trace regs ((machine.action obj a).lenAt lenAt fpc) obj'

/-! ## One action -/

/-- The registers of a parser on the piece from `b` on, and those it would have on the whole input:
they agree where they were set in the piece. -/
structure Follows (b lenAt : Nat) (regs pregs : Registers) : Prop where
  offset : ∀ r, b ≤ regs.get r → pregs.get r + b = regs.get r
  len : b ≤ lenAt → pregs.fieldLen = regs.fieldLen

/-- A use does not reach out of a window. -/
def Use.Inside (stream : Str) (b n : Nat) (u : Use) : Prop :=
  b ≤ u.since ∧ (u.last < b + n ∨ stream.length ≤ b + n)

theorem sizeSub_shift (i j b : Nat) : sizeSub (i + b) (j + b) = sizeSub i j := by
  unfold sizeSub
  split
  · rw [if_pos (by omega)]
    omega
  · rw [if_neg (by omega)]
    omega

theorem Use.Inside.ends {stream : Str} {b n since fpc length : Nat}
    (inside : (Use.of since fpc length).Inside stream b n) :
    since + length ≤ b + n ∨ stream.length ≤ b + n := by
  obtain ⟨-, last | all⟩ := inside
  · simp only [Use.of] at last
    omega
  · exact .inr all

/-- Two executions with the same answer. -/
def Agree (b n lenAt : Nat) (whole piece : Option (Registers × Obj)) : Prop :=
  (whole = none ∧ piece = none) ∨ ∃ regs pregs obj, whole = some (regs, obj) ∧ piece = some (pregs, obj) ∧
    Follows b lenAt regs pregs ∧ lenAt < b + n ∧ ∀ r, regs.get r < b + n

theorem get_set (regs : Registers) (value : Nat) (r r' : Register) :
    (regs.set value r).get r' = if r' = r then value else regs.get r' := by
  cases r with
  | mark => cases r' <;> rfl
  | fieldStart => cases r' <;> rfl
  | queryStart => cases r' <;> rfl

theorem set_fieldLen (regs : Registers) (value : Nat) (r : Register) :
    (regs.set value r).fieldLen = regs.fieldLen := by
  cases r <;> rfl

variable {stream : Str} {b n i lenAt : Nat} {regs pregs : Registers}

/-- An answer of a callback, with the registers as they were. -/
theorem agree_map {answer answer' : Option Obj} (same : answer' = answer)
    (follows : Follows b lenAt regs pregs) (len : lenAt < b + n) (small : ∀ r, regs.get r < b + n) :
    Agree b n lenAt (answer.map (regs, ·)) (answer'.map (pregs, ·)) := by
  rw [same]
  cases answer with
  | none => exact .inl ⟨rfl, rfl⟩
  | some obj => exact .inr ⟨regs, pregs, obj, rfl, rfl, follows, len, small⟩

/-- An action whose uses are inside the window does the same there. -/
theorem exec_window (obj : Obj) {op : Op Obj} (closed : op.Local) (lt : i < n)
    (follows : Follows b lenAt regs pregs) (len : lenAt < b + n) (small : ∀ r, regs.get r < b + n)
    (inside : ∀ u ∈ op.uses stream regs lenAt (i + b), u.Inside stream b n) :
    Agree b n (op.lenAt lenAt (i + b)) (op.exec stream (i + b) regs obj)
      (op.exec (window stream b n) i pregs obj) := by
  cases op with
  | mark r =>
    refine .inr ⟨_, _, obj, rfl, rfl, ⟨fun r' le => ?_, fun le => ?_⟩, len, fun r' => ?_⟩
    · rw [get_set] at le ⊢
      rw [get_set]
      split
      · rfl
      · rename_i other
        rw [if_neg other] at le
        exact follows.offset r' le
    · rw [set_fieldLen, set_fieldLen]
      exact follows.len le
    · rw [get_set]
      split
      · omega
      · exact small r'
  | writeField =>
    have start := inside _ List.mem_cons_self
    refine .inr ⟨_, _, obj, rfl, rfl, ⟨fun r le => ?_, fun _ => ?_⟩, ?_, fun r => ?_⟩
    · cases r with
      | mark => exact follows.offset .mark le
      | fieldStart => exact follows.offset .fieldStart le
      | queryStart => exact follows.offset .queryStart le
    · show sizeSub i pregs.fieldStart = sizeSub (i + b) regs.fieldStart
      rw [← show _ = regs.fieldStart from follows.offset .fieldStart start.1, sizeSub_shift]
      rfl
    · show i + b < b + n
      omega
    · cases r with
      | mark => exact small .mark
      | fieldStart => exact small .fieldStart
      | queryStart => exact small .queryStart
  | httpField callback =>
    have field := inside _ List.mem_cons_self
    have written := inside _ (List.mem_cons_of_mem _ List.mem_cons_self)
    have value := inside _ (List.mem_cons_of_mem _ (List.mem_cons_of_mem _ List.mem_cons_self))
    have fieldStart : pregs.fieldStart + b = regs.fieldStart := follows.offset .fieldStart field.1
    have mark : pregs.mark + b = regs.mark := follows.offset .mark value.1
    have fieldEnds := field.ends
    have valueEnds := value.ends
    rw [← mark, sizeSub_shift] at valueEnds
    rw [← fieldStart] at fieldEnds
    refine agree_map ?_ follows len small
    rw [← mark, sizeSub_shift, follows.len written.1, ← fieldStart]
    exact closed obj _ _ _ _ _ _ (take_drop_window fieldEnds) (take_drop_window valueEnds)
  | element r callback =>
    have text := inside _ List.mem_cons_self
    have start : pregs.get r + b = regs.get r := follows.offset r text.1
    have ends := text.ends
    rw [← start, sizeSub_shift] at ends
    refine agree_map ?_ follows len small
    rw [← start, sizeSub_shift]
    exact closed obj _ _ _ (take_drop_window ends)
  | number base assign =>
    have text := inside _ List.mem_cons_self
    have start : pregs.mark + b = regs.mark := follows.offset .mark text.1
    have ends := text.ends
    rw [← start] at ends
    refine .inr ⟨regs, pregs, assign obj (strtol base (stream.drop regs.mark)), rfl, ?_, follows, len, small⟩
    rw [Op.exec, ← start, strtol_window base ends]
  | note assign => exact .inr ⟨regs, pregs, assign obj, rfl, rfl, follows, len, small⟩

/-! ## A trace -/

/-- No end of a read at position `k` divides a use. -/
def Use.Uncut (k : Nat) (u : Use) : Prop := ¬ (u.since < k ∧ k ≤ u.last)

/-- The uses of an action start where a register was set, and reach its own position. -/
theorem mem_uses {op : Op Obj} {fpc bound : Nat} {u : Use} (mem : u ∈ op.uses stream regs lenAt fpc)
    (len : lenAt < bound) (small : ∀ r, regs.get r < bound) : u.since < bound ∧ fpc ≤ u.last := by
  have mark : regs.mark < bound := small .mark
  have fieldStart : regs.fieldStart < bound := small .fieldStart
  have reaches : ∀ since length, fpc ≤ (Use.of since fpc length).last := fun _ _ => Nat.le_max_left ..
  cases op with
  | mark r => exact absurd mem List.not_mem_nil
  | writeField =>
    obtain rfl := List.mem_singleton.mp mem
    exact ⟨fieldStart, reaches _ _⟩
  | httpField callback =>
    simp only [Op.uses, List.mem_cons, List.not_mem_nil, or_false] at mem
    obtain rfl | rfl | rfl := mem
    · exact ⟨fieldStart, reaches _ _⟩
    · exact ⟨len, reaches _ _⟩
    · exact ⟨mark, reaches _ _⟩
  | element r callback =>
    obtain rfl := List.mem_singleton.mp mem
    exact ⟨small r, reaches _ _⟩
  | number base assign =>
    obtain rfl := List.mem_singleton.mp mem
    exact ⟨mark, reaches _ _⟩
  | note assign => exact absurd mem List.not_mem_nil

/-- The execution of a trace on a window, where neither of its ends divides a use. -/
theorem run_window {machine : Machine A Obj} (closed : ∀ obj a, (machine.action obj a).Local)
    (trace : List (A × Nat)) : ∀ {lenAt : Nat} {regs pregs : Registers} {obj : Obj},
    (∀ x ∈ trace, x.2 < n) → Follows b lenAt regs pregs → lenAt < b + n → (∀ r, regs.get r < b + n) →
    (∀ u ∈ machine.uses stream (Scan.shifted b trace) regs lenAt obj,
      u.Uncut b ∧ (stream.length ≤ b + n ∨ u.Uncut (b + n))) →
    Agree b n (machine.lenAt stream (Scan.shifted b trace) regs lenAt obj)
      (machine.run stream (Scan.shifted b trace) regs obj)
      (machine.run (window stream b n) trace pregs obj) := by
  induction trace with
  | nil =>
    intro lenAt regs pregs obj _ follows len small _
    exact .inr ⟨regs, pregs, obj, rfl, rfl, follows, len, small⟩
  | cons x trace ih =>
    obtain ⟨a, i⟩ := x
    intro lenAt regs pregs obj lt follows len small uncut
    rw [Scan.shifted, List.map_cons, ← Scan.shifted] at uncut ⊢
    rw [Machine.uses] at uncut
    have inside : ∀ u ∈ (machine.action obj a).uses stream regs lenAt (i + b), u.Inside stream b n := by
      intro u mem
      obtain ⟨since, last⟩ := mem_uses mem len small
      obtain ⟨left, right⟩ := uncut u (List.mem_append_left _ mem)
      rw [Use.Uncut] at left right
      exact ⟨by omega, by omega⟩
    have here := exec_window obj (closed obj a) (lt (a, i) List.mem_cons_self) follows len small inside
    rw [Machine.run, Machine.run, Machine.lenAt]
    obtain ⟨whole, piece⟩ | ⟨regs', pregs', obj', whole, piece, follows', len', small'⟩ := here
    · rw [whole, piece]
      exact .inl ⟨rfl, rfl⟩
    · rw [whole, piece]
      rw [whole] at uncut
      exact ih (fun x mem => lt x (List.mem_cons_of_mem _ mem)) follows' len' small'
        fun u mem => uncut u (List.mem_append_right _ mem)

/-- A trace in two parts. -/
theorem run_append (machine : Machine A Obj) (buffer : Str) (trace trace' : List (A × Nat)) :
    ∀ (regs : Registers) (obj : Obj), machine.run buffer (trace ++ trace') regs obj =
      (machine.run buffer trace regs obj).bind fun x => machine.run buffer trace' x.1 x.2 := by
  induction trace with
  | nil => exact fun _ _ => rfl
  | cons x trace ih =>
    obtain ⟨a, fpc⟩ := x
    intro regs obj
    rw [List.cons_append, Machine.run, Machine.run, Option.bind_eq_bind, Option.bind_assoc]
    exact Option.bind_congr fun y _ => ih y.1 y.2

theorem uses_append (machine : Machine A Obj) (trace trace' : List (A × Nat)) :
    ∀ {regs regs' : Registers} {lenAt : Nat} {obj obj' : Obj},
    machine.run stream trace regs obj = some (regs', obj') →
    machine.uses stream (trace ++ trace') regs lenAt obj =
      machine.uses stream trace regs lenAt obj ++
        machine.uses stream trace' regs' (machine.lenAt stream trace regs lenAt obj) obj' := by
  induction trace with
  | nil =>
    intro regs regs' lenAt obj obj' run
    obtain ⟨rfl, rfl⟩ := Prod.mk.inj (Option.some.inj run)
    rfl
  | cons x trace ih =>
    obtain ⟨a, fpc⟩ := x
    intro regs regs' lenAt obj obj' run
    rw [Machine.run] at run
    rw [List.cons_append, Machine.uses, Machine.uses, Machine.lenAt, List.append_assoc]
    cases first : (machine.action obj a).exec stream fpc regs obj with
    | none =>
      rw [first] at run
      cases run
    | some next =>
      rw [first] at run
      dsimp only
      rw [ih run]

end Sylar.Http
