import Mathlib

/-!
# Ragel machines

The meaning of the regular expressions with embedded actions that Ragel compiles. A machine is an
expression; what it can do next is the list of its moves, each with the bytes it takes, the actions it
executes, and the expression that is left. A run keeps the expressions left by every way of reading
the input so far, and on each byte takes all moves that are possible and not beaten by a priority.

The operators are those of the language:

* `>` (`enter`) executes an action on the moves out of the start, and, where the machine matches the
  empty string, when it is left;
* `%` (`leave`) executes an action on the moves that leave the machine for what follows it;
* `@` (`finish`) executes an action on the moves into a final state;
* `:>` (`guard`) gives the moves that start its second operand priority over those of the first, and
  `:>>` (`guardEnd`) the moves that finish it;
* `when` (`onlyIf`) keeps its moves for the inputs on which a condition of the caller holds.

The actions of the moves taken together are executed in the order in which they are embedded: the
entering actions of an expression before those inside it, the others after, from left to right. An
action that is there more than once is executed once.
-/

namespace Sylar.Lib

/-- A set of bytes, as a mask with one bit for each of them. -/
structure ByteSet where
  mask : Nat
  deriving DecidableEq, Repr

namespace ByteSet

def mem (s : ByteSet) (c : UInt8) : Bool := s.mask.testBit c.toNat

def range (lo hi : UInt8) : ByteSet := ⟨2 ^ (hi.toNat + 1) - 2 ^ lo.toNat⟩

def single (c : UInt8) : ByteSet := range c c

def union (a b : ByteSet) : ByteSet := ⟨a.mask ||| b.mask⟩

def diff (a b : ByteSet) : ByteSet := ⟨a.mask ^^^ (a.mask &&& b.mask)⟩

/-- The characters of a string. -/
def of (s : String) : ByteSet :=
  s.toList.foldl (fun set c => set.union (single (UInt8.ofNat c.toNat))) ⟨0⟩

def any : ByteSet := range 0 255
def ascii : ByteSet := range 0 127
def cntrl : ByteSet := (range 0 31).union (single 127)
def digit : ByteSet := range 0x30 0x39
def upper : ByteSet := range 0x41 0x5A
def lower : ByteSet := range 0x61 0x7A
def alpha : ByteSet := upper.union lower
def xdigit : ByteSet := digit.union ((range 0x41 0x46).union (range 0x61 0x66))
def space : ByteSet := (range 9 13).union (single 32)

end ByteSet

/-- An expression with embedded actions. The numbers of the actions are their order; those of the
guards tell their priorities apart. -/
inductive Ragel (A : Type) where
  | eps
  | byte (s : ByteSet)
  | seq (a b : Ragel A)
  | alt (a b : Ragel A)
  | star (a : Ragel A)
  | enter (order : Nat) (action : A) (a : Ragel A)
  | leave (order : Nat) (action : A) (a : Ragel A)
  | finish (order : Nat) (action : A) (a : Ragel A)
  | guard (key : Nat) (a b : Ragel A)
  | guardEnd (key : Nat) (a b : Ragel A)
  /-- The second operand of `guardEnd`, once it has begun. -/
  | ending (key : Nat) (a : Ragel A)
  | onlyIf (a : Ragel A)
  deriving DecidableEq, Repr

namespace Ragel

variable {A : Type}

/-! ## Derived operators -/

/-- A concatenation. -/
def cat : List (Ragel A) → Ragel A
  | [] => eps
  | [a] => a
  | a :: b :: rest => seq a (cat (b :: rest))

/-- A union. -/
def oneOf : List (Ragel A) → Ragel A
  | [] => byte ⟨0⟩
  | [a] => a
  | a :: b :: rest => alt a (oneOf (b :: rest))

def char (c : UInt8) : Ragel A := byte (.single c)

/-- A string. -/
def lit (s : String) : Ragel A := cat (s.toList.map fun c => char (UInt8.ofNat c.toNat))

/-- A string in any case, `/s/i`. -/
def litAnyCase (s : String) : Ragel A :=
  cat (s.toList.map fun c =>
    byte ((ByteSet.single (UInt8.ofNat c.toLower.toNat)).union (.single (UInt8.ofNat c.toUpper.toNat))))

/-- `a?`. -/
def opt (a : Ragel A) : Ragel A := alt a eps

/-- `a+`. -/
def plus (a : Ragel A) : Ragel A := seq a (star a)

/-- `a{n}`. -/
def times (n : Nat) (a : Ragel A) : Ragel A := cat (List.replicate n a)

/-- `a{,n}`. -/
def atMost : Nat → Ragel A → Ragel A
  | 0, _ => eps
  | n + 1, a => opt (seq a (atMost n a))

/-- `a{n,m}`. -/
def between (n m : Nat) (a : Ragel A) : Ragel A := seq (times n a) (atMost (m - n) a)

/-- `a{n,}`. -/
def atLeast (n : Nat) (a : Ragel A) : Ragel A := seq (times n a) (star a)

/-! ## The order of the actions -/

/-- How many actions are embedded. -/
def size : Ragel A → Nat
  | eps | byte _ => 0
  | seq a b | alt a b | guard _ a b | guardEnd _ a b => a.size + b.size
  | star a | ending _ a | onlyIf a => a.size
  | enter _ _ a | leave _ _ a | finish _ _ a => a.size + 1

/-- The actions numbered from `n` on in the order in which they are embedded. -/
def numbered : Nat → Ragel A → Ragel A
  | _, eps => eps
  | _, byte s => byte s
  | n, seq a b => seq (a.numbered n) (b.numbered (n + a.size))
  | n, alt a b => alt (a.numbered n) (b.numbered (n + a.size))
  | n, star a => star (a.numbered n)
  | n, enter _ x a => enter n x (a.numbered (n + 1))
  | n, leave _ x a => leave (n + a.size) x (a.numbered n)
  | n, finish _ x a => finish (n + a.size) x (a.numbered n)
  | n, guard k a b => guard k (a.numbered n) (b.numbered (n + a.size))
  | n, guardEnd k a b => guardEnd k (a.numbered n) (b.numbered (n + a.size))
  | n, ending k a => ending k (a.numbered n)
  | n, onlyIf a => onlyIf (a.numbered n)

/-! ## Moves -/

/-- Whether an expression matches the empty string, and the actions executed when it is then left. -/
def nullable : Ragel A → Option (List (Nat × A))
  | eps => some []
  | byte _ => none
  | seq a b | guard _ a b | guardEnd _ a b =>
    match a.nullable, b.nullable with
    | some x, some y => some (x ++ y)
    | _, _ => none
  | alt a b =>
    match a.nullable, b.nullable with
    | some x, some y => some (x ++ y)
    | some x, none => some x
    | none, y => y
  | star a => some (a.nullable.getD [])
  | enter n x a => a.nullable.map ((n, x) :: ·)
  | leave n x a => a.nullable.map (· ++ [(n, x)])
  | finish _ _ a | ending _ a | onlyIf a => a.nullable

/-- One way to go on. -/
structure Move (A : Type) where
  on : ByteSet
  conditional : Bool
  actions : List (Nat × A)
  priorities : List (Nat × Nat)
  rest : Ragel A

namespace Move

def execute (xs : List (Nat × A)) (m : Move A) : Move A := { m with actions := xs ++ m.actions }

def goTo (context : Ragel A → Ragel A) (m : Move A) : Move A := { m with rest := context m.rest }

def prior (key level : Nat) (m : Move A) : Move A := { m with priorities := (key, level) :: m.priorities }

end Move

/-- The moves of an expression. -/
def moves : Ragel A → List (Move A)
  | eps => []
  | byte s => [⟨s, false, [], [], eps⟩]
  | seq a b =>
    a.moves.map (.goTo (seq · b)) ++
      match a.nullable with
      | some x => b.moves.map (.execute x)
      | none => []
  | alt a b => a.moves ++ b.moves
  | star a => a.moves.map (.goTo (seq · (star a)))
  | enter n x a => a.moves.map (.execute [(n, x)])
  | leave n x a => a.moves.map (.goTo (leave n x))
  | finish n x a => a.moves.map fun m =>
    (if m.rest.nullable.isSome then { m with actions := m.actions ++ [(n, x)] } else m).goTo (finish n x)
  | guard k a b =>
    a.moves.map (fun m => (m.prior k 0).goTo (guard k · b)) ++
      match a.nullable with
      | some x => b.moves.map fun m => (m.prior k 1).execute x
      | none => []
  | guardEnd k a b =>
    a.moves.map (fun m => (m.prior k 0).goTo (guardEnd k · b)) ++
      match a.nullable with
      | some x => b.moves.map fun m =>
        ((if m.rest.nullable.isSome then m.prior k 1 else m).goTo (ending k)).execute x
      | none => []
  | ending k a => a.moves.map fun m => (if m.rest.nullable.isSome then m.prior k 1 else m).goTo (ending k)
  | onlyIf a => a.moves.map fun m => { m with conditional := true, rest := onlyIf m.rest }

/-! ## Runs -/

variable [DecidableEq A]

/-- A state: what is left by each way of reading the input so far. -/
abbrev State (A : Type) := List (Ragel A)

/-- The state a machine starts in. -/
def start (e : Ragel A) : State A := [e.numbered 0]

/-- The whole input may end here. -/
def final (st : State A) : Bool := st.any fun e => e.nullable.isSome

/-- Another move on the same byte has the higher priority. -/
def Move.beaten (ms : List (Move A)) (m : Move A) : Bool :=
  ms.any fun m' => m'.priorities.any fun high => m.priorities.any fun low =>
    high.1 == low.1 && decide (low.2 < high.2)

/-- The moves taken on a byte, given whether the condition of `when` holds. -/
def taken (condition : Bool) (st : State A) (c : UInt8) : List (Move A) :=
  let possible := (st.flatMap moves).filter fun m => m.on.mem c && (!m.conditional || condition)
  possible.filter fun m => !m.beaten possible

/-- The actions of moves taken together, each once, in their order. -/
def actionsOf (ms : List (Move A)) : List A :=
  (((ms.flatMap Move.actions).insertionSort fun x y => x.1 ≤ y.1).map Prod.snd).eraseDups

/-- One byte: the next state with the actions to execute, or `none`, the error state. -/
def step (condition : Bool) (st : State A) (c : UInt8) : Option (State A × List A) :=
  match taken condition st c with
  | [] => none
  | m :: ms => some (((m :: ms).map Move.rest).eraseDups, actionsOf (m :: ms))

/-! ## Finishing -/

variable {n : Nat} {x : A} {condition : Bool} {st st' : State A} {c : UInt8} {as : List A}

theorem mem_actionsOf {ms : List (Move A)} : x ∈ actionsOf ms ↔ ∃ m ∈ ms, ∃ k, (k, x) ∈ m.actions := by
  simp only [actionsOf, List.mem_eraseDups, List.mem_map, List.mem_insertionSort, List.mem_flatMap,
    Prod.exists, exists_eq_right]
  exact ⟨fun ⟨k, m, mem, act⟩ => ⟨m, mem, k, act⟩, fun ⟨m, mem, k, act⟩ => ⟨k, m, mem, act⟩⟩

/-- A byte takes moves of the state, and its actions are theirs. -/
theorem step_spec (next : step condition st c = some (st', as)) :
    (∀ e ∈ st', ∃ m ∈ taken condition st c, m.rest = e) ∧ as = actionsOf (taken condition st c) := by
  unfold step at next
  split at next
  · cases next
  · rename_i m ms moved
    obtain ⟨rfl, rfl⟩ := Prod.mk.inj (Option.some.inj next)
    refine ⟨fun e mem => ?_, by rw [moved]⟩
    rw [moved]
    exact List.mem_map.mp (List.mem_eraseDups.mp mem)

theorem rest_mem_of_step {m : Move A} (next : step condition st c = some (st', as))
    (took : m ∈ taken condition st c) : m.rest ∈ st' := by
  unfold step at next
  split at next
  · cases next
  · rename_i moved
    obtain ⟨rfl, -⟩ := Prod.mk.inj (Option.some.inj next)
    rw [moved] at took
    exact List.mem_eraseDups.mpr (List.mem_map_of_mem took)

omit [DecidableEq A] in
theorem mem_taken {m : Move A} (mem : m ∈ taken condition st c) :
    (∃ e ∈ st, m ∈ e.moves) ∧ m.on.mem c = true := by
  obtain ⟨possible, -⟩ := List.mem_filter.mp mem
  obtain ⟨moved, fits⟩ := List.mem_filter.mp possible
  exact ⟨List.mem_flatMap.mp moved, (Bool.and_eq_true_iff.mp fits).1⟩

/-- Every way of reading the input is inside the same `@`. -/
def Finishing (n : Nat) (x : A) (st : State A) : Prop := ∀ e ∈ st, ∃ a, e = finish n x a

/-- A byte that leads to a final state executes the finishing action. -/
theorem Finishing.step (finishing : Finishing n x st) (next : step condition st c = some (st', as)) :
    Finishing n x st' ∧ (final st' = true → x ∈ as) := by
  obtain ⟨targets, rfl⟩ := step_spec next
  have inner : ∀ e ∈ st', ∃ a, e = finish n x a ∧
      (e.nullable.isSome = true → ∃ m ∈ taken condition st c, (n, x) ∈ m.actions) := by
    intro e mem
    obtain ⟨m, took, rfl⟩ := targets e mem
    obtain ⟨⟨e', mem', moved⟩, -⟩ := mem_taken took
    obtain ⟨a, rfl⟩ := finishing e' mem'
    obtain ⟨m', -, rfl⟩ := List.mem_map.mp moved
    by_cases ends : m'.rest.nullable.isSome = true
    · rw [if_pos ends] at took ⊢
      exact ⟨m'.rest, rfl, fun _ => ⟨_, took, List.mem_append_right _ List.mem_cons_self⟩⟩
    · rw [if_neg ends]
      exact ⟨m'.rest, rfl, fun nullable => absurd nullable ends⟩
  refine ⟨fun e mem => ?_, fun ends => ?_⟩
  · obtain ⟨a, eq, -⟩ := inner e mem
    exact ⟨a, eq⟩
  · obtain ⟨e, mem, ends⟩ := List.any_eq_true.mp ends
    obtain ⟨a, -, acts⟩ := inner e mem
    obtain ⟨m, took, act⟩ := acts ends
    exact mem_actionsOf.mpr ⟨m, took, n, act⟩

end Ragel

end Sylar.Lib
