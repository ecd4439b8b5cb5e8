import Sylar.Fiber.Basic

/-!
# Pools of shared stacks

`FiberSharedStackPool`: a vector of pointers to stacks, and the index of the next one to give out. The index goes
round, so that a pool of different stacks gives them out in turn (`inTurn_of_nodup`). But the constructor makes one
stack and fills the vector with copies of its pointer: whatever the size of the pool, its fibers are all on the same
stack (`handsOutInTurn_iff`).
-/

namespace Sylar

open Lib

/-- `new FiberMem(size)` among the stacks there are, with whatever bytes the memory has. -/
def newFiberMem (size : Nat) (bytes : Nat → UInt8) (mems : List FiberMem) : MemPtr × List FiberMem :=
  (mems.length, mems ++ [⟨none, (List.range size).map bytes⟩])

structure FiberSharedStackPool where
  allocIdx : Nat
  stackSize : Nat
  stackCount : Nat
  stackArray : List MemPtr
  deriving DecidableEq, Repr

namespace FiberSharedStackPool

/-- `FiberSharedStackPool(stack_count, stack_size)`. The pointer is evaluated once, before the vector is filled. -/
def construct (stackCount stackSize : Nat) (bytes : Nat → UInt8) (mems : List FiberMem) :
    FiberSharedStackPool × List FiberMem :=
  let (stack, mems) := newFiberMem stackSize bytes mems
  (⟨0, stackSize, stackCount, List.replicate stackCount stack⟩, mems)

/-- `get_fiber_stack()`; `none` where the vector has no such element. The index stays below the size of the pool, so
the sum does not overflow. -/
def getFiberStack (pool : FiberSharedStackPool) : Option (MemPtr × FiberSharedStackPool) :=
  (pool.stackArray[pool.allocIdx]?).map fun stack =>
    (stack, { pool with allocIdx := (pool.allocIdx + 1) % pool.stackCount })

/-- A call, with the stack it returns. -/
def Step (pool : FiberSharedStackPool) (stack : MemPtr) (pool' : FiberSharedStackPool) : Prop :=
  pool.getFiberStack = some (stack, pool')

/-! ## The index -/

/-- The index is one of the vector, which has as many elements as the pool has stacks. -/
structure Sound (pool : FiberSharedStackPool) : Prop where
  sized : pool.stackArray.length = pool.stackCount
  inside : pool.allocIdx < pool.stackCount

variable {pool pool' : FiberSharedStackPool} {stack : MemPtr} {given : List MemPtr} {n k size : Nat}
  {bytes : Nat → UInt8} {mems : List FiberMem}

theorem sound_construct (pos : 0 < n) : (construct n size bytes mems).1.Sound where
  sized := List.length_replicate
  inside := pos

/-- What a call does. -/
theorem Step.spec (step : pool.Step stack pool') :
    pool.stackArray[pool.allocIdx]? = some stack ∧
      pool' = { pool with allocIdx := (pool.allocIdx + 1) % pool.stackCount } := by
  obtain ⟨stack', found, eq⟩ := Option.map_eq_some_iff.mp step
  obtain ⟨rfl, rfl⟩ := Prod.mk.inj eq
  exact ⟨found, rfl⟩

theorem Sound.step (sound : pool.Sound) (step : pool.Step stack pool') : pool'.Sound := by
  obtain ⟨-, rfl⟩ := step.spec
  exact ⟨sound.sized, Nat.mod_lt _ (Nat.zero_lt_of_lt sound.inside)⟩

/-- A call can always be made. -/
theorem Sound.exists_step (sound : pool.Sound) : ∃ stack pool', pool.Step stack pool' := by
  have inside : pool.allocIdx < pool.stackArray.length := by
    rw [sound.sized]
    exact sound.inside
  refine ⟨pool.stackArray[pool.allocIdx], { pool with allocIdx := (pool.allocIdx + 1) % pool.stackCount }, ?_⟩
  rw [Step, getFiberStack, List.getElem?_eq_getElem inside]
  rfl

theorem Sound.exists_run (k : Nat) : ∀ {pool : FiberSharedStackPool}, pool.Sound →
    ∃ given pool', Run Step pool given pool' ∧ given.length = k := by
  induction k with
  | zero => exact fun {pool} _ => ⟨[], pool, .nil pool, rfl⟩
  | succ k ih =>
    intro pool sound
    obtain ⟨stack, pool₁, step⟩ := sound.exists_step
    obtain ⟨given, pool', run, length⟩ := ih (sound.step step)
    exact ⟨stack :: given, pool', .cons step run, by rw [List.length_cons, length]⟩

/-- Every call of a run returns the element at an index that goes round. -/
theorem Sound.returned (sound : pool.Sound) (run : Run Step pool given pool') : ∀ i < given.length,
    given[i]? = pool.stackArray[(pool.allocIdx + i) % pool.stackCount]? := by
  induction run with
  | nil s => exact fun i lt => absurd lt (Nat.not_lt_zero i)
  | @cons s t u stack given step _ ih =>
    intro i lt
    obtain ⟨found, same⟩ := step.spec
    cases i with
    | zero =>
      rw [Nat.add_zero, Nat.mod_eq_of_lt sound.inside, found]
      rfl
    | succ i =>
      have later := ih (sound.step step) i (Nat.lt_of_succ_lt_succ lt)
      rw [same] at later
      rw [List.getElem?_cons_succ, later]
      dsimp only
      rw [Nat.mod_add_mod, Nat.add_right_comm, Nat.add_assoc]

/-! ## In turn -/

/-- Two calls return the same object if and only if their numbers leave the same remainder. -/
def InTurn (n : Nat) (given : List MemPtr) : Prop :=
  ∀ i < given.length, ∀ j < given.length, given[i]? = given[j]? ↔ i % n = j % n

/-- A pool of different stacks gives them out in turn. -/
theorem inTurn_of_nodup (sound : pool.Sound) (nodup : pool.stackArray.Nodup) (run : Run Step pool given pool') :
    InTurn pool.stackCount given := by
  have below : ∀ i, (pool.allocIdx + i) % pool.stackCount < pool.stackArray.length := fun i => by
    rw [sound.sized]
    exact Nat.mod_lt _ (Nat.zero_lt_of_lt sound.inside)
  intro i lt j lt'
  rw [sound.returned run i lt, sound.returned run j lt']
  constructor
  · intro same
    exact Nat.ModEq.add_left_cancel' pool.allocIdx ((List.getElem?_inj (below i) nodup).mp same)
  · intro same
    rw [Nat.ModEq.add_left pool.allocIdx same]

/-- A pool as constructed gives out one stack only. -/
theorem returned_construct (pos : 0 < n) (run : Run Step (construct n size bytes mems).1 given pool') :
    ∀ i < given.length, given[i]? = some mems.length := by
  intro i lt
  rw [(sound_construct pos).returned run i lt]
  exact List.getElem?_replicate_of_lt (Nat.mod_lt _ pos)

/-- The calls on a new pool of a size, which can all be made, return its stacks in turn. -/
def HandsOutInTurn (n size : Nat) (bytes : Nat → UInt8) (mems : List FiberMem) (k : Nat) : Prop :=
  ∃ given pool', Run Step (construct n size bytes mems).1 given pool' ∧ given.length = k ∧ InTurn n given

/-- A new pool gives out its stacks in turn if and only if it has one only, or no two calls are made. -/
theorem handsOutInTurn_iff (pos : 0 < n) : HandsOutInTurn n size bytes mems k ↔ n = 1 ∨ k ≤ 1 := by
  constructor
  · rintro ⟨given, pool', run, rfl, inTurn⟩
    by_contra neither
    obtain ⟨many, calls⟩ := not_or.mp neither
    have first : 0 < given.length := by omega
    have second : 1 < given.length := by omega
    have same : given[0]? = given[1]? := by
      rw [returned_construct pos run 0 first, returned_construct pos run 1 second]
    have remainders := (inTurn 0 first 1 second).mp same
    rw [Nat.zero_mod, Nat.mod_eq_of_lt (by omega : 1 < n)] at remainders
    cases remainders
  · intro either
    have sound : (construct n size bytes mems).1.Sound := sound_construct pos
    obtain ⟨given, pool', run, rfl⟩ := Sound.exists_run k sound
    refine ⟨given, pool', run, rfl, fun i lt j lt' => ?_⟩
    rw [returned_construct pos run i lt, returned_construct pos run j lt']
    refine iff_of_true rfl ?_
    rcases either with rfl | few
    · rw [Nat.mod_one, Nat.mod_one]
    · obtain rfl : i = j := by omega
      rfl

theorem handsOutInTurn_iff_one : HandsOutInTurn 1 16 (fun _ => 0) [] 5 :=
  (handsOutInTurn_iff Nat.one_pos).mpr (.inl rfl)

/-- Two fibers of a pool of two stacks are on the same one. -/
theorem not_handsOutInTurn_two : ¬ HandsOutInTurn 2 16 (fun _ => 0) [] 2 := by
  rintro ⟨given, pool', run, length, inTurn⟩
  have same : given[0]? = given[1]? := by
    rw [returned_construct Nat.two_pos run 0 (by omega), returned_construct Nat.two_pos run 1 (by omega)]
  have remainders := (inTurn 0 (by omega) 1 (by omega)).mp same
  cases remainders

end FiberSharedStackPool

end Sylar
