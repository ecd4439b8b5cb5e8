import Sylar.Fiber.Switch

/-!
# What a switch does to shared stacks

A fiber that is switched out leaves its frames in its stack. Another fiber that takes the stack over
first has them saved, and when the fiber regains control they are copied back. So the frames of a
switched-out fiber are in place and it is the occupier, or they are in its save buffer and another
fiber is (`SafeOn`). `swap_fiber` is followed in three steps: the fiber that leaves records its frames,
the new one takes the stack over, and its frames come back (`swapFiber_stacks`).
-/

namespace Sylar

/-- What is written to the end of a list is what stands there. -/
theorem Lib.drop_splice {α : Type} {l data : List α} {pos : Nat} (fits : pos + data.length = l.length) :
    (splice l pos data).drop pos = data := by
  have front : (l.take pos).length = pos := by
    rw [List.length_take]
    omega
  rw [splice, fits, List.drop_length, List.append_nil, List.drop_append_of_le_length (Nat.le_of_eq front.symm),
    List.drop_of_length_le (Nat.le_of_eq front), List.nil_append]

namespace FiberEnvironment

open Lib

variable {env env' : FiberEnvironment} {layout : Layout} {f g : FiberPtr} {mem : MemPtr}

/-! ## Where frames are -/

/-- The occupier of a stack. -/
def occupier (env : FiberEnvironment) (mem : MemPtr) : Option FiberPtr :=
  (env.mems mem).occupier

theorem frames_shared (shared : layout.stack f = .shared mem) :
    env.frames layout f = (env.mems mem).stackBuffer.drop (env.fibers f).stackBufferTop := by
  simp [frames, region, shared, FiberStack.mem]

/-- The frames of a switched-out fiber of the stack `mem` are there and it is the occupier, or they
are in its save buffer and another fiber is; either way they fill the stack up to its bottom. -/
structure SafeOn (env : FiberEnvironment) (mem : MemPtr) (f : FiberPtr) : Prop where
  kept : (env.occupier mem = some f ∧
      (env.mems mem).stackBuffer.drop (env.fibers f).stackBufferTop = (env.fibers f).held) ∨
    ((∃ g, g ≠ f ∧ env.occupier mem = some g) ∧ (env.fibers f).saveBuffer = some (env.fibers f).held)
  size : (env.fibers f).held.length = (env.mems mem).stackBuffer.length - (env.fibers f).stackBufferTop

/-- The frames of a fiber are safe if it is on a shared stack. -/
def Safe (layout : Layout) (env : FiberEnvironment) (f : FiberPtr) : Prop :=
  ∀ mem, layout.stack f = .shared mem → env.SafeOn mem f

/-- What a fiber's frames depend on: its own stack data, and its stack. -/
theorem SafeOn.congr (h : env.SafeOn mem f) (mems : env'.mems mem = env.mems mem)
    (top : (env'.fibers f).stackBufferTop = (env.fibers f).stackBufferTop)
    (save : (env'.fibers f).saveBuffer = (env.fibers f).saveBuffer)
    (held : (env'.fibers f).held = (env.fibers f).held) : env'.SafeOn mem f := by
  have occupier : env'.occupier mem = env.occupier mem := congrArg FiberMem.occupier mems
  refine ⟨?_, ?_⟩
  · rw [occupier, mems, top, save, held]
    exact h.kept
  · rw [mems, top, held]
    exact h.size

/-- The stacks and the stack data of every fiber. -/
structure SameStacks (env env' : FiberEnvironment) : Prop where
  mems : env'.mems = env.mems
  top : ∀ f, (env'.fibers f).stackBufferTop = (env.fibers f).stackBufferTop
  save : ∀ f, (env'.fibers f).saveBuffer = (env.fibers f).saveBuffer
  held : ∀ f, (env'.fibers f).held = (env.fibers f).held

theorem Safe.congr (h : Safe layout env f) (same : SameStacks env env') : Safe layout env' f :=
  fun mem shared => (h mem shared).congr (congrFun same.mems mem) (same.top f) (same.save f) (same.held f)

theorem sameStacks_modify {change : Fiber → Fiber} (top : ∀ x, (change x).stackBufferTop = x.stackBufferTop)
    (save : ∀ x, (change x).saveBuffer = x.saveBuffer) (held : ∀ x, (change x).held = x.held) :
    SameStacks env (env.modify f change) := by
  refine ⟨rfl, fun g => ?_, fun g => ?_, fun g => ?_⟩
  · rw [modify_fibers]
    split
    · exact top _
    · rfl
  · rw [modify_fibers]
    split
    · exact save _
    · rfl
  · rw [modify_fibers]
    split
    · exact held _
    · rfl

/-! ## Leaving a stack -/

/-- The thread once `swap_fiber` has noted where the stack of the old fiber ends. -/
def noteTop (layout : Layout) (env : FiberEnvironment) (old : FiberPtr) (rsp : Nat) : FiberEnvironment :=
  env.modify old fun fiber => { fiber with stackBufferTop := rsp, held := env.region layout old rsp }

/-- The frames of the fiber that leaves are in place. -/
theorem noteTop_safe_self (layout : Layout) {old : FiberPtr} (rsp : Nat)
    (occupies : ∀ mem, layout.stack old = .shared mem → env.occupier mem = some old) :
    Safe layout (env.noteTop layout old rsp) old := by
  intro mem shared
  refine ⟨.inl ⟨occupies mem shared, ?_⟩, ?_⟩
  · simp [noteTop, region, shared, FiberStack.mem]
  · simp [noteTop, region, shared, FiberStack.mem]

theorem noteTop_safe_ne {old : FiberPtr} (rsp : Nat) (ne : f ≠ old) (h : Safe layout env f) :
    Safe layout (env.noteTop layout old rsp) f := by
  have same : (env.noteTop layout old rsp).fibers f = env.fibers f := by simp [noteTop, ne]
  exact fun mem shared => (h mem shared).congr rfl (by rw [same]) (by rw [same]) (by rw [same])

/-! ## Taking a stack over -/

/-- What the new fiber finds in the environment when it goes on: its frames are in place, or its save
buffer has them and the switch has noted two fibers. -/
structure Returning (env : FiberEnvironment) (mem : MemPtr) (new : FiberPtr) : Prop where
  swapIn : env.swapInFiber = some new
  kept : (env.swapOutFiber = some new ∧
      (env.mems mem).stackBuffer.drop (env.fibers new).stackBufferTop = (env.fibers new).held) ∨
    ((∃ g, g ≠ new ∧ env.swapOutFiber = some g) ∧
      (env.fibers new).saveBuffer = some (env.fibers new).held)
  size : (env.fibers new).held.length =
    (env.mems mem).stackBuffer.length - (env.fibers new).stackBufferTop

/-- The thread after the new fiber has taken its stack: the frames of the others are safe, the stack
is the new fiber's, and it will find its own frames. -/
structure Taken (layout : Layout) (old : FiberEnvironment) (new : FiberPtr) (env : FiberEnvironment) :
    Prop where
  others : ∀ f, f ≠ new → Safe layout old f → Safe layout env f
  occupies : ∀ mem, layout.stack new = .shared mem → env.occupier mem = some new
  occupiers : ∀ mem g, env.occupier mem = some g → g = new ∧ layout.stack new = .shared mem ∨
    old.occupier mem = some g
  returns : ∀ mem, layout.stack new = .shared mem → Safe layout old new → env.Returning mem new
  unnoted : (∀ mem, layout.stack new ≠ .shared mem) → env.swapInFiber = none
  data : ∀ f, (env.fibers f).held = (old.fibers f).held ∧
    (env.fibers f).stackBufferTop = (old.fibers f).stackBufferTop

theorem Taken.congr {noted : FiberEnvironment} {new : FiberPtr} (h : Taken layout noted new env)
    (same : SameStacks env env') (swapIn : env'.swapInFiber = env.swapInFiber)
    (swapOut : env'.swapOutFiber = env.swapOutFiber) : Taken layout noted new env' := by
  have occupier : ∀ mem, env'.occupier mem = env.occupier mem := fun mem => by
    unfold FiberEnvironment.occupier
    rw [same.mems]
  constructor
  case others => exact fun f ne safe => (h.others f ne safe).congr same
  case occupies => exact fun mem shared => (occupier mem).trans (h.occupies mem shared)
  case occupiers => exact fun mem g here => h.occupiers mem g ((occupier mem).symm.trans here)
  case returns =>
    intro mem shared safe
    obtain ⟨swap, kept, size⟩ := h.returns mem shared safe
    refine ⟨swapIn.trans swap, ?_, ?_⟩
    · rw [swapOut, same.mems, same.top, same.save, same.held]
      exact kept
    · rw [same.mems, same.top, same.held]
      exact size
  case unnoted => exact fun notShared => swapIn.trans (h.unnoted notShared)
  case data => exact fun f => ⟨(same.held f).trans (h.data f).1, (same.top f).trans (h.data f).2⟩

section SetOccupier

variable {mem' : MemPtr}

theorem setOccupier_mems_ne (ne : mem' ≠ mem) : (env.setOccupier mem f).mems mem' = env.mems mem' := by
  simp [setOccupier, modifyMem, ne]

theorem setOccupier_occupier : (env.setOccupier mem f).occupier mem = some f := by
  simp [setOccupier, modifyMem, occupier]

theorem setOccupier_stackBuffer :
    ((env.setOccupier mem f).mems mem').stackBuffer = (env.mems mem').stackBuffer := by
  by_cases same : mem' = mem
  · rw [same]
    simp [setOccupier, modifyMem]
  · rw [setOccupier_mems_ne same]

/-- The occupiers afterwards are the new one and the others' old ones. -/
theorem setOccupier_occupiers {new : FiberPtr} (here : (env.setOccupier mem new).occupier mem' = some g) :
    (g = new ∧ mem' = mem) ∨ env.occupier mem' = some g := by
  by_cases same : mem' = mem
  · rw [same, setOccupier_occupier] at here
    exact .inl ⟨(Option.some.inj here).symm, same⟩
  · unfold occupier at here
    rw [setOccupier_mems_ne same] at here
    exact .inr here

/-- A fiber whose frames are saved is safe whoever has its stack next, as long as it is another one. -/
theorem safeOn_setOccupier {new : FiberPtr} (ne : f ≠ new)
    (saved : (env.fibers f).saveBuffer = some (env.fibers f).held)
    (size : (env.fibers f).held.length =
      (env.mems mem).stackBuffer.length - (env.fibers f).stackBufferTop) :
    (env.setOccupier mem new).SafeOn mem f := by
  refine ⟨.inr ⟨⟨new, ne.symm, setOccupier_occupier⟩, saved⟩, ?_⟩
  rw [setOccupier_stackBuffer]
  exact size

end SetOccupier

/-- Noting the fibers of a switch. -/
def noteSwap (env : FiberEnvironment) (swapIn swapOut : Option FiberPtr) : FiberEnvironment :=
  { env with swapInFiber := swapIn, swapOutFiber := swapOut }

theorem taken_first {new : FiberPtr} (shared : layout.stack new = .shared mem)
    (none : env.occupier mem = Option.none) :
    Taken layout env new ((env.noteSwap (some new) (env.occupier mem)).setOccupier mem new) where
  others f ne safe mem' sharedF := by
    by_cases same : mem' = mem
    · -- nobody has frames on a stack that has had no occupier
      have kept := (safe mem' sharedF).kept
      rw [same, none] at kept
      rcases kept with ⟨occupies, -⟩ | ⟨⟨g, -, occupies⟩, -⟩
      · cases occupies
      · cases occupies
    · exact (safe mem' sharedF).congr (setOccupier_mems_ne same) rfl rfl rfl
  occupies mem' sharedN := by
    obtain rfl : mem = mem' := FiberStack.shared.inj (shared.symm.trans sharedN)
    exact setOccupier_occupier
  occupiers mem' g here := by
    rcases setOccupier_occupiers here with ⟨isNew, same⟩ | before
    · exact .inl ⟨isNew, same ▸ shared⟩
    · exact .inr before
  returns mem' sharedN safe := by
    obtain rfl : mem = mem' := FiberStack.shared.inj (shared.symm.trans sharedN)
    have kept := (safe mem shared).kept
    rw [none] at kept
    rcases kept with ⟨occupies, -⟩ | ⟨⟨g, -, occupies⟩, -⟩
    · cases occupies
    · cases occupies
  unnoted notShared := absurd shared (notShared mem)
  data _ := ⟨rfl, rfl⟩

theorem taken_again {new : FiberPtr} (shared : layout.stack new = .shared mem)
    (occupies : env.occupier mem = some new) :
    Taken layout env new ((env.noteSwap (some new) (env.occupier mem)).setOccupier mem new) := by
  have mems : ∀ mem', ((env.noteSwap (some new) (env.occupier mem)).setOccupier mem new).mems mem' =
      env.mems mem' := by
    intro mem'
    by_cases same : mem' = mem
    · subst same
      have here : (env.mems mem').occupier = some new := occupies
      simp only [setOccupier, modifyMem, noteSwap, Function.update_self]
      rw [← here]
    · exact setOccupier_mems_ne same
  constructor
  case others => exact fun f _ safe mem' sharedF => (safe mem' sharedF).congr (mems mem') rfl rfl rfl
  case occupies =>
    intro mem' sharedN
    obtain rfl : mem = mem' := FiberStack.shared.inj (shared.symm.trans sharedN)
    exact setOccupier_occupier
  case occupiers =>
    intro mem' g here
    exact .inr ((congrArg FiberMem.occupier (mems mem')).symm.trans here)
  case returns =>
    intro mem' sharedN safe
    obtain rfl : mem = mem' := FiberStack.shared.inj (shared.symm.trans sharedN)
    obtain ⟨kept, size⟩ := safe mem shared
    refine ⟨rfl, .inl ⟨occupies, ?_⟩, ?_⟩
    · rw [setOccupier_stackBuffer]
      rcases kept with ⟨-, inPlace⟩ | ⟨⟨g, other, there⟩, -⟩
      · exact inPlace
      · exact absurd (Option.some.inj (there.symm.trans occupies)) other
    · rw [setOccupier_stackBuffer]
      exact size
  case unnoted => exact fun notShared => absurd shared (notShared mem)
  case data => exact fun _ => ⟨rfl, rfl⟩

theorem taken_over {new : FiberPtr} (shared : layout.stack new = .shared mem)
    (sharedG : layout.stack g = .shared mem) (occupies : env.occupier mem = some g) (ne : g ≠ new) :
    Taken layout env new (((env.noteSwap (some new) (env.occupier mem)).saveFiberStack layout g).setOccupier
      mem new) := by
  have others : ∀ f, f ≠ g → (((env.noteSwap (some new) (env.occupier mem)).saveFiberStack layout
      g).setOccupier mem new).fibers f = env.fibers f := by
    intro f other
    show ((env.noteSwap (some new) (env.occupier mem)).saveFiberStack layout g).fibers f = env.fibers f
    simp [saveFiberStack, other, noteSwap]
  constructor
  case others =>
    intro f notNew safe mem' sharedF
    obtain ⟨kept, size⟩ := safe mem' sharedF
    by_cases isG : f = g
    · subst isG
      obtain rfl : mem = mem' := FiberStack.shared.inj (sharedG.symm.trans sharedF)
      -- the occupier's frames are in place, and saved now
      have inPlace : env.frames layout f = (env.fibers f).held := by
        rw [frames_shared sharedF]
        rcases kept with ⟨-, inPlace⟩ | ⟨⟨g', other, there⟩, -⟩
        · exact inPlace
        · exact absurd (Option.some.inj (there.symm.trans occupies)) other
      refine safeOn_setOccupier notNew ?_ ?_
      · simp only [saveFiberStack, modify_fibers, if_true, Option.some.injEq]
        exact inPlace
      · simp only [saveFiberStack, modify_fibers, if_true]
        exact size
    · by_cases same : mem' = mem
      · subst same
        have saved : (env.fibers f).saveBuffer = some (env.fibers f).held := by
          rcases kept with ⟨there, -⟩ | ⟨-, saved⟩
          · exact absurd (Option.some.inj (there.symm.trans occupies)) isG
          · exact saved
        refine safeOn_setOccupier notNew ?_ ?_
        · simpa [saveFiberStack, isG, noteSwap] using saved
        · simpa [saveFiberStack, isG, noteSwap] using size
      · refine (safe mem' sharedF).congr (setOccupier_mems_ne same) ?_ ?_ ?_
        · rw [others f isG]
        · rw [others f isG]
        · rw [others f isG]
  case occupies =>
    intro mem' sharedN
    obtain rfl : mem = mem' := FiberStack.shared.inj (shared.symm.trans sharedN)
    exact setOccupier_occupier
  case occupiers =>
    intro mem' g' here
    rcases setOccupier_occupiers here with ⟨isNew, same⟩ | before
    · exact .inl ⟨isNew, same ▸ shared⟩
    · exact .inr before
  case returns =>
    intro mem' sharedN safe
    obtain rfl : mem = mem' := FiberStack.shared.inj (shared.symm.trans sharedN)
    obtain ⟨kept, size⟩ := safe mem shared
    refine ⟨rfl, .inr ⟨⟨g, ne, occupies⟩, ?_⟩, ?_⟩
    · rw [others new ne.symm]
      rcases kept with ⟨there, -⟩ | ⟨-, saved⟩
      · exact absurd (Option.some.inj (occupies.symm.trans there)) ne
      · exact saved
    · rw [others new ne.symm, setOccupier_stackBuffer]
      exact size
  case unnoted => exact fun notShared => absurd shared (notShared mem)
  case data =>
    intro f
    by_cases isG : f = g
    · subst isG
      simp [saveFiberStack, setOccupier, modifyMem, noteSwap]
    · rw [others f isG]
      exact ⟨rfl, rfl⟩

theorem taken_notShared {new : FiberPtr} (notShared : ∀ mem, layout.stack new ≠ .shared mem) :
    Taken layout env new (env.noteSwap none none) where
  others _ _ safe mem' sharedF := (safe mem' sharedF).congr rfl rfl rfl rfl
  occupies mem' shared := absurd shared (notShared mem')
  occupiers _ _ here := .inr here
  returns mem' shared := absurd shared (notShared mem')
  unnoted _ := rfl
  data _ := ⟨rfl, rfl⟩

/-- `swap_fiber` takes the stack of the new fiber over, given that the occupier is one that
`change_occupier` accepts. -/
theorem takeStack_taken (env : FiberEnvironment) (new : FiberPtr)
    (known : ∀ mem g, env.occupier mem = some g → layout.stack g = .shared mem)
    (settled : ∀ mem g, env.occupier mem = some g →
      g = new ∨ env.state g = .suspended ∨ env.state g = .terminated) :
    ∃ env', env.takeStack layout new = .ok env' ∧ Taken layout env new env' := by
  unfold takeStack
  cases stack : layout.stack new with
  | thread => exact ⟨_, rfl, taken_notShared fun mem shared => nomatch stack.symm.trans shared⟩
  | own mem' => exact ⟨_, rfl, taken_notShared fun mem shared => nomatch stack.symm.trans shared⟩
  | shared mem =>
    dsimp only
    unfold changeOccupier
    cases here : env.occupier mem with
    | none =>
      rw [show (env.mems mem).occupier = none from here]
      have taken := taken_first stack here
      rw [here] at taken
      exact ⟨_, rfl, taken⟩
    | some g =>
      rw [show (env.mems mem).occupier = some g from here]
      dsimp only
      by_cases isNew : g = new
      · rw [if_pos isNew]
        rw [isNew] at here
        have taken := taken_again stack here
        rw [here] at taken
        rw [isNew]
        exact ⟨_, rfl, taken⟩
      · rw [if_neg isNew, if_pos (by exact (settled mem g here).resolve_left isNew)]
        have taken := taken_over stack (known mem g here) here isNew
        rw [here] at taken
        exact ⟨_, rfl, taken⟩

/-! ## Coming back to a stack -/

/-- At most the bytes of one stack have changed. -/
structure Rewritten (env : FiberEnvironment) (mem : MemPtr) (env' : FiberEnvironment) : Prop where
  fibers : env'.fibers = env.fibers
  others : ∀ mem', mem' ≠ mem → env'.mems mem' = env.mems mem'
  occupier : env'.occupier mem = env.occupier mem
  size : (env'.mems mem).stackBuffer.length = (env.mems mem).stackBuffer.length

/-- The bytes of a stack are no fiber's but the occupier's. -/
theorem Rewritten.safe (h : Rewritten env mem env') (occupies : env.occupier mem = some g) (ne : f ≠ g)
    (safe : Safe layout env f) : Safe layout env' f := by
  intro mem' shared
  have here := safe mem' shared
  by_cases same : mem' = mem
  · subst same
    refine ⟨.inr ⟨⟨g, ne.symm, h.occupier.trans occupies⟩, ?_⟩, ?_⟩
    · rw [h.fibers]
      rcases here.kept with ⟨there, -⟩ | ⟨-, saved⟩
      · exact absurd (Option.some.inj (there.symm.trans occupies)) ne
      · exact saved
    · rw [h.fibers, h.size]
      exact here.size
  · exact here.congr (h.others mem' same) (by rw [h.fibers]) (by rw [h.fibers]) (by rw [h.fibers])

/-- The fiber that goes on in `swap_fiber` has its frames in place afterwards. -/
theorem resumeStack_returns {new : FiberPtr} (shared : layout.stack new = .shared mem)
    (h : env.Returning mem new) :
    Rewritten env mem (env.resumeStack layout) ∧
      ((env.resumeStack layout).mems mem).stackBuffer.drop (env.fibers new).stackBufferTop =
        (env.fibers new).held := by
  rcases h.kept with ⟨swapOut, inPlace⟩ | ⟨⟨g, ne, swapOut⟩, saved⟩
  · have same : env.resumeStack layout = env.noteSwap none none := by
      simp [resumeStack, h.swapIn, swapOut, noteSwap]
    rw [same]
    exact ⟨⟨rfl, fun _ _ => rfl, rfl, rfl⟩, inPlace⟩
  · by_cases none : (env.fibers new).held = []
    · have same : env.resumeStack layout = env.noteSwap Option.none Option.none := by
        simp [resumeStack, h.swapIn, swapOut, ne.symm, copyBack, saved, none, shared, FiberStack.mem, noteSwap]
      have beyond : (env.mems mem).stackBuffer.length ≤ (env.fibers new).stackBufferTop := by
        have size := h.size
        rw [none, List.length_nil] at size
        omega
      rw [same, none]
      exact ⟨⟨rfl, fun _ _ => rfl, rfl, rfl⟩, List.drop_of_length_le beyond⟩
    · have some : 0 < (env.fibers new).held.length := List.length_pos_iff.mpr none
      have fits : (env.fibers new).stackBufferTop + (env.fibers new).held.length =
          (env.mems mem).stackBuffer.length := by
        have size := h.size
        omega
      have copied : env.resumeStack layout = (env.modifyMem mem fun m =>
          { m with
            stackBuffer := splice m.stackBuffer (env.fibers new).stackBufferTop (env.fibers new).held
          }).noteSwap Option.none Option.none := by
        simp [resumeStack, h.swapIn, swapOut, ne.symm, copyBack, saved, shared, FiberStack.mem, some, noteSwap]
      rw [copied]
      refine ⟨⟨rfl, fun mem' other => ?_, ?_, ?_⟩, ?_⟩
      · simp [noteSwap, modifyMem, other]
      · simp [noteSwap, modifyMem, occupier]
      · simp [noteSwap, modifyMem, length_splice (Nat.le_of_eq fits)]
      · simp [noteSwap, modifyMem, drop_splice fits]

/-! ## A whole switch -/

/-- What a switch from `old` to `new` does for the stacks: the frames of the others, and of `old`, are
safe; a shared stack of `new` is its own; and a fiber that goes on in `swap_fiber` has its frames where
and as it left them. -/
structure SwitchedStacks (layout : Layout) (env : FiberEnvironment) (old new : FiberPtr) (rsp : Nat)
    (env' : FiberEnvironment) : Prop where
  others : ∀ f, f ≠ new → f ≠ old → Safe layout env f → Safe layout env' f
  left : Safe layout env' old
  occupies : ∀ mem, layout.stack new = .shared mem → env'.occupier mem = some new
  occupiers : ∀ mem g, env'.occupier mem = some g → g = new ∧ layout.stack new = .shared mem ∨
    env.occupier mem = some g
  returned : env.context new ≠ .wrapper → ∀ mem, layout.stack new = .shared mem →
    env'.frames layout new = (env.fibers new).held
  recorded : (env'.fibers old).held = env.region layout old rsp ∧ (env'.fibers old).stackBufferTop = rsp
  remembered : ∀ f, f ≠ old → (env'.fibers f).held = (env.fibers f).held ∧
    (env'.fibers f).stackBufferTop = (env.fibers f).stackBufferTop

/-- The rest of `swap_fiber`, in the fiber that has been switched to. -/
theorem Taken.resumeStack {noted : FiberEnvironment} {new : FiberPtr} (h : Taken layout noted new env)
    (safe : Safe layout noted new) :
    (∀ f, f ≠ new → Safe layout noted f → Safe layout (env.resumeStack layout) f) ∧
      (∀ mem, (env.resumeStack layout).occupier mem = env.occupier mem) ∧
      (env.resumeStack layout).fibers = env.fibers ∧
      ∀ mem, layout.stack new = .shared mem →
        (env.resumeStack layout).frames layout new = (env.fibers new).held := by
  by_cases isShared : ∃ mem, layout.stack new = .shared mem
  · obtain ⟨mem, shared⟩ := isShared
    obtain ⟨rewritten, frames⟩ := resumeStack_returns shared (h.returns mem shared safe)
    refine ⟨fun f ne safeF => rewritten.safe (h.occupies mem shared) ne (h.others f ne safeF),
      fun mem' => ?_, rewritten.fibers, fun mem' shared' => ?_⟩
    · by_cases same : mem' = mem
      · rw [same]
        exact rewritten.occupier
      · exact congrArg FiberMem.occupier (rewritten.others mem' same)
    · obtain rfl : mem = mem' := FiberStack.shared.inj (shared.symm.trans shared')
      rw [frames_shared shared, rewritten.fibers]
      exact frames
  · have notShared : ∀ mem, layout.stack new ≠ .shared mem := fun mem shared => isShared ⟨mem, shared⟩
    have same : env.resumeStack layout = env.noteSwap none none := by
      simp [FiberEnvironment.resumeStack, h.unnoted notShared, noteSwap]
    rw [same]
    exact ⟨fun f ne safeF mem shared => (h.others f ne safeF mem shared).congr rfl rfl rfl rfl,
      fun _ => rfl, rfl, fun mem shared => absurd shared (notShared mem)⟩

/-- The last part of a switch: the new fiber goes on where its context says. A fiber that starts has no
frames yet. -/
theorem Taken.land {noted : FiberEnvironment} {new : FiberPtr} (h : Taken layout noted new env)
    (lands : Lands (env.context new)) (safe : env.context new ≠ .wrapper → Safe layout noted new) :
    ∃ env', env.land layout new = .ok env' ∧ (∀ f, f ≠ new → Safe layout noted f → Safe layout env' f) ∧
      (∀ mem, env'.occupier mem = env.occupier mem) ∧
      (∀ f, (env'.fibers f).held = (env.fibers f).held ∧
        (env'.fibers f).stackBufferTop = (env.fibers f).stackBufferTop) ∧
      (env.context new ≠ .wrapper → ∀ mem, layout.stack new = .shared mem →
        env'.frames layout new = (env.fibers new).held) := by
  have comesBack : env.context new ≠ .wrapper → (∀ f, f ≠ new → Safe layout noted f →
      Safe layout (env.resumeStack layout) f) ∧
      (∀ mem, (env.resumeStack layout).occupier mem = env.occupier mem) ∧
      (∀ f, ((env.resumeStack layout).fibers f).held = (env.fibers f).held ∧
        ((env.resumeStack layout).fibers f).stackBufferTop = (env.fibers f).stackBufferTop) ∧
      (env.context new ≠ .wrapper → ∀ mem, layout.stack new = .shared mem →
        (env.resumeStack layout).frames layout new = (env.fibers new).held) := by
    intro started
    obtain ⟨others, occupiers, fibers, frames⟩ := h.resumeStack (safe started)
    exact ⟨others, occupiers, fun f => by rw [fibers]; exact ⟨rfl, rfl⟩, fun _ => frames⟩
  unfold FiberEnvironment.land
  cases context : env.context new with
  | wrapper =>
    have same : SameStacks env (env.setState new .running) :=
      sameStacks_modify (fun _ => rfl) (fun _ => rfl) fun _ => rfl
    exact ⟨_, rfl, fun f ne safeF => (h.others f ne safeF).congr same, fun _ => rfl,
      fun f => ⟨same.held f, same.top f⟩, fun started => absurd rfl started⟩
  | resuming f =>
    rw [context] at comesBack
    exact ⟨_, rfl, comesBack (by simp)⟩
  | yielding =>
    rw [context] at comesBack
    exact ⟨_, rfl, comesBack (by simp)⟩
  | sleeping =>
    rw [context] at comesBack
    exact ⟨_, rfl, comesBack (by simp)⟩
  | unset => exact absurd context lands.1
  | exiting => exact absurd context lands.2

theorem swapFiber_stacks {old new : FiberPtr} (ne : new ≠ old) (lands : Lands (env.context new))
    (safe : env.context new ≠ .wrapper → Safe layout env new)
    (known : ∀ mem g, env.occupier mem = some g → layout.stack g = .shared mem)
    (settled : ∀ mem g, env.occupier mem = some g →
      g = new ∨ env.state g = .suspended ∨ env.state g = .terminated)
    (occupies : ∀ mem, layout.stack old = .shared mem → env.occupier mem = some old) (rsp : Nat)
    (site : FiberContext) :
    ∃ env', env.swapFiber layout old new rsp site = .ok env' ∧
      SwitchedStacks layout env old new rsp env' := by
  have noted : SameControl env (env.noteTop layout old rsp) :=
    sameControl_modify (fun _ => rfl) (fun _ => rfl) fun _ => rfl
  obtain ⟨taken, took, h⟩ := takeStack_taken (env.noteTop layout old rsp) new known
    (fun mem g here => by rw [noted.state]; exact settled mem g here)
  have control : SameControl env taken := by
    rcases sameControl_takeStack (env.noteTop layout old rsp) layout new with failed | ⟨taken', took', same⟩
    · cases took.symm.trans failed
    · obtain rfl := Except.ok.inj (took.symm.trans took')
      exact noted.trans same
  -- storing the context of the old fiber is no matter of stacks
  have stored : SameStacks taken (taken.modify old fun fiber => { fiber with context := site }) :=
    sameStacks_modify (fun _ => rfl) (fun _ => rfl) fun _ => rfl
  have taken' : Taken layout (env.noteTop layout old rsp) new
      (taken.modify old fun fiber => { fiber with context := site }) := h.congr stored rfl rfl
  have context : (taken.modify old fun fiber => { fiber with context := site }).context new =
      env.context new := by
    rw [← control.context]
    simp [FiberEnvironment.context, ne]
  obtain ⟨env', landed, others, occupiers, data, returned⟩ := taken'.land (by rw [context]; exact lands)
    (by rw [context]; exact fun started => noteTop_safe_ne rsp ne (safe started))
  have newNoted : (env.noteTop layout old rsp).fibers new = env.fibers new := by simp [noteTop, ne]
  refine ⟨env', ?_, ?_⟩
  · unfold swapFiber
    dsimp only
    rw [show (env.modify old fun fiber => { fiber with
      stackBufferTop := rsp, held := env.region layout old rsp }).takeStack layout new = .ok taken from took]
    exact landed
  · constructor
    case others => exact fun f isNew isOld safe => others f isNew (noteTop_safe_ne rsp isOld safe)
    case left => exact others old ne.symm (noteTop_safe_self layout rsp occupies)
    case occupies => exact fun mem shared => (occupiers mem).trans (taken'.occupies mem shared)
    case occupiers => exact fun mem g here => taken'.occupiers mem g ((occupiers mem).symm.trans here)
    case returned =>
      intro started mem shared
      have frames := returned (by rw [context]; exact started) mem shared
      have held := (taken'.data new).1
      rw [newNoted] at held
      exact frames.trans held
    case recorded =>
      obtain ⟨held, top⟩ := data old
      obtain ⟨held', top'⟩ := taken'.data old
      refine ⟨(held.trans held').trans ?_, (top.trans top').trans ?_⟩
      · simp [noteTop]
      · simp [noteTop]
    case remembered =>
      intro f isOld
      obtain ⟨held, top⟩ := data f
      obtain ⟨held', top'⟩ := taken'.data f
      refine ⟨(held.trans held').trans ?_, (top.trans top').trans ?_⟩
      · simp [noteTop, isOld]
      · simp [noteTop, isOld]

end FiberEnvironment

end Sylar
