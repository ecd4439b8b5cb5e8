import Mathlib

/-!
# Trees of files

A tree says what is at each place. A place is the list of the names on the way from the root, the last one first, so
that the directory of a place is its tail. A path is followed from a place step by step; every step begins in a
directory (`passable`), and the place it leads to, `target`, does not depend on the tree.

A directory is made at the end of a path that can be followed and leads to nothing yet (`makeDirectory_of_free`), and
nowhere else (`makeDirectory_eq_none`). What is there already stays (`passable_mono`). A file is created in the same
places (`createFile_of_free`).
-/

namespace Sylar.Lib

inductive FileKind where
  | directory
  | file
  deriving DecidableEq, Repr

/-- What is at each place. The root is a directory, and so is whatever has something in it. -/
structure FileTree (N : Type*) where
  entry : List N → Option FileKind
  root : entry [] = some .directory
  within : ∀ name place, (entry (name :: place)).isSome = true → entry place = some .directory

/-- One component of a path: `.`, `..` or a name. -/
inductive PathStep (N : Type*) where
  | stay
  | up
  | down (name : N)
  deriving DecidableEq, Repr

variable {N : Type*}

namespace PathStep

/-- Above the root is the root. -/
def go (place : List N) : PathStep N → List N
  | stay => place
  | up => place.tail
  | down name => name :: place

end PathStep

/-- Where a path leads. -/
def target (place : List N) (path : List (PathStep N)) : List N := path.foldl PathStep.go place

theorem target_append (place : List N) (p q : List (PathStep N)) :
    target place (p ++ q) = target (target place p) q :=
  List.foldl_append

namespace FileTree

variable {t t' : FileTree N} {place : List N} {p q path : List (PathStep N)} {s : PathStep N} {name : N}

/-- Every step of a path begins in a directory. -/
def passable (t : FileTree N) : List N → List (PathStep N) → Bool
  | _, [] => true
  | place, s :: path => t.entry place == some .directory && t.passable (s.go place) path

/-- Something is at the end of a path. -/
def has (t : FileTree N) (place : List N) (path : List (PathStep N)) : Bool :=
  t.passable place path && (t.entry (target place path)).isSome

/-- A directory is at the end of a path. -/
def HasDirectory (t : FileTree N) (place : List N) (path : List (PathStep N)) : Prop :=
  t.passable place path = true ∧ t.entry (target place path) = some .directory

/-! ## Following a path -/

theorem passable_append (p : List (PathStep N)) : ∀ {place : List N},
    t.passable place (p ++ q) = (t.passable place p && t.passable (target place p) q) := by
  induction p with
  | nil => exact rfl
  | cons s p ih =>
    intro place
    rw [List.cons_append, passable, passable, ih, Bool.and_assoc]
    rfl

theorem passable_singleton : t.passable place [s] = true ↔ t.entry place = some .directory := by
  rw [passable, passable, Bool.and_true, beq_iff_eq]

/-- From a directory one step can be made. -/
theorem passable_short (dir : t.entry place = some .directory) (short : path.length ≤ 1) :
    t.passable place path = true := by
  match path, short with
  | [], _ => rfl
  | [s], _ => exact passable_singleton.mpr dir

/-- A path that goes on behind a directory. -/
theorem HasDirectory.passable_append (dir : t.HasDirectory place p) (short : q.length ≤ 1) :
    t.passable place (p ++ q) = true := by
  rw [FileTree.passable_append, dir.1, passable_short dir.2 short]
  rfl

/-- The front of a path that leads to a directory does so too. -/
theorem HasDirectory.front (dir : t.HasDirectory place (p ++ q)) : t.HasDirectory place p := by
  obtain ⟨passes, ends⟩ := dir
  rw [FileTree.passable_append, Bool.and_eq_true] at passes
  refine ⟨passes.1, ?_⟩
  cases q with
  | nil =>
    rw [List.append_nil] at ends
    exact ends
  | cons s q =>
    obtain ⟨-, behind⟩ := passes
    rw [passable, Bool.and_eq_true, beq_iff_eq] at behind
    exact behind.1

/-- Behind a place that is no directory no path goes on. -/
theorem not_passable_append (notDirectory : t.entry (target place p) ≠ some .directory) (some : q ≠ []) :
    t.passable place (p ++ q) = false := by
  obtain ⟨s, q, rfl⟩ := List.exists_cons_of_ne_nil some
  rw [passable_append, passable, beq_false_of_ne notDirectory, Bool.false_and, Bool.and_false]

/-- A tree in which every directory of another is one. -/
theorem passable_mono (kept : ∀ place, t.entry place = some .directory → t'.entry place = some .directory)
    (path : List (PathStep N)) : ∀ {place : List N}, t.passable place path = true → t'.passable place path = true := by
  induction path with
  | nil => exact fun _ => rfl
  | cons s path ih =>
    intro place passes
    rw [passable, Bool.and_eq_true, beq_iff_eq] at passes ⊢
    exact ⟨kept place passes.1, ih passes.2⟩

theorem HasDirectory.mono (kept : ∀ place, t.entry place = some .directory → t'.entry place = some .directory)
    (dir : t.HasDirectory place path) : t'.HasDirectory place path :=
  ⟨passable_mono kept path dir.1, kept _ dir.2⟩

/-- A step from a directory that does not go down leads to a directory. -/
theorem exists_down (dir : t.entry place = some .directory) (free : t.entry (s.go place) = none) :
    ∃ name, s = .down name := by
  cases s with
  | stay =>
    rw [PathStep.go, dir] at free
    cases free
  | up =>
    cases place with
    | nil =>
      rw [PathStep.go, List.tail_nil, t.root] at free
      cases free
    | cons name place =>
      rw [PathStep.go, List.tail_cons, t.within name place (by rw [dir]; rfl)] at free
      cases free
  | down name => exact ⟨name, rfl⟩

/-- Names lead down. -/
theorem target_down (names : List N) : ∀ place : List N, target place (names.map .down) = names.reverse ++ place := by
  induction names with
  | nil => exact fun _ => rfl
  | cons name names ih =>
    intro place
    change target (name :: place) (names.map .down) = _
    rw [ih, List.reverse_cons, List.append_assoc]
    rfl

/-- Whatever is below a place is found by its names. -/
theorem passable_down (names : List N) (there : (t.entry (target place (names.map .down))).isSome = true) :
    t.passable place (names.map .down) = true := by
  induction names using List.reverseRecOn with
  | nil => rfl
  | append_singleton names name ih =>
    rw [List.map_append, target_append] at there
    have dir := t.within name _ there
    rw [List.map_append, passable_append, ih (by rw [dir]; rfl), Bool.true_and, List.map_singleton]
    exact passable_singleton.mpr dir

/-! ## Making directories -/

variable [DecidableEq N]

/-- A new directory in a directory. -/
def addDirectory (t : FileTree N) (name : N) (place : List N) : Option (FileTree N) :=
  if free : t.entry place = some .directory ∧ t.entry (name :: place) = none then
    some {
      entry := Function.update t.entry (name :: place) (some .directory)
      root := by
        rw [Function.update_of_ne (List.cons_ne_nil name place).symm]
        exact t.root
      within := by
        intro name' place' found
        by_cases new : name' :: place' = name :: place
        · obtain ⟨-, rfl⟩ := List.cons.inj new
          rw [Function.update_of_ne (List.cons_ne_self name place').symm]
          exact free.1
        · rw [Function.update_of_ne new] at found
          by_cases above : place' = name :: place
          · rw [above, Function.update_self]
          · rw [Function.update_of_ne above]
            exact t.within name' place' found }
  else none

/-- A new directory at the end of a path. -/
def makeDirectory (t : FileTree N) (place : List N) (path : List (PathStep N)) : Option (FileTree N) :=
  match path.getLast? with
  | some (.down name) => if t.passable place path then t.addDirectory name (target place path.dropLast) else none
  | _ => none

theorem entry_addDirectory (made : t.addDirectory name place = some t') :
    (t.entry place = some .directory ∧ t.entry (name :: place) = none) ∧
      t'.entry = Function.update t.entry (name :: place) (some .directory) := by
  unfold addDirectory at made
  split at made
  · rename_i free
    obtain rfl := Option.some.inj made
    exact ⟨free, rfl⟩
  · cases made

theorem makeDirectory_snoc (name : N) : t.makeDirectory place (p ++ [.down name]) =
    if t.passable place (p ++ [.down name]) then t.addDirectory name (target place p) else none := by
  rw [makeDirectory, List.getLast?_concat]
  dsimp only
  rw [List.dropLast_concat]

/-- What is made is at the end of the path, where nothing was. -/
theorem makeDirectory_spec (made : t.makeDirectory place path = some t') :
    (t.passable place path = true ∧ t.entry (target place path) = none) ∧
      t'.entry = Function.update t.entry (target place path) (some .directory) := by
  rcases List.eq_nil_or_concat path with rfl | ⟨p, s, rfl⟩
  · cases made
  · rw [List.concat_eq_append] at made ⊢
    cases s with
    | stay =>
      rw [makeDirectory, List.getLast?_concat] at made
      cases made
    | up =>
      rw [makeDirectory, List.getLast?_concat] at made
      cases made
    | down name =>
      rw [makeDirectory_snoc] at made
      split at made
      · rename_i passes
        obtain ⟨⟨-, free⟩, entry⟩ := entry_addDirectory made
        rw [target_append]
        exact ⟨⟨passes, free⟩, entry⟩
      · cases made

/-- Where something is already nothing is made. -/
theorem makeDirectory_eq_none (taken : t.passable place path = false ∨ (t.entry (target place path)).isSome = true) :
    t.makeDirectory place path = none := by
  refine Option.eq_none_iff_forall_ne_some.mpr fun t' made => ?_
  obtain ⟨⟨passes, free⟩, -⟩ := makeDirectory_spec made
  rcases taken with blocked | here
  · rw [passes] at blocked
    cases blocked
  · rw [free] at here
    cases here

/-- At the free end of a path that can be followed a directory is made. -/
theorem makeDirectory_of_free (dir : t.entry place = some .directory) (passes : t.passable place path = true)
    (free : t.entry (target place path) = none) : ∃ t', t.makeDirectory place path = some t' := by
  rcases List.eq_nil_or_concat path with rfl | ⟨p, s, rfl⟩
  · rw [target, List.foldl_nil, dir] at free
    cases free
  · rw [List.concat_eq_append] at passes free ⊢
    have last := passes
    rw [passable_append, Bool.and_eq_true, passable_singleton] at last
    rw [target_append] at free
    obtain ⟨name, rfl⟩ := exists_down last.2 free
    rw [makeDirectory_snoc, if_pos passes, addDirectory, dif_pos ⟨last.2, free⟩]
    exact ⟨_, rfl⟩

/-! ## Making files -/

/-- A new file in a directory. -/
def addFile (t : FileTree N) (name : N) (place : List N) : Option (FileTree N) :=
  if free : t.entry place = some .directory ∧ t.entry (name :: place) = none then
    some {
      entry := Function.update t.entry (name :: place) (some .file)
      root := by
        rw [Function.update_of_ne (List.cons_ne_nil name place).symm]
        exact t.root
      within := by
        intro name' place' found
        by_cases new : name' :: place' = name :: place
        · obtain ⟨-, rfl⟩ := List.cons.inj new
          rw [Function.update_of_ne (List.cons_ne_self name place').symm]
          exact free.1
        · rw [Function.update_of_ne new] at found
          have dir := t.within name' place' found
          -- Nothing is below the new file, since nothing was there.
          rw [Function.update_of_ne fun above => by rw [above, free.2] at dir; cases dir]
          exact dir }
  else none

/-- A new file at the end of a path. -/
def createFile (t : FileTree N) (place : List N) (path : List (PathStep N)) : Option (FileTree N) :=
  match path.getLast? with
  | some (.down name) => if t.passable place path then t.addFile name (target place path.dropLast) else none
  | _ => none

theorem createFile_snoc (name : N) : t.createFile place (p ++ [.down name]) =
    if t.passable place (p ++ [.down name]) then t.addFile name (target place p) else none := by
  rw [createFile, List.getLast?_concat]
  dsimp only
  rw [List.dropLast_concat]

theorem entry_addFile (made : t.addFile name place = some t') :
    t.entry (name :: place) = none ∧ t'.entry = Function.update t.entry (name :: place) (some .file) := by
  unfold addFile at made
  split at made
  · rename_i free
    obtain rfl := Option.some.inj made
    exact ⟨free.2, rfl⟩
  · cases made

/-- A file is created at the end of a path that can be followed, where nothing was. -/
theorem createFile_spec (made : t.createFile place path = some t') :
    (t.passable place path = true ∧ t.entry (target place path) = none) ∧
      t'.entry = Function.update t.entry (target place path) (some .file) := by
  rw [createFile] at made
  split at made
  · rename_i name last
    obtain ⟨p, rfl⟩ := List.getLast?_eq_some_iff.mp last
    split at made
    · rename_i passes
      rw [List.dropLast_concat] at made
      rw [target_append]
      exact ⟨⟨passes, (entry_addFile made).1⟩, (entry_addFile made).2⟩
    · cases made
  · cases made

/-- At the free end of a path that can be followed a file is created. -/
theorem createFile_of_free (dir : t.entry place = some .directory) (passes : t.passable place path = true)
    (free : t.entry (target place path) = none) : ∃ t', t.createFile place path = some t' := by
  rcases List.eq_nil_or_concat path with rfl | ⟨p, s, rfl⟩
  · rw [target, List.foldl_nil, dir] at free
    cases free
  · rw [List.concat_eq_append] at passes free ⊢
    have last := passes
    rw [passable_append, Bool.and_eq_true, passable_singleton] at last
    rw [target_append] at free
    obtain ⟨name, rfl⟩ := exists_down last.2 free
    rw [createFile_snoc, if_pos passes, addFile, dif_pos ⟨last.2, free⟩]
    exact ⟨_, rfl⟩

/-- The directories stay. -/
theorem createFile_kept (made : t.createFile place path = some t') {place' : List N}
    (dir : t.entry place' = some .directory) : t'.entry place' = some .directory := by
  obtain ⟨⟨-, free⟩, entry⟩ := createFile_spec made
  rw [entry, Function.update_of_ne fun here => by rw [here, free] at dir; cases dir]
  exact dir

/-! ## What grows -/

/-- Every place is as it was, or is a new directory at one of some places. -/
def Grown (t t' : FileTree N) (places : List N → Prop) : Prop :=
  ∀ place, t'.entry place = t.entry place ∨
    t.entry place = none ∧ t'.entry place = some .directory ∧ places place

namespace Grown

variable {places places' : List N → Prop}

omit [DecidableEq N] in
theorem refl (t : FileTree N) (places : List N → Prop) : Grown t t places := fun _ => .inl rfl

omit [DecidableEq N] in
theorem mono (grown : Grown t t' places) (more : ∀ place, places place → places' place) : Grown t t' places' :=
  fun place => (grown place).imp_right fun ⟨free, made, among⟩ => ⟨free, made, more place among⟩

omit [DecidableEq N] in
/-- A directory stays one. -/
theorem kept (grown : Grown t t' places) (dir : t.entry place = some .directory) :
    t'.entry place = some .directory := by
  rcases grown place with same | ⟨-, made, -⟩
  · rw [same]
    exact dir
  · exact made

omit [DecidableEq N] in
/-- A file was there before, and what was there before is still there. -/
theorem file_iff (grown : Grown t t' places) : t'.entry place = some .file ↔ t.entry place = some .file := by
  rcases grown place with same | ⟨free, made, -⟩
  · rw [same]
  · rw [free, made]
    exact iff_of_false (fun eq => by cases eq) fun eq => by cases eq

theorem makeDirectory {t₀ : FileTree N} (grown : Grown t₀ t places) (made : t.makeDirectory place path = some t')
    (among : places (target place path)) : Grown t₀ t' places := by
  obtain ⟨⟨-, free⟩, entry⟩ := makeDirectory_spec made
  intro place'
  rw [entry]
  by_cases here : place' = target place path
  · subst here
    rw [Function.update_self]
    rcases grown (target place path) with same | ⟨-, there, -⟩
    · exact .inr ⟨by rw [← same, free], rfl, among⟩
    · rw [free] at there
      cases there
  · rw [Function.update_of_ne here]
    exact grown place'

end Grown

end FileTree

end Sylar.Lib
