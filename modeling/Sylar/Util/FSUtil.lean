import Sylar.Lib.FileTree

/-!
# Making directories

`FSUtil::make_dir` on a tree of files. The loop puts a zero in the place of each slash of the path but the first
byte, makes the directory in front of it if nothing is there, and puts the slash back. What is behind the last slash is
made by a `mkdir` of its own, without a look at whether it is there. So a path with a slash at its end is made by the
loop, and the last `mkdir` finds it.
-/

namespace Sylar.FSUtil

open Lib

abbrev Str := List UInt8

/-- `/` and `.`. -/
def slash : UInt8 := 47
def dot : UInt8 := 46

/-! ## File systems -/

/-- What a system call sees of a string. -/
def cStr (s : Str) : Str := s.takeWhile (· ≠ 0)

/-- The names between the slashes of a path. -/
def components (s : Str) : List Str := (s.splitOn slash).filter (· ≠ [])

def pathStep (name : Str) : PathStep Str :=
  if name = [dot] then .stay else if name = [dot, dot] then .up else .down name

def steps (s : Str) : List (PathStep Str) := (components s).map pathStep

/-- A tree of files, and the directory that relative paths begin in. -/
structure FileSystem where
  tree : FileTree Str
  cwd : List Str
  inCwd : tree.entry cwd = some .directory

namespace FileSystem

def base (fs : FileSystem) (s : Str) : List Str := if s.head? = some slash then [] else fs.cwd

/-- `access(path, F_OK) == 0`. With a slash at its end a path is one of a directory. -/
def access (fs : FileSystem) (path : Str) : Bool :=
  let name := cStr path
  !name.isEmpty && fs.tree.has (fs.base name) (steps name ++ if name.getLast? = some slash then [.stay] else [])

/-- A new directory under a name that the system sees. -/
def mkdirName (fs : FileSystem) (name : Str) : Option FileSystem :=
  match made : fs.tree.makeDirectory (fs.base name) (steps name) with
  | none => none
  | some tree => some ⟨tree, fs.cwd, ((FileTree.Grown.refl fs.tree fun _ => True).makeDirectory made trivial).kept fs.inCwd⟩

/-- `mkdir(path, mode)`; `none` where it fails: the name is taken, or there is no directory for it. -/
def mkdir (fs : FileSystem) (path : Str) : Option FileSystem := fs.mkdirName (cStr path)

end FileSystem

/-! ## `make_dir` -/

/-- `s.find('/', start)`. -/
def find (s : Str) (start : Nat) : Option Nat := ((s.drop start).findIdx? (· == slash)).map (· + start)

/-- The loop over the slashes and the `mkdir` behind it; `none` where it has no fuel left. -/
def makeDirLoop : Nat → FileSystem → Str → Option Nat → Option (Bool × FileSystem)
  | _, fs, tmp, none =>
    match fs.mkdir tmp with
    | some fs => some (true, fs)
    | none => some (false, fs)
  | 0, _, _, some _ => none
  | fuel + 1, fs, tmp, some pos =>
    let cut := tmp.set pos 0
    let tmp := cut.set pos slash
    if fs.access cut then makeDirLoop fuel fs tmp (find tmp (pos + 1))
    else
      match fs.mkdir cut with
      | some fs => makeDirLoop fuel fs tmp (find tmp (pos + 1))
      | none => some (false, fs)

/-- `make_dir(path)`, with the file system it leaves. -/
def makeDir (fs : FileSystem) (path : Str) : Option (Bool × FileSystem) :=
  if fs.access path then some (true, fs) else makeDirLoop path.length fs path (find path 1)

/-! ## Strings -/

section Strings

variable {s u v path : Str} {p q k : Nat}

theorem cStr_append_of_mem (ends : 0 ∈ u) : cStr (u ++ v) = cStr u := by
  have not : (u.takeWhile (· ≠ 0)).length ≠ u.length := by
    intro same
    have all := (List.takeWhile_prefix (l := u) (· ≠ 0)).eq_of_length same
    have nonzero := List.takeWhile_eq_self_iff.mp all 0 ends
    simp at nonzero
  rw [cStr, List.takeWhile_append, if_neg not, cStr]

theorem cStr_append_of_not_mem (goesOn : 0 ∉ u) : cStr (u ++ v) = u ++ cStr v := by
  have all : ∀ c ∈ u, decide (c ≠ 0) = true := fun c mem => decide_eq_true fun zero => goesOn (zero ▸ mem)
  rw [cStr, List.takeWhile_append, List.takeWhile_eq_self_iff.mpr all, if_pos rfl, cStr]

theorem cStr_of_not_mem (goesOn : 0 ∉ u) : cStr u = u := by
  have whole := cStr_append_of_not_mem (v := []) goesOn
  rw [List.append_nil] at whole
  rw [whole, cStr, List.takeWhile_nil, List.append_nil]

theorem cStr_ne_nil : cStr s ≠ [] ↔ ∃ c z, s = c :: z ∧ c ≠ 0 := by
  cases s with
  | nil => simp [cStr]
  | cons c z =>
    by_cases zero : c = 0
    · simp [cStr, zero]
    · simp [cStr, zero]

/-- The system sees the string up to the zero that was put in. -/
theorem cStr_set (lt : p < path.length) : cStr (path.set p 0) = cStr (path.take p) := by
  rw [List.set_eq_take_append_cons_drop, if_pos lt]
  by_cases ends : 0 ∈ path.take p
  · exact cStr_append_of_mem ends
  · rw [cStr_append_of_not_mem ends, cStr_of_not_mem ends, cStr, List.takeWhile_cons_of_neg (by simp), List.append_nil]

theorem components_append : components (u ++ slash :: v) = components u ++ components v := by
  rw [components, List.splitOn_append_cons_self, List.filter_append]
  rfl

theorem steps_append : steps (u ++ slash :: v) = steps u ++ steps v := by
  rw [steps, components_append, List.map_append]
  rfl

/-- Without a slash there is one name at most. -/
theorem length_steps (none : slash ∉ s) : (steps s).length ≤ 1 := by
  rw [steps, List.length_map, components, List.splitOn_eq_singleton none]
  exact List.length_filter_le ..

theorem slash_not_mem_cStr (none : slash ∉ s) : slash ∉ cStr s :=
  fun mem => none ((List.takeWhile_sublist _).subset mem)

/-- The last slash of a string. -/
theorem last_slash (s : Str) : slash ∉ s ∨ ∃ u v, s = u ++ slash :: v ∧ slash ∉ v := by
  by_cases mem : slash ∈ s
  · obtain ⟨v, u, eq, first⟩ := List.eq_append_cons_of_mem (List.mem_reverse.mpr mem)
    refine .inr ⟨u.reverse, v.reverse, ?_, fun mem => first (List.mem_reverse.mp mem)⟩
    rw [← List.reverse_reverse s, eq]
    simp
  · exact .inl mem

end Strings

/-! ## Names in front of slashes -/

/-- The slash that the loop finds at a position. -/
def IsCut (path : Str) (p : Nat) : Prop := 1 ≤ p ∧ path[p]? = some slash

/-- A path, or what is in front of one of its slashes. -/
def IsFront (path name : Str) : Prop := name = path ∨ ∃ p, IsCut path p ∧ name = path.take p

namespace FileSystem

/-- The place that a path names. -/
def place (fs : FileSystem) (path : Str) : List Str := target (fs.base (cStr path)) (steps (cStr path))

/-- The path names a directory, which is there. -/
def HasDirectory (fs : FileSystem) (path : Str) : Prop :=
  cStr path ≠ [] ∧ fs.tree.HasDirectory (fs.base (cStr path)) (steps (cStr path))

variable {fs fs' : FileSystem} {path name u v : Str} {p q : Nat}

theorem entry_base (fs : FileSystem) (s : Str) : fs.tree.entry (fs.base s) = some .directory := by
  rw [base]
  split
  · exact fs.tree.root
  · exact fs.inCwd

theorem access_congr (same : cStr name = cStr path) : fs.access name = fs.access path := by
  rw [access, access, same]

theorem mkdir_congr (same : cStr name = cStr path) : fs.mkdir name = fs.mkdir path := by
  rw [mkdir, mkdir, same]

theorem mkdir_none (taken : fs.tree.makeDirectory (fs.base (cStr path)) (steps (cStr path)) = none) :
    fs.mkdir path = none := by
  unfold mkdir mkdirName
  split
  · rfl
  · rename_i made
    rw [made] at taken
    cases taken

/-- A new directory at the place of a path. -/
structure Made (fs fs' : FileSystem) (path : Str) : Prop where
  tree : fs.tree.makeDirectory (fs.base (cStr path)) (steps (cStr path)) = some fs'.tree
  cwd : fs'.cwd = fs.cwd

/-- At the free end of a path that can be followed the directory is made. -/
theorem mkdir_of_free (passes : fs.tree.passable (fs.base (cStr path)) (steps (cStr path)) = true)
    (free : fs.tree.entry (fs.place path) = none) : ∃ fs', fs.mkdir path = some fs' ∧ Made fs fs' path := by
  obtain ⟨tree, made⟩ := FileTree.makeDirectory_of_free (fs.entry_base _) passes free
  unfold mkdir mkdirName
  split
  · rename_i none
    rw [none] at made
    cases made
  · rename_i tree' made'
    exact ⟨_, rfl, made', rfl⟩

namespace Made

theorem base (made : Made fs fs' path) (s : Str) : fs'.base s = fs.base s := by
  rw [FileSystem.base, FileSystem.base, made.cwd]

theorem grown {fs₀ : FileSystem} {places : List Str → Prop} (made : Made fs fs' path)
    (grown : fs₀.tree.Grown fs.tree places) (among : places (fs.place path)) : fs₀.tree.Grown fs'.tree places :=
  grown.makeDirectory made.tree among

/-- A directory stays one. -/
theorem entry (made : Made fs fs' path) (place : List Str) (dir : fs.tree.entry place = some .directory) :
    fs'.tree.entry place = some .directory :=
  (made.grown (.refl fs.tree fun _ => True) trivial).kept dir

theorem kept (made : Made fs fs' path) (dir : fs.HasDirectory name) : fs'.HasDirectory name := by
  rw [HasDirectory, made.base]
  exact ⟨dir.1, dir.2.mono made.entry⟩

theorem hasDirectory (made : Made fs fs' path) (named : cStr path ≠ []) : fs'.HasDirectory path := by
  obtain ⟨⟨passes, -⟩, entry⟩ := FileTree.makeDirectory_spec made.tree
  rw [HasDirectory, made.base]
  refine ⟨named, FileTree.passable_mono made.entry _ passes, ?_⟩
  rw [entry, Function.update_self]

end Made

/-- A directory is found, with a slash behind its name or without. -/
theorem HasDirectory.access (dir : fs.HasDirectory path) : fs.access path = true := by
  obtain ⟨named, passes, ends⟩ := dir
  have nonempty : (!(cStr path).isEmpty) = true := by
    rw [Bool.not_eq_true', List.isEmpty_eq_false_iff]
    exact named
  rw [FileSystem.access, nonempty, Bool.true_and, FileTree.has]
  split
  · rw [FileTree.HasDirectory.passable_append (q := [.stay]) ⟨passes, ends⟩ (Nat.le_refl 1), target_append]
    change (fs.tree.entry (fs.place path)).isSome = true
    rw [show fs.tree.entry (fs.place path) = _ from ends]
    rfl
  · rw [List.append_nil, passes, ends]
    rfl

theorem access_of_free (free : fs.tree.entry (fs.place path) = none) : fs.access path = false := by
  rw [access, FileTree.has]
  split
  · rw [target_append]
    change (_ && (_ && (fs.tree.entry (fs.place path)).isSome)) = false
    rw [free, Option.isSome_none, Bool.and_false, Bool.and_false]
  · rw [List.append_nil]
    change (_ && (_ && (fs.tree.entry (fs.place path)).isSome)) = false
    rw [free, Option.isSome_none, Bool.and_false, Bool.and_false]

/-- What is in front of a slash is a front of the steps. -/
theorem exists_steps (fs : FileSystem) (named : cStr u ≠ []) (v : Str) : ∃ l, (l = [] ∨ l = steps (cStr v)) ∧
    steps (cStr (u ++ slash :: v)) = steps (cStr u) ++ l ∧ fs.base (cStr (u ++ slash :: v)) = fs.base (cStr u) := by
  by_cases ends : 0 ∈ u
  · rw [cStr_append_of_mem ends]
    exact ⟨[], .inl rfl, (List.append_nil _).symm, rfl⟩
  · have whole := cStr_of_not_mem ends
    have behind : cStr (slash :: v) = slash :: cStr v := cStr_append_of_not_mem (u := [slash]) (by decide)
    rw [cStr_append_of_not_mem ends, behind, whole]
    rw [whole] at named
    refine ⟨steps (cStr v), .inr rfl, steps_append, ?_⟩
    obtain ⟨c, z, rfl⟩ := List.exists_cons_of_ne_nil named
    rfl

/-- A slash at the end changes nothing. -/
theorem place_slash (fs : FileSystem) (named : cStr u ≠ []) : fs.place (u ++ [slash]) = fs.place u := by
  obtain ⟨l, which, same, base⟩ := fs.exists_steps named []
  have none : l = [] := which.elim id id
  rw [place, same, base, none, List.append_nil]
  rfl

/-- The root. -/
theorem place_root (fs : FileSystem) : fs.place [slash] = [] := rfl

/-- A path can be followed if the fronts of it are directories. -/
theorem passable_of_fronts (fronts : ∀ p, IsCut name p → fs.HasDirectory (name.take p)) :
    fs.tree.passable (fs.base (cStr name)) (steps (cStr name)) = true := by
  rcases last_slash name with none | ⟨u, v, rfl, none⟩
  · exact FileTree.passable_short (fs.entry_base _) (length_steps (slash_not_mem_cStr none))
  · cases u with
    | nil =>
      have behind : cStr (slash :: v) = slash :: cStr v := cStr_append_of_not_mem (u := [slash]) (by decide)
      have short := length_steps (slash_not_mem_cStr none)
      rw [List.nil_append, behind]
      refine FileTree.passable_short (fs.entry_base _) ?_
      rw [← List.nil_append (slash :: cStr v), steps_append]
      exact short
    | cons c u =>
      have dir := fronts (c :: u).length
        ⟨Nat.succ_pos _, by rw [List.getElem?_append_right (Nat.le_refl _), Nat.sub_self]; rfl⟩
      rw [List.take_left] at dir
      obtain ⟨l, which, same, base⟩ := fs.exists_steps dir.1 v
      have short : l.length ≤ 1 := by
        rcases which with rfl | rfl
        · exact Nat.zero_le 1
        · exact length_steps (slash_not_mem_cStr none)
      rw [same, base]
      exact dir.2.passable_append short

/-- Behind a file, and where it is, nothing can be made. -/
theorem mkdir_behind_file (named : cStr u ≠ []) (isFile : fs.tree.entry (fs.place u) = some .file) (v : Str) :
    fs.mkdir u = none ∧ fs.mkdir (u ++ slash :: v) = none := by
  have there : (fs.tree.entry (fs.place u)).isSome = true := by
    rw [isFile]
    rfl
  refine ⟨mkdir_none (FileTree.makeDirectory_eq_none (.inr there)), mkdir_none (FileTree.makeDirectory_eq_none ?_)⟩
  obtain ⟨l, -, same, base⟩ := fs.exists_steps named v
  rw [same, base]
  by_cases more : l = []
  · rw [more, List.append_nil]
    exact .inr there
  · refine .inl (FileTree.not_passable_append (fun dir => ?_) more)
    rw [show fs.tree.entry (fs.place u) = _ from dir] at isFile
    cases isFile

end FileSystem

/-! ## The loop -/

section Find

variable {path : Str} {p k : Nat}

theorem find_some (found : find path k = some p) : (k ≤ p ∧ path[p]? = some slash) ∧ ∀ q, k ≤ q → q < p → path[q]? ≠ some slash := by
  obtain ⟨d, here, rfl⟩ := Option.map_eq_some_iff.mp found
  obtain ⟨lt, isSlash, first⟩ := List.findIdx?_eq_some_iff_getElem.mp here
  refine ⟨⟨Nat.le_add_left k d, ?_⟩, fun q le lt' same => ?_⟩
  · rw [Nat.add_comm, ← List.getElem?_drop, List.getElem?_eq_getElem lt, beq_iff_eq.mp isSlash]
  · have before : q - k < d := by omega
    have isSlash' : ((path.drop k)[q - k]?) = some slash := by
      rw [List.getElem?_drop, Nat.add_sub_cancel' le]
      exact same
    obtain ⟨lt'', eq⟩ := List.getElem?_eq_some_iff.mp isSlash'
    exact absurd (beq_iff_eq.mpr eq) (first (q - k) before)

theorem find_none (none : find path k = none) : ∀ q, k ≤ q → path[q]? ≠ some slash := by
  intro q le same
  have all := List.findIdx?_eq_none_iff.mp (Option.map_eq_none_iff.mp none)
  have inside : slash ∈ path.drop k := by
    refine List.mem_of_getElem? (i := q - k) ?_
    rw [List.getElem?_drop, Nat.add_sub_cancel' le]
    exact same
  have not := all slash inside
  rw [beq_self_eq_true] at not
  cases not

/-- The slash is put back. -/
theorem set_set (here : path[p]? = some slash) : (path.set p 0).set p slash = path := by
  obtain ⟨lt, eq⟩ := List.getElem?_eq_some_iff.mp here
  rw [List.set_set, ← eq, List.set_getElem_self]

end Find

/-- What the call does that the path asks for: every front of the path is a directory, and nothing else has
changed. -/
structure Makes (fs fs' : FileSystem) (path : Str) : Prop where
  made : ∀ name, IsFront path name → fs'.HasDirectory name
  grown : fs.tree.Grown fs'.tree fun place => ∃ name, IsFront path name ∧ fs.place name = place
  cwd : fs'.cwd = fs.cwd

/-- The place of the path is free, and its fronts name neither a file nor that place. -/
structure Free (fs : FileSystem) (path : Str) : Prop where
  named : cStr path ≠ []
  free : fs.tree.entry (fs.place path) = none
  fronts : ∀ p, IsCut path p → fs.tree.entry (fs.place (path.take p)) ≠ some .file ∧
    fs.place (path.take p) ≠ fs.place path

/-- What holds when the loop looks for the next slash from a position on. -/
structure Ready (fs₀ fs : FileSystem) (path : Str) (k : Nat) : Prop where
  made : ∀ p, IsCut path p → p < k → fs.HasDirectory (path.take p)
  grown : fs₀.tree.Grown fs.tree fun place => ∃ p, IsCut path p ∧ p < k ∧ fs₀.place (path.take p) = place
  cwd : fs.cwd = fs₀.cwd

section Loop

variable {fs₀ fs fs' : FileSystem} {path : Str} {p k : Nat}

theorem named_take (named : cStr path ≠ []) (pos : 1 ≤ p) : cStr (path.take p) ≠ [] := by
  obtain ⟨c, z, rfl, nonzero⟩ := cStr_ne_nil.mp named
  obtain ⟨p, rfl⟩ := Nat.exists_eq_add_of_le' pos
  exact cStr_ne_nil.mpr ⟨c, z.take p, rfl, nonzero⟩

/-- The cuts of what is in front of a slash are those before it. -/
theorem IsCut.of_take {q : Nat} (cut : IsCut (path.take p) q) : IsCut path q ∧ q < p ∧ (path.take p).take q = path.take q := by
  obtain ⟨pos, here⟩ := cut
  obtain ⟨lt, -⟩ := List.getElem?_eq_some_iff.mp here
  have lt' : q < p := by
    rw [List.length_take] at lt
    omega
  refine ⟨⟨pos, ?_⟩, lt', ?_⟩
  · rw [← here, List.getElem?_take_of_lt lt']
  · rw [List.take_take, Nat.min_eq_left (Nat.le_of_lt lt')]

theorem split_at (here : path[p]? = some slash) : path = path.take p ++ slash :: path.drop (p + 1) := by
  obtain ⟨lt, eq⟩ := List.getElem?_eq_some_iff.mp here
  rw [← eq, ← List.drop_eq_getElem_cons lt, List.take_append_drop]

theorem place_congr (cwd : fs.cwd = fs'.cwd) (name : Str) : fs.place name = fs'.place name := by
  rw [FileSystem.place, FileSystem.place, FileSystem.base, FileSystem.base, cwd]

namespace Ready

theorem start (fs : FileSystem) (path : Str) : Ready fs fs path 1 where
  made _ cut lt := absurd cut.1 (Nat.not_le.mpr lt)
  grown := .refl fs.tree _
  cwd := rfl

theorem passable (ready : Ready fs₀ fs path p) :
    fs.tree.passable (fs.base (cStr (path.take p))) (steps (cStr (path.take p))) = true := by
  refine FileSystem.passable_of_fronts fun q cut => ?_
  obtain ⟨cut', lt, same⟩ := cut.of_take
  rw [same]
  exact ready.made q cut' lt

/-- Before the next slash there is none. -/
theorem upTo (ready : Ready fs₀ fs path k) (le : k ≤ p) (first : ∀ q, k ≤ q → q < p → path[q]? ≠ some slash) :
    Ready fs₀ fs path p where
  made q cut lt := ready.made q cut (Nat.lt_of_not_le fun le' => first q le' lt cut.2)
  grown := ready.grown.mono fun _ ⟨q, cut, lt, same⟩ => ⟨q, cut, Nat.lt_of_lt_of_le lt le, same⟩
  cwd := ready.cwd

/-- The directory in front of a slash is there. -/
theorem next (ready : Ready fs₀ fs path p) (named : cStr path ≠ []) (cut : IsCut path p)
    (here : fs.tree.entry (fs.place (path.take p)) = some .directory) : Ready fs₀ fs path (p + 1) where
  made q cut' lt := by
    rcases Nat.lt_succ_iff_lt_or_eq.mp lt with lt | rfl
    · exact ready.made q cut' lt
    · exact ⟨named_take named cut.1, ready.passable, here⟩
  grown := ready.grown.mono fun _ ⟨q, cut', lt, same⟩ => ⟨q, cut', Nat.lt_succ_of_lt lt, same⟩
  cwd := ready.cwd

/-- The directory in front of a slash is made. -/
theorem mkdir (ready : Ready fs₀ fs path p) (named : cStr path ≠ []) (cut : IsCut path p)
    (free : fs.tree.entry (fs.place (path.take p)) = none) :
    ∃ fs', fs.mkdir (path.take p) = some fs' ∧ Ready fs₀ fs' path (p + 1) := by
  obtain ⟨fs', done, made⟩ := FileSystem.mkdir_of_free ready.passable free
  refine ⟨fs', done, fun q cut' lt => ?_, ?_, made.cwd.trans ready.cwd⟩
  · rcases Nat.lt_succ_iff_lt_or_eq.mp lt with lt | rfl
    · exact made.kept (ready.made q cut' lt)
    · exact made.hasDirectory (named_take named cut.1)
  · refine made.grown (ready.grown.mono fun _ ⟨q, cut', lt, same⟩ => ⟨q, cut', Nat.lt_succ_of_lt lt, same⟩) ?_
    exact ⟨p, cut, Nat.lt_succ_self p, (place_congr ready.cwd _).symm⟩

end Ready

/-- One turn of the loop. -/
theorem makeDirLoop_turn (fuel : Nat) (cut : IsCut path p) : makeDirLoop (fuel + 1) fs path (some p) =
    if fs.access (path.take p) then makeDirLoop fuel fs path (find path (p + 1))
    else
      match fs.mkdir (path.take p) with
      | some fs => makeDirLoop fuel fs path (find path (p + 1))
      | none => some (false, fs) := by
  obtain ⟨lt, -⟩ := List.getElem?_eq_some_iff.mp cut.2
  have same := cStr_set lt
  rw [makeDirLoop, set_set cut.2, FileSystem.access_congr same, FileSystem.mkdir_congr same]

/-- Where no directory can be made any more, the call fails. -/
theorem loop_blocked (fuel : Nat) : ∀ {k : Nat}, 1 ≤ k → path.length ≤ fuel + k →
    (∀ p, IsCut path p → k ≤ p → fs.mkdir (path.take p) = none) → fs.mkdir path = none →
    makeDirLoop fuel fs path (find path k) = some (false, fs) := by
  induction fuel with
  | zero =>
    intro k _ enough _ last
    cases found : find path k with
    | none => rw [makeDirLoop, last]
    | some p =>
      obtain ⟨⟨le, here⟩, -⟩ := find_some found
      obtain ⟨lt, -⟩ := List.getElem?_eq_some_iff.mp here
      omega
  | succ fuel ih =>
    intro k pos enough blocked last
    cases found : find path k with
    | none => rw [makeDirLoop, last]
    | some p =>
      obtain ⟨⟨le, here⟩, -⟩ := find_some found
      have cut : IsCut path p := ⟨pos.trans le, here⟩
      rw [makeDirLoop_turn fuel cut]
      split
      · exact ih (Nat.succ_pos p) (by omega) (fun q cut' le' => blocked q cut' (by omega)) last
      · rw [blocked p cut le]

/-- A file in front of a slash. -/
theorem loop_file (fuel : Nat) (enough : path.length ≤ fuel + k) (named : cStr path ≠ []) (cut : IsCut path p)
    (pos : 1 ≤ k) (first : ∀ q, k ≤ q → q < p → path[q]? ≠ some slash)
    (isFile : fs.tree.entry (fs.place (path.take p)) = some .file) :
    makeDirLoop fuel fs path (find path k) = some (false, fs) := by
  have behind := FileSystem.mkdir_behind_file (named_take named cut.1) isFile
  refine loop_blocked fuel pos enough (fun q cut' le => ?_) ?_
  · rcases Nat.lt_or_ge q p with lt | le'
    · exact absurd cut'.2 (first q le lt)
    · rcases Nat.eq_or_lt_of_le le' with rfl | lt
      · exact (behind []).1
      · have cut'' : (path.take q)[p]? = some slash := by
          rw [List.getElem?_take_of_lt lt]
          exact cut.2
        have split := split_at cut''
        rw [List.take_take, Nat.min_eq_left le'] at split
        rw [split]
        exact (behind _).2
  · have split := split_at cut.2
    rw [split]
    exact (behind _).2

/-- What the loop answers, and what it has done if the answer is `true`. -/
structure Answers (fs₀ : FileSystem) (path : Str) (answer : Option (Bool × FileSystem)) : Prop where
  free : ∀ fs', answer = some (true, fs') → Free fs₀ path ∧ Makes fs₀ fs' path
  taken : Free fs₀ path → ∃ fs', answer = some (true, fs')

theorem Answers.failed (taken : ¬ Free fs₀ path) (fs : FileSystem) : Answers fs₀ path (some (false, fs)) where
  free fs' eq := by cases eq
  taken free := absurd free taken

namespace Ready

/-- The last `mkdir`, behind the last slash. -/
theorem last (ready : Ready fs₀ fs path k) (named : cStr path ≠ []) (behind : ∀ q, k ≤ q → path[q]? ≠ some slash)
    (fuel : Nat) : Answers fs₀ path (makeDirLoop fuel fs path none) := by
  have all : ∀ p, IsCut path p → fs.HasDirectory (path.take p) := fun p cut =>
    ready.made p cut (Nat.lt_of_not_le fun le => behind p le cut.2)
  have passes := FileSystem.passable_of_fronts all
  have places : ∀ name, fs.place name = fs₀.place name := place_congr ready.cwd
  have turn : makeDirLoop fuel fs path none =
      match fs.mkdir path with
      | some fs => some (true, fs)
      | none => some (false, fs) := by
    cases fuel <;> rfl
  cases entry : fs.tree.entry (fs.place path) with
  | some kind =>
    have taken : (fs.tree.entry (fs.place path)).isSome = true := by
      rw [entry]
      rfl
    rw [turn, FileSystem.mkdir_none (FileTree.makeDirectory_eq_none (.inr taken))]
    refine .failed (fun free => ?_) fs
    rcases ready.grown (fs₀.place path) with same | ⟨-, -, p, cut, -, same⟩
    · rw [free.free, ← places, entry] at same
      cases same
    · exact (free.fronts p cut).2 same
  | none =>
    obtain ⟨fs', done, made⟩ := FileSystem.mkdir_of_free passes entry
    have isFree : Free fs₀ path := by
      refine ⟨named, ?_, fun p cut => ⟨fun isFile => ?_, fun same => ?_⟩⟩
      · rcases ready.grown (fs₀.place path) with same | ⟨free, -⟩
        · rw [← same, ← places, entry]
        · exact free
      · have dir := (all p cut).2.2
        change fs.tree.entry (fs.place (path.take p)) = _ at dir
        rw [places, (ready.grown.file_iff).mpr isFile] at dir
        cases dir
      · have dir := (all p cut).2.2
        change fs.tree.entry (fs.place (path.take p)) = _ at dir
        rw [places, same, ← places, entry] at dir
        cases dir
    have makes : Makes fs₀ fs' path := by
      refine ⟨fun name front => ?_, ?_, made.cwd.trans ready.cwd⟩
      · rcases front with rfl | ⟨p, cut, rfl⟩
        · exact made.hasDirectory named
        · exact made.kept (all p cut)
      · have grown : fs₀.tree.Grown fs.tree fun place => ∃ name, IsFront path name ∧ fs₀.place name = place :=
          ready.grown.mono fun _ ⟨p, cut, _, same⟩ => ⟨path.take p, .inr ⟨p, cut, rfl⟩, same⟩
        exact made.grown grown ⟨path, .inl rfl, (places path).symm⟩
    rw [turn, done]
    refine ⟨fun fs'' eq => ?_, fun _ => ⟨fs', rfl⟩⟩
    obtain ⟨-, rfl⟩ := Prod.mk.inj (Option.some.inj eq)
    exact ⟨isFree, makes⟩

/-- The loop, from a position up to which the directories are there. -/
theorem loop (fuel : Nat) : ∀ {fs : FileSystem} {k : Nat}, Ready fs₀ fs path k → cStr path ≠ [] → 1 ≤ k →
    path.length ≤ fuel + k → Answers fs₀ path (makeDirLoop fuel fs path (find path k)) := by
  induction fuel with
  | zero =>
    intro fs k ready named _ enough
    cases found : find path k with
    | none => exact ready.last named (find_none found) 0
    | some p =>
      obtain ⟨⟨le, here⟩, -⟩ := find_some found
      obtain ⟨lt, -⟩ := List.getElem?_eq_some_iff.mp here
      omega
  | succ fuel ih =>
    intro fs k ready named pos enough
    cases found : find path k with
    | none => exact ready.last named (find_none found) (fuel + 1)
    | some p =>
      obtain ⟨⟨le, here⟩, first⟩ := find_some found
      have cut : IsCut path p := ⟨pos.trans le, here⟩
      have ready' := ready.upTo le first
      have enough' : path.length ≤ fuel + (p + 1) := by omega
      cases entry : fs.tree.entry (fs.place (path.take p)) with
      | none =>
        obtain ⟨fs', done, next⟩ := ready'.mkdir named cut entry
        rw [makeDirLoop_turn fuel cut, FileSystem.access_of_free entry, if_neg Bool.false_ne_true, done]
        exact ih next named (Nat.succ_pos p) enough'
      | some kind =>
        cases kind with
        | directory =>
          have next := ready'.next named cut entry
          rw [makeDirLoop_turn fuel cut, (next.made p cut (Nat.lt_succ_self p)).access, if_pos rfl]
          exact ih next named (Nat.succ_pos p) enough'
        | file =>
          rw [← found, loop_file (fuel + 1) enough named cut pos first entry]
          refine .failed (fun free => (free.fronts p cut).1 ?_) fs
          rw [← ready.grown.file_iff, ← place_congr ready.cwd]
          exact entry

end Ready

end Loop

/-! ## The call -/

/-- A path that names nothing to the system. -/
theorem makeDir_unnamed {fs : FileSystem} {path : Str} (unnamed : cStr path = []) :
    makeDir fs path = some (false, fs) := by
  have noAccess : fs.access path = false := by
    rw [FileSystem.access, unnamed]
    rfl
  have noDirectory : ∀ name, cStr name = [] → fs.mkdir name = none := fun name same => by
    refine FileSystem.mkdir_none ?_
    rw [same]
    rfl
  rw [makeDir, noAccess, if_neg Bool.false_ne_true]
  refine loop_blocked path.length (Nat.le_refl 1) (Nat.le_succ _) (fun p cut _ => noDirectory _ ?_) (noDirectory path unnamed)
  by_contra named
  obtain ⟨c, z, eq, nonzero⟩ := cStr_ne_nil.mp named
  refine absurd unnamed (cStr_ne_nil.mpr ?_)
  refine ⟨c, z ++ path.drop p, ?_, nonzero⟩
  rw [← List.cons_append, ← eq, List.take_append_drop]

/-- The fronts of a directory are directories. -/
theorem FileSystem.HasDirectory.front {fs : FileSystem} {path name : Str} (dir : fs.HasDirectory path)
    (front : IsFront path name) : fs.HasDirectory name := by
  rcases front with rfl | ⟨p, cut, rfl⟩
  · exact dir
  · obtain ⟨named, dir⟩ := dir
    have named' := named_take named cut.1
    obtain ⟨l, -, same, base⟩ := fs.exists_steps named' (path.drop (p + 1))
    rw [← split_at cut.2] at same base
    rw [same, base] at dir
    exact ⟨named', FileTree.HasDirectory.front dir⟩

/-- The call returns `true`, and the whole path is there. -/
def MakesDir (fs : FileSystem) (path : Str) : Prop := ∃ fs', makeDir fs path = some (true, fs') ∧ Makes fs fs' path

/-- A path whose fronts are directories where they are there at all is made if and only if it is there already, or
its place is free and none of its fronts names a file or the same place. -/
theorem makesDir_iff {fs : FileSystem} {path : Str}
    (clear : ∀ name, IsFront path name → fs.access name = true → fs.HasDirectory name) :
    MakesDir fs path ↔ fs.access path = true ∨ Free fs path := by
  by_cases there : fs.access path = true
  · have dir := clear path (.inl rfl) there
    refine iff_of_true ⟨fs, ?_, fun name front => dir.front front, .refl fs.tree _, rfl⟩ (.inl there)
    rw [makeDir, if_pos there]
  · rw [or_iff_right there]
    by_cases named : cStr path = []
    · refine iff_of_false ?_ fun free => free.named named
      rintro ⟨fs', done, -⟩
      rw [makeDir_unnamed named] at done
      cases done
    · have answers := (Ready.start fs path).loop path.length named (Nat.le_refl 1) (Nat.le_succ _)
      have call : makeDir fs path = makeDirLoop path.length fs path (find path 1) := by
        rw [makeDir, if_neg there]
      rw [MakesDir, call]
      constructor
      · rintro ⟨fs', done, -⟩
        exact (answers.free fs' done).1
      · intro free
        obtain ⟨fs', done⟩ := answers.taken free
        exact ⟨fs', done, (answers.free fs' done).2⟩

/-! ## File systems with nothing in them -/

/-- A root directory and nothing else. -/
def bareTree : FileTree Str where
  entry place := if place = [] then some .directory else none
  root := rfl
  within name place found := by
    rw [if_neg (List.cons_ne_nil name place)] at found
    cases found

def bare : FileSystem := ⟨bareTree, [], rfl⟩

/-- Everything but the root is free. -/
theorem bare_entry {place : List Str} (below : place ≠ []) : bare.tree.entry place = none := if_neg below

/-- In `a/b` there is one slash. -/
theorem isCut_nested {p : Nat} (cut : IsCut [97, slash, 98] p) : p = 1 := by
  obtain ⟨pos, here⟩ := cut
  match p, pos, here with
  | 1, _, _ => rfl
  | 2, _, here => cases here

/-- Both directories of `a/b` are made. -/
theorem makesDir_iff_nested : MakesDir bare [97, slash, 98] := by
  have clear : ∀ name, IsFront [97, slash, 98] name → bare.access name = true → bare.HasDirectory name := by
    rintro name (rfl | ⟨p, cut, rfl⟩) there
    · cases there
    · rw [isCut_nested cut] at there
      cases there
  refine (makesDir_iff clear).mpr (.inr ⟨by decide, bare_entry (by decide), fun p cut => ?_⟩)
  rw [isCut_nested cut]
  exact ⟨by decide, by decide⟩

/-- The call makes `a` of `a/`, and then fails, though nothing of the path was there before. -/
theorem not_makesDir_slash : (∀ name, IsFront [97, slash] name → bare.access name = true → bare.HasDirectory name) ∧
    ¬ MakesDir bare [97, slash] ∧
    ∃ fs', makeDir bare [97, slash] = some (false, fs') ∧ fs'.HasDirectory [97, slash] := by
  refine ⟨?_, ?_, ?_⟩
  · rintro name (rfl | ⟨p, ⟨pos, here⟩, rfl⟩) there
    · cases there
    · match p, pos, here with
      | 1, _, _ => cases there
  · rintro ⟨fs', done, -⟩
    cases done
  · exact ⟨_, rfl, by decide, rfl, rfl⟩

/-! ## Plain paths -/

/-- A path of names only: no zero, no `.` and no `..`. -/
structure Plain (path : Str) : Prop where
  nonempty : path ≠ []
  nonzero : 0 ∉ path
  names : ∀ name ∈ components path, name ≠ [dot] ∧ name ≠ [dot, dot]

section Plain

variable {fs : FileSystem} {path u v : Str} {p : Nat}

/-- What is behind a slash, and does not end with one, has a name. -/
theorem components_ne_nil {c : UInt8} (last : u.getLast? = some c) (ends : c ≠ slash) : components u ≠ [] := by
  have single : ∀ {v : Str}, slash ∉ v → v ≠ [] → components v = [v] := by
    intro v none some
    rw [components, List.splitOn_eq_singleton none, List.filter_singleton, decide_eq_true some]
    rfl
  rcases last_slash u with none | ⟨w, v, rfl, none⟩
  · rw [single none fun empty => by rw [empty] at last; cases last]
    exact List.cons_ne_nil u []
  · cases v with
    | nil =>
      rw [List.getLast?_concat] at last
      exact absurd (Option.some.inj last).symm ends
    | cons d v =>
      rw [components_append, single none (List.cons_ne_nil d v)]
      exact List.append_ne_nil_of_right_ne_nil _ (List.cons_ne_nil _ [])

namespace Plain

theorem cStr (plain : Plain path) : cStr path = path := cStr_of_not_mem plain.nonzero

theorem named (plain : Plain path) : FSUtil.cStr path ≠ [] := by
  rw [plain.cStr]
  exact plain.nonempty

theorem steps (plain : Plain path) : steps path = (components path).map .down := by
  refine List.map_congr_left fun name mem => ?_
  obtain ⟨notDot, notDots⟩ := plain.names name mem
  rw [pathStep, if_neg notDot, if_neg notDots]

theorem take (plain : Plain path) (cut : IsCut path p) : Plain (path.take p) where
  nonempty empty := by
    have named := named_take plain.named cut.1
    rw [empty] at named
    exact named rfl
  nonzero mem := plain.nonzero (List.mem_of_mem_take mem)
  names name mem := by
    refine plain.names name ?_
    rw [split_at cut.2, components_append]
    exact List.mem_append_left _ mem

theorem place (plain : Plain path) : fs.place path = (components path).reverse ++ fs.base path := by
  rw [FileSystem.place, plain.cStr, plain.steps, FileTree.target_down]

/-- Without a slash at its end a path is found where its place is taken. -/
theorem access (plain : Plain path) (last : path.getLast? ≠ some slash) :
    fs.access path = (fs.tree.entry (fs.place path)).isSome := by
  have nonempty : (!path.isEmpty) = true := by
    rw [Bool.not_eq_true', List.isEmpty_eq_false_iff]
    exact plain.nonempty
  rw [FileSystem.access, FileSystem.place, plain.cStr, if_neg last, List.append_nil, nonempty, Bool.true_and,
    FileTree.has, plain.steps]
  cases there : (fs.tree.entry (target (fs.base path) ((components path).map .down))).isSome with
  | false => rw [Bool.and_false]
  | true => rw [FileTree.passable_down _ there, Bool.true_and]

/-- No front of the path names a file, if those that are there are directories. -/
theorem not_file (plain : Plain path)
    (clear : ∀ name, IsFront path name → fs.access name = true → fs.HasDirectory name) (p : Nat) :
    IsCut path p → fs.tree.entry (fs.place (path.take p)) ≠ some .file := by
  induction p with
  | zero => exact fun cut => absurd cut.1 (Nat.not_succ_le_zero 0)
  | succ p ih =>
    intro cut isFile
    obtain ⟨lt, -⟩ := List.getElem?_eq_some_iff.mp cut.2
    have here : path[p]? = some path[p] := List.getElem?_eq_getElem (Nat.lt_of_succ_lt lt)
    have front : path.take (p + 1) = path.take p ++ [path[p]] := List.take_succ_eq_append_getElem (Nat.lt_of_succ_lt lt)
    by_cases doubled : path[p] = slash
    · rw [front, doubled] at isFile
      cases p with
      | zero =>
        rw [List.take_zero, List.nil_append, FileSystem.place_root, fs.tree.root] at isFile
        cases isFile
      | succ p =>
        rw [doubled] at here
        rw [fs.place_slash (named_take plain.named (Nat.succ_pos p))] at isFile
        exact ih ⟨Nat.succ_pos p, here⟩ isFile
    · have last : (path.take (p + 1)).getLast? ≠ some slash := by
        rw [front, List.getLast?_concat]
        exact fun same => doubled (Option.some.inj same)
      have there : fs.access (path.take (p + 1)) = true := by
        rw [(plain.take cut).access last, isFile]
        rfl
      have dir := (clear _ (.inr ⟨p + 1, cut, rfl⟩) there).2.2
      change fs.tree.entry (fs.place (path.take (p + 1))) = _ at dir
      rw [isFile] at dir
      cases dir

/-- What is in front of a slash is above the path, unless the path ends with the slash. -/
theorem place_ne (plain : Plain path) (cut : IsCut path p) (last : path.getLast? ≠ some slash) :
    fs.place (path.take p) ≠ fs.place path := by
  have split := split_at cut.2
  have more : components (path.drop (p + 1)) ≠ [] := by
    cases behind : (path.drop (p + 1)).getLast? with
    | none =>
      rw [List.getLast?_eq_none_iff.mp behind] at split
      rw [split, List.getLast?_concat] at last
      exact absurd rfl last
    | some c =>
      refine components_ne_nil behind fun isSlash => last ?_
      rw [split, List.getLast?_append, List.getLast?_cons, behind, isSlash]
      rfl
  have base : fs.base (path.take p) = fs.base path := by
    obtain ⟨n, rfl⟩ := Nat.exists_eq_add_of_le' cut.1
    rw [FileSystem.base, FileSystem.base, List.head?_take, if_neg (Nat.succ_ne_zero n)]
  intro same
  rw [(plain.take cut).place, plain.place, base] at same
  have equal := List.append_cancel_right same
  have length := congrArg List.length (List.reverse_injective equal)
  rw [split, components_append, ← split, List.length_append] at length
  exact more (List.length_eq_zero_iff.mp (Nat.left_eq_add.mp length))

/-- The place of a plain path that is not there is free, and none of its fronts is in the way, if and only if it has no
slash at its end. -/
theorem free_iff (plain : Plain path)
    (clear : ∀ name, IsFront path name → fs.access name = true → fs.HasDirectory name)
    (noAccess : fs.access path = false) : Free fs path ↔ path.getLast? ≠ some slash := by
  constructor
  · intro free ends
    obtain ⟨u, rfl⟩ : ∃ u, path = u ++ [slash] := List.getLast?_eq_some_iff.mp ends
    cases u with
    | nil =>
      have taken := free.free
      rw [List.nil_append, FileSystem.place_root, fs.tree.root] at taken
      cases taken
    | cons c u =>
      have cut : IsCut (c :: u ++ [slash]) (c :: u).length :=
        ⟨Nat.succ_pos _, by rw [List.getElem?_append_right (Nat.le_refl _), Nat.sub_self]; rfl⟩
      have named := named_take plain.named cut.1
      refine (free.fronts _ cut).2 ?_
      rw [List.take_left] at named ⊢
      exact (fs.place_slash named).symm
  · intro last
    refine ⟨plain.named, ?_, fun p cut => ⟨plain.not_file clear p cut, plain.place_ne cut last⟩⟩
    rw [plain.access last, Option.isSome_eq_false_iff, Option.isNone_iff_eq_none] at noAccess
    exact noAccess

end Plain

end Plain

end Sylar.FSUtil
