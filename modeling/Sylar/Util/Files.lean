import Sylar.Util.FSUtil

/-!
# Opening files

`FSUtil::get_directory` and `FSUtil::open_for_write` on a file system whose files hold text. A file that cannot be opened
is opened again behind a `make_dir` of its directory, whose answer is not looked at. So it does no harm that `make_dir`
answers `false` for a directory whose name ends with a slash (`opensForWrite_iff`). As in `make_dir`, the system refuses
nothing but what the tree of files does not allow: there are rights and room for everything.
-/

namespace Sylar.FSUtil

open Lib

/-! ## Files with text in them -/

/-- The modes that the program opens files with: `out`, and `out | app`. -/
inductive OpenMode where
  | out
  | app
  deriving DecidableEq, Repr

/-- A file system, which file is at each place, and what is in each file, with a name or without. -/
structure Disk where
  fs : FileSystem
  file : List Str → Nat
  content : Nat → List Char
  fresh : Nat
  known : ∀ place, file place < fresh

/-- An open `std::ofstream`: its file, and where it writes next. -/
structure OfStream where
  file : Nat
  mode : OpenMode
  pos : Nat
  deriving DecidableEq, Repr

/-- What is in front of a position, with zeros where nothing is. -/
def before (text : List Char) (pos : Nat) : List Char := text.take pos ++ List.replicate (pos - text.length) '\x00'

/-- Text over what is at a position. -/
def overwrite (text : List Char) (pos : Nat) (more : List Char) : List Char :=
  if more.isEmpty then text else before text pos ++ more ++ text.drop (pos + more.length)

namespace Disk

def place (d : Disk) (path : Str) : List Str := d.fs.place path

/-- What is in the file that a path names, if it names one. -/
def read (d : Disk) (path : Str) : Option (List Char) :=
  if d.fs.tree.entry (d.place path) = some .file then some (d.content (d.file (d.place path))) else none

def setContent (d : Disk) (file : Nat) (text : List Char) : Disk :=
  { d with content := Function.update d.content file text }

def setTree (d : Disk) (fs : FileSystem) : Disk := { d with fs := fs }

/-- A new file, with nothing in it, at the place of a path. -/
def addFile (d : Disk) (path : Str) (fs : FileSystem) : Disk where
  fs := fs
  file := Function.update d.file (d.place path) d.fresh
  content := Function.update d.content d.fresh []
  fresh := d.fresh + 1
  known place := by
    by_cases here : place = d.place path
    · rw [here, Function.update_self]
      exact Nat.lt_succ_self _
    · rw [Function.update_of_ne here]
      exact Nat.lt_succ_of_lt (d.known place)

theorem file_addFile (d : Disk) (path : Str) (fs : FileSystem) : (d.addFile path fs).file (d.place path) = d.fresh :=
  Function.update_self ..

/-- `ofs.open(path, mode)`; `none` where it fails. -/
def openFile (d : Disk) (path : Str) (mode : OpenMode) : Option (OfStream × Disk) :=
  let name := cStr path
  if name.getLast? = some slash then none
  else
    match made : d.fs.tree.createFile (d.fs.base name) (steps name) with
    | some tree =>
      some (⟨d.fresh, mode, 0⟩, d.addFile path ⟨tree, d.fs.cwd, FileTree.createFile_kept made d.fs.inCwd⟩)
    | none =>
      if d.fs.tree.passable (d.fs.base name) (steps name) && d.fs.tree.entry (d.place path) == some .file then
        let file := d.file (d.place path)
        some (⟨file, mode, 0⟩, if mode = .out then d.setContent file [] else d)
      else none

/-- `os << text`. -/
def write (d : Disk) (s : OfStream) (text : List Char) : OfStream × Disk :=
  match s.mode with
  | .out => ({ s with pos := s.pos + text.length }, d.setContent s.file (overwrite (d.content s.file) s.pos text))
  | .app => (s, d.setContent s.file (d.content s.file ++ text))

end Disk

/-! ## The functions -/

/-- `s.find_last_of('/')`. -/
def findLast (s : Str) : Option Nat := (s.reverse.findIdx? (· == slash)).map (s.length - 1 - ·)

/-- `get_directory`. -/
def getDirectory (path : Str) : Str :=
  if path.isEmpty then [dot]
  else
    match findLast path with
    | none => [dot]
    | some 0 => [slash]
    | some pos => path.take pos

/-- `open_for_write`, with the stream if it is open then. -/
def openForWrite (d : Disk) (path : Str) (mode : OpenMode) : Option (Option OfStream × Disk) :=
  match d.openFile path mode with
  | some (s, d) => some (some s, d)
  | none =>
    (makeDir d.fs (getDirectory path)).map fun (_, fs) =>
      match (d.setTree fs).openFile path mode with
      | some (s, d) => (some s, d)
      | none => (none, d.setTree fs)

/-! ## Directories of files -/

section Directories

variable {u v path : Str}

theorem findLast_append (behind : slash ∉ v) : findLast (u ++ slash :: v) = some u.length := by
  have free : v.reverse.findIdx? (· == slash) = .none := by
    rw [List.findIdx?_eq_none_iff]
    intro c mem
    exact beq_false_of_ne fun same => behind (same ▸ List.mem_reverse.mp mem)
  have first : (u ++ slash :: v).reverse.findIdx? (· == slash) = some v.length := by
    rw [List.reverse_append, List.reverse_cons, List.append_assoc, List.findIdx?_append, free, List.length_reverse]
    rw [Option.none_or, List.singleton_append, List.findIdx?_cons, if_pos (beq_self_eq_true slash), Option.map_some, Nat.zero_add]
  rw [findLast, first, Option.map_some, List.length_append, List.length_cons]
  congr 1
  omega

/-- The directory of a name behind a slash is what is in front of the last one. -/
theorem getDirectory_append (front : u ≠ []) (behind : slash ∉ v) : getDirectory (u ++ slash :: v) = u := by
  obtain ⟨c, u, rfl⟩ := List.exists_cons_of_ne_nil front
  rw [getDirectory, findLast_append behind]
  exact List.take_left

end Directories

/-! ## What `make_dir` leaves, whatever it answers -/

section MakeDir

variable {fs₀ fs fs' : FileSystem} {path : Str}

theorem made_of_mkdir (done : fs.mkdir path = some fs') : FileSystem.Made fs fs' path := by
  rw [FileSystem.mkdir, FileSystem.mkdirName] at done
  split at done
  · cases done
  · rename_i tree made
    obtain rfl := Option.some.inj done
    exact ⟨made, rfl⟩

/-- It takes nothing away, and makes nothing but directories. -/
theorem makeDirLoop_grown {answer : Bool} (fuel : Nat) (grown : fs₀.tree.Grown fs.tree fun _ => True)
    (cwd : fs.cwd = fs₀.cwd) (tmp : Str) (pos : Option Nat) (done : makeDirLoop fuel fs tmp pos = some (answer, fs')) :
    fs₀.tree.Grown fs'.tree (fun _ => True) ∧ fs'.cwd = fs₀.cwd := by
  fun_induction makeDirLoop fuel fs tmp pos with
  | case1 fuel fs tmp next made =>
    cases done
    exact ⟨(made_of_mkdir made).grown grown trivial, (made_of_mkdir made).cwd.trans cwd⟩
  | case2 | case6 =>
    cases done
    exact ⟨grown, cwd⟩
  | case3 => cases done
  | case4 fs fuel tmp pos cut back there ih => exact ih grown cwd done
  | case5 fs fuel tmp pos cut back there next made ih =>
    exact ih ((made_of_mkdir made).grown grown trivial) ((made_of_mkdir made).cwd.trans cwd) done

theorem makeDir_grown {answer : Bool} (done : makeDir fs path = some (answer, fs')) :
    fs.tree.Grown fs'.tree (fun _ => True) ∧ fs'.cwd = fs.cwd := by
  rw [makeDir] at done
  split at done
  · cases done
    exact ⟨.refl _ _, rfl⟩
  · exact makeDirLoop_grown path.length (.refl _ _) rfl path _ done

/-- The path and its fronts name no file. -/
def Clear (fs : FileSystem) (path : Str) : Prop := ∀ name, IsFront path name → fs.tree.entry (fs.place name) ≠ some .file

/-- The last `mkdir` fails if the directory is there already. -/
theorem Ready.last_clear {k : Nat} (ready : Ready fs₀ fs path k) (clear : Clear fs₀ path) (named : cStr path ≠ [])
    (behind : ∀ q, k ≤ q → path[q]? ≠ some slash) (fuel : Nat) :
    ∃ answer fs', makeDirLoop fuel fs path none = some (answer, fs') ∧ Makes fs₀ fs' path := by
  have all : ∀ p, IsCut path p → fs.HasDirectory (path.take p) := fun p cut =>
    ready.made p cut (Nat.lt_of_not_le fun le => behind p le cut.2)
  have passes := FileSystem.passable_of_fronts all
  cases entry : fs.tree.entry (fs.place path) with
  | none =>
    obtain ⟨fs', done, -⟩ := FileSystem.mkdir_of_free passes entry
    have turn : makeDirLoop fuel fs path none = some (true, fs') := by
      cases fuel <;> rw [makeDirLoop, done]
    exact ⟨true, fs', turn, ((ready.last named behind fuel).free fs' turn).2⟩
  | some kind =>
    have taken : (fs.tree.entry (fs.place path)).isSome = true := by
      rw [entry]
      rfl
    have turn : makeDirLoop fuel fs path none = some (false, fs) := by
      have notMade := FileSystem.mkdir_none (FileTree.makeDirectory_eq_none (.inr taken))
      cases fuel <;> rw [makeDirLoop, notMade]
    cases kind with
    | directory =>
      refine ⟨false, fs, turn, ?_, ?_, ready.cwd⟩
      · rintro name (rfl | ⟨p, cut, rfl⟩)
        · exact ⟨named, passes, entry⟩
        · exact all p cut
      · apply ready.grown.mono
        intro _ makes
        obtain ⟨p, cut, -, same⟩ := makes
        exact ⟨_, .inr ⟨p, cut, rfl⟩, same⟩
    | file =>
      refine absurd (ready.grown.file_iff.mp ?_) (clear path (.inl rfl))
      rw [← place_congr ready.cwd, entry]

/-- Nothing is in the way of the loop. -/
theorem Ready.loop_clear (clear : Clear fs₀ path) (named : cStr path ≠ []) (fuel : Nat) :
    ∀ {fs : FileSystem} {k : Nat}, Ready fs₀ fs path k → 1 ≤ k → path.length ≤ fuel + k →
      ∃ answer fs', makeDirLoop fuel fs path (find path k) = some (answer, fs') ∧ Makes fs₀ fs' path := by
  induction fuel with
  | zero =>
    intro fs k ready _ enough
    cases found : find path k with
    | none => exact ready.last_clear clear named (find_none found) 0
    | some p =>
      obtain ⟨⟨le, here⟩, -⟩ := find_some found
      obtain ⟨lt, -⟩ := List.getElem?_eq_some_iff.mp here
      omega
  | succ fuel ih =>
    intro fs k ready pos enough
    cases found : find path k with
    | none => exact ready.last_clear clear named (find_none found) (fuel + 1)
    | some p =>
      obtain ⟨⟨le, here⟩, first⟩ := find_some found
      have cut : IsCut path p := ⟨pos.trans le, here⟩
      have ready' := ready.upTo le first
      have enough' : path.length ≤ fuel + (p + 1) := by omega
      cases entry : fs.tree.entry (fs.place (path.take p)) with
      | none =>
        obtain ⟨fs', done, next⟩ := ready'.mkdir named cut entry
        rw [makeDirLoop_turn fuel cut, FileSystem.access_of_free entry, if_neg Bool.false_ne_true, done]
        exact ih next (Nat.succ_pos p) enough'
      | some kind =>
        cases kind with
        | directory =>
          have next := ready'.next named cut entry
          rw [makeDirLoop_turn fuel cut, (next.made p cut (Nat.lt_succ_self p)).access, if_pos rfl]
          exact ih next (Nat.succ_pos p) enough'
        | file =>
          refine absurd (ready.grown.file_iff.mp ?_) (clear _ (.inr ⟨p, cut, rfl⟩))
          rw [← place_congr ready.cwd, entry]

/-- If no file is in the way, the whole path is there afterwards. -/
theorem makeDir_clear (clear : Clear fs path) (named : cStr path ≠ []) :
    ∃ answer fs', makeDir fs path = some (answer, fs') ∧ Makes fs fs' path := by
  rw [makeDir]
  split
  · rename_i there
    rw [FileSystem.access, Bool.and_eq_true, FileTree.has, Bool.and_eq_true, FileTree.passable_append,
      Bool.and_eq_true] at there
    obtain ⟨-, ⟨passes, -⟩, ends⟩ := there
    have here : (fs.tree.entry (fs.place path)).isSome = true := by
      rw [target_append] at ends
      split at ends <;> exact ends
    obtain ⟨kind, entry⟩ := Option.isSome_iff_exists.mp here
    have dir : fs.HasDirectory path := by
      refine ⟨named, passes, entry.trans ?_⟩
      cases kind with
      | directory => rfl
      | file => exact absurd entry (clear path (.inl rfl))
    exact ⟨true, fs, rfl, fun name front => dir.front front, .refl _ _, rfl⟩
  · exact (Ready.start fs path).loop_clear clear named path.length (Nat.le_refl 1) (Nat.le_succ _)

end MakeDir

/-! ## Opening -/

section Opening

variable {d d' : Disk} {fs : FileSystem} {path : Str} {mode : OpenMode} {s : OfStream} {p : Nat}

/-- What is behind a slash that is not the last character has a name in it. -/
theorem steps_behind_cut (cut : IsCut path p) (ends : path.getLast? ≠ some slash) :
    steps (path.drop (p + 1)) ≠ [] := by
  have split := split_at cut.2
  cases behind : (path.drop (p + 1)).getLast? with
  | none =>
    rw [List.getLast?_eq_none_iff.mp behind] at split
    rw [split, List.getLast?_concat] at ends
    exact absurd rfl ends
  | some c =>
    have names : components (path.drop (p + 1)) ≠ [] := by
      refine components_ne_nil behind fun isSlash => ends ?_
      rw [split, List.getLast?_append, List.getLast?_cons, behind, isSlash]
      rfl
    exact fun none => names (List.map_eq_nil_iff.mp none)

theorem base_take (fs : FileSystem) (pos : 1 ≤ p) : fs.base (path.take p) = fs.base path := by
  obtain ⟨p, rfl⟩ := Nat.exists_eq_add_of_le' pos
  rw [FileSystem.base, FileSystem.base, List.head?_take, if_neg (Nat.succ_ne_zero p)]

/-- The fronts of a path that can be followed are directories. -/
theorem directory_of_passable (passes : fs.tree.passable (fs.base path) (steps path) = true) (nonzero : 0 ∉ path)
    (ends : path.getLast? ≠ some slash) (cut : IsCut path p) :
    fs.tree.entry (fs.place (path.take p)) = some .directory := by
  have front : 0 ∉ path.take p := fun mem => nonzero (List.mem_of_mem_take mem)
  have split := congrArg steps (split_at cut.2)
  rw [steps_append] at split
  rw [split] at passes
  by_contra other
  rw [FileSystem.place, cStr_of_not_mem front, base_take fs cut.1] at other
  rw [FileTree.not_passable_append other (steps_behind_cut cut ends)] at passes
  cases passes

/-- The places of what is in front of the slashes of a path. -/
def IsFrontPlace (fs : FileSystem) (path : Str) (place : List Str) : Prop :=
  ∃ p, IsCut path p ∧ fs.place (path.take p) = place

/-- What an open file is. The fronts of the path are directories, those of them that were not there have been made, and
everything else but the file of the path is as it was. -/
structure Opened (d d' : Disk) (path : Str) (mode : OpenMode) (s : OfStream) : Prop where
  stream : s = ⟨d'.file (d.place path), mode, 0⟩
  there : d'.fs.access path = true
  read : d'.read path = some (if mode = .app then (d.read path).getD [] else [])
  cwd : d'.fs.cwd = d.fs.cwd
  fronts : ∀ place, IsFrontPlace d.fs path place → d'.fs.tree.entry place = some .directory
  entry : ∀ place, place ≠ d.place path → d'.fs.tree.entry place = d.fs.tree.entry place ∨
    d.fs.tree.entry place = none ∧ IsFrontPlace d.fs path place
  file : ∀ place, place ≠ d.place path → d'.file place = d.file place
  content : ∀ file, file < d.fresh → file ≠ s.file → d'.content file = d.content file
  fresh : d.read path = none → s.file = d.fresh

theorem Opened.place (opened : Opened d d' path mode s) : d'.place path = d.place path := place_congr opened.cwd path

/-- A path can be opened if it can be followed, does not end with a slash, and does not lead to a directory. -/
theorem openFile_none (nonzero : 0 ∉ path) (none : d.openFile path mode = none) (ends : path.getLast? ≠ some slash)
    (notDirectory : d.fs.tree.entry (d.place path) ≠ some .directory) :
    d.fs.tree.passable (d.fs.base path) (steps path) = false := by
  have name := cStr_of_not_mem nonzero
  rw [Disk.openFile, if_neg (by rwa [name])] at none
  by_contra passes
  rw [Bool.not_eq_false] at passes
  split at none
  · cases none
  · rename_i notMade
    rw [name] at none notMade
    cases entry : d.fs.tree.entry (d.place path) with
    | none =>
      rw [Disk.place, FileSystem.place, name] at entry
      obtain ⟨tree, made⟩ := FileTree.createFile_of_free (d.fs.entry_base path) passes entry
      rw [notMade] at made
      cases made
    | some kind =>
      cases kind with
      | directory => exact notDirectory entry
      | file =>
        rw [passes, entry, if_pos (by rfl)] at none
        cases none

theorem read_eq (isFile : d.fs.tree.entry (d.place path) = some .file) :
    d.read path = some (d.content (d.file (d.place path))) := by
  rw [Disk.read, if_pos isFile]

theorem access_of_passable (nonzero : 0 ∉ path) (ends : path.getLast? ≠ some slash)
    (passes : fs.tree.passable (fs.base path) (steps path) = true)
    (isFile : fs.tree.entry (fs.place path) = some .file) : fs.access path = true := by
  have nonempty : (!path.isEmpty) = true := by
    rw [Bool.not_eq_true', List.isEmpty_eq_false_iff]
    rintro rfl
    exact absurd (fs.inCwd.symm.trans isFile) (by decide)
  rw [FileSystem.place, cStr_of_not_mem nonzero] at isFile
  rw [FileSystem.access, cStr_of_not_mem nonzero, nonempty, if_neg ends, List.append_nil, FileTree.has, passes, isFile]
  rfl

theorem read_ne (isFile : d.fs.tree.entry (d.place path) = some .file) : d.read path ≠ none := by
  rw [read_eq isFile]
  exact Option.some_ne_none _

theorem openFile_some (nonzero : 0 ∉ path) (opened : d.openFile path mode = some (s, d')) :
    (path.getLast? ≠ some slash ∧ d.fs.tree.passable (d.fs.base path) (steps path) = true ∧
      d.fs.tree.entry (d.place path) ≠ some .directory) ∧ Opened d d' path mode s := by
  have name := cStr_of_not_mem nonzero
  rw [Disk.openFile] at opened
  split at opened
  · cases opened
  rename_i ends
  rw [name] at ends
  split at opened
  · rename_i tree made
    obtain ⟨rfl, rfl⟩ := Prod.mk.inj (Option.some.inj opened)
    obtain ⟨⟨passes, free⟩, entry⟩ := FileTree.createFile_spec made
    change d.fs.tree.entry (d.place path) = none at free
    rw [name] at passes
    refine ⟨⟨ends, passes, fun dir => by rw [free] at dir; cases dir⟩, ?_, ?_, ?_, rfl, ?_, fun place other => .inl ?_, ?_,
      ?_, fun _ => rfl⟩
    · rw [d.file_addFile]
    · refine access_of_passable nonzero ends ?_ (congrFun entry _ |>.trans (Function.update_self ..))
      exact FileTree.passable_mono (fun _ => FileTree.createFile_kept made) _ passes
    · have isFile : tree.entry (d.place path) = some .file := by
        rw [entry]
        exact Function.update_self ..
      have unread : d.read path = none := by
        rw [Disk.read, free]
        rfl
      refine (read_eq isFile).trans (congrArg some ?_)
      rw [unread, Option.getD_none, ite_self]
      change (d.addFile path _).content ((d.addFile path _).file (d.place path)) = []
      rw [d.file_addFile]
      exact Function.update_self ..
    · rintro place ⟨p, cut, rfl⟩
      exact FileTree.createFile_kept made (directory_of_passable passes nonzero ends cut)
    · change tree.entry place = _
      rw [entry]
      exact Function.update_of_ne other ..
    · exact fun place other => Function.update_of_ne other ..
    · exact fun file lt other => Function.update_of_ne other ..
  · split at opened
    · rename_i here
      obtain ⟨rfl, rfl⟩ := Prod.mk.inj (Option.some.inj opened)
      rw [name, Bool.and_eq_true, beq_iff_eq] at here
      obtain ⟨passes, isFile⟩ := here
      refine ⟨⟨ends, passes, fun dir => by rw [isFile] at dir; cases dir⟩, ?_⟩
      have fronts : ∀ place, IsFrontPlace d.fs path place → d.fs.tree.entry place = some .directory := by
        rintro place ⟨p, cut, rfl⟩
        exact directory_of_passable passes nonzero ends cut
      cases mode with
      | out =>
        refine ⟨rfl, access_of_passable nonzero ends passes isFile, ?_, rfl, fronts, fun _ _ => .inl rfl,
          fun _ _ => rfl, fun file _ other => Function.update_of_ne other ..,
          fun unread => absurd unread (read_ne isFile)⟩
        rw [if_pos rfl, if_neg (by decide)]
        refine (read_eq (d := d.setContent _ _) isFile).trans (congrArg some ?_)
        exact Function.update_self ..
      | app =>
        refine ⟨rfl, access_of_passable nonzero ends passes isFile, ?_, rfl, fronts, fun _ _ => .inl rfl,
          fun _ _ => rfl, fun _ _ _ => rfl, fun unread => absurd unread (read_ne isFile)⟩
        rw [if_neg (by decide), if_pos rfl, read_eq isFile]
        rfl
    · cases opened

/-- The path can be opened for writing, once its directories have been made. -/
structure Openable (fs : FileSystem) (path : Str) : Prop where
  ends : path.getLast? ≠ some slash
  notDirectory : fs.tree.entry (fs.place path) ≠ some .directory
  fronts : ∀ p, IsCut path p → fs.tree.entry (fs.place (path.take p)) ≠ some .file ∧
    fs.place (path.take p) ≠ fs.place path

theorem openable_of_passable (ends : path.getLast? ≠ some slash) (nonzero : 0 ∉ path)
    (passes : fs.tree.passable (fs.base path) (steps path) = true)
    (notDirectory : fs.tree.entry (fs.place path) ≠ some .directory) : Openable fs path where
  ends := ends
  notDirectory := notDirectory
  fronts p cut := by
    have dir := directory_of_passable passes nonzero ends cut
    refine ⟨fun isFile => ?_, fun same => notDirectory (same ▸ dir)⟩
    rw [dir] at isFile
    cases isFile

/-- What makes a path openable behind new directories makes it openable. -/
theorem openable_of_grown {fs' : FileSystem} (grown : fs.tree.Grown fs'.tree fun _ => True) (cwd : fs'.cwd = fs.cwd)
    (openable : Openable fs' path) : Openable fs path where
  ends := openable.ends
  notDirectory dir := openable.notDirectory (by rw [place_congr cwd]; exact grown.kept dir)
  fronts p cut := by
    obtain ⟨notFile, apart⟩ := openable.fronts p cut
    rw [place_congr cwd, place_congr cwd] at apart
    refine ⟨fun isFile => notFile ?_, apart⟩
    rw [place_congr cwd]
    exact grown.file_iff.mpr isFile

/-- The call opens the file, and does nothing else. -/
def OpensForWrite (d : Disk) (path : Str) (mode : OpenMode) : Prop :=
  ∃ s d', openForWrite d path mode = some (some s, d') ∧ Opened d d' path mode s

/-- A file behind directories that were made for it. -/
theorem Opened.grown {fs' : FileSystem} (opened : Opened (d.setTree fs') d' path mode s)
    (grown : d.fs.tree.Grown fs'.tree (IsFrontPlace d.fs path)) (cwd : fs'.cwd = d.fs.cwd) : Opened d d' path mode s := by
  have place : (d.setTree fs').place path = d.place path := place_congr cwd path
  have before : (d.setTree fs').read path = d.read path := by
    rw [Disk.read, Disk.read, place]
    exact if_congr grown.file_iff rfl rfl
  have front : ∀ place, IsFrontPlace fs' path place ↔ IsFrontPlace d.fs path place := by
    intro place
    refine exists_congr fun p => and_congr_right fun _ => ?_
    rw [place_congr cwd]
  obtain ⟨stream, there, read, cwd', fronts, entry, file, content, fresh⟩ := opened
  rw [place] at stream entry file
  rw [before] at read fresh
  refine ⟨stream, there, read, cwd'.trans cwd, fun place' among => fronts place' ((front place').mpr among),
    fun place' other => ?_, file, content, fresh⟩
  rcases entry place' other with same | ⟨free, among⟩
  · rcases grown place' with same' | ⟨free, -, among⟩
    · exact .inl (same.trans same')
    · exact .inr ⟨free, among⟩
  · rcases grown place' with same' | ⟨-, dir', -⟩
    · exact .inr ⟨same'.symm.trans free, (front place').mp among⟩
    · cases free.symm.trans dir'

/-- A file that cannot be opened, because its directory is not there, has a slash in front of its name. -/
theorem exists_directory (blocked : fs.tree.passable (fs.base path) (steps path) = false) :
    ∃ u v, path = u ++ slash :: v ∧ slash ∉ v ∧ u ≠ [] := by
  have short : ∀ {s : Str}, slash ∉ s → fs.tree.passable (fs.base path) (steps s) = true := fun none =>
    FileTree.passable_short (fs.entry_base path) (length_steps none)
  rcases last_slash path with none | ⟨u, v, rfl, none⟩
  · rw [short none] at blocked
    cases blocked
  · refine ⟨u, v, rfl, none, fun empty => ?_⟩
    rw [steps_append, empty] at blocked
    rw [show steps [] ++ steps v = steps v from rfl, ← empty, short none] at blocked
    cases blocked

/-- What is in front of the last slash, and its fronts, are in front of slashes of the whole path. -/
theorem IsFront.of_directory {u v name : Str} (named : u ≠ []) (front : IsFront u name) :
    ∃ p, IsCut (u ++ slash :: v) p ∧ name = (u ++ slash :: v).take p := by
  rcases front with rfl | ⟨p, cut, rfl⟩
  · refine ⟨name.length, ⟨List.length_pos_iff.mpr named, ?_⟩, List.take_left.symm⟩
    rw [List.getElem?_append_right (Nat.le_refl _), Nat.sub_self]
    rfl
  · have front : IsCut ((u ++ slash :: v).take u.length) p := by rwa [List.take_left]
    obtain ⟨cut', lt, -⟩ := front.of_take
    exact ⟨p, cut', (List.take_append_of_le_length (Nat.le_of_lt lt)).symm⟩

/-- An openable path is opened, at the second try if its directories are not there. -/
theorem Openable.opensForWrite (openable : Openable d.fs path) (nonzero : 0 ∉ path) (mode : OpenMode) :
    OpensForWrite d path mode := by
  rw [OpensForWrite, openForWrite]
  cases first : d.openFile path mode with
  | some opened => exact ⟨_, _, rfl, (openFile_some nonzero first).2⟩
  | none =>
    have blocked := openFile_none nonzero first openable.ends openable.notDirectory
    obtain ⟨u, v, rfl, none, named⟩ := exists_directory blocked
    have clear : Clear d.fs u := fun name front => by
      obtain ⟨p, cut, rfl⟩ := front.of_directory (v := v) named
      exact (openable.fronts p cut).1
    have free : 0 ∉ u := fun mem => nonzero (List.mem_append_left _ mem)
    obtain ⟨answer, fs, made, makes⟩ := makeDir_clear clear (by rwa [cStr_of_not_mem free])
    have grown : d.fs.tree.Grown fs.tree (IsFrontPlace d.fs (u ++ slash :: v)) := by
      refine makes.grown.mono ?_
      rintro place ⟨name, front, same⟩
      obtain ⟨p, cut, rfl⟩ := front.of_directory (v := v) named
      exact ⟨p, cut, same⟩
    rw [getDirectory_append named none, made, Option.map_some]
    dsimp only
    cases second : (d.setTree fs).openFile (u ++ slash :: v) mode with
    | some opened => exact ⟨_, _, rfl, (openFile_some nonzero second).2.grown grown makes.cwd⟩
    | none =>
      have place : (d.setTree fs).place (u ++ slash :: v) = d.place (u ++ slash :: v) := place_congr makes.cwd _
      have blocked := openFile_none nonzero second openable.ends fun dir => ?_
      · have dir := (makes.made u (.inl rfl)).2
        have base : fs.base ((u ++ slash :: v).take u.length) = fs.base (u ++ slash :: v) :=
          base_take fs (List.length_pos_iff.mpr named)
        rw [cStr_of_not_mem free] at dir
        rw [List.take_left] at base
        change fs.tree.passable (fs.base _) _ = false at blocked
        rw [steps_append, ← base, dir.passable_append (length_steps none)] at blocked
        cases blocked
      · rw [place] at dir
        rcases grown (d.place (u ++ slash :: v)) with same | ⟨-, -, p, cut, same⟩
        · exact openable.notDirectory (same.symm.trans dir)
        · exact (openable.fronts p cut).2 same

/-- The file is opened, with the directories that it needs and no others, if and only if no directory has its name, none
of the names in front of its slashes is a file's or its own, and it does not end with a slash. -/
theorem opensForWrite_iff (d : Disk) (path : Str) (nonzero : 0 ∉ path) (mode : OpenMode) :
    OpensForWrite d path mode ↔ Openable d.fs path := by
  refine ⟨?_, fun openable => openable.opensForWrite nonzero mode⟩
  rintro ⟨s, d', done, -⟩
  rw [openForWrite] at done
  split at done
  · rename_i opened
    obtain ⟨⟨ends, passes, notDirectory⟩, -⟩ := openFile_some nonzero opened
    exact openable_of_passable ends nonzero passes notDirectory
  · obtain ⟨⟨answer, fs⟩, made, done⟩ := Option.map_eq_some_iff.mp done
    obtain ⟨grown, cwd⟩ := makeDir_grown made
    dsimp only at done
    split at done
    · rename_i opened
      obtain ⟨⟨ends, passes, notDirectory⟩, -⟩ := openFile_some nonzero opened
      exact openable_of_grown grown cwd (openable_of_passable ends nonzero passes notDirectory)
    · cases done

/-- A root directory and nothing else. -/
def bareDisk : Disk := ⟨bare, fun _ => 0, fun _ => [], 1, fun _ => Nat.zero_lt_one⟩

/-- The file `a//b`, though `make_dir` fails for `a/`. -/
theorem opensForWrite_iff_doubled : OpensForWrite bareDisk [97, slash, slash, 98] .out := by
  have places : ∀ p, IsCut [97, slash, slash, 98] p → bare.place ([97, slash, slash, 98].take p) = [[97]] := by
    rintro p ⟨pos, here⟩
    match p, pos, here with
    | 1, _, _ => rfl
    | 2, _, _ => rfl
    | 3, _, here => cases here
  refine (opensForWrite_iff bareDisk _ (by decide) .out).mpr ⟨by decide, by decide, fun p cut => ?_⟩
  change bare.tree.entry (bare.place _) ≠ _ ∧ bare.place _ ≠ bare.place _
  rw [places p cut]
  exact ⟨by decide, by decide⟩

end Opening

/-! ## Writing -/

section Writing

variable {text a b : List Char} {pos : Nat}

theorem length_before (text : List Char) (pos : Nat) : (before text pos).length = pos := by
  rw [before, List.length_append, List.length_take, List.length_replicate]
  omega

theorem overwrite_of_ne (more : a ≠ []) : overwrite text pos a = before text pos ++ a ++ text.drop (pos + a.length) :=
  if_neg fun none => more (List.isEmpty_iff.mp none)

theorem length_overwrite (more : a ≠ []) : (overwrite text pos a).length = max text.length (pos + a.length) := by
  rw [overwrite_of_ne more, List.length_append, List.length_append, length_before, List.length_drop]
  omega

/-- Two texts one behind the other. -/
theorem overwrite_append (text : List Char) (pos : Nat) (a b : List Char) :
    overwrite (overwrite text pos a) (pos + a.length) b = overwrite text pos (a ++ b) := by
  by_cases noneA : a = []
  · rw [noneA]
    rfl
  by_cases noneB : b = []
  · rw [noneB, List.append_nil]
    rfl
  have front : (before text pos ++ a).length = pos + a.length := by
    rw [List.length_append, length_before]
  have fits : pos + a.length - (overwrite text pos a).length = 0 := by
    rw [length_overwrite noneA]
    omega
  have kept : before (overwrite text pos a) (pos + a.length) = before text pos ++ a := by
    rw [before, fits, List.replicate_zero, List.append_nil, overwrite_of_ne noneA, ← front, List.take_left]
  have rest : (overwrite text pos a).drop (pos + a.length + b.length) = text.drop (pos + (a ++ b).length) := by
    rw [overwrite_of_ne noneA, ← List.drop_drop, ← front, List.drop_left, List.drop_drop, front, List.length_append,
      Nat.add_assoc]
  rw [overwrite_of_ne noneB, kept, rest, overwrite_of_ne (List.append_ne_nil_of_left_ne_nil noneA b), List.append_assoc _ a]

namespace Disk

variable (d : Disk) (s : OfStream)

@[simp] theorem write_fs (text : List Char) : (d.write s text).2.fs = d.fs := by
  rw [write]
  split <;> rfl

@[simp] theorem write_file (text : List Char) : (d.write s text).2.file = d.file := by
  rw [write]
  split <;> rfl

@[simp] theorem write_fresh (text : List Char) : (d.write s text).2.fresh = d.fresh := by
  rw [write]
  split <;> rfl

@[simp] theorem write_stream_file (text : List Char) : (d.write s text).1.file = s.file := by
  rw [write]
  split <;> rfl

@[simp] theorem write_stream_mode (text : List Char) : (d.write s text).1.mode = s.mode := by
  rw [write]
  split <;> rfl

theorem write_content_ne {file : Nat} (other : file ≠ s.file) (text : List Char) :
    (d.write s text).2.content file = d.content file := by
  rw [write]
  split <;> exact Function.update_of_ne other ..

theorem write_content (text : List Char) : (d.write s text).2.content s.file =
    match s.mode with
    | .out => overwrite (d.content s.file) s.pos text
    | .app => d.content s.file ++ text := by
  rw [write]
  split <;> exact Function.update_self ..

/-- Two writes are one. -/
theorem write_append (a b : List Char) :
    ((d.write s a).2.write (d.write s a).1 b).2.content s.file = (d.write s (a ++ b)).2.content s.file := by
  have second := (d.write s a).2.write_content (d.write s a).1 b
  rw [write_stream_file, write_stream_mode, write_content] at second
  rw [second, write_content, write]
  cases s.mode with
  | out => exact overwrite_append _ _ _ _
  | app => exact List.append_assoc _ _ _

theorem write_nil : (d.write s []).2.content s.file = d.content s.file := by
  rw [write_content]
  split
  · rfl
  · exact List.append_nil _

@[simp] theorem write_place (text : List Char) (path : Str) : (d.write s text).2.place path = d.place path := by
  rw [place, write_fs]
  rfl

end Disk

end Writing

end Sylar.FSUtil
