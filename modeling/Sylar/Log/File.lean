import Sylar.Lib.Run
import Sylar.Log.Handles
import Sylar.Util.Files

/-!
# File appenders

`FileLogAppender` on a disk that other processes use too. The constructor opens the file and empties it. `log` looks
whether the name is still there only if more than a hundred seconds have passed since the line before, and opens the
file again, for appending, only if nothing has the name.

So a file that is renamed or removed takes the lines up to the first such pause (`rotated`), if its path can be opened
again, and if another process makes a file of that name, no line ever reaches it (`replaced`). Appenders that were
constructed for one file before any of them logs write over each other's lines (`shared_length`). A stream hands its
text on at once here, and a character stands for a byte.
-/

namespace Sylar.Log

open FSUtil Lib

structure FileLogAppender where
  fileName : Str
  level : LogLevel
  formatter : LogFormatter
  /-- `ofstream_`, if it is open. -/
  ofstream : Option OfStream
  lastTime : UInt64

/-- What is logged: the name of the logger, the level and the event. -/
structure Line where
  logger : String
  level : LogLevel
  event : LogEvent

/-- What dates depend on: the text that `strftime` makes of a format and a time, and what a line reads like that has a
date without room for its text. -/
structure Calendar where
  strftime : String → UInt64 → String
  garbled : Line → List Char

/-- For lines without dates. -/
def noDates : Calendar := ⟨fun _ _ => "", fun _ => []⟩

namespace FileLogAppender

/-- The constructor. -/
def create (d : Disk) (fileName : Str) (level : LogLevel) (pattern : String) : Option (FileLogAppender × Disk) :=
  (openForWrite d fileName .out).map fun (ofs, d) => (⟨fileName, level, .create pattern, ofs, 0⟩, d)

def reopen (a : FileLogAppender) (d : Disk) : Option (Bool × FileLogAppender × Disk) :=
  (openForWrite d a.fileName .app).map fun (ofs, d) => (ofs.isSome, { a with ofstream := ofs }, d)

/-- `format` onto the stream, which takes nothing if it is not open. -/
def put (a : FileLogAppender) (d : Disk) (time : UInt64) (text : List Char) : FileLogAppender × Disk :=
  match a.ofstream with
  | none => ({ a with lastTime := time }, d)
  | some s => ({ a with lastTime := time, ofstream := some (d.write s text).1 }, (d.write s text).2)

section Log

variable (calendar : Calendar)

/-- The text that the formatter makes of a line. -/
def text (a : FileLogAppender) (line : Line) : List Char :=
  match a.formatter.format calendar.strftime line.logger line.level line.event "" with
  | some text => text.toList
  | none => calendar.garbled line

def log (a : FileLogAppender) (d : Disk) (line : Line) : Option (FileLogAppender × Disk) :=
  if line.level.value < a.level.value then some (a, d)
  else
    let now := line.event.time
    if now - a.lastTime > 100 && !d.fs.access a.fileName then
      (a.reopen d).map fun (opened, a, d) => if opened then a.put d now (a.text calendar line) else (a, d)
    else some (a.put d now (a.text calendar line))

def logAll : List Line → FileLogAppender → Disk → Option (FileLogAppender × Disk)
  | [], a, d => some (a, d)
  | line :: lines, a, d => (a.log calendar d line).bind fun (a, d) => logAll lines a d

end Log

/-! ## A line -/

/-- The appender takes the lines of a level. -/
def takes (a : FileLogAppender) (line : Line) : Bool := a.level.value ≤ line.level.value

/-- More than a hundred seconds, in 64 bits, since a line. -/
def Paused (last : UInt64) (line : Line) : Prop := line.event.time - last > 100

instance (last : UInt64) (line : Line) : Decidable (Paused last line) := inferInstanceAs (Decidable (_ > _))

/-- All that a line changes of an appender. -/
structure Same (a a' : FileLogAppender) : Prop where
  fileName : a'.fileName = a.fileName
  level : a'.level = a.level
  formatter : a'.formatter = a.formatter

section Lines

variable {calendar : Calendar} {a a' : FileLogAppender} {d d' : Disk} {line : Line} {s : OfStream}

theorem Same.refl (a : FileLogAppender) : a.Same a := ⟨rfl, rfl, rfl⟩

theorem Same.trans {a'' : FileLogAppender} (first : a.Same a') (second : a'.Same a'') : a.Same a'' :=
  ⟨second.fileName.trans first.fileName, second.level.trans first.level, second.formatter.trans first.formatter⟩

theorem Same.takes (same : a.Same a') : a'.takes = a.takes := by
  funext line
  rw [FileLogAppender.takes, FileLogAppender.takes, same.level]

theorem Same.text (same : a.Same a') : a'.text calendar = a.text calendar := by
  funext line
  rw [FileLogAppender.text, FileLogAppender.text, same.formatter]

theorem put_same (a : FileLogAppender) (d : Disk) (time : UInt64) (text : List Char) : a.Same (a.put d time text).1 := by
  rw [put]
  split <;> exact ⟨rfl, rfl, rfl⟩

theorem put_some (opened : a.ofstream = some s) (d : Disk) (time : UInt64) (text : List Char) :
    a.put d time text = ({ a with lastTime := time, ofstream := some (d.write s text).1 }, (d.write s text).2) := by
  rw [put, opened]

theorem put_lastTime (a : FileLogAppender) (d : Disk) (time : UInt64) (text : List Char) :
    (a.put d time text).1.lastTime = time := by
  rw [put]
  split <;> rfl

theorem put_fs (a : FileLogAppender) (d : Disk) (time : UInt64) (text : List Char) : (a.put d time text).2.fs = d.fs := by
  rw [put]
  split
  · rfl
  · exact d.write_fs _ _

/-- The file of the stream stays what it is. -/
theorem put_known (old : ∀ s, a.ofstream = some s → s.file < d.fresh) {time : UInt64} {text : List Char} :
    ∀ s, (a.put d time text).1.ofstream = some s → s.file < (a.put d time text).2.fresh := by
  intro s stream
  cases opened : a.ofstream with
  | none =>
    rw [put, opened] at stream
    cases stream
  | some s₀ =>
    rw [put_some opened] at stream ⊢
    obtain rfl := Option.some.inj stream
    rw [Disk.write_stream_file, Disk.write_fresh]
    exact old s₀ opened

theorem log_low (low : a.takes line = false) : a.log calendar d line = some (a, d) := by
  rw [log, if_pos (Nat.lt_of_not_le (of_decide_eq_false low))]

/-- While the name is there, or no time has passed, the line goes to the stream. -/
theorem log_put (takes : a.takes line = true) (calm : ¬ Paused a.lastTime line ∨ d.fs.access a.fileName = true) :
    a.log calendar d line = some (a.put d line.event.time (a.text calendar line)) := by
  rw [log, if_neg (Nat.not_lt_of_le (of_decide_eq_true takes))]
  dsimp only
  rw [if_neg]
  rw [Bool.and_eq_true, decide_eq_true_eq, Bool.not_eq_true']
  rintro ⟨paused, absent⟩
  rcases calm with calm | there
  · exact calm paused
  · rw [absent] at there
    cases there

end Lines

/-! ## A file that is taken away -/

/-- The lines up to the first pause, and those from there on. -/
def untilPause (last : UInt64) : List Line → List Line × List Line
  | [] => ([], [])
  | line :: lines =>
    if Paused last line then ([], line :: lines)
    else (line :: (untilPause line.event.time lines).1, (untilPause line.event.time lines).2)

/-- The stream appends to the file that has the name. -/
structure Attached (a : FileLogAppender) (d : Disk) (s : OfStream) : Prop where
  stream : a.ofstream = some s
  mode : s.mode = .app
  there : d.fs.access a.fileName = true
  isFile : d.fs.tree.entry (d.place a.fileName) = some .file
  file : d.file (d.place a.fileName) = s.file

section Rotation

variable {calendar : Calendar} {a a' : FileLogAppender} {d d' : Disk} {line : Line} {s : OfStream}

theorem Attached.read (attached : Attached a d s) : d.read a.fileName = some (d.content s.file) := by
  rw [read_eq attached.isFile, attached.file]

theorem Attached.put (attached : Attached a d s) (time : UInt64) (text : List Char) :
    Attached (a.put d time text).1 (a.put d time text).2 s ∧
      (a.put d time text).2.content = Function.update d.content s.file (d.content s.file ++ text) := by
  have write : d.write s text = (s, d.setContent s.file (d.content s.file ++ text)) := by
    rw [Disk.write, attached.mode]
  rw [put_some attached.stream, write]
  exact ⟨⟨rfl, attached.mode, attached.there, attached.isFile, attached.file⟩, rfl⟩

theorem read_free {path : Str} (free : d.fs.tree.entry (d.place path) = none) : d.read path = none := by
  rw [Disk.read, free]
  rfl

/-- From then on the file of the name has every line. -/
theorem Attached.logAll (calendar : Calendar) (lines : List Line) : ∀ {a : FileLogAppender} {d : Disk}, Attached a d s →
    ∃ a' d', a.logAll calendar lines d = some (a', d') ∧
      d'.read a.fileName = some (d.content s.file ++ (lines.filter a.takes).flatMap (a.text calendar)) ∧
      ∀ file, file ≠ s.file → d'.content file = d.content file := by
  induction lines with
  | nil =>
    intro a d attached
    exact ⟨a, d, rfl, by rw [attached.read, List.filter_nil, List.flatMap_nil, List.append_nil], fun _ _ => rfl⟩
  | cons line lines ih =>
    intro a d attached
    rw [FileLogAppender.logAll]
    by_cases takes : a.takes line = true
    · rw [log_put takes (.inr attached.there), List.filter_cons_of_pos takes, List.flatMap_cons]
      obtain ⟨next, content⟩ := attached.put line.event.time (a.text calendar line)
      have same := put_same a d line.event.time (a.text calendar line)
      obtain ⟨a', d', run, read, others⟩ := ih next
      rw [same.fileName, same.takes, same.text, content, Function.update_self, List.append_assoc] at read
      refine ⟨a', d', run, read, fun file other => ?_⟩
      rw [others file other, content, Function.update_of_ne other]
    · rw [log_low (Bool.eq_false_of_not_eq_true takes), List.filter_cons_of_neg takes]
      exact ih attached

/-- Behind a pause the file is opened again, and has the line. -/
theorem log_reopen (calendar : Calendar) (takes : a.takes line = true) (paused : Paused a.lastTime line) (nonzero : 0 ∉ a.fileName)
    (openable : Openable d.fs a.fileName) (free : d.fs.tree.entry (d.place a.fileName) = none) :
    ∃ a' d' s, a.log calendar d line = some (a', d') ∧ a.Same a' ∧ Attached a' d' s ∧ s.file = d.fresh ∧
      d'.content s.file = a.text calendar line ∧ ∀ file, file < d.fresh → d'.content file = d.content file := by
  obtain ⟨s, d₁, done, opened⟩ := openable.opensForWrite nonzero .app
  have unread : d.read a.fileName = none := read_free free
  have read := opened.read
  rw [if_pos rfl, unread, Option.getD_none, Disk.read, opened.place] at read
  obtain ⟨isFile, empty⟩ : d₁.fs.tree.entry (d.place a.fileName) = some .file ∧
      d₁.content (d₁.file (d.place a.fileName)) = [] := by
    split at read
    · rename_i isFile
      exact ⟨isFile, Option.some.inj read⟩
    · cases read
  have file : s.file = d₁.file (d.place a.fileName) := congrArg OfStream.file opened.stream
  have attached : Attached { a with ofstream := some s } d₁ s :=
    ⟨rfl, congrArg OfStream.mode opened.stream, opened.there, (congrArg d₁.fs.tree.entry opened.place).trans isFile,
      (congrArg d₁.file opened.place).trans file.symm⟩
  obtain ⟨next, content⟩ := attached.put line.event.time (a.text calendar line)
  refine ⟨_, _, s, ?_, (Same.mk rfl rfl rfl : a.Same { a with ofstream := some s }).trans (put_same ..), next,
    opened.fresh unread, ?_, fun file' known => ?_⟩
  · rw [log, if_neg (Nat.not_lt_of_le (of_decide_eq_true takes))]
    dsimp only
    have absent : (!d.fs.access a.fileName) = true := by
      rw [FileSystem.access_of_free free]
      rfl
    have gap : decide (line.event.time - a.lastTime > 100) = true := decide_eq_true paused
    rw [gap, absent, if_pos (by rfl), reopen, done]
    rfl
  · rw [content, Function.update_self, file, empty, List.nil_append]
  · have other : file' ≠ s.file := by
      rw [opened.fresh unread]
      exact Nat.ne_of_lt known
    rw [content, Function.update_of_ne other, opened.content file' known other]

/-- A file is renamed or removed. The lines up to the first pause follow it. From the pause on they are in a new file of
the name. -/
theorem rotated (calendar : Calendar) (lines : List Line) : ∀ {a : FileLogAppender} {d : Disk},
    0 ∉ a.fileName → Openable d.fs a.fileName → d.fs.tree.entry (d.place a.fileName) = none →
    (∀ s, a.ofstream = some s → s.file < d.fresh) →
    ∃ a' d', a.logAll calendar lines d = some (a', d') ∧
      d'.read a.fileName = (if (untilPause a.lastTime (lines.filter a.takes)).2.isEmpty then none
        else some ((untilPause a.lastTime (lines.filter a.takes)).2.flatMap (a.text calendar))) ∧
      ∀ s, a.ofstream = some s → d'.content s.file =
        (d.write s ((untilPause a.lastTime (lines.filter a.takes)).1.flatMap (a.text calendar))).2.content s.file := by
  induction lines with
  | nil =>
    intro a d nonzero openable free old
    refine ⟨a, d, rfl, ?_, fun s _ => (d.write_nil s).symm⟩
    exact read_free free
  | cons line lines ih =>
    intro a d nonzero openable free old
    rw [logAll]
    by_cases takes : a.takes line = true
    · rw [List.filter_cons_of_pos takes, untilPause]
      by_cases paused : Paused a.lastTime line
      · obtain ⟨a₁, d₁, s₁, first, same, attached, file, content, kept⟩ :=
          log_reopen calendar takes paused nonzero openable free
        obtain ⟨a', d', run, read, others⟩ := attached.logAll calendar lines
        rw [same.fileName, same.takes, same.text, content] at read
        rw [first, if_pos paused]
        refine ⟨a', d', run, read, fun s stream => ?_⟩
        have known := old s stream
        rw [others s.file (by rw [file]; exact Nat.ne_of_lt known), kept s.file known]
        exact (d.write_nil s).symm
      · rw [log_put takes (.inl paused), if_neg paused]
        have same := put_same a d line.event.time (a.text calendar line)
        have fs := put_fs a d line.event.time (a.text calendar line)
        have place : (a.put d line.event.time (a.text calendar line)).2.place a.fileName = d.place a.fileName := by
          rw [Disk.place, fs]
          rfl
        have last := put_lastTime a d line.event.time (a.text calendar line)
        obtain ⟨a', d', run, read, content⟩ := ih (a := (a.put d line.event.time (a.text calendar line)).1)
          (d := (a.put d line.event.time (a.text calendar line)).2) (by rwa [same.fileName])
          (by rwa [same.fileName, fs]) (by rwa [same.fileName, place, fs]) (put_known old)
        rw [same.fileName, same.takes, same.text, last] at read
        rw [same.takes, same.text, last] at content
        refine ⟨a', d', run, read, fun s stream => ?_⟩
        have after := content (d.write s (a.text calendar line)).1 (by rw [put_some stream])
        rw [put_some stream, Disk.write_stream_file, Disk.write_append] at after
        rw [after, List.flatMap_cons]
    · rw [log_low (Bool.eq_false_of_not_eq_true takes), List.filter_cons_of_neg takes]
      exact ih nonzero openable free old

/-- A line of a message only. -/
def messageLine (time : UInt64) (content : String) : Line :=
  ⟨"system", .info, ⟨"", 0, 0, 0, "", time, "", content⟩⟩

/-- Two lines before the pause and one behind it. -/
theorem rotated_late : ∃ a' d', (⟨[97], .debug, .create "%m", some ⟨0, .out, 0⟩, 0⟩ : FileLogAppender).logAll
      noDates [messageLine 50 "one", messageLine 100 "two", messageLine 300 "three"] bareDisk = some (a', d') ∧
    d'.read [97] = some "three".toList ∧ d'.content 0 = "onetwo".toList := by
  have noCut : ∀ p, ¬ IsCut [97] p := fun p cut => by
    match p, cut with
    | 0, cut => exact absurd cut.1 (by decide)
    | p + 1, cut => cases cut.2
  obtain ⟨a', d', run, read, old⟩ := rotated noDates
    [messageLine 50 "one", messageLine 100 "two", messageLine 300 "three"]
    (a := ⟨[97], .debug, .create "%m", some ⟨0, .out, 0⟩, 0⟩) (d := bareDisk) (by decide)
    ⟨by decide, by decide, fun p cut => absurd cut (noCut p)⟩ (by decide)
    (fun s stream => by rw [← Option.some.inj stream]; exact Nat.zero_lt_one)
  exact ⟨a', d', run, read, (old _ rfl).trans (by decide)⟩

end Rotation

/-! ## A name that another process takes -/

/-- Something else has the name of the file. -/
structure Taken (a : FileLogAppender) (d : Disk) : Prop where
  there : d.fs.access a.fileName = true
  other : ∀ s, a.ofstream = some s → d.fs.tree.entry (d.place a.fileName) = some .file →
    d.file (d.place a.fileName) ≠ s.file

/-- A line is logged, or other processes make of the disk what they like. -/
inductive FileEvent where
  | line (line : Line)
  | other (d : Disk)

inductive Step (calendar : Calendar) : FileLogAppender × Disk → FileEvent → FileLogAppender × Disk → Prop
  | line {a a' : FileLogAppender} {d d' : Disk} {line : Line} (logged : a.log calendar d line = some (a', d')) :
    Step calendar (a, d) (.line line) (a', d')
  | other {a : FileLogAppender} {d : Disk} (d' : Disk) : Step calendar (a, d) (.other d') (a, d')

/-- The others leave something under the name. -/
def LeavesTaken (s : FileLogAppender × Disk) : FileEvent → Prop
  | .line _ => True
  | .other d => Taken s.1 d

section Replaced

variable {calendar : Calendar} {a a' : FileLogAppender} {d d' : Disk} {line : Line}
  {s t u : FileLogAppender × Disk}

/-- A line leaves what has the name alone. -/
theorem Taken.log (taken : Taken a d) (logged : a.log calendar d line = some (a', d')) :
    Taken a' d' ∧ d'.read a.fileName = d.read a.fileName ∧ a'.fileName = a.fileName := by
  by_cases takes : a.takes line = true
  · rw [log_put takes (.inr taken.there)] at logged
    cases opened : a.ofstream with
    | none =>
      rw [put, opened] at logged
      obtain ⟨rfl, rfl⟩ := Prod.mk.inj (Option.some.inj logged)
      exact ⟨⟨taken.there, fun _ stream => by cases stream⟩, rfl, rfl⟩
    | some s =>
      rw [put_some opened] at logged
      obtain ⟨rfl, rfl⟩ := Prod.mk.inj (Option.some.inj logged)
      have other := taken.other s opened
      refine ⟨⟨?_, fun s' stream isFile => ?_⟩, ?_, rfl⟩
      · rw [Disk.write_fs]
        exact taken.there
      · obtain rfl := Option.some.inj stream
        rw [Disk.write_fs, Disk.write_place] at isFile
        rw [Disk.write_file, Disk.write_place, Disk.write_stream_file]
        exact other isFile
      · rw [Disk.read, Disk.read, Disk.write_fs, Disk.write_place, Disk.write_file]
        split
        · rename_i isFile
          rw [Disk.write_content_ne d s (other isFile)]
        · rfl
  · rw [log_low (Bool.eq_false_of_not_eq_true takes)] at logged
    obtain ⟨rfl, rfl⟩ := Prod.mk.inj (Option.some.inj logged)
    exact ⟨taken, rfl, rfl⟩

/-- Once something else has the name, and as long as the others leave something there, no line changes what is read
under the name, whatever time passes between the lines. -/
theorem replaced {es : List FileEvent} (run : Run (Guarded (Step calendar) LeavesTaken) s es t)
    (taken : Taken s.1 s.2) (line : Line) (logged : Step calendar t (.line line) u) :
    u.2.read s.1.fileName = t.2.read s.1.fileName := by
  have kept : Taken t.1 t.2 ∧ t.1.fileName = s.1.fileName := by
    refine run.invariant (I := fun t => Taken t.1 t.2 ∧ t.1.fileName = s.1.fileName) ?_ ⟨taken, rfl⟩
    rintro t e u ⟨taken, same⟩ ⟨step, leaves⟩
    cases step with
    | line logged =>
      obtain ⟨taken', -, same'⟩ := taken.log logged
      exact ⟨taken', same'.trans same⟩
    | other d' => exact ⟨leaves, same⟩
  cases logged with
  | line logged =>
    rw [← kept.2]
    exact (kept.1.log logged).2.1

/-- An appender whose file was removed, and made anew by someone else, who writes to it between two lines. -/
theorem replaced_once : ∃ (s t u : FileLogAppender × Disk) (theirs : Disk),
    Run (Guarded (Step noDates) LeavesTaken) s [.line (messageLine 50 "one"), .other theirs] t ∧
      Step noDates t (.line (messageLine 300 "three")) u ∧
      u.2.read [97] = t.2.read [97] ∧ t.2.read [97] = some "theirs".toList := by
  obtain ⟨⟨s, d⟩, opened⟩ : ∃ o, bareDisk.openFile [97] .out = some o := ⟨_, rfl⟩
  have there : d.fs.access [97] = true := by
    obtain ⟨rfl, rfl⟩ := Prod.mk.inj (Option.some.inj opened)
    decide
  have placed : d.file (d.place [97]) = 1 := by
    obtain ⟨rfl, rfl⟩ := Prod.mk.inj (Option.some.inj opened)
    rfl
  have isFile : d.fs.tree.entry (d.place [97]) = some .file := by
    obtain ⟨rfl, rfl⟩ := Prod.mk.inj (Option.some.inj opened)
    rfl
  let a : FileLogAppender := ⟨[97], .debug, .create "%m", some ⟨0, .out, 0⟩, 0⟩
  let theirs := d.setContent 1 "theirs".toList
  have taken : Taken a d := by
    refine ⟨there, fun s stream _ => ?_⟩
    rw [← Option.some.inj stream, placed]
    decide
  have first : a.log noDates d (messageLine 50 "one") = some (a.put d 50 _) := log_put (by decide) (.inr there)
  let a' := (a.put d 50 (a.text noDates (messageLine 50 "one"))).1
  have leaves : Taken a' theirs := by
    refine ⟨there, fun s stream _ => ?_⟩
    rw [← Option.some.inj stream]
    change d.file (d.place [97]) ≠ 0
    rw [placed]
    decide
  have run : Run (Guarded (Step noDates) LeavesTaken) (a, d)
      [.line (messageLine 50 "one"), .other theirs] (a', theirs) :=
    .cons ⟨.line first, trivial⟩ (.single ⟨.other theirs, leaves⟩)
  have takes : a'.takes (messageLine 300 "three") = true := by
    rw [(put_same a d 50 _).takes]
    decide
  have logged : a'.log noDates theirs (messageLine 300 "three") = some (a'.put theirs 300 _) :=
    log_put takes (.inr there)
  refine ⟨(a, d), (a', theirs), _, theirs, run, .line logged, replaced run taken _ (.line logged), ?_⟩
  refine (read_eq (d := theirs) isFile).trans (congrArg some ?_)
  change Function.update d.content 1 "theirs".toList (d.file (d.place [97])) = _
  rw [placed]
  exact Function.update_self ..

end Replaced

/-! ## Appenders that share a file -/

section Shared

variable {ι : Type} [DecidableEq ι] {calendar : Calendar} {d : Disk} {fileName : Str} {file : Nat}

/-- The appenders as their constructors leave them, and as they go on. -/
structure Shares (appenders : ι → FileLogAppender) (d : Disk) (fileName : Str) (file : Nat) (pos : ι → Nat) : Prop where
  name : ∀ i, (appenders i).fileName = fileName
  stream : ∀ i, (appenders i).ofstream = some ⟨file, .out, pos i⟩
  there : d.fs.access fileName = true

/-- Lines that go to one appender or another, in any order. -/
def logShared (calendar : Calendar) :
    List (ι × Line) → (ι → FileLogAppender) → Disk → Option ((ι → FileLogAppender) × Disk)
  | [], appenders, d => some (appenders, d)
  | (i, line) :: lines, appenders, d =>
    ((appenders i).log calendar d line).bind fun (a, d) => logShared calendar lines (Function.update appenders i a) d

/-- What an appender is to write. -/
def written (calendar : Calendar) (i : ι) (a : FileLogAppender) (lines : List (ι × Line)) : List Char :=
  (lines.filter fun x => x.1 = i && a.takes x.2).flatMap fun x => a.text calendar x.2

theorem written_congr {a a' : FileLogAppender} (same : a.Same a') (i : ι) (lines : List (ι × Line)) :
    written calendar i a' lines = written calendar i a lines := by
  rw [written, written, same.takes, same.text]

/-- The text of one appender makes the file as long as that appender has written, if it was not longer. -/
theorem Shares.put {appenders : ι → FileLogAppender} {pos : ι → Nat} (shares : Shares appenders d fileName file pos)
    (i : ι) (time : UInt64) (text : List Char) :
    Shares (Function.update appenders i ((appenders i).put d time text).1) ((appenders i).put d time text).2 fileName file
      (Function.update pos i (pos i + text.length)) ∧
    ((appenders i).put d time text).2.content file = overwrite (d.content file) (pos i) text := by
  have put := put_some (shares.stream i) d time text
  rw [put]
  refine ⟨⟨fun j => ?_, fun j => ?_, ?_⟩, ?_⟩
  · by_cases same : j = i
    · rw [same, Function.update_self]
      exact shares.name i
    · rw [Function.update_of_ne same]
      exact shares.name j
  · by_cases same : j = i
    · rw [same, Function.update_self, Function.update_self]
      rfl
    · rw [Function.update_of_ne same, Function.update_of_ne same]
      exact shares.stream j
  · rw [Disk.write_fs]
    exact shares.there
  · exact d.write_content ⟨file, .out, pos i⟩ text

theorem sup_update [Fintype ι] (pos : ι → Nat) (i : ι) (n : Nat) :
    Finset.univ.sup (Function.update pos i (pos i + n)) = max (Finset.univ.sup pos) (pos i + n) := by
  apply le_antisymm
  · refine Finset.sup_le fun j _ => ?_
    by_cases same : j = i
    · rw [same, Function.update_self]
      exact le_max_right _ _
    · rw [Function.update_of_ne same]
      exact le_max_of_le_left (Finset.le_sup (f := pos) (Finset.mem_univ j))
  · have here : ∀ j, Function.update pos i (pos i + n) j ≤ Finset.univ.sup (Function.update pos i (pos i + n)) :=
      fun j => Finset.le_sup (Finset.mem_univ j)
    have own := here i
    rw [Function.update_self] at own
    refine max_le (Finset.sup_le fun j _ => le_trans ?_ (here j)) own
    by_cases same : j = i
    · rw [same, Function.update_self]
      exact Nat.le_add_right _ _
    · rw [Function.update_of_ne same]

/-- Over any lines, the file is as long as the longest of what the appenders have written. -/
theorem Shares.logAll [Fintype ι] (calendar : Calendar) (lines : List (ι × Line)) : ∀ {appenders : ι → FileLogAppender} {d : Disk} {pos : ι → Nat},
    Shares appenders d fileName file pos → (d.content file).length = Finset.univ.sup pos →
    ∃ appenders' d', logShared calendar lines appenders d = some (appenders', d') ∧
      (d'.content file).length = Finset.univ.sup fun i => pos i + (written calendar i (appenders i) lines).length := by
  induction lines with
  | nil => exact fun _ length => ⟨_, _, rfl, length⟩
  | cons first lines ih =>
    obtain ⟨i, line⟩ := first
    intro appenders d pos shares length
    rw [logShared]
    by_cases takes : (appenders i).takes line = true
    · have calm : ¬ Paused (appenders i).lastTime line ∨ d.fs.access (appenders i).fileName = true := by
        rw [shares.name i]
        exact .inr shares.there
      rw [log_put takes calm]
      obtain ⟨next, content⟩ := shares.put i line.event.time ((appenders i).text calendar line)
      have longer : (((appenders i).put d line.event.time ((appenders i).text calendar line)).2.content file).length =
          Finset.univ.sup (Function.update pos i (pos i + ((appenders i).text calendar line).length)) := by
        rw [content, sup_update, ← length]
        by_cases none : (appenders i).text calendar line = []
        · have within : pos i ≤ (d.content file).length := by
            rw [length]
            exact Finset.le_sup (f := pos) (Finset.mem_univ i)
          rw [none, List.length_nil, Nat.add_zero, max_eq_left within]
          rfl
        · exact length_overwrite none
      obtain ⟨appenders', d', run, all⟩ := ih next longer
      refine ⟨appenders', d', run, all.trans (congrArg Finset.univ.sup (funext fun j => ?_))⟩
      by_cases same : j = i
      · subst same
        have kept := put_same (appenders j) d line.event.time ((appenders j).text calendar line)
        rw [Function.update_self, Function.update_self, written_congr kept, written, written,
          List.filter_cons_of_pos (by rw [takes]; simp), List.flatMap_cons, List.length_append, Nat.add_assoc]
      · rw [Function.update_of_ne same, Function.update_of_ne same, written, written,
          List.filter_cons_of_neg (by simp [Ne.symm same])]
    · rw [log_low (Bool.eq_false_of_not_eq_true takes)]
      obtain ⟨appenders', d', run, all⟩ := ih shares length
      have again : Function.update appenders i (appenders i) = appenders := Function.update_eq_self ..
      refine ⟨appenders', d', ?_, all.trans (congrArg Finset.univ.sup (funext fun j => ?_))⟩
      · rw [Option.bind_some]
        dsimp only
        rw [again]
        exact run
      · rw [written, written, List.filter_cons_of_neg]
        rw [Bool.and_eq_true, decide_eq_true_eq]
        rintro ⟨rfl, takes'⟩
        exact takes takes'

/-- Appenders that were constructed for one file. Whatever they log and in whatever order, the file has no more bytes
than the one of them that has written most. -/
theorem shared_length [Fintype ι] (calendar : Calendar) {appenders : ι → FileLogAppender}
    (shares : Shares appenders d fileName file fun _ => 0) (empty : d.content file = []) (lines : List (ι × Line)) :
    ∃ appenders' d', logShared calendar lines appenders d = some (appenders', d') ∧
      (d'.content file).length = Finset.univ.sup fun i => (written calendar i (appenders i) lines).length := by
  have start : (d.content file).length = Finset.univ.sup fun _ : ι => 0 := by
    rw [empty]
    exact (Finset.sup_bot Finset.univ).symm
  obtain ⟨appenders', d', run, length⟩ := shares.logAll calendar lines start
  exact ⟨appenders', d', run, length.trans (congrArg Finset.univ.sup (funext fun i => Nat.zero_add _))⟩

/-- An appender that prints messages to the file `a`. -/
def messages : FileLogAppender := ⟨[97], .debug, .create "%m", none, 0⟩

/-- Two such appenders behind their constructors. -/
theorem shares_two : ∃ first second d,
    (create bareDisk [97] .debug "%m").bind (fun (a, d) => (create d [97] .debug "%m").map fun (b, d) => (a, b, d)) =
      some (first, second, d) ∧
    Shares (fun i : Bool => if i then first else second) d [97] 1 (fun _ => 0) ∧ d.content 1 = [] ∧
    messages.Same first ∧ messages.Same second := by
  refine ⟨_, _, _, rfl, ⟨fun i => ?_, fun i => ?_, by decide⟩, by decide, ⟨rfl, rfl, rfl⟩, ⟨rfl, rfl, rfl⟩⟩
  · cases i <;> rfl
  · cases i <;> rfl

/-- Both write three bytes, and three are left. -/
theorem shared_length_two : ∃ (appenders appenders' : Bool → FileLogAppender) (d d' : Disk),
    logShared noDates [(true, messageLine 300 "one"), (false, messageLine 300 "two")] appenders d =
      some (appenders', d') ∧ (d'.content 1).length = 3 := by
  obtain ⟨first, second, d, -, shares, empty, one, two⟩ := shares_two
  obtain ⟨appenders', d', run, length⟩ := shared_length noDates shares empty
    [(true, messageLine 300 "one"), (false, messageLine 300 "two")]
  have texts : ∀ i : Bool, (written noDates i (if i then first else second)
      [(true, messageLine 300 "one"), (false, messageLine 300 "two")]).length = 3 := by
    intro i
    cases i with
    | true => exact (congrArg List.length (written_congr one true _)).trans (by decide)
    | false => exact (congrArg List.length (written_congr two false _)).trans (by decide)
  exact ⟨_, appenders', d, d', run, length.trans ((congrArg Finset.univ.sup (funext texts)).trans rfl)⟩

end Shared

end FileLogAppender

end Sylar.Log
