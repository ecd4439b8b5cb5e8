import Sylar.Config.Var
import Sylar.Log.Pattern

/-!
# Loggers that the program holds on to

A logger is an object, which the manager knows by a name and the program may keep. Here the manager's map leads from
names to objects, and a logger that is deleted is disabled before it leaves the map. Loggers, appenders and formatters
print.

The listener of `logs` deletes the loggers that it finds both in the old value and in the new one. So a logger that the
program holds prints as the last value that names it says, until two values in a row name it, and nothing but events of
the level `UNUSED` afterwards, whatever becomes of the variable (`printed_after`).
-/

namespace Sylar.Log

open Config

/-! ## Printing -/

/-- The number of a level. -/
def LogLevel.value : LogLevel → Nat
  | unknown => 0
  | debug => 1
  | info => 2
  | warn => 3
  | error => 4
  | fatal => 5
  | unused => 6

/-- The appender of `get_root_appender`. -/
def rootAppender : LogAppender := .create .stdout .debug

section Printing

variable (strftime : String → UInt64 → String) (name : String) (level : LogLevel) (event : LogEvent)

/-- `log` of an appender, with what it writes where: `none` for a text that cannot be told. -/
def LogAppender.log (a : LogAppender) : Option (AppenderType × Option String) :=
  if level.value < a.level.value then none else some (a.type, a.formatter.format strftime name level event "")

/-- `Logger::log`. A logger without appenders uses the one of root. -/
def Logger.log (l : Logger) : List (AppenderType × Option String) :=
  if level.value < l.level.value then []
  else if l.appenders.isEmpty then (rootAppender.log strftime name level event).toList
  else l.appenders.filterMap (LogAppender.log strftime name level event)

/-- The macro `SYLAR_LOG`, which makes an event only for a logger that takes it. -/
def sylarLog (l : Logger) : List (AppenderType × Option String) :=
  if l.level.value ≤ level.value then l.log strftime name level event else []

theorem sylarLog_eq (l : Logger) : sylarLog strftime name level event l = l.log strftime name level event := by
  rw [sylarLog]
  split
  · rfl
  · rename_i low
    rw [Logger.log, if_pos (Nat.lt_of_not_le low)]

/-- A pattern as it works: an illegal one leaves the default. -/
def workingPattern (pattern : String) : String := if isLegalPattern pattern then pattern else ""

/-- What an entry asks an appender to write. -/
def LogAppenderEntry.line (a : LogAppenderEntry) : Option (AppenderType × Option String) :=
  if level.value < a.level.value then none
  else some (a.type, (LogFormatter.create (workingPattern a.formatter)).format strftime name level event "")

/-- What an entry asks a logger to print. -/
def LoggerEntry.lines (e : LoggerEntry) : List (AppenderType × Option String) :=
  if level.value < e.level.value then []
  else if e.appenders.isEmpty then (LogAppenderEntry.line strftime name level event ⟨.stdout, .debug, ""⟩).toList
  else e.appenders.filterMap (LogAppenderEntry.line strftime name level event)

theorem makeAppender_eq (old : LogLevel) (a : LogAppenderEntry) :
    makeAppender old a = ⟨a.type, a.level, .create (workingPattern a.formatter)⟩ := by
  rw [makeAppender, LogAppender.setFormatter, workingPattern, isLegalPattern]
  split <;> rfl

theorem log_makeAppender (old : LogLevel) (a : LogAppenderEntry) :
    (makeAppender old a).log strftime name level event = a.line strftime name level event := by
  rw [makeAppender_eq]
  rfl

theorem log_rootAppender : rootAppender.log strftime name level event =
    LogAppenderEntry.line strftime name level event ⟨.stdout, .debug, ""⟩ := by
  rw [← log_makeAppender strftime name level event .debug]
  rfl

/-- A logger that the listener has configured prints what its entry asks for. -/
theorem log_configuredLogger (old : LogLevel) (e : LoggerEntry) :
    (configuredLogger old e).log strftime name level event = e.lines strftime name level event := by
  have all : LogAppender.log strftime name level event ∘ makeAppender old =
      LogAppenderEntry.line strftime name level event := funext (log_makeAppender strftime name level event old)
  rw [Logger.log, LoggerEntry.lines, configuredLogger, List.isEmpty_map, List.filterMap_map, all, log_rootAppender]

/-- The logger that `del_logger` leaves to those who hold it. -/
def Logger.disabled : Logger := ⟨.unused, []⟩

theorem log_disabled : Logger.disabled.log strftime name level event =
    if level = .unused then (rootAppender.log strftime name level event).toList else [] := by
  cases level <;> rfl

end Printing

/-! ## Loggers as objects -/

/-- The loggers of the program, and the names that the manager knows some of them by. -/
structure Loggers where
  object : Nat → Logger
  next : Nat
  named : AList fun _ : String => Nat
  known : ∀ name id, named.lookup name = some id → id < next
  apart : ∀ name other id, named.lookup name = some id → named.lookup other = some id → name = other

namespace Loggers

def modify (h : Loggers) (id : Nat) (f : Logger → Logger) : Loggers :=
  { h with object := Function.update h.object id (f (h.object id)) }

/-- A new logger. -/
def create (h : Loggers) (name : String) : Loggers where
  object := Function.update h.object h.next .create
  next := h.next + 1
  named := h.named.insert name h.next
  known other id found := by
    by_cases same : other = name
    · rw [same, AList.lookup_insert] at found
      obtain rfl := Option.some.inj found
      exact Nat.lt_succ_self _
    · rw [AList.lookup_insert_ne same] at found
      exact Nat.lt_succ_of_lt (h.known other id found)
  apart one two id first second := by
    have fresh : ∀ {other}, h.named.lookup other ≠ some h.next := fun found => absurd (h.known _ _ found) (Nat.lt_irrefl _)
    by_cases same : one = name <;> by_cases same' : two = name
    · rw [same, same']
    · rw [same, AList.lookup_insert] at first
      rw [AList.lookup_insert_ne same', ← first] at second
      exact absurd second fresh
    · rw [same', AList.lookup_insert] at second
      rw [AList.lookup_insert_ne same, ← second] at first
      exact absurd first fresh
    · rw [AList.lookup_insert_ne same] at first
      rw [AList.lookup_insert_ne same'] at second
      exact h.apart one two id first second

/-- The manager forgets a name. -/
def forget (h : Loggers) (name : String) : Loggers where
  object := h.object
  next := h.next
  named := h.named.erase name
  known other id found := by
    by_cases same : other = name
    · rw [same, AList.lookup_erase] at found
      cases found
    · rw [AList.lookup_erase_ne same] at found
      exact h.known other id found
  apart one two id first second := by
    have other : ∀ {one}, (h.named.erase name).lookup one = some id → h.named.lookup one = some id := by
      intro one found
      by_cases same : one = name
      · rw [same, AList.lookup_erase] at found
        cases found
      · rwa [AList.lookup_erase_ne same] at found
    exact h.apart one two id (other first) (other second)

/-- `get_logger`. -/
def getLogger (h : Loggers) (name : String) : Nat × Loggers :=
  match h.named.lookup name with
  | some id => (id, h)
  | none => (h.next, h.create name)

/-- `del_logger`. -/
def delLogger (h : Loggers) (name : String) : Bool × Loggers :=
  if name = LoggerManager.rootName then (false, h)
  else
    let (id, h) := h.getLogger name
    let h := h.modify id fun l => (l.setLevel .unused).clearAppenders
    (true, h.forget name)

/-- The body of the loop over the new value. -/
def configure (level : LogLevel) (h : Loggers) (e : LoggerEntry) : Loggers :=
  let (id, h) := h.getLogger e.name
  h.modify id fun l =>
    e.appenders.foldl (fun l a => l.addAppender (makeAppender level a)) (l.setLevel e.level).clearAppenders

/-- The body of the loop over the old value. -/
def deleteOld (new : LoggerSet) (h : Loggers) (e : LoggerEntry) : Loggers :=
  if new.has e.name then (h.delLogger e.name).2 else h

/-- The listener of `LogIniter`. -/
def onLogsChange (level : LogLevel) (old new : LoggerSet) (h : Loggers) : Loggers :=
  old.entries.foldl (deleteOld new) (new.entries.foldl (configure level) h)

/-! ## What becomes of an object -/

/-- A logger that the manager knows by a name. -/
structure Holds (h : Loggers) (name : String) (id : Nat) (l : Logger) : Prop where
  named : h.named.lookup name = some id
  object : h.object id = l

/-- A logger that the manager has forgotten. -/
structure Lost (h : Loggers) (id : Nat) (l : Logger) : Prop where
  named : ∀ name, h.named.lookup name ≠ some id
  known : id < h.next
  object : h.object id = l

section Objects

variable {h : Loggers} {name other : String} {id : Nat} {l : Logger} {e : LoggerEntry} {level : LogLevel}

theorem Holds.create (holds : h.Holds name id l) (free : h.named.lookup other = none) : (h.create other).Holds name id l where
  named := by
    have ne : name ≠ other := fun same => by
      rw [← same, holds.named] at free
      cases free
    exact (AList.lookup_insert_ne ne).trans holds.named
  object := (Function.update_of_ne (Nat.ne_of_lt (h.known name id holds.named)) ..).trans holds.object

theorem Lost.create (lost : h.Lost id l) (other : String) : (h.create other).Lost id l where
  named name found := by
    by_cases same : name = other
    · rw [same] at found
      have new : some h.next = some id := (AList.lookup_insert ..).symm.trans found
      exact absurd (Option.some.inj new) (Nat.ne_of_gt lost.known)
    · exact lost.named name ((AList.lookup_insert_ne same).symm.trans found)
  known := Nat.lt_succ_of_lt lost.known
  object := (Function.update_of_ne (Nat.ne_of_lt lost.known) ..).trans lost.object

/-- `get_logger` answers the logger of the name, and leaves the others alone. -/
theorem getLogger_spec (h : Loggers) (name : String) :
    (h.getLogger name).2.named.lookup name = some (h.getLogger name).1 ∧
      (∀ {other id l}, h.Holds other id l → (h.getLogger name).2.Holds other id l) ∧
      ∀ {id l}, h.Lost id l → (h.getLogger name).2.Lost id l := by
  rw [getLogger]
  cases found : h.named.lookup name with
  | some id => exact ⟨found, fun holds => holds, fun lost => lost⟩
  | none => exact ⟨AList.lookup_insert .., fun holds => holds.create found, fun lost => lost.create name⟩

theorem Holds.modify_self (holds : h.Holds name id l) (f : Logger → Logger) : (h.modify id f).Holds name id (f l) where
  named := holds.named
  object := by
    rw [← holds.object]
    exact Function.update_self ..

theorem Holds.modify_ne {id' : Nat} (holds : h.Holds name id l) (ne : id ≠ id') (f : Logger → Logger) :
    (h.modify id' f).Holds name id l where
  named := holds.named
  object := (Function.update_of_ne ne ..).trans holds.object

theorem Lost.modify {id' : Nat} (lost : h.Lost id l) (used : h.named.lookup name = some id') (f : Logger → Logger) :
    (h.modify id' f).Lost id l where
  named := lost.named
  known := lost.known
  object := by
    have ne : id ≠ id' := fun same => lost.named name (used.trans (congrArg some same.symm))
    exact (Function.update_of_ne ne ..).trans lost.object

theorem Holds.configure (holds : h.Holds name id l) (level : LogLevel) (e : LoggerEntry) :
    (h.configure level e).Holds name id (if e.name = name then configuredLogger level e else l) := by
  obtain ⟨named, kept, -⟩ := h.getLogger_spec e.name
  rw [Loggers.configure]
  dsimp only
  split
  · rename_i same
    have here := kept holds
    rw [same] at named
    have eq : id = (h.getLogger e.name).1 := by
      rw [same]
      exact Option.some.inj (here.named.symm.trans (same ▸ named))
    rw [← eq]
    have made := here.modify_self fun l =>
      e.appenders.foldl (fun l a => l.addAppender (makeAppender level a)) (l.setLevel e.level).clearAppenders
    rw [addAppenders_eq] at made
    exact made
  · rename_i ne
    refine (kept holds).modify_ne (fun same => ne ?_) _
    exact (h.getLogger e.name).2.apart _ _ id (named.trans (congrArg some same.symm)) (kept holds).named

theorem Lost.configure (lost : h.Lost id l) (level : LogLevel) (e : LoggerEntry) : (h.configure level e).Lost id l := by
  obtain ⟨named, -, kept⟩ := h.getLogger_spec e.name
  rw [Loggers.configure]
  exact (kept lost).modify named _

/-- The logger of a name is disabled, and then forgotten. -/
theorem Holds.delLogger_self (holds : h.Holds name id l) (notRoot : name ≠ LoggerManager.rootName) :
    (h.delLogger name).2.Lost id .disabled := by
  obtain ⟨named, kept, -⟩ := h.getLogger_spec name
  have here := kept holds
  have eq : id = (h.getLogger name).1 := Option.some.inj (here.named.symm.trans named)
  rw [delLogger, if_neg notRoot]
  dsimp only
  rw [← eq]
  have off := here.modify_self fun l => (l.setLevel .unused).clearAppenders
  refine ⟨fun other found => ?_, (h.getLogger name).2.known _ _ here.named, off.object⟩
  by_cases same : other = name
  · rw [same] at found
    cases (AList.lookup_erase ..).symm.trans found
  · have found' := (AList.lookup_erase_ne same).symm.trans found
    exact same ((h.getLogger name).2.apart _ _ id found' here.named)

theorem Holds.delLogger_ne (holds : h.Holds name id l) (ne : name ≠ other) : (h.delLogger other).2.Holds name id l := by
  obtain ⟨named, kept, -⟩ := h.getLogger_spec other
  have here := kept holds
  rw [delLogger]
  split
  · exact holds
  · have apart : id ≠ (h.getLogger other).1 := fun same =>
      ne ((h.getLogger other).2.apart _ _ id here.named (named.trans (congrArg some same.symm)))
    have kept := here.modify_ne apart fun l => (l.setLevel .unused).clearAppenders
    exact ⟨(AList.lookup_erase_ne ne).trans kept.named, kept.object⟩

theorem Lost.delLogger (lost : h.Lost id l) (other : String) : (h.delLogger other).2.Lost id l := by
  obtain ⟨named, -, kept⟩ := h.getLogger_spec other
  rw [Loggers.delLogger]
  split
  · exact lost
  · have kept := (kept lost).modify named fun l => (l.setLevel .unused).clearAppenders
    refine ⟨fun name found => ?_, kept.known, kept.object⟩
    by_cases same : name = other
    · rw [same] at found
      cases (AList.lookup_erase ..).symm.trans found
    · exact kept.named name ((AList.lookup_erase_ne same).symm.trans found)

end Objects

/-! ## What a change does -/

end Loggers

/-- The entry of a name. -/
def LoggerSet.entry (s : LoggerSet) (name : String) : Option LoggerEntry := s.entries.find? fun e => e.name = name

namespace Loggers

section Change

variable {h : Loggers} {name : String} {id : Nat} {l : Logger} {level : LogLevel} {old new : LoggerSet}

theorem Lost.foldl {α : Type} {f : Loggers → α → Loggers} (keep : ∀ {h : Loggers} a, h.Lost id l → (f h a).Lost id l)
    (as : List α) : ∀ {h : Loggers}, h.Lost id l → (as.foldl f h).Lost id l := by
  induction as with
  | nil => exact fun lost => lost
  | cons a as ih => exact fun lost => ih (keep a lost)

theorem Lost.deleteOld (new : LoggerSet) (e : LoggerEntry) (lost : h.Lost id l) : (h.deleteOld new e).Lost id l := by
  rw [Loggers.deleteOld]
  split
  · exact lost.delLogger e.name
  · exact lost

/-- What the manager has forgotten no change finds again. -/
theorem Lost.change (lost : h.Lost id l) : (h.onLogsChange level old new).Lost id l :=
  Lost.foldl (fun e lost => lost.deleteOld new e) _ (Lost.foldl (fun e lost => lost.configure level e) _ lost)

theorem Holds.configureAll (level : LogLevel) (entries : List LoggerEntry) :
    ∀ {h : Loggers} {l : Logger}, h.Holds name id l → (entries.map LoggerEntry.name).Nodup →
      (entries.foldl (Loggers.configure level) h).Holds name id
        ((entries.find? fun e => e.name = name).elim l (configuredLogger level)) := by
  induction entries with
  | nil => exact fun holds _ => holds
  | cons e entries ih =>
    intro h l holds nodup
    rw [List.map_cons, List.nodup_cons] at nodup
    have first := holds.configure level e
    have rest := ih first nodup.2
    rw [List.foldl_cons, List.find?_cons]
    by_cases same : e.name = name
    · have none : entries.find? (fun e => e.name = name) = none := by
        rw [List.find?_eq_none]
        intro e' mem eq
        exact nodup.1 (List.mem_map.mpr ⟨e', mem, (of_decide_eq_true eq).trans same.symm⟩)
      rw [none, if_pos same] at rest
      rw [decide_eq_true same]
      exact rest
    · rw [if_neg same] at rest
      rw [decide_eq_false same]
      exact rest

theorem Holds.deleteAll (new : LoggerSet) (notRoot : name ≠ LoggerManager.rootName) (entries : List LoggerEntry) :
    ∀ {h : Loggers}, h.Holds name id l →
      if new.has name ∧ name ∈ entries.map LoggerEntry.name then
        (entries.foldl (Loggers.deleteOld new) h).Lost id .disabled
      else (entries.foldl (Loggers.deleteOld new) h).Holds name id l := by
  induction entries with
  | nil =>
    intro h holds
    rw [if_neg fun both => List.not_mem_nil both.2]
    exact holds
  | cons e entries ih =>
    intro h holds
    rw [List.foldl_cons, List.map_cons]
    by_cases both : new.has name ∧ name = e.name
    · have lost : (h.deleteOld new e).Lost id .disabled := by
        rw [Loggers.deleteOld, ← both.2, if_pos both.1]
        exact holds.delLogger_self notRoot
      rw [if_pos ⟨both.1, List.mem_cons.mpr (.inl both.2)⟩]
      exact Lost.foldl (fun e lost => lost.deleteOld new e) _ lost
    · have kept : (h.deleteOld new e).Holds name id l := by
        rw [Loggers.deleteOld]
        split
        · rename_i has
          exact holds.delLogger_ne fun same => both ⟨same ▸ has, same⟩
        · exact holds
      have rest := ih kept
      have same : (new.has name ∧ name ∈ e.name :: entries.map LoggerEntry.name) ↔
          new.has name ∧ name ∈ entries.map LoggerEntry.name := by
        rw [List.mem_cons]
        exact ⟨fun ⟨has, mem⟩ => ⟨has, mem.resolve_left fun same => both ⟨has, same⟩⟩, fun ⟨has, mem⟩ => ⟨has, .inr mem⟩⟩
      rw [if_congr same rfl rfl]
      exact rest

/-- A logger that is named twice in a row is disabled and forgotten; otherwise it is as the new value says, if that
names it. -/
theorem Holds.change (holds : h.Holds name id l) (level : LogLevel) (old new : LoggerSet) (notRoot : name ≠ LoggerManager.rootName) :
    if old.has name ∧ new.has name then (h.onLogsChange level old new).Lost id .disabled
    else (h.onLogsChange level old new).Holds name id ((new.entry name).elim l (configuredLogger level)) := by
  have configured := holds.configureAll level new.entries new.names_nodup
  have deleted := configured.deleteAll new notRoot old.entries
  have same : (old.has name ∧ new.has name) ↔ new.has name ∧ name ∈ old.entries.map LoggerEntry.name := by
    rw [and_comm]
    exact and_congr_right fun _ => LoggerSet.has_iff
  rw [if_congr same rfl rfl]
  exact deleted

end Change

end Loggers

/-! ## Any number of changes -/

/-- The variable `logs` in a program whose loggers are held. -/
def heldLogsVar (level : LogLevel) (value : LoggerSet) : ConfigVar LoggerSet Loggers :=
  ⟨value, [(1, fun old new h => some (h.onLogsChange level old new))], List.pairwise_singleton _ _⟩

/-- `from_string` with one text behind the other; `none` where a listener throws. -/
def updateAll (convert : String → Option LoggerSet) :
    List String → ConfigVar LoggerSet Loggers → Loggers → Option (ConfigVar LoggerSet Loggers × Loggers)
  | [], var, h => some (var, h)
  | text :: texts, var, h =>
    let updated := (var.fromString convert text h).2
    updated.world.bind fun h => updateAll convert texts updated.var h

/-- The values that `set_value` does not take for the one it has. -/
def effective (value : LoggerSet) : List LoggerSet → List LoggerSet
  | [] => []
  | new :: values => if new == value then effective value values else new :: effective new values

/-- No two values in a row name a logger. -/
def NeverTwice (name : String) (values : List LoggerSet) : Prop :=
  values.IsChain fun old new => ¬ (old.has name = true ∧ new.has name = true)

instance (name : String) (values : List LoggerSet) : Decidable (NeverTwice name values) :=
  inferInstanceAs (Decidable (List.IsChain _ values))

section Run

variable {convert : String → Option LoggerSet} {level : LogLevel} {name : String} {id : Nat} {l : Logger}

theorem fromString_some {text : String} {new : LoggerSet} (converted : convert text = some new) (value : LoggerSet)
    (h : Loggers) : ((heldLogsVar level value).fromString convert text h).2 =
      if new == value then ⟨heldLogsVar level value, [], some h⟩
      else ⟨heldLogsVar level new, [⟨1, value, new⟩], some (h.onLogsChange level value new)⟩ := by
  rw [ConfigVar.fromString, converted]
  rfl

theorem fromString_none {text : String} (failed : convert text = none) (value : LoggerSet) (h : Loggers) :
    ((heldLogsVar level value).fromString convert text h).2 = ⟨heldLogsVar level value, [], some h⟩ := by
  rw [ConfigVar.fromString, failed]

theorem updateAll_lost (convert : String → Option LoggerSet) (level : LogLevel) (texts : List String) : ∀ (value : LoggerSet) (h : Loggers), h.Lost id l →
    ∃ var h', updateAll convert texts (heldLogsVar level value) h = some (var, h') ∧ h'.Lost id l := by
  induction texts with
  | nil => exact fun value h lost => ⟨_, h, rfl, lost⟩
  | cons text texts ih =>
    intro value h lost
    rw [updateAll]
    cases converted : convert text with
    | none =>
      rw [fromString_none converted]
      exact ih value h lost
    | some new =>
      rw [fromString_some converted]
      split
      · exact ih value h lost
      · exact ih new _ lost.change

/-- What becomes of the logger that is known by a name, over any updates of the variable. -/
theorem updateAll_holds (convert : String → Option LoggerSet) (level : LogLevel) (notRoot : name ≠ LoggerManager.rootName) (texts : List String) :
    ∀ (value : LoggerSet) (h : Loggers) (l : Logger), h.Holds name id l →
      ∃ var h', updateAll convert texts (heldLogsVar level value) h = some (var, h') ∧
        (NeverTwice name (value :: effective value (texts.filterMap convert)) → h'.Holds name id
          ((((effective value (texts.filterMap convert)).filterMap (LoggerSet.entry · name)).getLast?).elim l
            (configuredLogger level))) ∧
        (¬ NeverTwice name (value :: effective value (texts.filterMap convert)) → h'.Lost id .disabled) := by
  induction texts with
  | nil => exact fun value h l holds => ⟨_, h, rfl, fun _ => holds, fun not => absurd (List.isChain_singleton _) not⟩
  | cons text texts ih =>
    intro value h l holds
    rw [updateAll]
    cases converted : convert text with
    | none =>
      rw [fromString_none converted, List.filterMap_cons_none converted]
      exact ih value h l holds
    | some new =>
      rw [fromString_some converted, List.filterMap_cons_some converted, effective]
      split
      · exact ih value h l holds
      · have change := holds.change level value new notRoot
        by_cases both : value.has name = true ∧ new.has name = true
        · rw [if_pos both] at change
          obtain ⟨var, h', run, lost⟩ := updateAll_lost convert level texts new _ change
          refine ⟨var, h', run, fun apart => ?_, fun _ => lost⟩
          exact absurd both (List.isChain_cons_cons.mp apart).1
        · rw [if_neg both] at change
          obtain ⟨var, h', run, apart, together⟩ := ih new _ _ change
          refine ⟨var, h', run, fun chain => ?_, fun not => together fun chain => not ?_⟩
          · have rest := apart (List.isChain_cons_cons.mp chain).2
            rw [List.filterMap_cons]
            cases entry : new.entry name with
            | none =>
              rw [entry] at rest
              exact rest
            | some e =>
              rw [entry] at rest
              rw [List.getLast?_cons]
              cases last : ((effective new (texts.filterMap convert)).filterMap (LoggerSet.entry · name)).getLast? with
              | none =>
                rw [last] at rest
                exact rest
              | some e' =>
                rw [last] at rest
                exact rest
          · exact List.isChain_cons_cons.mpr ⟨both, chain⟩

theorem neverTwice_empty (values : List LoggerSet) : NeverTwice name (.empty :: values) ↔ NeverTwice name values := by
  cases values with
  | nil => exact iff_of_true (List.isChain_singleton _) List.isChain_nil
  | cons new values =>
    rw [NeverTwice, List.isChain_cons_cons]
    exact and_iff_right fun both => Bool.false_ne_true both.1

/-- A logger that was obtained before the first update. It prints as the last value that names it says, or as it did
where none does; but once two values in a row have named it, it prints the events of `UNUSED` at most, and
`get_logger` knows it no more. -/
theorem printed_after (convert : String → Option LoggerSet) (texts : List String) (level : LogLevel) {h : Loggers}
    (held : h.named.lookup name = some id) (notRoot : name ≠ LoggerManager.rootName) :
    ∃ var h', updateAll convert texts (heldLogsVar level .empty) h = some (var, h') ∧
      (h'.named.lookup name = some id ↔ NeverTwice name (effective .empty (texts.filterMap convert))) ∧
      ∀ strftime given event, (h'.object id).log strftime name given event =
        if NeverTwice name (effective .empty (texts.filterMap convert)) then
          (((effective .empty (texts.filterMap convert)).filterMap (LoggerSet.entry · name)).getLast?).elim
            ((h.object id).log strftime name given event) (LoggerEntry.lines strftime name given event)
        else if given = .unused then (rootAppender.log strftime name given event).toList else [] := by
  obtain ⟨var, h', run, apart, together⟩ :=
    updateAll_holds convert level notRoot texts .empty h _ ⟨held, rfl⟩
  rw [neverTwice_empty] at apart together
  refine ⟨var, h', run, ?_, fun strftime given event => ?_⟩
  · constructor
    · intro known
      by_contra twice
      exact (together twice).named name known
    · exact fun chain => (apart chain).named
  · split
    · rename_i chain
      rw [(apart chain).object]
      cases ((effective .empty (texts.filterMap convert)).filterMap (LoggerSet.entry · name)).getLast? with
      | none => rfl
      | some e => exact log_configuredLogger strftime name given event level e
    · rename_i twice
      rw [(together twice).object, log_disabled]

end Run

/-- A manager that knows no logger. -/
def Loggers.empty : Loggers :=
  ⟨fun _ => .create, 0, ∅, fun _ _ => nofun, fun _ _ _ => nofun⟩

/-- The constructor of `LoggerManager`. -/
def Loggers.init : Loggers :=
  (empty.create LoggerManager.rootName).modify 0 fun l => (l.setLevel .debug).addAppender rootAppender

/-- One logger, and the same with another one. -/
def growing (text : String) : Option LoggerSet :=
  if text = "one" then some (only "system" .info)
  else some ⟨[⟨"http", .debug, []⟩, ⟨"system", .info, []⟩], by decide⟩

/-- A logger that a second value names as the first did. -/
theorem printed_after_growing : ∃ var h',
    updateAll growing ["one", "two"] (heldLogsVar .debug .empty) (Loggers.init.getLogger "system").2 = some (var, h') ∧
    ∀ strftime event, sylarLog strftime "system" .fatal event (h'.object 1) = [] := by
  have held : (Loggers.init.getLogger "system").2.named.lookup "system" = some 1 := by decide
  obtain ⟨var, h', run, -, prints⟩ := printed_after growing ["one", "two"] .debug held (by decide)
  have twice : ¬ NeverTwice "system" (effective .empty (["one", "two"].filterMap growing)) := by decide
  refine ⟨var, h', run, fun strftime event => ?_⟩
  rw [sylarLog_eq, prints, if_neg twice]
  rfl

end Sylar.Log
