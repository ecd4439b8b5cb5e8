import Sylar.Log.Basic

/-!
# The configuration of the loggers

The model of `LoggerEntry`, of the sets of them that the variable `logs` holds, and of the listener of
`LogIniter`. The listener configures the loggers of the new value and then deletes loggers: those of the
old value that it finds in the new one. The sense of the test is the wrong way round, so a logger named
in both values is configured and then deleted, and a logger named only in the old one stays.
`reconciled_iff` says exactly when the outcome is right all the same.
-/

namespace Sylar.Log

/-- `LogAppenderEntry`. -/
structure LogAppenderEntry where
  type : AppenderType
  level : LogLevel
  formatter : String
  deriving DecidableEq, Repr

/-- `LoggerEntry`. Its `<` and `==` look at the name only. -/
structure LoggerEntry where
  name : String
  level : LogLevel
  appenders : List LogAppenderEntry
  deriving DecidableEq, Repr

/-- `std::set<LoggerEntry>`. -/
structure LoggerSet where
  entries : List LoggerEntry
  ordered : entries.Pairwise fun a b => a.name < b.name
  deriving DecidableEq

namespace LoggerSet

def empty : LoggerSet := ⟨[], List.Pairwise.nil⟩

def names (s : LoggerSet) : List String := s.entries.map LoggerEntry.name

/-- `find`, which compares names. -/
def has (s : LoggerSet) (name : String) : Bool := s.names.contains name

/-- `==` of the sets: their entries are compared by name. -/
instance : BEq LoggerSet := ⟨fun a b => a.names == b.names⟩

theorem beq_iff_names {a b : LoggerSet} : (a == b) = true ↔ a.names = b.names := by
  show (a.names == b.names) = true ↔ _
  exact beq_iff_eq

instance : ReflBEq LoggerSet := ⟨beq_iff_names.mpr rfl⟩

theorem has_iff {s : LoggerSet} {name : String} : s.has name = true ↔ name ∈ s.names :=
  List.contains_iff_mem

theorem name_mem {s : LoggerSet} {e : LoggerEntry} (mem : e ∈ s.entries) : e.name ∈ s.names :=
  List.mem_map_of_mem mem

/-- A name has one entry. -/
theorem names_nodup (s : LoggerSet) : s.names.Nodup :=
  List.Pairwise.map LoggerEntry.name (fun _ _ lt => ne_of_lt lt) s.ordered

end LoggerSet

/-! ## The listener -/

/-- The appender made for an entry; `level` is what its `level_` held before. -/
def makeAppender (level : LogLevel) (a : LogAppenderEntry) : LogAppender :=
  ((LogAppender.create a.type level).setLevel a.level).setFormatter a.formatter

/-- The body of the loop over the new value. -/
def configure (level : LogLevel) (m : LoggerManager) (e : LoggerEntry) : LoggerManager :=
  let (logger, m) := m.getLogger e.name
  let logger := (logger.setLevel e.level).clearAppenders
  m.store e.name (e.appenders.foldl (fun logger a => logger.addAppender (makeAppender level a)) logger)

/-- The body of the loop over the old value. -/
def deleteOld (new : LoggerSet) (m : LoggerManager) (e : LoggerEntry) : LoggerManager :=
  if new.has e.name then (m.delLogger e.name).2 else m

/-- The listener of `LogIniter`. -/
def onLogsChange (level : LogLevel) (old new : LoggerSet) (m : LoggerManager) : LoggerManager :=
  old.entries.foldl (deleteOld new) (new.entries.foldl (configure level) m)

/-! ## What the listener is for -/

/-- An appender is what its entry says. -/
structure LogAppender.Made (a : LogAppender) (e : LogAppenderEntry) : Prop where
  type : a.type = e.type
  level : a.level = e.level
  formatter : a.formatter.pattern = effectivePattern e.formatter

/-- A logger has the level of an entry and exactly its appenders, in order. -/
structure Logger.Configured (l : Logger) (e : LoggerEntry) : Prop where
  level : l.level = e.level
  appenders : List.Forall₂ LogAppender.Made l.appenders e.appenders

/-- The manager is reconciled with a change from `old` to `new`. -/
structure LoggerManager.Reconciled (old new : LoggerSet) (m : LoggerManager) : Prop where
  configured : ∀ e ∈ new.entries, ∃ l, m.lookup e.name = some l ∧ l.Configured e
  deleted : ∀ e ∈ old.entries, e.name ∉ new.names → e.name ≠ LoggerManager.rootName →
    m.lookup e.name = none

/-! ## What it does -/

/-- The logger the first loop leaves for an entry. -/
def configuredLogger (level : LogLevel) (e : LoggerEntry) : Logger :=
  ⟨e.level, e.appenders.map (makeAppender level)⟩

theorem addAppenders_eq (level : LogLevel) (entries : List LogAppenderEntry) : ∀ l : Logger,
    entries.foldl (fun logger a => logger.addAppender (makeAppender level a)) l =
      { l with appenders := l.appenders ++ entries.map (makeAppender level) } := by
  induction entries with
  | nil => intro l; simp
  | cons a entries ih =>
    intro l
    rw [List.foldl_cons, ih]
    simp [Logger.addAppender]

theorem configure_eq (level : LogLevel) (m : LoggerManager) (e : LoggerEntry) :
    configure level m e = (m.getLogger e.name).2.store e.name (configuredLogger level e) := by
  unfold configure
  dsimp only
  rw [addAppenders_eq]
  rfl

theorem lookup_configure_ne (level : LogLevel) (m : LoggerManager) {e : LoggerEntry} {name : String}
    (ne : name ≠ e.name) : (configure level m e).lookup name = m.lookup name := by
  rw [configure_eq, LoggerManager.lookup_store_ne _ ne, LoggerManager.lookup_getLogger_ne m ne]

/-- The first loop leaves the loggers it does not name alone. -/
theorem lookup_configureAll_ne (level : LogLevel) (entries : List LoggerEntry) {name : String} :
    ∀ m : LoggerManager, name ∉ entries.map LoggerEntry.name →
      (entries.foldl (configure level) m).lookup name = m.lookup name := by
  induction entries with
  | nil => exact fun _ _ => rfl
  | cons e entries ih =>
    intro m free
    rw [List.map_cons, List.mem_cons, not_or] at free
    rw [List.foldl_cons, ih _ free.2, lookup_configure_ne level m free.1]

/-- The first loop configures the loggers it names. -/
theorem lookup_configureAll (level : LogLevel) (entries : List LoggerEntry) {e : LoggerEntry} :
    ∀ m : LoggerManager, (entries.map LoggerEntry.name).Nodup → e ∈ entries →
      (entries.foldl (configure level) m).lookup e.name = some (configuredLogger level e) := by
  induction entries with
  | nil => intro m _ mem; cases mem
  | cons x entries ih =>
    intro m nodup mem
    rw [List.map_cons, List.nodup_cons] at nodup
    rw [List.foldl_cons]
    rcases List.mem_cons.mp mem with rfl | mem
    · rw [lookup_configureAll_ne level entries _ nodup.1, configure_eq, LoggerManager.lookup_store_self]
    · exact ih _ nodup.2 mem

/-- The second loop deletes what it finds in the new value, but for root. -/
theorem lookup_deleteOld (new : LoggerSet) (entries : List LoggerEntry) {name : String} :
    ∀ m : LoggerManager, (entries.foldl (deleteOld new) m).lookup name =
      if name ∈ entries.map LoggerEntry.name ∧ name ∈ new.names ∧ name ≠ LoggerManager.rootName then none
      else m.lookup name := by
  induction entries with
  | nil => intro m; simp
  | cons e entries ih =>
    intro m
    rw [List.foldl_cons, ih]
    simp only [List.map_cons, List.mem_cons]
    by_cases later : name ∈ entries.map LoggerEntry.name ∧ name ∈ new.names ∧ name ≠ LoggerManager.rootName
    · rw [if_pos later, if_pos ⟨.inr later.1, later.2⟩]
    · rw [if_neg later]
      unfold deleteOld
      by_cases here : name = e.name
      · subst here
        by_cases found : e.name ∈ new.names
        · rw [if_pos (LoggerSet.has_iff.mpr found)]
          by_cases root : e.name = LoggerManager.rootName
          · rw [if_neg (fun all => all.2.2 root), root, LoggerManager.delLogger_root]
          · rw [if_pos ⟨.inl rfl, found, root⟩, LoggerManager.lookup_delLogger_self m root]
        · rw [if_neg (fun has => found (LoggerSet.has_iff.mp has)), if_neg (fun all => found all.2.1)]
      · have notBoth : ¬ ((name = e.name ∨ name ∈ entries.map LoggerEntry.name) ∧ name ∈ new.names ∧
            name ≠ LoggerManager.rootName) := fun all => later ⟨all.1.resolve_left here, all.2⟩
        rw [if_neg notBoth]
        split
        · exact LoggerManager.lookup_delLogger_ne m here
        · rfl

/-- The manager after the listener, logger by logger. -/
theorem lookup_onLogsChange (level : LogLevel) (old new : LoggerSet) (m : LoggerManager) :
    (∀ e ∈ new.entries, (onLogsChange level old new m).lookup e.name =
      if e.name ∈ old.names ∧ e.name ≠ LoggerManager.rootName then none
      else some (configuredLogger level e)) ∧
    ∀ name, name ∉ new.names → (onLogsChange level old new m).lookup name = m.lookup name := by
  refine ⟨fun e mem => ?_, fun name free => ?_⟩
  · rw [onLogsChange, lookup_deleteOld, lookup_configureAll level _ m new.names_nodup mem]
    by_cases both : e.name ∈ old.names ∧ e.name ≠ LoggerManager.rootName
    · rw [if_pos both, if_pos ⟨both.1, LoggerSet.name_mem mem, both.2⟩]
    · rw [if_neg both, if_neg fun all => both ⟨all.1, all.2.2⟩]
  · rw [onLogsChange, lookup_deleteOld, if_neg fun all => free all.2.1,
      lookup_configureAll_ne level _ m free]

/-- An appender is right exactly when the pattern of its entry is legal: the default formatter is not
replaced by an illegal one. -/
theorem made_makeAppender_iff (level : LogLevel) (e : LogAppenderEntry) :
    (makeAppender level e).Made e ↔ isLegalPattern e.formatter = true := by
  unfold makeAppender LogAppender.setFormatter
  dsimp only
  split
  · rename_i legal
    exact iff_of_true ⟨rfl, rfl, create_pattern legal⟩ legal
  · rename_i illegal
    refine iff_of_false ?_ illegal
    rintro ⟨-, -, same⟩
    have default : (LogFormatter.create "").pattern = defaultPattern := create_pattern (by decide)
    have pattern : effectivePattern e.formatter = defaultPattern := same.symm.trans default
    refine illegal ?_
    have legal : isLegalPattern "" = true := by decide
    unfold isLegalPattern LogFormatter.create at legal
    unfold LogFormatter.create
    rw [pattern]
    exact legal

theorem configured_iff (level : LogLevel) (e : LoggerEntry) :
    (configuredLogger level e).Configured e ↔ ∀ a ∈ e.appenders, isLegalPattern a.formatter = true := by
  have made : List.Forall₂ LogAppender.Made (e.appenders.map (makeAppender level)) e.appenders ↔
      ∀ a ∈ e.appenders, isLegalPattern a.formatter = true := by
    rw [List.forall₂_map_left_iff, List.forall₂_same]
    exact forall₂_congr fun a _ => made_makeAppender_iff level a
  exact ⟨fun h => made.mp h.appenders, fun legal => ⟨rfl, made.mpr legal⟩⟩

/-! ## When the outcome is right -/

/-- No logger but root is named in both values, the patterns of the new one are legal, and no logger
that only the old one names, but root, is in the manager. -/
structure Unaffected (old new : LoggerSet) (m : LoggerManager) : Prop where
  apart : ∀ name ∈ new.names, name ∈ old.names → name = LoggerManager.rootName
  legal : ∀ e ∈ new.entries, ∀ a ∈ e.appenders, isLegalPattern a.formatter = true
  absent : ∀ name ∈ old.names, name ∉ new.names → name ≠ LoggerManager.rootName → m.lookup name = none

/-- The listener reconciles the manager with a change exactly when it deletes nothing it should keep
and there is nothing it should delete. -/
theorem reconciled_iff (level : LogLevel) (old new : LoggerSet) (m : LoggerManager) :
    (onLogsChange level old new m).Reconciled old new ↔ Unaffected old new m := by
  obtain ⟨named, others⟩ := lookup_onLogsChange level old new m
  constructor
  · intro r
    have kept : ∀ e ∈ new.entries, ¬ (e.name ∈ old.names ∧ e.name ≠ LoggerManager.rootName) := by
      intro e mem both
      obtain ⟨l, found, -⟩ := r.configured e mem
      rw [named e mem, if_pos both] at found
      cases found
    refine ⟨fun name mem inOld => ?_, fun e mem => ?_, fun name inOld notNew notRoot => ?_⟩
    · obtain ⟨e, entry, rfl⟩ := List.mem_map.mp mem
      exact not_not.mp fun ne => kept e entry ⟨inOld, ne⟩
    · obtain ⟨l, found, configured⟩ := r.configured e mem
      rw [named e mem, if_neg (kept e mem)] at found
      obtain rfl := Option.some.inj found
      exact (configured_iff level e).mp configured
    · obtain ⟨e, mem, rfl⟩ := List.mem_map.mp inOld
      rw [← others e.name notNew]
      exact r.deleted e mem notNew notRoot
  · intro u
    refine ⟨fun e mem => ?_, fun e mem notNew notRoot => ?_⟩
    · refine ⟨configuredLogger level e, ?_, (configured_iff level e).mpr (u.legal e mem)⟩
      rw [named e mem, if_neg]
      rintro ⟨inOld, notRoot⟩
      exact notRoot (u.apart e.name (LoggerSet.name_mem mem) inOld)
    · rw [others e.name notNew]
      exact u.absent e.name (LoggerSet.name_mem mem) notNew notRoot

/-- A configuration of one logger. -/
def only (name : String) (level : LogLevel) : LoggerSet :=
  ⟨[⟨name, level, []⟩], List.pairwise_singleton _ _⟩

theorem ab_ordered (level level' : LogLevel) :
    [(⟨"a", level, []⟩ : LoggerEntry), ⟨"b", level', []⟩].Pairwise fun a b => a.name < b.name := by
  refine List.pairwise_pair.mpr ?_
  show "a" < "b"
  decide

/-- A configuration of two loggers. -/
def pair (level level' : LogLevel) : LoggerSet :=
  ⟨[⟨"a", level, []⟩, ⟨"b", level', []⟩], ab_ordered level level'⟩

/-- A logger is added and the level of another one changes, so `set_value` sees the change and calls the
listener. The logger that was there is gone afterwards. -/
theorem not_reconciled : ¬ ∀ (level : LogLevel) (old new : LoggerSet) (m : LoggerManager),
    (old == new) = false → (onLogsChange level old new m).Reconciled old new := by
  intro all
  let m := onLogsChange .debug .empty (only "a" .debug) .init
  obtain ⟨l, found, -⟩ := (all .debug (only "a" .debug) (pair .error .debug) m (by decide)).configured
    ⟨"a", .error, []⟩ List.mem_cons_self
  have gone : (onLogsChange .debug (only "a" .debug) (pair .error .debug) m).lookup "a" = none := by
    decide
  cases gone.symm.trans found

end Sylar.Log
