import Mathlib

/-!
# Loggers

The model of `log.h` and `log.cpp`: formatters and the patterns they accept, appenders, loggers, and the
manager that knows the loggers by name. Where a log event goes and how it is printed is left out, and so
is the file an appender opens. A logger is an object of its own for every name, so the manager's map
holds the loggers themselves.
-/

namespace Sylar.Log

/-- `LogLevel::Level`, in order. -/
inductive LogLevel where
  | unknown
  | debug
  | info
  | warn
  | error
  | fatal
  | unused
  deriving DecidableEq, Repr

/-! ## Formatters -/

/-- The items of a pattern: text, or a letter with the text in its braces. Only the letter `d` uses
that text. -/
inductive FormatterItem where
  | string (text : String)
  | item (letter : Char) (format : String)
  deriving DecidableEq, Repr

def isLegalItem (c : Char) : Bool :=
  "mprctFfNdlnT".toList.contains c

/-- Where the loop of `init_items` is in the pattern. -/
inductive Place where
  | text
  /-- Behind a `%`. -/
  | percent
  /-- Behind the letter of an item. -/
  | letter (c : Char)
  /-- In the braces of an item, with what they hold so far. -/
  | braces (c : Char) (format : String)
  deriving DecidableEq, Repr

/-- What `init_items` has so far: its `items_` and its `normal_str`. -/
structure Items where
  items : List FormatterItem
  normalStr : String
  deriving DecidableEq, Repr

namespace Items

def empty : Items := ⟨[], ""⟩

def append (i : Items) (c : Char) : Items := { i with normalStr := i.normalStr.push c }

/-- The text before an item becomes an item of its own. -/
def flush (i : Items) : List FormatterItem :=
  if i.normalStr.isEmpty then i.items else i.items ++ [.string i.normalStr]

def push (i : Items) (c : Char) (format : String) : Items :=
  ⟨i.flush ++ [.item c (if c = 'd' then format else "")], ""⟩

end Items

/-- One character outside the braces of an item. -/
def atText (i : Items) (c : Char) : Place × Items :=
  if c = '%' then (.percent, i) else (.text, i.append c)

/-- The loop of `init_items`; `none` where the pattern is illegal. -/
def initItems : Place → Items → List Char → Option (List FormatterItem)
  | .text, i, [] => some i.flush
  | .percent, _, [] => none
  | .letter c, i, [] => some (i.push c "").items
  | .braces _ _, _, [] => none
  | .text, i, c :: cs => initItems (atText i c).1 (atText i c).2 cs
  | .percent, i, c :: cs =>
    if c = '%' then initItems .text (i.append '%') cs
    else if isLegalItem c then initItems (.letter c) i cs
    else none
  | .letter x, i, c :: cs =>
    if c = '\x7b' then initItems (.braces x "") i cs
    else initItems (atText (i.push x "") c).1 (atText (i.push x "") c).2 cs
  | .braces x format, i, c :: cs =>
    if c = '\x7d' then initItems .text (i.push x format) cs
    else initItems (.braces x (format.push c)) i cs

structure LogFormatter where
  legalPattern : Bool
  pattern : String
  items : List FormatterItem
  deriving DecidableEq, Repr

def defaultPattern : String := "%d\x7b%Y-%m-%d %H:%M:%S\x7d [%p][%c] thread:%t %N fiber:%F %f:%l%T%m%n"

/-- The pattern a formatter works with: an empty one stands for the default. -/
def effectivePattern (pattern : String) : String :=
  if pattern.isEmpty then defaultPattern else pattern

def LogFormatter.create (pattern : String) : LogFormatter :=
  match initItems .text .empty (effectivePattern pattern).toList with
  | some items => ⟨true, effectivePattern pattern, items⟩
  | none => ⟨false, "", []⟩

/-- `is_legal_pattern()` of the formatter made for a pattern. -/
def isLegalPattern (pattern : String) : Bool :=
  (LogFormatter.create pattern).legalPattern

theorem create_pattern {pattern : String} (legal : isLegalPattern pattern = true) :
    (LogFormatter.create pattern).pattern = effectivePattern pattern := by
  unfold isLegalPattern at legal
  unfold LogFormatter.create at legal ⊢
  split
  · rfl
  · rename_i illegal
    rw [illegal] at legal
    cases legal

/-! ## Appenders -/

/-- The two kinds of appenders. -/
inductive AppenderType where
  | stdout
  | file (name : String)
  deriving DecidableEq, Repr

structure LogAppender where
  type : AppenderType
  level : LogLevel
  formatter : LogFormatter
  deriving DecidableEq, Repr

namespace LogAppender

/-- An appender with the default formatter. Its `level_` is not initialised. -/
def create (type : AppenderType) (level : LogLevel) : LogAppender := ⟨type, level, .create ""⟩

def setLevel (a : LogAppender) (level : LogLevel) : LogAppender := { a with level := level }

/-- An illegal pattern leaves the formatter as it is. -/
def setFormatter (a : LogAppender) (pattern : String) : LogAppender :=
  let formatter := LogFormatter.create pattern
  if formatter.legalPattern then { a with formatter := formatter } else a

end LogAppender

/-! ## Loggers -/

structure Logger where
  level : LogLevel
  appenders : List LogAppender
  deriving DecidableEq, Repr

namespace Logger

def create : Logger := ⟨.debug, []⟩

def setLevel (l : Logger) (level : LogLevel) : Logger := { l with level := level }

def clearAppenders (l : Logger) : Logger := { l with appenders := [] }

def addAppender (l : Logger) (a : LogAppender) : Logger := { l with appenders := l.appenders ++ [a] }

end Logger

/-- The loggers by name. -/
structure LoggerManager where
  loggers : AList fun _ : String => Logger

namespace LoggerManager

/-- The logger that cannot be deleted. -/
def rootName : String := "root"

def init : LoggerManager :=
  ⟨AList.singleton rootName ⟨.debug, [(LogAppender.create .stdout .debug)]⟩⟩

/-- The logger of a name, if there is one. -/
def lookup (m : LoggerManager) (name : String) : Option Logger := m.loggers.lookup name

/-- Write back a logger that was changed. -/
def store (m : LoggerManager) (name : String) (l : Logger) : LoggerManager := ⟨m.loggers.insert name l⟩

/-- `get_logger`: a logger that does not exist is created. -/
def getLogger (m : LoggerManager) (name : String) : Logger × LoggerManager :=
  match m.lookup name with
  | some l => (l, m)
  | none => (.create, m.store name .create)

/-- `add_logger`. -/
def addLogger (m : LoggerManager) (name : String) (level : LogLevel) : Bool × LoggerManager :=
  match m.lookup name with
  | some _ => (false, m)
  | none => (true, m.store name ⟨level, []⟩)

/-- `del_logger`. The logger, which others may still hold, is disabled before it leaves the map. -/
def delLogger (m : LoggerManager) (name : String) : Bool × LoggerManager :=
  if name = rootName then (false, m)
  else
    let (logger, m) := m.getLogger name
    let m := m.store name (logger.setLevel .unused).clearAppenders
    (true, ⟨m.loggers.erase name⟩)

@[simp] theorem lookup_store_self (m : LoggerManager) (name : String) (l : Logger) :
    (m.store name l).lookup name = some l :=
  AList.lookup_insert ..

theorem lookup_store_ne (m : LoggerManager) {name other : String} (ne : other ≠ name) (l : Logger) :
    (m.store name l).lookup other = m.lookup other :=
  AList.lookup_insert_ne ne

theorem lookup_getLogger_ne (m : LoggerManager) {name other : String} (ne : other ≠ name) :
    (m.getLogger name).2.lookup other = m.lookup other := by
  unfold getLogger
  split
  · rfl
  · exact lookup_store_ne m ne _

theorem delLogger_root (m : LoggerManager) : (m.delLogger rootName).2 = m := by
  rw [delLogger, if_pos rfl]

theorem lookup_delLogger_self (m : LoggerManager) {name : String} (ne : name ≠ rootName) :
    (m.delLogger name).2.lookup name = none := by
  rw [delLogger, if_neg ne]
  exact AList.lookup_erase ..

theorem lookup_delLogger_ne (m : LoggerManager) {name other : String} (ne : other ≠ name) :
    (m.delLogger name).2.lookup other = m.lookup other := by
  unfold delLogger
  split
  · rfl
  · exact (AList.lookup_erase_ne ne).trans ((lookup_store_ne _ ne _).trans (lookup_getLogger_ne m ne))

end LoggerManager

end Sylar.Log
