import Sylar.Config.Yaml
import Sylar.Log.Config

/-!
# Logger entries as text

The two converters of `LoggerEntry`. The encoder builds a YAML node and prints it; the decoder loads the
text and reads the node field by field. Printing and loading belong to `yaml-cpp` and are parameters,
which are taken to reproduce the node that the encoder built.

The decoder does not read the level of an appender, so every appender comes back with the level of a new
`LogAppenderEntry`. `convert_iff` says that nothing else is lost.
-/

namespace Sylar.Log

open Yaml

/-! ## Levels -/

/-- `LogLevel::to_string`. -/
def LogLevel.toText : LogLevel → String
  | .debug => "DEBUG"
  | .info => "INFO"
  | .warn => "WARN"
  | .error => "ERROR"
  | .fatal => "FATAL"
  | .unused => "UNUSED"
  | .unknown => "UNKNOWN"

/-- `LogLevel::from_string`. -/
def LogLevel.ofText (s : String) : LogLevel :=
  if s = "DEBUG" ∨ s = "debug" then .debug
  else if s = "INFO" ∨ s = "info" then .info
  else if s = "WARN" ∨ s = "warn" then .warn
  else if s = "ERROR" ∨ s = "error" then .error
  else if s = "FATAL" ∨ s = "fatal" then .fatal
  else if s = "UNUSED" ∨ s = "unused" then .unused
  else .unknown

theorem LogLevel.ofText_toText (l : LogLevel) : LogLevel.ofText l.toText = l := by
  cases l <;> decide

/-! ## The encoder -/

def appenderNode (a : LogAppenderEntry) : Node :=
  let type := match a.type with
    | .file file => [("type", Node.scalar "FileLogAppender"), ("file", .scalar file)]
    | .stdout => [("type", .scalar "StdoutLogAppender")]
  .map (type ++ [("level", .scalar a.level.toText), ("formatter", .scalar a.formatter)])

def entryNode (logger : LoggerEntry) : Node :=
  let fields := [("name", Node.scalar logger.name), ("level", .scalar logger.level.toText)]
  .map (logger.appenders.foldl (fun fields a => Node.pushBack fields "appenders" (appenderNode a)) fields)

/-- `Converter<LoggerEntry, std::string>::convert`, where `emit` is the `<<` of a node. -/
def entryToText (emit : Node → String) (logger : LoggerEntry) : String := emit (entryNode logger)

/-! ## The decoder -/

/-- What is left of an appender that is complained about, or not. -/
def readAppender (node : Option Node) : Except String (Option LogAppenderEntry) :=
  match node with
  | none => .ok none
  | some node => do
    let typeNode ← node.field "type"
    if typeNode.isNone then return none
    let type ← Node.asString typeNode
    let kind ←
      if type = "FileLogAppender" then do
        let fileNode ← node.field "file"
        if fileNode.isNone then pure none
        else
          let file ← Node.asString fileNode
          pure (some (AppenderType.file file))
      else if type = "StdoutLogAppender" then pure (some .stdout)
      else pure none
    match kind with
    | none => return none
    | some kind =>
      let formatterNode ← node.field "formatter"
      let formatter ← if formatterNode.isSome then Node.asString formatterNode else pure ""
      return some { type := kind, level := .debug, formatter := formatter }

def readAppenders : List (Option Node) → Except String (List LogAppenderEntry)
  | [] => .ok []
  | node :: nodes => do
    let a ← readAppender node
    let rest ← readAppenders nodes
    return a.toList ++ rest

/-- What the decoder makes of a node. -/
def readEntry (node : Node) : Except String LoggerEntry := do
  let nameNode ← node.field "name"
  let name ← Node.asString nameNode
  let levelNode ← node.field "level"
  let level ← if levelNode.isSome then LogLevel.ofText <$> Node.asString levelNode else pure .debug
  let appendersNode ← node.field "appenders"
  let appenders ← readAppenders ((appendersNode.map Node.elements).getD [])
  return { name := name, level := level, appenders := appenders }

/-- `Converter<std::string, LoggerEntry>::convert`, where `load` is `YAML::Load`. -/
def entryOfText (load : String → Except String Node) (v : String) : Except String LoggerEntry := do
  let node ← load v
  readEntry node

/-! ## What comes back -/

/-- An appender with the level that the decoder leaves it. -/
def LogAppenderEntry.defaultLevel (a : LogAppenderEntry) : LogAppenderEntry := { a with level := .debug }

theorem readAppender_node (a : LogAppenderEntry) :
    readAppender (some (appenderNode a)) = .ok (some a.defaultLevel) := by
  obtain ⟨type, level, formatter⟩ := a
  cases type <;> rfl

theorem readAppenders_nodes (l : List LogAppenderEntry) :
    readAppenders (l.map fun a => some (appenderNode a)) = .ok (l.map LogAppenderEntry.defaultLevel) := by
  induction l with
  | nil => rfl
  | cons a l ih =>
    rw [List.map_cons, readAppenders, readAppender_node, ih]
    rfl

/-- The appenders become one field behind the others, and none where there are none. -/
theorem entryNode_eq (logger : LoggerEntry) : entryNode logger = .map
    ([("name", .scalar logger.name), ("level", .scalar logger.level.toText)] ++
      if logger.appenders = [] then [] else [("appenders", .sequence (logger.appenders.map appenderNode))]) := by
  have more : ∀ (l done : List LogAppenderEntry) (name level : Node),
      l.foldl (fun fields a => Node.pushBack fields "appenders" (appenderNode a))
        [("name", name), ("level", level), ("appenders", .sequence (done.map appenderNode))] =
      [("name", name), ("level", level), ("appenders", .sequence ((done ++ l).map appenderNode))] := by
    intro l
    induction l with
    | nil => simp
    | cons a l ih =>
      intro done name level
      have step := ih (done ++ [a]) name level
      rw [List.append_assoc, List.singleton_append] at step
      rw [List.foldl_cons, ← step, List.map_append]
      rfl
  cases appenders : logger.appenders with
  | nil => simp [entryNode, appenders]
  | cons a l =>
    have rest := more l [a] (.scalar logger.name) (.scalar logger.level.toText)
    simp only [entryNode, appenders, List.foldl_cons]
    rw [if_neg (by simp)]
    exact congrArg Node.map rest

theorem readEntry_node (logger : LoggerEntry) : readEntry (entryNode logger) =
    .ok { logger with appenders := logger.appenders.map LogAppenderEntry.defaultLevel } := by
  have level := LogLevel.ofText_toText logger.level
  have read := readAppenders_nodes logger.appenders
  rw [entryNode_eq]
  by_cases none : logger.appenders = []
  · simp only [none, if_true, List.append_nil]
    have whole : readEntry (.map [("name", .scalar logger.name), ("level", .scalar logger.level.toText)]) =
        .ok ⟨logger.name, LogLevel.ofText logger.level.toText, []⟩ := rfl
    rw [whole, level]
    rfl
  · simp only [none, if_false]
    have whole : readEntry (.map ([("name", .scalar logger.name), ("level", .scalar logger.level.toText)] ++
        [("appenders", .sequence (logger.appenders.map appenderNode))])) =
        readAppenders ((logger.appenders.map appenderNode).map some) >>= fun appenders =>
          .ok ⟨logger.name, LogLevel.ofText logger.level.toText, appenders⟩ := rfl
    have read' : readAppenders ((logger.appenders.map appenderNode).map some) =
        .ok (logger.appenders.map LogAppenderEntry.defaultLevel) := by
      rw [List.map_map]
      exact read
    rw [whole, level, read']
    rfl

/-- An entry comes back as it was exactly when its appenders have the level of a new one. -/
theorem convert_iff {emit : Node → String} {load : String → Except String Node} {logger : LoggerEntry}
    (reproduces : load (emit (entryNode logger)) = .ok (entryNode logger)) :
    entryOfText load (entryToText emit logger) = .ok logger ↔ ∀ a ∈ logger.appenders, a.level = .debug := by
  have back : entryOfText load (entryToText emit logger) =
      .ok { logger with appenders := logger.appenders.map LogAppenderEntry.defaultLevel } := by
    rw [entryOfText, entryToText, reproduces, ← readEntry_node]
    rfl
  have same : ∀ a : LogAppenderEntry, a.defaultLevel = a ↔ a.level = .debug := by
    intro a
    obtain ⟨type, level, formatter⟩ := a
    simp [LogAppenderEntry.defaultLevel, eq_comm]
  have lists : logger.appenders.map LogAppenderEntry.defaultLevel = logger.appenders ↔
      ∀ a ∈ logger.appenders, a.level = .debug := by
    conv_lhs => rhs; rw [← List.map_id logger.appenders]
    rw [List.map_inj_left]
    exact forall₂_congr fun a _ => same a
  rw [back, ← lists]
  constructor
  · exact fun kept => congrArg LoggerEntry.appenders (Except.ok.inj kept)
  · exact fun kept => by rw [kept]

/-- One logger that prints from a level on. -/
def consoleEntry (level : LogLevel) : LoggerEntry where
  name := "system"
  level := .info
  appenders := [{ type := .stdout, level := level, formatter := "%m%n" }]

/-- Its text. -/
def consoleText (level : LogLevel) : String :=
  "name: system\nlevel: INFO\nappenders:\n  - type: StdoutLogAppender\n    level: " ++ level.toText ++
    "\n    formatter: \"%m%n\""

/-- What loads that text and nothing else. -/
def consoleLoad (level : LogLevel) (text : String) : Except String Node :=
  if text = consoleText level then .ok (entryNode (consoleEntry level)) else .error "not this text"

theorem convert_iff_console :
    entryOfText (consoleLoad .debug) (entryToText (fun _ => consoleText .debug) (consoleEntry .debug)) =
      .ok (consoleEntry .debug) ↔ ∀ a ∈ (consoleEntry .debug).appenders, a.level = .debug :=
  convert_iff (if_pos rfl)

/-- An appender for errors only is back as one for everything. -/
theorem not_convert_error :
    consoleLoad .error (consoleText .error) = .ok (entryNode (consoleEntry .error)) ∧
    entryOfText (consoleLoad .error) (entryToText (fun _ => consoleText .error) (consoleEntry .error)) ≠
      .ok (consoleEntry .error) := by
  have reproduces : consoleLoad .error (consoleText .error) = .ok (entryNode (consoleEntry .error)) :=
    if_pos rfl
  refine ⟨reproduces, fun kept => ?_⟩
  rw [entryOfText, entryToText, reproduces] at kept
  have read : readEntry (entryNode (consoleEntry .error)) = .ok (consoleEntry .error) := kept
  rw [readEntry_node] at read
  exact absurd (Except.ok.inj read) (by decide)

end Sylar.Log
