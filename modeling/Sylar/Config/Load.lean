import Sylar.Config.Yaml
import Sylar.Config.Var

/-!
# Loading a YAML tree

`load_all_member` collects the nodes of a tree with their paths, in document order; where a path holds a
character that no name may hold, the subtree is left out. `load_from_yaml` offers every collected node
to the variable of its path. How a node that is no scalar is printed, and how a variable converts a
string, are parameters.

The paths are made step by step, each step lower-casing its own part. `loadAllMember_eq` says that this
collects, of all nodes in document order, those whose lower-cased dotted path holds allowed characters
only. `load_holds` says what every variable holds after all the offers.
-/

namespace Sylar.Config

open Yaml

/-! ## The code -/

abbrev Name := List Char

/-- `abcdefghikjlmnopqrstuvwxyz._0123456789`. -/
def allowed (c : Char) : Bool := "abcdefghikjlmnopqrstuvwxyz._0123456789".toList.contains c

/-- The prefix of a field: only what is behind `path` is lower-cased. -/
def fieldPrefix (path : Name) (key : String) : Name :=
  let cur := if path.length = 0 then key.toList else path ++ '.' :: key.toList
  cur.take path.length ++ (cur.drop path.length).map Char.toLower

mutual

/-- `load_all_member`, with what it appends to `output`. -/
def loadAllMember (path : Name) : Node → List (Name × Node)
  | .map fields =>
    if path.all allowed then (path, .map fields) :: loadFields path fields else []
  | node => if path.all allowed then [(path, node)] else []

/-- The loop over the fields of a map. -/
def loadFields (path : Name) : List (String × Node) → List (Name × Node)
  | [] => []
  | (key, value) :: fields => loadAllMember (fieldPrefix path key) value ++ loadFields path fields

end

/-- What a variable is given of a node; `emit` is the `<<` of a node. -/
def nodeText (emit : Node → String) : Node → String
  | .scalar text => text
  | node => emit node

/-- A registered variable of any type, with the conversion of a string to it. -/
structure Var (W : Type) where
  T : Type
  eq : BEq T
  convert : String → Option T
  var : ConfigVar T W

namespace Var

variable {W : Type}

/-- `from_string`; no program where a listener threw. -/
def fromString (v : Var W) (str : String) (w : W) : Var W × Option W :=
  letI := v.eq
  let updated := (v.var.fromString v.convert str w).2
  ({ v with var := updated.var }, updated.world)

/-- The variable with another value. -/
def withValue (v : Var W) (value : v.T) : Var W := { v with var := { v.var with value := value } }

end Var

variable {W : Type} (emit : Node → String)

/-- `datas_`. -/
abbrev Datas (W : Type) := Name → Option (Var W)

/-- The body of the loop of `load_from_yaml`. -/
def offer (member : Name × Node) (datas : Datas W) (w : W) : Option (Datas W × W) :=
  match datas member.1 with
  | none => some (datas, w)
  | some v =>
    let (v, w) := v.fromString (nodeText emit member.2) w
    w.map fun w => (Function.update datas member.1 (some v), w)

def offerAll : List (Name × Node) → Datas W → W → Option (Datas W × W)
  | [], datas, w => some (datas, w)
  | member :: members, datas, w =>
    (offer emit member datas w).bind fun (datas, w) => offerAll members datas w

def loadFromYaml (root : Node) (datas : Datas W) (w : W) : Option (Datas W × W) :=
  offerAll emit (loadAllMember [] root) datas w

/-! ## The nodes of a tree -/

mutual

/-- All nodes in document order, each with the keys on the way to it. -/
def walk (keys : List String) : Node → List (List String × Node)
  | .map fields => (keys, .map fields) :: walkFields keys fields
  | node => [(keys, node)]

def walkFields (keys : List String) : List (String × Node) → List (List String × Node)
  | [] => []
  | (key, value) :: fields => walk (keys ++ [key]) value ++ walkFields keys fields

end

/-- A key path with dots between the keys, in lower case. -/
def dotted (keys : List String) : Name :=
  (List.intercalate ['.'] (keys.map String.toList)).map Char.toLower

/-- The nodes, in document order, with the path `n`, of allowed characters throughout. -/
def addressed (n : Name) (root : Node) : List Node :=
  ((walk [] root).filter fun x => dotted x.1 = n ∧ (dotted x.1).all allowed).map Prod.snd

theorem dotted_snoc (keys : List String) (key : String) :
    dotted (keys ++ [key]) =
      if keys = [] then key.toList.map Char.toLower
      else dotted keys ++ '.' :: key.toList.map Char.toLower := by
  induction keys with
  | nil => simp [dotted]
  | cons k keys ih =>
    cases keys with
    | nil => simp [dotted, List.intercalate_cons_cons]
    | cons k' keys =>
      have more : ∀ l, dotted (k :: k' :: l) = k.toList.map Char.toLower ++ '.' :: dotted (k' :: l) := by
        intro l
        simp [dotted, List.intercalate_cons_cons]
      rw [if_neg (by simp)] at ih ⊢
      rw [List.cons_append] at ih ⊢
      rw [List.cons_append, more, ih, more, List.append_assoc]
      rfl

theorem dotted_eq_nil {keys : List String} (named : ∀ key ∈ keys, key ≠ "") (empty : dotted keys = []) :
    keys = [] := by
  cases keys with
  | nil => rfl
  | cons k keys =>
    exfalso
    apply named k List.mem_cons_self
    have first : k.toList = [] := by
      cases keys with
      | nil => simpa [dotted] using empty
      | cons k' keys => simp [dotted, List.intercalate_cons_cons] at empty
    simpa using first

/-- One step of the path lower-cases its own part, and the part before it is in lower case. -/
theorem fieldPrefix_dotted {keys : List String} (named : ∀ key ∈ keys, key ≠ "") (key : String) :
    fieldPrefix (dotted keys) key = dotted (keys ++ [key]) := by
  rw [dotted_snoc, fieldPrefix]
  by_cases root : keys = []
  · subst root
    simp [dotted]
  · have some : (dotted keys).length ≠ 0 := by
      intro none
      exact root (dotted_eq_nil named (List.length_eq_zero_iff.mp none))
    have dot : Char.toLower '.' = '.' := by decide
    simp [root, some, dot]

theorem dotted_below (keys rest : List String) : dotted keys <+: dotted (keys ++ rest) := by
  induction rest using List.reverseRecOn with
  | nil => simp
  | append_singleton rest key ih =>
    rw [← List.append_assoc, dotted_snoc]
    split
    · rename_i none
      obtain rfl : keys = [] := (List.append_eq_nil_iff.mp none).1
      simp [dotted]
    · exact ih.trans (List.prefix_append _ _)

/-! ## What is collected -/

mutual

/-- The keys of a node stand in front of those of all nodes in it. -/
theorem below_walk (keys : List String) (node : Node) : ∀ x ∈ walk keys node, keys <+: x.1 := by
  cases node with
  | map fields =>
    intro x mem
    rcases List.mem_cons.mp mem with rfl | mem
    · exact List.prefix_rfl
    · exact below_walkFields keys fields x mem
  | null => simp [walk]
  | scalar text => simp [walk]
  | sequence items => simp [walk]

theorem below_walkFields (keys : List String) (fields : List (String × Node)) :
    ∀ x ∈ walkFields keys fields, keys <+: x.1 := by
  match fields with
  | [] => simp [walkFields]
  | (key, value) :: fields =>
    intro x mem
    rcases List.mem_append.mp mem with mem | mem
    · exact (List.prefix_append keys [key]).trans (below_walk (keys ++ [key]) value x mem)
    · exact below_walkFields keys fields x mem

end

/-- Below a path with a character that is not allowed, every path has one. -/
theorem not_allowed_below {keys : List String} (bad : ¬ (dotted keys).all allowed = true)
    {x : List String × Node} (below : keys <+: x.1) : ¬ (dotted x.1).all allowed = true := by
  obtain ⟨rest, eq⟩ := below
  obtain ⟨more, text⟩ := dotted_below keys rest
  intro good
  apply bad
  rw [← eq, ← text, List.all_append, Bool.and_eq_true] at good
  exact good.1

/-- The collected form of nodes with key paths: those whose path is allowed, under their dotted path. -/
def collected (l : List (List String × Node)) : List (Name × Node) :=
  (l.filter fun x => (dotted x.1).all allowed).map fun x => (dotted x.1, x.2)

theorem collected_append (l l' : List (List String × Node)) :
    collected (l ++ l') = collected l ++ collected l' := by
  rw [collected, List.filter_append, List.map_append]
  rfl

theorem collected_bad {l : List (List String × Node)} (bad : ∀ x ∈ l, ¬ (dotted x.1).all allowed = true) :
    collected l = [] := by
  rw [collected, List.filter_eq_nil_iff.mpr bad, List.map_nil]

theorem collected_single (keys : List String) (node : Node) :
    collected [(keys, node)] = if (dotted keys).all allowed then [(dotted keys, node)] else [] := by
  by_cases good : (dotted keys).all allowed = true
  · simp [collected, good]
  · simp [collected, good]

mutual

/-- Of all nodes in document order, those with an allowed path are collected. -/
theorem loadAllMember_eq (keys : List String) (node : Node)
    (named : ∀ x ∈ walk keys node, ∀ key ∈ x.1, key ≠ "") :
    loadAllMember (dotted keys) node = collected (walk keys node) := by
  match node with
  | .map fields =>
    have fieldsNamed : ∀ x ∈ walkFields keys fields, ∀ key ∈ x.1, key ≠ "" :=
      fun x mem => named x (List.mem_cons_of_mem _ mem)
    have here := named (keys, .map fields) List.mem_cons_self
    have cut : (keys, Node.map fields) :: walkFields keys fields =
        [(keys, .map fields)] ++ walkFields keys fields := rfl
    rw [loadAllMember, walk, cut, collected_append, collected_single]
    split
    · rw [loadFields_eq keys fields here fieldsNamed]
      rfl
    · rename_i bad
      rw [collected_bad fun x mem => not_allowed_below bad (below_walkFields keys fields x mem)]
      rfl
  | .null => exact (collected_single keys .null).symm
  | .scalar text => exact (collected_single keys (.scalar text)).symm
  | .sequence items => exact (collected_single keys (.sequence items)).symm

theorem loadFields_eq (keys : List String) (fields : List (String × Node)) (here : ∀ key ∈ keys, key ≠ "")
    (named : ∀ x ∈ walkFields keys fields, ∀ key ∈ x.1, key ≠ "") :
    loadFields (dotted keys) fields = collected (walkFields keys fields) := by
  match fields with
  | [] => rfl
  | (key, value) :: fields =>
    rw [loadFields, walkFields, collected_append, fieldPrefix_dotted here,
      loadAllMember_eq (keys ++ [key]) value fun x mem => named x (List.mem_append_left _ mem),
      loadFields_eq keys fields here fun x mem => named x (List.mem_append_right _ mem)]

end

/-! ## What the variables hold -/

namespace Var

/-- The `==` of the type is equality. -/
def Lawful (v : Var W) : Prop := @LawfulBEq v.T v.eq

/-- No listener of the variable throws. -/
def Quiet (v : Var W) : Prop := ∀ cb ∈ v.var.cbs, ∀ old new w, (cb.2 old new w).isSome = true

/-- A variable is given a string: it holds the conversion, or what it held where there is none. -/
theorem fromString_eq {v : Var W} (lawful : v.Lawful) (quiet : v.Quiet) (str : String) (w : W) :
    ∃ w', v.fromString str w = (v.withValue ((v.convert str).getD v.var.value), some w') := by
  obtain ⟨T, eq, convert, var⟩ := v
  have reflects : @LawfulBEq T eq := lawful
  rw [fromString]
  dsimp only
  rw [ConfigVar.fromString]
  cases convert str with
  | none => exact ⟨w, rfl⟩
  | some value =>
    have noThrow : ∀ cb ∈ var.cbs, ∀ w, (cb.2 var.value value w).isSome = true :=
      fun cb mem w => quiet cb mem var.value value w
    obtain ⟨w', notified⟩ := ConfigVar.notify_noThrow var.cbs w noThrow
    dsimp only
    rw [ConfigVar.setValue]
    split
    · rename_i same
      refine ⟨w, ?_⟩
      rw [eq_of_beq same]
      rfl
    · rw [notified]
      exact ⟨w', rfl⟩

end Var

/-- The values that nodes give to a variable, in order. -/
def values (v : Var W) (nodes : List Node) : List v.T := nodes.filterMap fun node => v.convert (nodeText emit node)

/-- The members of one path. -/
def under (n : Name) (members : List (Name × Node)) : List Node :=
  (members.filter fun member => member.1 = n).map Prod.snd

theorem under_cons (n path : Name) (node : Node) (members : List (Name × Node)) :
    under n ((path, node) :: members) = if path = n then node :: under n members else under n members := by
  by_cases here : path = n
  · simp [under, here]
  · simp [under, here]

/-- The first value counts where there is no later one. -/
theorem values_cons (v : Var W) (node : Node) (nodes : List Node) (d : v.T) :
    (values emit v (node :: nodes)).getLast?.getD d =
      (values emit v nodes).getLast?.getD ((v.convert (nodeText emit node)).getD d) := by
  rw [values, List.filterMap_cons]
  cases v.convert (nodeText emit node) with
  | none => rfl
  | some value =>
    dsimp only
    rw [List.getLast?_cons]
    rfl

/-- After all offers, a variable holds the last value that the members of its path gave it. -/
theorem offerAll_holds (members : List (Name × Node)) (datas : Datas W) (w : W)
    (fine : ∀ n v, datas n = some v → v.Lawful ∧ v.Quiet) :
    ∃ datas' w', offerAll emit members datas w = some (datas', w') ∧
      ∀ n, datas' n = (datas n).map fun v =>
        v.withValue ((values emit v (under n members)).getLast?.getD v.var.value) := by
  induction members generalizing datas w with
  | nil =>
    refine ⟨datas, w, rfl, fun n => ?_⟩
    cases datas n <;> rfl
  | cons member members ih =>
    obtain ⟨path, node⟩ := member
    rw [offerAll, offer]
    dsimp only
    cases here : datas path with
    | none =>
      obtain ⟨datas', w', run, holds⟩ := ih datas w fine
      refine ⟨datas', w', run, fun n => ?_⟩
      rw [holds n, under_cons]
      by_cases same : path = n
      · subst same
        rw [here]
        rfl
      · rw [if_neg same]
    | some v =>
      obtain ⟨lawful, quiet⟩ := fine path v here
      obtain ⟨w₁, given⟩ := Var.fromString_eq lawful quiet (nodeText emit node) w
      have fine' : ∀ n u, Function.update datas path
          (some (v.withValue ((v.convert (nodeText emit node)).getD v.var.value))) n = some u →
          u.Lawful ∧ u.Quiet := by
        intro n u eq
        by_cases same : n = path
        · subst same
          rw [Function.update_self] at eq
          cases eq
          exact ⟨lawful, quiet⟩
        · rw [Function.update_of_ne same] at eq
          exact fine n u eq
      obtain ⟨datas', w', run, holds⟩ := ih _ w₁ fine'
      refine ⟨datas', w', ?_, fun n => ?_⟩
      · dsimp only
        rw [given]
        exact run
      · rw [holds n, under_cons]
        by_cases same : path = n
        · subst same
          rw [Function.update_self, here, if_pos rfl, Option.map_some, Option.map_some, values_cons]
          rfl
        · rw [Function.update_of_ne (Ne.symm same), if_neg same]

theorem under_collected (n : Name) (root : Node) : under n (collected (walk [] root)) = addressed n root := by
  have same : ∀ x ∈ walk [] root,
      (((fun member : Name × Node => decide (member.1 = n)) ∘ fun x => (dotted x.1, x.2)) x &&
        (dotted x.1).all allowed) = decide (dotted x.1 = n ∧ (dotted x.1).all allowed = true) := by
    intro x _
    simp only [Function.comp_apply, Bool.decide_and, Bool.decide_eq_true]
  rw [under, collected, addressed, List.filter_map, List.map_map, List.filter_filter, List.filter_congr same]
  rfl

/-- After `load_from_yaml` every variable holds the conversion of the last node with its path that
converts, or what it held before where there is none. -/
theorem load_holds (root : Node) (named : ∀ x ∈ walk [] root, ∀ key ∈ x.1, key ≠ "") (datas : Datas W) (w : W)
    (fine : ∀ n v, datas n = some v → v.Lawful ∧ v.Quiet) :
    ∃ datas' w', loadFromYaml emit root datas w = some (datas', w') ∧
      ∀ n, datas' n = (datas n).map fun v =>
        v.withValue ((values emit v (addressed n root)).getLast?.getD v.var.value) := by
  have members := loadAllMember_eq [] root named
  rw [loadFromYaml, show ([] : Name) = dotted [] from rfl, members]
  obtain ⟨datas', w', run, holds⟩ := offerAll_holds emit (collected (walk [] root)) datas w fine
  refine ⟨datas', w', run, fun n => ?_⟩
  rw [holds n, under_collected]

/-- A tree in which one variable is addressed three times, once by a text that is no number, and a key
that is not allowed stands between. -/
def portTree : Node :=
  .map [("Server", .map [("port", .scalar "80")]), ("server.port", .scalar "none"),
    ("my server", .map [("port", .scalar "1")]), ("server.PORT", .scalar "8080")]

/-- The variable `server.port`. -/
def portDatas : Datas Unit := fun n =>
  if n = "server.port".toList then some ⟨Nat, inferInstance, String.toNat?, .create 0⟩ else none

theorem load_holds_port :
    ∃ datas' w', loadFromYaml (fun _ => "") portTree portDatas () = some (datas', w') ∧
      ∀ n, datas' n = (portDatas n).map fun v =>
        v.withValue ((values (fun _ => "") v (addressed n portTree)).getLast?.getD v.var.value) := by
  apply load_holds
  · decide
  · intro n v eq
    rw [portDatas] at eq
    split at eq
    · cases eq
      refine ⟨(inferInstance : LawfulBEq Nat), ?_⟩
      intro cb mem
      cases mem
    · cases eq

end Sylar.Config
