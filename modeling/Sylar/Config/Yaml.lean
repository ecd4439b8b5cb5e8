import Mathlib

/-!
# YAML nodes

The nodes of `yaml-cpp` as this program uses them: their kinds, the lookup of a field by name, and the
conversion of a node to a string. The keys of a map are scalars. What turns a text into a node and a node
into a text is a parameter where it is needed.
-/

namespace Sylar.Yaml

inductive Node where
  | null
  | scalar (text : String)
  | sequence (items : List Node)
  | map (fields : List (String × Node))
  deriving Repr

namespace Node

/-- `node.IsScalar()`. -/
def isScalar : Node → Bool
  | scalar _ => true
  | _ => false

/-- `node[key]`: nothing where the field is not defined. A scalar has no fields and throws. -/
def field (key : String) : Node → Except String (Option Node)
  | map fields => .ok ((fields.find? fun f => f.1 == key).map Prod.snd)
  | scalar _ => .error "operator[] call on a scalar"
  | _ => .ok none

/-- `node[key].as<std::string>()`, which throws for what is not defined, and for sequences and maps. -/
def asString : Option Node → Except String String
  | some (scalar text) => .ok text
  | some null => .ok "null"
  | _ => .error "bad conversion"

/-- The nodes `node[0]`, `node[1]` and so on, up to `node.size()`. In a map these are looked up as keys,
and there may be none. -/
def elements : Node → List (Option Node)
  | sequence items => items.map some
  | map fields => (List.range fields.length).map fun x =>
      (fields.find? fun f => f.1 == toString x).map Prod.snd
  | _ => []

/-- `node[key].push_back(value)` of a map with these fields. A field that is not there becomes a sequence;
one of another kind, on which the call throws, is left as it is. -/
def pushBack (fields : List (String × Node)) (key : String) (value : Node) : List (String × Node) :=
  match fields with
  | [] => [(key, sequence [value])]
  | (k, v) :: fields =>
    if k = key then
      match v with
      | sequence items => (k, sequence (items ++ [value])) :: fields
      | v => (k, v) :: fields
    else (k, v) :: pushBack fields key value

end Node

end Sylar.Yaml
