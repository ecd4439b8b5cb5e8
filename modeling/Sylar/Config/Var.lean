import Sylar.Lib.OrderedMap
import Sylar.Log.Config

/-!
# Configuration variables

The model of `ConfigVar` in `config.h`. A variable has a value and listeners, which are called in the
order of their keys with the old and the new value before the new one is stored. A listener changes the
rest of the program, its `W`, or throws. What converts a string is a parameter: `boost::lexical_cast` or
the YAML library decide it.

`set_value` does nothing when the new value equals the old one by the `==` of its type. For sets of
`LoggerEntry` this `==` compares names. `fromString_takesEffect_iff` says that an update takes effect exactly when
`==` does not take two different values for the same, and what this is for the variable `logs`.
-/

namespace Sylar.Config

open Lib

variable {T W : Type}

/-- A listener; `none` where it throws. -/
abbrev OnChange (T W : Type) := T → T → W → Option W

structure ConfigVar (T W : Type) where
  value : T
  /-- `cbs_`, by key. -/
  cbs : List (UInt64 × OnChange T W)
  ordered : OrderedMap.Sorted UInt64.toNat cbs

namespace ConfigVar

def create (value : T) : ConfigVar T W := ⟨value, [], OrderedMap.Sorted.nil⟩

/-- `add_listener`, with the value of `s_fun_id` and its new one. -/
def addListener (var : ConfigVar T W) (funId : UInt64) (cb : OnChange T W) : ConfigVar T W × UInt64 :=
  (⟨var.value, OrderedMap.assign UInt64.toNat (funId + 1) cb var.cbs,
    OrderedMap.sorted_assign var.ordered⟩, funId + 1)

def delListener (var : ConfigVar T W) (id : UInt64) : ConfigVar T W :=
  ⟨var.value, OrderedMap.erase UInt64.toNat id var.cbs, OrderedMap.sorted_erase var.ordered⟩

def clearListeners (var : ConfigVar T W) : ConfigVar T W := ⟨var.value, [], OrderedMap.Sorted.nil⟩

/-- A call of a listener: its key, the old and the new value. -/
structure Notified (T : Type) where
  id : UInt64
  old : T
  new : T
  deriving DecidableEq, Repr

/-- The loop over the listeners: the calls made, and the program after them unless one threw. -/
def notify (old new : T) : List (UInt64 × OnChange T W) → W → List (Notified T) × Option W
  | [], w => ([], some w)
  | (id, cb) :: cbs, w =>
    match cb old new w with
    | none => ([⟨id, old, new⟩], none)
    | some w =>
      let (calls, w) := notify old new cbs w
      (⟨id, old, new⟩ :: calls, w)

/-- What an update ends with: the variable, the calls of listeners, and the program, `none` where a
listener threw. -/
structure Updated (T W : Type) where
  var : ConfigVar T W
  calls : List (Notified T)
  world : Option W

/-- `set_value`; a listener that throws leaves the value as it was. -/
def setValue [BEq T] (var : ConfigVar T W) (value : T) (w : W) : Updated T W :=
  if value == var.value then ⟨var, [], some w⟩
  else
    match notify var.value value var.cbs w with
    | (calls, none) => ⟨var, calls, none⟩
    | (calls, some w) => ⟨{ var with value := value }, calls, some w⟩

/-- `from_string`, and whether it returns true. -/
def fromString [BEq T] (convert : String → Option T) (var : ConfigVar T W) (str : String) (w : W) :
    Bool × Updated T W :=
  match convert str with
  | none => (false, ⟨var, [], some w⟩)
  | some value =>
    let updated := var.setValue value w
    (updated.world.isSome, updated)

/-! ## Updates -/

/-- An update to `new` has taken effect: the variable holds it, and every listener was called once with
the old and the new value if they differ, and otherwise none. -/
structure TakesEffect [DecidableEq T] (var : ConfigVar T W) (new : T) (updated : Updated T W) : Prop where
  value : updated.var.value = new
  calls : updated.calls = if new = var.value then [] else var.cbs.map fun cb => ⟨cb.1, var.value, new⟩
  once : updated.calls.Nodup

/-- No listener throws when it is called for this update. -/
def NoThrow (var : ConfigVar T W) (value : T) : Prop :=
  ∀ cb ∈ var.cbs, ∀ w, (cb.2 var.value value w).isSome = true

theorem notify_noThrow {old new : T} (cbs : List (UInt64 × OnChange T W)) : ∀ w : W,
    (∀ cb ∈ cbs, ∀ w, (cb.2 old new w).isSome = true) →
    ∃ w', notify old new cbs w = (cbs.map (fun cb => ⟨cb.1, old, new⟩), some w') := by
  induction cbs with
  | nil => exact fun w _ => ⟨w, rfl⟩
  | cons cb cbs ih =>
    intro w quiet
    obtain ⟨w₁, called⟩ := Option.isSome_iff_exists.mp (quiet cb List.mem_cons_self w)
    obtain ⟨w', rest⟩ := ih w₁ fun cb mem => quiet cb (List.mem_cons_of_mem _ mem)
    exact ⟨w', by simp [notify, called, rest]⟩

/-- The keys of the listeners are distinct. -/
theorem calls_nodup (var : ConfigVar T W) (value : T) :
    (var.cbs.map fun cb => (⟨cb.1, var.value, value⟩ : Notified T)).Nodup := by
  refine List.Pairwise.map _ (fun x y lt same => ?_) var.ordered
  exact ne_of_lt lt (congrArg (UInt64.toNat ∘ Notified.id) same)

section Equality

variable [BEq T] [ReflBEq T] [DecidableEq T] (var : ConfigVar T W) {value : T}

/-- `set_value` takes effect exactly when `==` does not hide a difference. -/
theorem setValue_takesEffect_iff (quiet : NoThrow var value) (w : W) :
    (var.setValue value w).world.isSome = true ∧
      (TakesEffect var value (var.setValue value w) ↔ ((value == var.value) = true → value = var.value)) := by
  obtain ⟨w', notified⟩ := notify_noThrow var.cbs w quiet
  unfold setValue
  split
  · rename_i same
    refine ⟨rfl, fun h _ => h.value.symm, fun agree => ⟨(agree same).symm, ?_, List.nodup_nil⟩⟩
    rw [if_pos (agree same)]
  · rename_i differ
    have ne : value ≠ var.value := fun eq => differ (by rw [eq]; exact BEq.rfl)
    rw [notified]
    refine ⟨rfl, fun _ same => absurd same differ, fun _ => ⟨rfl, ?_, calls_nodup var value⟩⟩
    rw [if_neg ne]

/-- An update by a string that can be converted, where no listener throws: it is accepted, and takes
effect exactly when `==` does not take the new value for the old one though they differ. -/
theorem fromString_takesEffect_iff {convert : String → Option T} {str : String}
    (converted : convert str = some value) (quiet : NoThrow var value) (w : W) :
    (var.fromString convert str w).1 = true ∧
      (TakesEffect var value (var.fromString convert str w).2 ↔
        ((value == var.value) = true → value = var.value)) := by
  unfold fromString
  rw [converted]
  exact setValue_takesEffect_iff var quiet w

end Equality

end ConfigVar

/-! ## The variable `logs` -/

open Log

/-- The variable with its listener. -/
def logsVar (level : LogLevel) (value : LoggerSet) : ConfigVar LoggerSet LoggerManager :=
  ⟨value, [(1, fun old new m => some (onLogsChange level old new m))], List.pairwise_singleton _ _⟩

/-- A second logger is configured in the place of the first. -/
theorem fromString_takesEffect_iff_logs :
    (logsVar .debug (only "a" .debug)).TakesEffect (only "b" .debug)
      ((logsVar .debug (only "a" .debug)).fromString (fun _ => some (only "b" .debug)) "" .init).2 :=
  ((ConfigVar.fromString_takesEffect_iff (logsVar .debug (only "a" .debug)) rfl
    (by simp [ConfigVar.NoThrow, logsVar]) .init).2).mpr
    fun same => absurd (LoggerSet.beq_iff_names.mp same) (by decide)

/-- A change of the level only: the update is accepted and dropped. -/
theorem not_fromString_takesEffect : ¬ ∀ (var : ConfigVar LoggerSet LoggerManager)
    (convert : String → Option LoggerSet) (str : String) (value : LoggerSet) (m : LoggerManager),
    convert str = some value → var.NoThrow value →
    (var.fromString convert str m).1 = true ∧ var.TakesEffect value (var.fromString convert str m).2 := by
  intro all
  obtain ⟨-, effect⟩ := all (logsVar .debug (only "a" .debug)) (fun _ => some (only "a" .error)) ""
    (only "a" .error) .init rfl (by simp [ConfigVar.NoThrow, logsVar])
  exact absurd effect.value (by decide)

end Sylar.Config
