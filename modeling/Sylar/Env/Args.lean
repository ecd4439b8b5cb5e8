import Mathlib

/-!
# Command-line arguments

The model of `Env::init` and of the functions that read what it leaves. The loop holds back a key
until the argument behind it has been seen: a value is stored under it, another key makes it empty.
Nothing does that for a key that ends the command line, so the last argument is lost when it is an
option. `parse_stores` says what the loop leaves of any list of arguments, `parse_fails_iff` which lists
it refuses, and `losesNone_iff` when nothing is lost.

`helps_` and the environment variables of the process have no part in this.
-/

namespace Sylar

namespace Env

abbrev Str := List UInt8

/-- `-`. -/
def dash : UInt8 := 45

/-- `/`. -/
def slash : UInt8 := 47

end Env

open Env in
structure Env where
  /-- `args_`. -/
  args : Str → Option Str
  exe : Str
  cwd : Str
  programName : Str

namespace Env

/-- `if(now_key != nullptr) args_[now_key] = "";`. -/
def commit (nowKey : Option Str) (args : Str → Option Str) : Str → Option Str :=
  match nowKey with
  | some key => Function.update args key (some [])
  | none => args

/-- The loop over the arguments from the second one on: `now_key` and `args_` are carried, and a
`false` leaves it at once. -/
def parse (nowKey : Option Str) (args : Str → Option Str) : List Str → Bool × (Str → Option Str)
  | [] => (true, args)
  | arg :: rest =>
    if arg.head? = some dash then
      if arg.length ≤ 1 then (false, args)
      else parse (some arg.tail) (commit nowKey args) rest
    else
      match nowKey with
      | some key => parse none (Function.update args key (some arg)) rest
      | none => (false, args)

/-- `exe_.substr(0, exe_.find_last_of('/')) + '/'`. -/
def directory (exe : Str) : Str :=
  if slash ∈ exe then ((exe.reverse.dropWhile (· != slash)).drop 1).reverse ++ [slash]
  else exe ++ [slash]

/-- `init(argc, argv)`, where `exe` is what the link of the process points to and the program name is
`argv[0]`. -/
def init (exe programName : Str) (arguments : List Str) (env : Env) : Bool × Env :=
  let (ok, args) := parse none env.args arguments
  (ok, { args := args, exe := exe, cwd := directory exe, programName := programName })

def set (key val : Str) (env : Env) : Env := { env with args := Function.update env.args key (some val) }

/-- `del(key)`, with what it returns. -/
def del (key : Str) (env : Env) : Bool × Env :=
  ((env.args key).isSome, { env with args := Function.update env.args key none })

def has (key : Str) (env : Env) : Bool := (env.args key).isSome

def get (key defaultValue : Str) (env : Env) : Str := (env.args key).getD defaultValue

def getAbsolutePath (path : Str) (env : Env) : Str :=
  if path = [] then [slash]
  else if path.head? = some slash then path
  else env.cwd ++ path

/-! ## What a command line says -/

/-- An argument of the form `-key`. -/
def IsKey (arg : Str) : Prop := ∃ key, key ≠ [] ∧ arg = dash :: key

/-- An argument that does not start with `-`. -/
def IsValue (arg : Str) : Prop := arg.head? ≠ some dash

/-- A lone `-`, or a value that is not preceded by a key. -/
def Rejected (arguments : List Str) : Prop :=
  [dash] ∈ arguments ∨ ∃ before value after, arguments = before ++ value :: after ∧ IsValue value ∧
    ∀ last, before.getLast? = some last → ¬ IsKey last

/-- What an option stands for when these arguments follow it. -/
def follow : List Str → Str
  | [] => []
  | arg :: _ => if arg.head? = some dash then [] else arg

/-- What the last `-key` among the arguments stands for. -/
def given (key : Str) : List Str → Option Str
  | [] => none
  | arg :: rest => (given key rest).or (if arg = dash :: key then some (follow rest) else none)

/-- The arguments without an option that ends them. -/
def committed : List Str → List Str
  | [] => []
  | [arg] => if arg.head? = some dash then [] else [arg]
  | arg :: next :: rest => arg :: committed (next :: rest)

/-! ## Which lists are refused -/

/-- `Rejected` with a key that may be pending in front. -/
def RejectedFrom (pending : Bool) (arguments : List Str) : Prop :=
  [dash] ∈ arguments ∨ ∃ before value after, arguments = before ++ value :: after ∧ IsValue value ∧
    (before = [] → pending = false) ∧ ∀ last, before.getLast? = some last → ¬ IsKey last

theorem rejectedFrom_nil (pending : Bool) : ¬ RejectedFrom pending [] := by
  simp [RejectedFrom]

theorem not_isValue_of_isKey {arg : Str} (h : IsKey arg) : ¬ IsValue arg := by
  obtain ⟨key, -, rfl⟩ := h
  simp [IsValue]

theorem rejectedFrom_key {pending : Bool} {arg : Str} {rest : List Str} (h : IsKey arg) :
    RejectedFrom pending (arg :: rest) ↔ RejectedFrom true rest := by
  have alone : [dash] ≠ arg := by
    obtain ⟨key, some, rfl⟩ := h
    simpa using some.symm
  constructor
  · rintro (lone | ⟨before, value, after, split, isValue, -, last⟩)
    · exact .inl ((List.mem_cons.mp lone).resolve_left alone)
    · cases before with
      | nil =>
        cases split
        exact absurd isValue (not_isValue_of_isKey h)
      | cons first before =>
        cases split
        refine .inr ⟨before, value, after, rfl, isValue, ?_, fun l hl => last l ?_⟩
        · rintro rfl
          exact absurd h (last arg rfl)
        · rw [List.getLast?_cons, hl]
          rfl
  · rintro (lone | ⟨before, value, after, rfl, isValue, start, last⟩)
    · exact .inl (List.mem_cons_of_mem _ lone)
    · refine .inr ⟨arg :: before, value, after, rfl, isValue, by simp, ?_⟩
      intro l hl
      cases before with
      | nil => exact absurd (start rfl) (by simp)
      | cons b before => exact last l (by simpa only [List.getLast?_cons_cons] using hl)

theorem rejectedFrom_value {pending : Bool} {arg : Str} {rest : List Str} (h : IsValue arg) :
    RejectedFrom pending (arg :: rest) ↔ pending = false ∨ RejectedFrom false rest := by
  have alone : [dash] ≠ arg := by
    rintro rfl
    exact h rfl
  have noKey : ¬ IsKey arg := fun key => not_isValue_of_isKey key h
  constructor
  · rintro (lone | ⟨before, value, after, split, isValue, start, last⟩)
    · exact .inr (.inl ((List.mem_cons.mp lone).resolve_left alone))
    · cases before with
      | nil => exact .inl (start rfl)
      | cons first before =>
        cases split
        refine .inr (.inr ⟨before, value, after, rfl, isValue, fun _ => rfl, fun l hl => last l ?_⟩)
        rw [List.getLast?_cons, hl]
        rfl
  · rintro (first | lone | ⟨before, value, after, rfl, isValue, start, last⟩)
    · exact .inr ⟨[], arg, rest, rfl, h, fun _ => first, by simp⟩
    · exact .inl (List.mem_cons_of_mem _ lone)
    · refine .inr ⟨arg :: before, value, after, rfl, isValue, by simp, ?_⟩
      intro l hl
      cases before with
      | nil =>
        cases hl
        exact noKey
      | cons b before => exact last l (by simpa only [List.getLast?_cons_cons] using hl)

/-! ## The three kinds of argument in the loop -/

section

variable (nowKey : Option Str) (args : Str → Option Str) (rest : List Str)

theorem parse_lone : parse nowKey args ([dash] :: rest) = (false, args) := by
  simp [parse.eq_def]

theorem parse_key {key : Str} (some : key ≠ []) :
    parse nowKey args ((dash :: key) :: rest) = parse (.some key) (commit nowKey args) rest := by
  have long : ¬ (dash :: key).length ≤ 1 := by
    have := List.length_pos_iff.mpr some
    simp only [List.length_cons]
    omega
  rw [parse.eq_def]
  simp only [List.head?_cons, if_true, if_neg long, List.tail_cons]

theorem parse_value_some {value : Str} (h : IsValue value) (key : Str) :
    parse (.some key) args (value :: rest) = parse none (Function.update args key (.some value)) rest := by
  rw [parse.eq_def]
  simp only [if_neg h]

theorem parse_value_none {value : Str} (h : IsValue value) :
    parse none args (value :: rest) = (false, args) := by
  rw [parse.eq_def]
  simp only [if_neg h]

end

/-- An argument is a lone `-`, a key, or a value. -/
theorem kinds (arg : Str) : arg = [dash] ∨ (∃ key, key ≠ [] ∧ arg = dash :: key) ∨ IsValue arg := by
  by_cases option : arg.head? = some dash
  · cases arg with
    | nil => simp at option
    | cons c key =>
      obtain rfl : c = dash := by simpa using option
      by_cases lone : key = []
      · exact .inl (by rw [lone])
      · exact .inr (.inl ⟨key, lone, rfl⟩)
  · exact .inr (.inr option)

/-- The loop refuses a list exactly when some argument of it is out of place. -/
theorem parse_fails_iff (nowKey : Option Str) (args : Str → Option Str) (arguments : List Str) :
    (parse nowKey args arguments).1 = false ↔ RejectedFrom nowKey.isSome arguments := by
  induction arguments generalizing nowKey args with
  | nil => simp [parse, rejectedFrom_nil]
  | cons arg rest ih =>
    rcases kinds arg with rfl | ⟨key, some, rfl⟩ | value
    · rw [parse_lone]
      simp [RejectedFrom]
    · rw [parse_key _ _ _ some, rejectedFrom_key ⟨key, some, rfl⟩]
      exact ih _ _
    · rw [rejectedFrom_value value]
      cases nowKey with
      | none =>
        rw [parse_value_none _ _ value]
        simp
      | some key =>
        rw [parse_value_some _ _ value]
        simpa using ih none _

theorem rejectedFrom_false (arguments : List Str) : RejectedFrom false arguments ↔ Rejected arguments := by
  simp only [RejectedFrom, Rejected, implies_true, true_and]

/-! ## What the loop leaves -/

/-- A pending key as the argument that it came from. -/
def pendingArg (nowKey : Option Str) : List Str := nowKey.toList.map (dash :: ·)

theorem committed_cons {arg : Str} {rest : List Str} (some : rest ≠ []) :
    committed (arg :: rest) = arg :: committed rest := by
  cases rest with
  | nil => exact absurd rfl some
  | cons next rest => rfl

theorem committed_value {value : Str} (h : IsValue value) (rest : List Str) :
    committed (value :: rest) = value :: committed rest := by
  cases rest with
  | nil =>
    have kept : (if value.head? = some dash then [] else [value]) = [value] := if_neg h
    exact kept
  | cons next rest => rfl

/-- An option stands for nothing when another option is next to it, committed or not. -/
theorem follow_committed (key : Str) (rest : List Str) :
    follow (committed ((dash :: key) :: rest)) = [] := by
  cases rest with
  | nil => simp [committed, follow]
  | cons next rest => simp [committed, follow]

theorem given_value {value : Str} (h : IsValue value) (key : Str) (rest : List Str) :
    given key (value :: rest) = given key rest := by
  have other : value ≠ dash :: key := by
    rintro rfl
    exact h rfl
  rw [given, if_neg other, Option.or_none]

/-- Every option but one that ends the list is stored with what it stands for. The pending key counts
as the argument in front. -/
theorem parse_stores {nowKey : Option Str} {args args' : Str → Option Str} {arguments : List Str}
    (run : parse nowKey args arguments = (true, args')) (key : Str) :
    args' key = (given key (committed (pendingArg nowKey ++ arguments))).or (args key) := by
  induction arguments generalizing nowKey args with
  | nil =>
    cases run
    cases nowKey <;> simp [pendingArg, committed, given]
  | cons arg rest ih =>
    rcases kinds arg with rfl | ⟨new, some, rfl⟩ | value
    · rw [parse_lone] at run
      cases run
    · rw [parse_key _ _ _ some] at run
      rw [ih run]
      cases nowKey with
      | none => rfl
      | some old =>
        have split : committed (pendingArg (.some old) ++ (dash :: new) :: rest) =
            (dash :: old) :: committed ((dash :: new) :: rest) := rfl
        rw [split, given, follow_committed, Option.or_assoc, commit]
        by_cases same : old = key
        · subst same
          simp [pendingArg]
        · simp [pendingArg, same, Ne.symm same]
    · cases nowKey with
      | none =>
        rw [parse_value_none _ _ value] at run
        cases run
      | some old =>
        rw [parse_value_some _ _ value] at run
        rw [ih run]
        have split : committed (pendingArg (.some old) ++ arg :: rest) =
            (dash :: old) :: arg :: committed rest := by
          rw [← committed_value value]
          rfl
        have stands : follow (arg :: committed rest) = arg := by
          rw [follow, if_neg value]
        rw [split, given, given_value value, stands, Option.or_assoc]
        by_cases same : old = key
        · subst same
          simp [pendingArg]
        · simp [pendingArg, same, Ne.symm same]

/-! ## The last occurrence of an option -/

theorem committed_append (before : List Str) (arg : Str) {after : List Str} (some : after ≠ []) :
    committed (before ++ arg :: after) = before ++ arg :: committed after := by
  induction before with
  | nil => exact committed_cons some
  | cons b before ih => rw [List.cons_append, committed_cons (by simp), ih, List.cons_append]

theorem committed_last (before : List Str) (key : Str) :
    committed (before ++ [dash :: key]) = before := by
  induction before with
  | nil => simp [committed]
  | cons b before ih => rw [List.cons_append, committed_cons (by simp), ih]

theorem committed_subset (arguments : List Str) : committed arguments ⊆ arguments := by
  fun_induction committed arguments with
  | case1 => simp
  | case2 arg => simp
  | case3 arg => simp
  | case4 arg next rest ih => exact List.cons_subset_cons arg ih

theorem follow_committed_eq (after : List Str) : follow (committed after) = follow after := by
  fun_cases committed after with
  | case1 => rfl
  | case2 arg option => simp [follow, option]
  | case3 arg value => rfl
  | case4 arg next rest => rfl

theorem given_none {key : Str} {arguments : List Str} (absent : dash :: key ∉ arguments) :
    given key arguments = none := by
  induction arguments with
  | nil => rfl
  | cons arg rest ih =>
    simp only [List.mem_cons, not_or] at absent
    rw [given, ih absent.2, if_neg (Ne.symm absent.1)]
    rfl

theorem given_last {key : Str} (before : List Str) {after : List Str} (last : dash :: key ∉ after) :
    given key (before ++ (dash :: key) :: after) = some (follow after) := by
  induction before with
  | nil =>
    rw [List.nil_append, given, given_none last, if_pos rfl]
    rfl
  | cons b before ih =>
    rw [List.cons_append, given, ih]
    rfl

/-! ## Nothing is lost -/

/-- What is expected of `init`: it refuses exactly the lists with an argument out of place, and after
any other list every option can be asked for and yields what follows its last occurrence. -/
def LosesNone (exe programName : Str) (env : Env) (arguments : List Str) : Prop :=
  ((init exe programName arguments env).1 = false ↔ Rejected arguments) ∧
  ((init exe programName arguments env).1 = true →
    ∀ before key after, arguments = before ++ (dash :: key) :: after → dash :: key ∉ after →
      (init exe programName arguments env).2.has key = true ∧
      ∀ defaultValue, (init exe programName arguments env).2.get key defaultValue = follow after)

theorem init_fails_iff (exe programName : Str) (env : Env) (arguments : List Str) :
    (init exe programName arguments env).1 = false ↔ Rejected arguments := by
  rw [← rejectedFrom_false]
  exact parse_fails_iff none env.args arguments

/-- A stored value is what `has` and `get` find. -/
theorem has_get_iff {env : Env} {key value : Str} :
    (env.has key = true ∧ ∀ defaultValue, env.get key defaultValue = value) ↔ env.args key = some value := by
  rw [has]
  constructor
  · rintro ⟨there, found⟩
    obtain ⟨stored, h⟩ := Option.isSome_iff_exists.mp there
    have same := found []
    rw [get, h, Option.getD_some] at same
    rw [h, same]
  · intro h
    simp [get, h]

/-- An option is lost only at the end of the command line, and only if what its key held before is not
what it should hold. -/
theorem losesNone_iff (exe programName : Str) (env : Env) (arguments : List Str) :
    LosesNone exe programName env arguments ↔
      Rejected arguments ∨ ∀ before key, arguments = before ++ [dash :: key] →
        (given key before).or (env.args key) = some [] := by
  have refused := init_fails_iff exe programName env arguments
  by_cases rejected : Rejected arguments
  · refine iff_of_true ⟨refused, ?_⟩ (.inl rejected)
    rw [refused.mpr rejected]
    rintro ⟨⟩
  have ok : (init exe programName arguments env).1 = true := by
    rw [← Bool.not_eq_false, refused]
    exact rejected
  have stored : ∀ key, (init exe programName arguments env).2.args key =
      (given key (committed arguments)).or (env.args key) :=
    fun key => parse_stores (Prod.ext ok rfl) key
  rw [LosesNone, and_iff_right refused]
  simp only [ok, true_implies, rejected, false_or, has_get_iff, stored]
  constructor
  · intro kept before key ends
    subst ends
    have held := kept before key [] rfl (by simp)
    rw [committed_last] at held
    exact held
  · intro last before key after split absent
    subst split
    cases after with
    | nil =>
      rw [committed_last]
      exact last before key rfl
    | cons arg after =>
      have absent' : dash :: key ∉ committed (arg :: after) := fun h => absent (committed_subset _ h)
      rw [committed_append before _ (by simp), given_last before absent', follow_committed_eq]
      rfl

/-- A command line of the one option `-d`, with nothing stored before it. -/
theorem not_losesNone_d :
    ¬ LosesNone [] [] { args := fun _ => none, exe := [], cwd := [], programName := [] } [[dash, 100]] := by
  intro kept
  have asked := kept.2 (by decide) [] [100] [] rfl (by simp)
  exact absurd asked.1 (by decide)

end Env

end Sylar
