import Sylar.Http.Message
import Sylar.Lib.Run

/-!
# Servlets

The model of `ServletDispatch`. A url is looked up in a map of exact names first and then in a list of patterns,
where the first that fits answers. `fnmatch` belongs to the C library and is a parameter. Servlets are shared
objects; a pointer to one may be null, and a null servlet that is found is as good as none.

A pattern that is added again keeps its place in the list, and one that was deleted goes to the end of it. So of the
patterns that fit, the one that has been in the list longest answers (`routed_iff`). The two looks are made under two
locks: a lookup is that of one moment unless the url is entered into the map between them (`lookup_atomic`).
-/

namespace Sylar.Http

/-- The calls that change a dispatcher. -/
inductive RouteCall (V : Type) where
  | setDefaultServlet (v : Option V)
  | addExactServlet (url : Str) (servlet : Option V)
  | addFuzzyServlet (url : Str) (servlet : Option V)
  | delExactServlet (url : Str)
  | delFuzzyServlet (url : Str)
  deriving DecidableEq, Repr

structure ServletDispatch (V : Type) where
  defaultServlet : Option V
  exactMatchs : Str → Option (Option V)
  fuzzyMatchs : List (Str × Option V)

namespace ServletDispatch

variable {V : Type}

/-- `ServletDispatch()`, with the `NotFoundServlet` it makes. -/
def create (notFound : V) : ServletDispatch V := ⟨some notFound, fun _ => none, []⟩

section Lookup

variable (fnmatch : Str → Str → Bool)

def getExactServlet (d : ServletDispatch V) (url : Str) : Option V := (d.exactMatchs url).getD none

def getFuzzyServlet (d : ServletDispatch V) (url : Str) : Option V :=
  ((d.fuzzyMatchs.find? fun v => fnmatch (cStr v.1) (cStr url)).map Prod.snd).getD none

def getServlet (d : ServletDispatch V) (url : Str) : Option V :=
  match d.getExactServlet url with
  | some servlet => some servlet
  | none => d.getFuzzyServlet fnmatch url

/-- The servlet that `handle_request` takes for a path. -/
def matchedServlet (d : ServletDispatch V) (path : Str) : Option V :=
  match d.getServlet fnmatch path with
  | some servlet => some servlet
  | none => d.defaultServlet

end Lookup

/-- The loop of `add_fuzzy_servlet`. -/
def assignFuzzy (url : Str) (servlet : Option V) : List (Str × Option V) → List (Str × Option V)
  | [] => [(url, servlet)]
  | v :: rest => if v.1 = url then (v.1, servlet) :: rest else v :: assignFuzzy url servlet rest

def delExactServlet (d : ServletDispatch V) (url : Str) : Bool × ServletDispatch V :=
  match d.exactMatchs url with
  | none => (false, d)
  | some _ => (true, { d with exactMatchs := fun u => if u = url then none else d.exactMatchs u })

def delFuzzyServlet (d : ServletDispatch V) (url : Str) : Bool × ServletDispatch V :=
  (d.fuzzyMatchs.any fun v => v.1 == url, { d with fuzzyMatchs := d.fuzzyMatchs.eraseP fun v => v.1 == url })

def apply (d : ServletDispatch V) : RouteCall V → ServletDispatch V
  | .setDefaultServlet v => { d with defaultServlet := v }
  | .addExactServlet url servlet =>
    { d with exactMatchs := fun u => if u = url then some servlet else d.exactMatchs u }
  | .addFuzzyServlet url servlet => { d with fuzzyMatchs := assignFuzzy url servlet d.fuzzyMatchs }
  | .delExactServlet url => (d.delExactServlet url).2
  | .delFuzzyServlet url => (d.delFuzzyServlet url).2

/-- The dispatcher after some calls, the last one first. -/
def after (notFound : V) (past : List (RouteCall V)) : ServletDispatch V :=
  past.foldr (fun c d => d.apply c) (create notFound)

end ServletDispatch

/-! ## What a history says -/

section History

variable {V : Type}

/-- The servlet that was last given for a url itself. -/
def assigned (url : Str) : List (RouteCall V) → Option V
  | [] => none
  | .addExactServlet u servlet :: past => if u = url then servlet else assigned url past
  | .delExactServlet u :: past => if u = url then none else assigned url past
  | _ :: past => assigned url past

/-- The number of the call since which a pattern has been registered, and the servlet it was last given. -/
def standing (pattern : Str) : List (RouteCall V) → Option (Nat × Option V)
  | [] => none
  | .addFuzzyServlet u servlet :: past =>
    if u = pattern then some (((standing pattern past).map Prod.fst).getD past.length, servlet)
    else standing pattern past
  | .delFuzzyServlet u :: past => if u = pattern then none else standing pattern past
  | _ :: past => standing pattern past

/-- Of the patterns that fit, the one that has been registered longest. -/
structure Oldest (fits : Str → Bool) (past : List (RouteCall V)) (pattern : Str) (since : Nat) (servlet : Option V) :
    Prop where
  registered : standing pattern past = some (since, servlet)
  isFit : fits pattern = true
  first : ∀ other t v, standing other past = some (t, v) → fits other = true → since ≤ t

/-- The answer that a url should get after some calls. -/
inductive Routed (fnmatch : Str → Str → Bool) (past : List (RouteCall V)) (url : Str) : Option V → Prop where
  | exact {servlet : V} : assigned url past = some servlet → Routed fnmatch past url (some servlet)
  | fuzzy {pattern : Str} {since : Nat} {servlet : Option V} : assigned url past = none →
    Oldest (fun p => fnmatch (cStr p) (cStr url)) past pattern since servlet → Routed fnmatch past url servlet
  | nowhere : assigned url past = none →
    (∀ p t v, standing p past = some (t, v) → fnmatch (cStr p) (cStr url) = false) → Routed fnmatch past url none

/-- The list of patterns with the numbers of their calls. -/
def assignAt (url : Str) (n : Nat) (servlet : Option V) : List (Str × Nat × Option V) → List (Str × Nat × Option V)
  | [] => [(url, n, servlet)]
  | v :: rest => if v.1 = url then (v.1, v.2.1, servlet) :: rest else v :: assignAt url n servlet rest

/-- The list is in the order of the calls, each pattern once, and holds what the history says. -/
structure Timed (past : List (RouteCall V)) (l : List (Str × Nat × Option V)) : Prop where
  ordered : l.Pairwise fun v w => v.1 ≠ w.1 ∧ v.2.1 < w.2.1
  mem : ∀ v, v ∈ l ↔ standing v.1 past = some v.2
  past : ∀ v ∈ l, v.2.1 < past.length

variable {url p : Str} {n t : Nat} {servlet w : Option V} {l : List (Str × Nat × Option V)} {past : List (RouteCall V)}

theorem assignAt_map : (assignAt url n servlet l).map (fun v => (v.1, v.2.2)) =
    ServletDispatch.assignFuzzy url servlet (l.map fun v => (v.1, v.2.2)) := by
  induction l with
  | nil => rfl
  | cons v l ih =>
    rw [assignAt, List.map_cons, ServletDispatch.assignFuzzy]
    split
    · rfl
    · rw [List.map_cons, ih]

theorem mem_assignAt_ne (ne : p ≠ url) : (p, t, w) ∈ assignAt url n servlet l ↔ (p, t, w) ∈ l := by
  induction l with
  | nil => simp [assignAt, ne]
  | cons v l ih =>
    rw [assignAt]
    split
    · rename_i same
      have first : (p, t, w) ≠ v := fun eq => ne (by rw [← same, ← eq])
      have first' : (p, t, w) ≠ (v.1, v.2.1, servlet) := fun eq => ne ((Prod.mk.inj eq).1.trans same)
      rw [List.mem_cons, List.mem_cons, or_iff_right first, or_iff_right first']
    · rw [List.mem_cons, List.mem_cons, ih]

theorem mem_assignAt_new (absent : ∀ v ∈ l, v.1 ≠ url) : assignAt url n servlet l = l ++ [(url, n, servlet)] := by
  induction l with
  | nil => rfl
  | cons v l ih =>
    rw [assignAt, if_neg (absent v List.mem_cons_self), ih fun w mem => absent w (List.mem_cons_of_mem v mem)]
    rfl

theorem mem_assignAt_old (ordered : l.Pairwise fun v w => v.1 ≠ w.1 ∧ v.2.1 < w.2.1) {since : Nat} {old : Option V}
    (here : (url, since, old) ∈ l) : (url, t, w) ∈ assignAt url n servlet l ↔ t = since ∧ w = servlet := by
  induction l with
  | nil => cases here
  | cons v l ih =>
    obtain ⟨first, rest⟩ := List.pairwise_cons.mp ordered
    rw [assignAt]
    split
    · rename_i same
      have others : ∀ x ∈ l, x.1 ≠ url := fun x mem eq => (first x mem).1 (same.trans eq.symm)
      obtain rfl : (url, since, old) = v :=
        (List.mem_cons.mp here).resolve_right fun mem => others _ mem rfl
      rw [List.mem_cons, or_iff_left fun mem => others _ mem rfl]
      simp
    · rename_i other
      have inside : (url, since, old) ∈ l := (List.mem_cons.mp here).resolve_left fun eq => other (by rw [← eq])
      rw [List.mem_cons, or_iff_right fun eq => other (by rw [← eq])]
      exact ih rest inside

theorem forall_assignAt {P : Str → Nat → Prop} (all : ∀ v ∈ l, P v.1 v.2.1) (new : P url n) :
    ∀ v ∈ assignAt url n servlet l, P v.1 v.2.1 := by
  induction l with
  | nil =>
    intro v mem
    obtain rfl := List.mem_singleton.mp mem
    exact new
  | cons x l ih =>
    intro v mem
    have rest := ih fun v mem => all v (List.mem_cons_of_mem x mem)
    rw [assignAt] at mem
    split at mem
    · rcases List.mem_cons.mp mem with rfl | mem
      · exact all x List.mem_cons_self
      · exact all v (List.mem_cons_of_mem x mem)
    · rcases List.mem_cons.mp mem with rfl | mem
      · exact all v List.mem_cons_self
      · exact rest v mem

theorem ordered_assignAt (ordered : l.Pairwise fun v w => v.1 ≠ w.1 ∧ v.2.1 < w.2.1) (late : ∀ v ∈ l, v.2.1 < n) :
    (assignAt url n servlet l).Pairwise fun v w => v.1 ≠ w.1 ∧ v.2.1 < w.2.1 := by
  induction l with
  | nil => exact List.pairwise_singleton ..
  | cons v l ih =>
    obtain ⟨first, rest⟩ := List.pairwise_cons.mp ordered
    rw [assignAt]
    split
    · exact List.pairwise_cons.mpr ⟨first, rest⟩
    · rename_i other
      refine List.pairwise_cons.mpr ⟨?_, ih rest fun w mem => late w (List.mem_cons_of_mem v mem)⟩
      exact forall_assignAt (P := fun q k => v.1 ≠ q ∧ v.2.1 < k) first ⟨other, late v List.mem_cons_self⟩

theorem eraseP_ordered (ordered : l.Pairwise fun v w => v.1 ≠ w.1 ∧ v.2.1 < w.2.1) :
    l.eraseP (fun v => v.1 == url) = l.filter fun v => !(v.1 == url) := by
  induction l with
  | nil => rfl
  | cons v l ih =>
    obtain ⟨first, rest⟩ := List.pairwise_cons.mp ordered
    by_cases same : v.1 = url
    · have others : ∀ w ∈ l, (!(w.1 == url)) = true := by
        intro w mem
        rw [Bool.not_eq_true', beq_eq_false_iff_ne]
        exact fun eq => (first w mem).1 (same.trans eq.symm)
      rw [List.eraseP_cons, List.filter_cons]
      simp [same, List.filter_eq_self.mpr others]
    · have other : (v.1 == url) = false := beq_eq_false_iff_ne.mpr same
      rw [List.eraseP_cons, List.filter_cons, ih rest]
      simp [other]

/-- One call: the table with the numbers is again what the history says. -/
theorem Timed.add (timed : Timed past l) (url : Str) (servlet : Option V) :
    Timed (.addFuzzyServlet url servlet :: past) (assignAt url past.length servlet l) where
  ordered := ordered_assignAt timed.ordered timed.past
  mem := by
    rintro ⟨p, t, w⟩
    rw [standing]
    by_cases same : url = p
    · subst same
      rw [if_pos rfl]
      cases old : standing url past with
      | none =>
        have absent : ∀ v ∈ l, v.1 ≠ url := by
          intro v mem eq
          have here := (timed.mem v).mp mem
          rw [eq, old] at here
          cases here
        have out : (url, t, w) ∉ l := fun mem => absent _ mem rfl
        rw [mem_assignAt_new absent, List.mem_append, or_iff_right out, List.mem_singleton]
        simp [eq_comm]
      | some x =>
        have here : (url, x.1, x.2) ∈ l := (timed.mem (url, x)).mpr old
        rw [mem_assignAt_old timed.ordered here]
        simp [eq_comm]
    · rw [if_neg same, mem_assignAt_ne (Ne.symm same)]
      exact timed.mem (p, t, w)
  past := forall_assignAt (P := fun _ k => k < past.length + 1) (fun v mem => Nat.lt_succ_of_lt (timed.past v mem))
    (Nat.lt_succ_self _)

theorem Timed.del (timed : Timed past l) (url : Str) :
    Timed (.delFuzzyServlet url :: past) (l.eraseP fun v => v.1 == url) where
  ordered := timed.ordered.sublist List.eraseP_sublist
  mem := by
    rintro ⟨p, t, w⟩
    rw [eraseP_ordered timed.ordered, List.mem_filter, timed.mem, standing]
    by_cases same : url = p
    · simp [same]
    · simp [same, Ne.symm same]
  past v mem := Nat.lt_succ_of_lt (timed.past v (List.mem_of_mem_eraseP mem))

/-- The calls that are not about patterns leave them. -/
theorem Timed.skip (timed : Timed past l) {c : RouteCall V} (other : ∀ p, standing p (c :: past) = standing p past) :
    Timed (c :: past) l where
  ordered := timed.ordered
  mem v := by
    rw [other]
    exact timed.mem v
  past v mem := Nat.lt_succ_of_lt (timed.past v mem)

open ServletDispatch in
theorem exists_timed (notFound : V) (past : List (RouteCall V)) : ∃ l, Timed past l ∧
    (after notFound past).fuzzyMatchs = l.map fun v => (v.1, v.2.2) := by
  induction past with
  | nil => exact ⟨[], ⟨.nil, fun v => iff_of_false List.not_mem_nil nofun, fun v mem => nomatch mem⟩, rfl⟩
  | cons c past ih =>
    obtain ⟨l, timed, table⟩ := ih
    rw [after, List.foldr_cons, ← after]
    cases c with
    | setDefaultServlet v => exact ⟨l, timed.skip fun _ => rfl, table⟩
    | addExactServlet url servlet => exact ⟨l, timed.skip fun _ => rfl, table⟩
    | addFuzzyServlet url servlet =>
      refine ⟨_, timed.add url servlet, ?_⟩
      rw [assignAt_map, ← table]
      rfl
    | delExactServlet url =>
      refine ⟨l, timed.skip fun _ => rfl, table ▸ ?_⟩
      rw [apply, ServletDispatch.delExactServlet]
      split
      · rfl
      · rfl
    | delFuzzyServlet url =>
      refine ⟨_, timed.del url, ?_⟩
      rw [apply, ServletDispatch.delFuzzyServlet, table, List.eraseP_map]
      rfl

end History

namespace ServletDispatch

variable {V : Type} {notFound : V} {past : List (RouteCall V)} {fnmatch : Str → Str → Bool} {url : Str}

theorem getExactServlet_after (notFound : V) (past : List (RouteCall V)) (url : Str) :
    (after notFound past).getExactServlet url = assigned url past := by
  induction past with
  | nil => rfl
  | cons c past ih =>
    rw [after, List.foldr_cons, ← after]
    cases c with
    | setDefaultServlet v => exact ih
    | addExactServlet u servlet =>
      rw [assigned, ← ih, apply, getExactServlet, getExactServlet]
      dsimp only
      by_cases same : url = u
      · rw [if_pos same, if_pos same.symm]
        rfl
      · rw [if_neg same, if_neg (Ne.symm same)]
    | addFuzzyServlet u servlet => exact ih
    | delExactServlet u =>
      rw [assigned, ← ih, apply, delExactServlet, getExactServlet]
      split
      · rename_i absent
        split
        · rename_i same
          rw [← same, absent]
          rfl
        · rfl
      · dsimp only
        by_cases same : url = u
        · rw [if_pos same, if_pos same.symm]
          rfl
        · rw [if_neg same, if_neg (Ne.symm same)]
          rfl
    | delFuzzyServlet u => exact ih

/-- The first pattern of the list that fits is the oldest one that does. -/
theorem getFuzzyServlet_after (fnmatch : Str → Str → Bool) (notFound : V) (past : List (RouteCall V)) (url : Str) :
    (∃ pattern since, Oldest (fun p => fnmatch (cStr p) (cStr url)) past pattern since
      ((after notFound past).getFuzzyServlet fnmatch url)) ∨
    (after notFound past).getFuzzyServlet fnmatch url = none ∧
      ∀ p t v, standing p past = some (t, v) → fnmatch (cStr p) (cStr url) = false := by
  obtain ⟨l, timed, table⟩ := exists_timed notFound past
  rw [getFuzzyServlet, table, List.find?_map]
  cases found : l.find? ((fun v => fnmatch (cStr v.1) (cStr url)) ∘ fun v => (v.1, v.2.2)) with
  | none =>
    refine .inr ⟨rfl, fun p t v registered => ?_⟩
    have none := List.find?_eq_none.mp found (p, t, v) ((timed.mem (p, t, v)).mpr registered)
    exact Bool.eq_false_iff.mpr none
  | some v =>
    obtain ⟨isFit, before, behind, rfl, earlier⟩ := List.find?_eq_some_iff_append.mp found
    refine .inl ⟨v.1, v.2.1, (timed.mem v).mp (List.mem_append_right _ List.mem_cons_self), isFit, ?_⟩
    intro other t w registered fits
    have mem := (timed.mem (other, t, w)).mpr registered
    rcases List.mem_append.mp mem with mem | mem
    · have no := earlier _ mem
      rw [Function.comp_apply, fits] at no
      cases no
    · rcases List.mem_cons.mp mem with rfl | mem
      · exact Nat.le_refl _
      · have ordered := (List.pairwise_append.mp timed.ordered).2.1
        exact Nat.le_of_lt ((List.pairwise_cons.mp ordered).1 _ mem).2

end ServletDispatch

/-- Two patterns that are registered since the same call are the same one. -/
theorem standing_unique {V : Type} (notFound : V) {past : List (RouteCall V)} {p q : Str} {t : Nat} {v w : Option V}
    (first : standing p past = some (t, v)) (second : standing q past = some (t, w)) : p = q ∧ v = w := by
  by_cases same : p = q
  · subst same
    exact ⟨rfl, (Prod.mk.inj (Option.some.inj (first.symm.trans second))).2⟩
  · obtain ⟨l, timed, -⟩ := exists_timed notFound past
    have apart : (l.map fun v => v.2.1).Nodup :=
      List.pairwise_map.mpr (timed.ordered.imp fun both => Nat.ne_of_lt both.2)
    have eq := List.inj_on_of_nodup_map apart ((timed.mem (p, t, v)).mpr first) ((timed.mem (q, t, w)).mpr second) rfl
    exact absurd (Prod.mk.inj eq).1 same

theorem Routed.unique {V : Type} (notFound : V) {fnmatch : Str → Str → Bool} {past : List (RouteCall V)} {url : Str}
    {answer answer' : Option V} (first : Routed fnmatch past url answer) (second : Routed fnmatch past url answer') :
    answer = answer' := by
  cases first with
  | exact given =>
    cases second with
    | exact given' => exact given.symm.trans given'
    | fuzzy absent _ => cases given.symm.trans absent
    | nowhere absent _ => cases given.symm.trans absent
  | fuzzy absent oldest =>
    cases second with
    | exact given => cases absent.symm.trans given
    | fuzzy _ oldest' =>
      obtain ⟨registered, isFit, first⟩ := oldest
      obtain ⟨registered', isFit', first'⟩ := oldest'
      obtain rfl := Nat.le_antisymm (first _ _ _ registered' isFit') (first' _ _ _ registered isFit)
      exact (standing_unique notFound registered registered').2
    | nowhere _ nobody => exact absurd oldest.isFit (Bool.eq_false_iff.mp (nobody _ _ _ oldest.registered))
  | nowhere absent nobody =>
    cases second with
    | exact given => cases absent.symm.trans given
    | fuzzy _ oldest => exact absurd oldest.isFit (Bool.eq_false_iff.mp (nobody _ _ _ oldest.registered))
    | nowhere _ _ => rfl

open ServletDispatch in
theorem routed_getServlet {V : Type} (fnmatch : Str → Str → Bool) (notFound : V) (past : List (RouteCall V)) (url : Str) :
    Routed fnmatch past url ((after notFound past).getServlet fnmatch url) := by
  rw [getServlet, getExactServlet_after]
  cases given : assigned url past with
  | some servlet => exact .exact given
  | none =>
    rcases getFuzzyServlet_after fnmatch notFound past url with ⟨_, _, oldest⟩ | ⟨none, nobody⟩
    · exact .fuzzy given oldest
    · rw [none]
      exact .nowhere given nobody

open ServletDispatch in
/-- What a lookup answers after any calls. -/
theorem routed_iff {V : Type} (fnmatch : Str → Str → Bool) (notFound : V) (past : List (RouteCall V)) (url : Str)
    (answer : Option V) :
    (after notFound past).getServlet fnmatch url = answer ↔ Routed fnmatch past url answer := by
  have routed := routed_getServlet fnmatch notFound past url
  constructor
  · rintro rfl
    exact routed
  · exact routed.unique notFound

/-! ## Lookups in two looks -/

/-- A dispatcher in use, with the callers of `get_servlet` that are between the two looks. -/
structure Routing (K V : Type) where
  dispatch : ServletDispatch V
  looking : K → Option Str
  /-- The calls so far, the last one first; no function reads this. -/
  past : List (RouteCall V)

/-- The sections of the lock. -/
inductive RouteEvent (K V : Type) where
  | call (c : RouteCall V)
  /-- `get_exact_servlet` finds a servlet. -/
  | found (k : K) (url : Str) (servlet : V)
  | missed (k : K) (url : Str)
  /-- `get_fuzzy_servlet` ends the lookup. -/
  | answer (k : K) (url : Str) (servlet : Option V)

namespace Routing

open Lib ServletDispatch

variable {K V : Type} [DecidableEq K] (fnmatch : Str → Str → Bool) {notFound : V} {s t : Routing K V}

def start (notFound : V) : Routing K V := ⟨create notFound, fun _ => none, []⟩

inductive Step : Routing K V → RouteEvent K V → Routing K V → Prop where
  | call (s : Routing K V) (c : RouteCall V) :
    Step s (.call c) { s with dispatch := s.dispatch.apply c, past := c :: s.past }
  | found {s : Routing K V} {k : K} {url : Str} {servlet : V} : s.looking k = none →
    s.dispatch.getExactServlet url = some servlet → Step s (.found k url servlet) s
  | missed {s : Routing K V} {k : K} {url : Str} : s.looking k = none → s.dispatch.getExactServlet url = none →
    Step s (.missed k url) { s with looking := Function.update s.looking k (some url) }
  | answer {s : Routing K V} {k : K} {url : Str} : s.looking k = some url →
    Step s (.answer k url (s.dispatch.getFuzzyServlet fnmatch url))
      { s with looking := Function.update s.looking k none }

/-- No url is given a servlet of its own while somebody is between the two looks at it. -/
def Undisturbed (s : Routing K V) : RouteEvent K V → Prop
  | .call (.addExactServlet url servlet) => servlet.isSome = true → ∀ k, s.looking k ≠ some url
  | _ => True

structure Inv (notFound : V) (s : Routing K V) : Prop where
  history : s.dispatch = after notFound s.past
  missed : ∀ k url, s.looking k = some url → assigned url s.past = none

theorem Inv.step (inv : Inv notFound s) {e : RouteEvent K V} (step : Step fnmatch s e t)
    (undisturbed : s.Undisturbed e) : Inv notFound t := by
  cases step with
  | call c =>
    refine ⟨?_, fun k url looking => ?_⟩
    · rw [inv.history]
      rfl
    · have none := inv.missed k url looking
      cases c with
      | setDefaultServlet v => exact none
      | addExactServlet u servlet =>
        change (if u = url then servlet else assigned url s.past) = _
        split
        · rename_i same
          cases servlet with
          | none => rfl
          | some v => exact absurd looking (same ▸ undisturbed rfl k)
        · exact none
      | addFuzzyServlet u servlet => exact none
      | delExactServlet u =>
        change (if u = url then _ else assigned url s.past) = _
        rw [none, ite_self]
      | delFuzzyServlet u => exact none
  | found _ _ => exact inv
  | missed _ absent =>
    refine ⟨inv.history, fun k' url' looking => ?_⟩
    dsimp only at looking
    rw [Function.update_apply] at looking
    split at looking
    · obtain rfl := Option.some.inj looking
      rw [inv.history, getExactServlet_after] at absent
      exact absent
    · exact inv.missed k' url' looking
  | answer _ =>
    refine ⟨inv.history, fun k' url' looking => ?_⟩
    dsimp only at looking
    rw [Function.update_apply] at looking
    split at looking
    · cases looking
    · exact inv.missed k' url' looking

/-- Where no lookup is disturbed, every lookup is one of the moment in which it ends: its answer is the one that the
calls up to then ask for. -/
theorem lookup_atomic {es : List (RouteEvent K V)} (run : Run (Guarded (Step fnmatch) Undisturbed) (start notFound) es s)
    {k : K} {url : Str} {answer : Option V} :
    (∀ servlet, Step fnmatch s (.found k url servlet) t → Routed fnmatch s.past url (some servlet)) ∧
    (Step fnmatch s (.answer k url answer) t → Routed fnmatch s.past url answer) := by
  have inv : Inv notFound s := run.invariant (fun s e t inv step => inv.step fnmatch step.1 step.2)
    ⟨rfl, fun k url looking => nomatch looking⟩
  constructor
  · intro servlet step
    cases step with
    | found _ here =>
      rw [inv.history, getExactServlet_after] at here
      exact .exact here
  · intro step
    cases step with
    | answer looking =>
      have missed := inv.missed k url looking
      have whole : s.dispatch.getServlet fnmatch url = s.dispatch.getFuzzyServlet fnmatch url := by
        rw [getServlet, inv.history, getExactServlet_after, missed]
      rw [← whole, inv.history]
      exact routed_getServlet fnmatch notFound s.past url

/-- A url that is looked up while its pattern is given another servlet. -/
theorem lookup_atomic_added : ∃ s : Routing Unit Nat, Routed (· == ·) s.past (bytes "/a") (some 2) := by
  let fits : Str → Str → Bool := (· == ·)
  let add (v : Nat) : RouteEvent Unit Nat := .call (.addFuzzyServlet (bytes "/a") (some v))
  have run : Run (Guarded (Step fits) Undisturbed) (start 0) [add 1, .missed () (bytes "/a"), add 2] _ :=
    .cons ⟨.call _ _, trivial⟩ (.cons ⟨.missed rfl rfl, trivial⟩ (.cons ⟨.call _ _, trivial⟩ (.nil _)))
  exact ⟨_, (lookup_atomic fits run).2 (.answer (k := ()) rfl)⟩

end Routing

end Sylar.Http
