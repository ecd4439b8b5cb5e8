import Sylar.Uri.Events

/-!
# What `URI::create` returns

The effect of each part's events on the `URI` that is being made, and from them what `create` returns for every
reference of its grammar: `built`, or nothing at all where it throws. The one pointer that the actions share
makes three things go wrong. Between a colon and a digit of a userinfo the mark of a port is set, so the user that
is saved begins there. A path is only marked and saved behind a scheme and an authority. And where a port is
empty, the mark of the path is the mark of the port, executed once, and gone when the path is saved.
-/

namespace Sylar.Uri

open Lib Lib.Ragel Http UriParser
open Rfc3986 (Authority Parts behind before colon slash question hash commat)

/-! ## Effects -/

theorem slice_eq {s u v w : Str} {m p : Nat} (shape : s = u ++ (v ++ w)) (start : m = u.length)
    (stop : p = u.length + v.length) : slice s m p = v := by
  rw [shape, start, stop]
  simp [slice]

/-- The port that is read from a text on. -/
def readPort (s : Str) : UInt16 := UInt16.ofNat ((atoi s).emod (2 ^ 16)).toNat

namespace Builder

theorem run_append (s : Str) (l l' : List (Action × Nat)) (b : Builder) :
    run s (l ++ l') b = (run s l b).bind (run s l') := by
  induction l generalizing b with
  | nil => rfl
  | cons x l ih =>
    obtain ⟨x, p⟩ := x
    rw [List.cons_append, run, run]
    cases b.exec s p x with
    | none => rfl
    | some b => exact ih b

section Exec

variable (s : Str) (p m : Nat) (b : Builder) (uri : Uri)

@[simp] theorem exec_marku : exec s p b .marku = some ⟨some p, b.uri⟩ := rfl
@[simp] theorem exec_markh : exec s p b .markh = some ⟨some p, b.uri⟩ := rfl

@[simp] theorem exec_saveScheme :
    exec s p ⟨some m, uri⟩ .saveScheme = some ⟨none, { uri with scheme := slice s m p }⟩ := rfl

@[simp] theorem exec_saveUserinfo :
    exec s p ⟨some m, uri⟩ .saveUserinfo = some ⟨none, { uri with user := slice s m p }⟩ := rfl

@[simp] theorem exec_saveHost :
    exec s p ⟨some m, uri⟩ .saveHost = some ⟨some m, { uri with host := slice s m p }⟩ := rfl

@[simp] theorem exec_savePath :
    exec s p ⟨some m, uri⟩ .savePath = some ⟨none, { uri with path := slice s m p }⟩ := rfl

/-- Without a mark, there is no string. -/
@[simp] theorem exec_savePath_none : exec s p ⟨none, uri⟩ .savePath = none := rfl

/-- An empty port is not read. -/
@[simp] theorem exec_savePort_empty : exec s p ⟨some p, uri⟩ .savePort = some ⟨none, uri⟩ := if_pos rfl

variable {p m}

theorem exec_savePort (some : m ≠ p) :
    exec s p ⟨.some m, uri⟩ .savePort = .some ⟨none, { uri with port := readPort (s.drop m) }⟩ := by
  have read : (⟨.some m, uri⟩ : Builder).mark ≠ .some p := fun same => some (Option.some.inj same)
  rw [exec, if_neg read]
  rfl

end Exec

end Builder

/-- On a text, wherever it stands, the events make a change, apart from the port. -/
structure Effect (l : List (Event Action)) (t : Str) (f : Uri → Uri) : Prop where
  within : ∀ e ∈ l, e.pos ≤ t.length
  frame : ∀ uri n, f { uri with port := n } = { f uri with port := n }
  runs : ∀ pre rest b, ∃ mark n, Builder.run (pre ++ (t ++ rest)) (executed (l.map (Event.shift pre.length))) b =
    some ⟨mark, { f b.uri with port := n }⟩

/-- On a text, wherever it stands, the events make a change, the port included. -/
structure Exact (l : List (Event Action)) (t : Str) (f : Uri → Uri) : Prop where
  within : ∀ e ∈ l, e.pos ≤ t.length
  runs : ∀ pre rest b, ∃ mark, Builder.run (pre ++ (t ++ rest)) (executed (l.map (Event.shift pre.length))) b =
    some ⟨mark, f b.uri⟩

/-- On a text, wherever it stands, the events throw. -/
structure Throws (l : List (Event Action)) (t : Str) : Prop where
  within : ∀ e ∈ l, e.pos ≤ t.length
  runs : ∀ pre rest b, Builder.run (pre ++ (t ++ rest)) (executed (l.map (Event.shift pre.length))) b = none

section Effect

variable {l l' : List (Event Action)} {t t' : Str} {f f' : Uri → Uri}

theorem map_shift_zero (l : List (Event Action)) : l.map (Event.shift 0) = l := by
  conv_rhs => rw [← List.map_id l]
  refine List.map_congr_left fun e _ => ?_
  simp [Event.shift]

/-- The events of two texts, one behind the other. -/
theorem executed_shift_append (apart : ∀ e ∈ l, ∀ e' ∈ l', e.pos < t.length + e'.pos) (pre : Str) :
    executed ((l ++ l'.map (Event.shift t.length)).map (Event.shift pre.length)) =
      executed (l.map (Event.shift pre.length)) ++ executed (l'.map (Event.shift (pre ++ t).length)) := by
  rw [List.map_append, map_shift_shift, ← List.length_append, executed_append]
  intro e mem e' mem'
  obtain ⟨e, inner, rfl⟩ := List.mem_map.mp mem
  obtain ⟨e', inner', rfl⟩ := List.mem_map.mp mem'
  have lt := apart e inner e' inner'
  simp only [Event.shift, List.length_append]
  omega

theorem within_append (within : ∀ e ∈ l, e.pos ≤ t.length) (within' : ∀ e ∈ l', e.pos ≤ t'.length) :
    ∀ e ∈ l ++ l'.map (Event.shift t.length), e.pos ≤ (t ++ t').length := by
  intro e mem
  rw [List.length_append]
  rcases List.mem_append.mp mem with mem | mem
  · have le := within e mem
    omega
  · obtain ⟨e, inner, rfl⟩ := List.mem_map.mp mem
    have le := within' e inner
    simp only [Event.shift]
    omega

theorem Exact.effect (exact : Exact l t f) (frame : ∀ uri n, f { uri with port := n } = { f uri with port := n }) :
    Effect l t f := by
  refine ⟨exact.within, frame, fun pre rest b => ?_⟩
  obtain ⟨mark, run⟩ := exact.runs pre rest b
  exact ⟨mark, (f b.uri).port, run⟩

theorem Exact.append (first : Exact l t f) (second : Exact l' t' f')
    (apart : ∀ e ∈ l, ∀ e' ∈ l', e.pos < t.length + e'.pos) :
    Exact (l ++ l'.map (Event.shift t.length)) (t ++ t') (f' ∘ f) := by
  refine ⟨within_append first.within second.within, fun pre rest b => ?_⟩
  obtain ⟨mark, run⟩ := first.runs pre (t' ++ rest) b
  obtain ⟨mark', run'⟩ := second.runs (pre ++ t) rest ⟨mark, f b.uri⟩
  refine ⟨mark', ?_⟩
  rw [List.append_assoc] at run'
  rw [executed_shift_append apart, Builder.run_append, List.append_assoc, run, Option.bind_some, run']
  rfl

theorem Effect.append (first : Effect l t f) (second : Effect l' t' f')
    (apart : ∀ e ∈ l, ∀ e' ∈ l', e.pos < t.length + e'.pos) :
    Effect (l ++ l'.map (Event.shift t.length)) (t ++ t') (f' ∘ f) := by
  refine ⟨within_append first.within second.within, fun uri n => ?_, fun pre rest b => ?_⟩
  · rw [Function.comp_apply, first.frame, second.frame]
    rfl
  · obtain ⟨mark, n, run⟩ := first.runs pre (t' ++ rest) b
    obtain ⟨mark', n', run'⟩ := second.runs (pre ++ t) rest ⟨mark, { f b.uri with port := n }⟩
    refine ⟨mark', n', ?_⟩
    rw [List.append_assoc] at run'
    rw [executed_shift_append apart, Builder.run_append, List.append_assoc, run, Option.bind_some, run']
    rw [second.frame]
    rfl

theorem Effect.throws (first : Effect l t f) (second : Throws l' t')
    (apart : ∀ e ∈ l, ∀ e' ∈ l', e.pos < t.length + e'.pos) : Throws (l ++ l'.map (Event.shift t.length)) (t ++ t') := by
  refine ⟨within_append first.within second.within, fun pre rest b => ?_⟩
  obtain ⟨mark, n, run⟩ := first.runs pre (t' ++ rest) b
  have run' := second.runs (pre ++ t) rest ⟨mark, { f b.uri with port := n }⟩
  rw [List.append_assoc] at run'
  rw [executed_shift_append apart, Builder.run_append, List.append_assoc, run, Option.bind_some, run']

theorem Throws.append (first : Throws l t) (within : ∀ e ∈ l', e.pos ≤ t'.length)
    (apart : ∀ e ∈ l, ∀ e' ∈ l', e.pos < t.length + e'.pos) : Throws (l ++ l'.map (Event.shift t.length)) (t ++ t') := by
  refine ⟨within_append first.within within, fun pre rest b => ?_⟩
  rw [executed_shift_append apart, Builder.run_append, List.append_assoc, first.runs pre (t' ++ rest) b]
  rfl

theorem Exact.silent (t : Str) : Exact [] t id :=
  ⟨by simp, fun _ _ b => ⟨b.mark, rfl⟩⟩

theorem Effect.silent (t : Str) : Effect [] t id :=
  (Exact.silent t).effect fun _ _ => rfl

theorem Exact.after (delimiter : Str) (exact : Exact l t f) :
    Exact (l.map (Event.shift delimiter.length)) (delimiter ++ t) f :=
  (Exact.silent delimiter).append exact (by simp)

theorem Effect.after (delimiter : Str) (effect : Effect l t f) :
    Effect (l.map (Event.shift delimiter.length)) (delimiter ++ t) f :=
  (Effect.silent delimiter).append effect (by simp)

theorem Throws.after (delimiter : Str) (throws : Throws l t) :
    Throws (l.map (Event.shift delimiter.length)) (delimiter ++ t) :=
  (Effect.silent delimiter).throws throws (by simp)

/-- What does not happen at the start of a text is apart from what happens before it. -/
theorem apart_of_pos (within : ∀ e ∈ l, e.pos ≤ t.length) (later : ∀ e' ∈ l', 0 < e'.pos) :
    ∀ e ∈ l, ∀ e' ∈ l', e.pos < t.length + e'.pos := by
  intro e mem e' mem'
  have le := within e mem
  have pos := later e' mem'
  omega

theorem pos_after {k : Nat} : ∀ e' ∈ l.map (Event.shift (k + 1)), 0 < e'.pos := by
  intro e' mem
  obtain ⟨e, -, rfl⟩ := List.mem_map.mp mem
  simp only [Event.shift]
  omega

theorem pos_option {n : Nat} {mark save : Action} (o : Option Str) : ∀ e ∈ optionEvents n mark save o, 0 < e.pos := by
  cases o with
  | none => exact fun e mem => absurd mem List.not_mem_nil
  | some u => simp [optionEvents]

end Effect

/-! ## The effects of the parts -/

/-- Two actions are executed one after the other. -/
theorem executed_pair {k j n m : Nat} {x y : Action} (differs : y ≠ x) :
    executed [⟨k, n, x⟩, ⟨j, m, y⟩] = [(x, k), (y, j)] := by
  simp [executed, List.eraseDups_cons, differs]

theorem exact_scheme (name : Str) : Exact [⟨0, 0, .marku⟩, ⟨name.length, 1, .saveScheme⟩] name
    fun uri => { uri with scheme := name } := by
  refine ⟨by simp, fun pre rest b => ⟨none, ?_⟩⟩
  have saved : slice (pre ++ (name ++ rest)) (pre.length + 0) (pre.length + name.length) = name := slice_eq rfl rfl rfl
  simp only [List.map_cons, List.map_nil, Event.shift]
  rw [executed_pair (by decide)]
  simp only [Builder.run, Builder.exec_marku, Builder.exec_saveScheme, Option.bind_some, saved]

theorem effect_scheme (name : Str) : Effect [⟨0, 0, .marku⟩, ⟨name.length, 1, .saveScheme⟩] name
    fun uri => { uri with scheme := name } :=
  (exact_scheme name).effect fun _ _ => rfl

/-- A component behind its delimiter, marked and saved. -/
theorem exact_option {n : Nat} {c : UInt8} {save : Action} {f : Str → Uri → Uri} (o : Option Str)
    (differs : save ≠ .marku)
    (saves : ∀ s m p uri, Builder.exec s p ⟨some m, uri⟩ save = some ⟨none, f (slice s m p) uri⟩) :
    Exact (optionEvents n .marku save o) (behind c o) (o.elim id f) := by
  cases o with
  | none => exact .silent []
  | some u =>
    refine ⟨by simp [optionEvents, behind, Nat.add_comm], fun pre rest b => ⟨none, ?_⟩⟩
    have saved : slice (pre ++ (behind c (some u) ++ rest)) (pre.length + 1) (pre.length + (1 + u.length)) = u :=
      slice_eq (u := pre ++ [c]) (w := rest) (by simp [behind]) (by simp) (by simp [Nat.add_assoc])
    simp only [optionEvents, List.map_cons, List.map_nil, Event.shift]
    rw [executed_pair differs]
    simp only [Builder.run, Builder.exec_marku, Option.bind_some, saves, saved]
    rfl

/-- The mark of an authority is set again where its host begins. -/
theorem executed_twice {k n m : Nat} {x : Action} {l : List (Event Action)} :
    executed (⟨k, n, x⟩ :: ⟨k, m, x⟩ :: l) = executed (⟨k, m, x⟩ :: l) := by
  simp [executed, List.eraseDups_cons]

theorem Exact.twice {n m : Nat} {x : Action} {l : List (Event Action)} {t : Str} {f : Uri → Uri}
    (once : Exact (⟨0, m, x⟩ :: l) t f) : Exact (⟨0, n, x⟩ :: ⟨0, m, x⟩ :: l) t f := by
  refine ⟨fun e mem => ?_, fun pre rest b => ?_⟩
  · rcases List.mem_cons.mp mem with rfl | mem
    · exact Nat.zero_le _
    · exact once.within e mem
  · obtain ⟨mark, run⟩ := once.runs pre rest b
    rw [List.map_cons, Event.shift] at run
    rw [List.map_cons, List.map_cons, Event.shift, Event.shift, executed_twice]
    exact ⟨mark, run⟩

theorem Effect.twice {n m : Nat} {x : Action} {l : List (Event Action)} {t : Str} {f : Uri → Uri}
    (once : Effect (⟨0, m, x⟩ :: l) t f) : Effect (⟨0, n, x⟩ :: ⟨0, m, x⟩ :: l) t f := by
  refine ⟨fun e mem => ?_, once.frame, fun pre rest b => ?_⟩
  · rcases List.mem_cons.mp mem with rfl | mem
    · exact Nat.zero_le _
    · exact once.within e mem
  · obtain ⟨mark, port, run⟩ := once.runs pre rest b
    rw [List.map_cons, Event.shift] at run
    rw [List.map_cons, List.map_cons, Event.shift, Event.shift, executed_twice]
    exact ⟨mark, port, run⟩

theorem Throws.twice {n m : Nat} {x : Action} {l : List (Event Action)} {t : Str}
    (once : Throws (⟨0, m, x⟩ :: l) t) : Throws (⟨0, n, x⟩ :: ⟨0, m, x⟩ :: l) t := by
  refine ⟨fun e mem => ?_, fun pre rest b => ?_⟩
  · rcases List.mem_cons.mp mem with rfl | mem
    · exact Nat.zero_le _
    · exact once.within e mem
  · have run := once.runs pre rest b
    rw [List.map_cons, Event.shift] at run
    rw [List.map_cons, List.map_cons, Event.shift, Event.shift, executed_twice]
    exact run

section Host

variable {n m : Nat}

theorem exact_hostOnly (h : Str) : Exact [⟨0, n, .markh⟩, ⟨h.length, n + 1, .saveHost⟩] h
    fun uri => { uri with host := h } := by
  refine ⟨by simp, fun pre rest b => ⟨some pre.length, ?_⟩⟩
  have saved : slice (pre ++ (h ++ rest)) (pre.length + 0) (pre.length + h.length) = h := slice_eq rfl rfl rfl
  simp only [List.map_cons, List.map_nil, Event.shift]
  rw [executed_pair (by decide)]
  simp only [Builder.run, Builder.exec_markh, Builder.exec_saveHost, Option.bind_some, saved]
  rfl

theorem effect_hostOnly (h : Str) : Effect [⟨0, n, .markh⟩, ⟨h.length, n + 1, .saveHost⟩] h
    fun uri => { uri with host := h } :=
  (exact_hostOnly h).effect fun _ _ => rfl

theorem effect_port (port : Option Str) : Effect (optionEvents n .markh .savePort port) (behind colon port) id := by
  cases port with
  | none => exact .silent []
  | some u =>
    refine ⟨by simp [optionEvents, behind, Nat.add_comm], fun _ _ => rfl, fun pre rest b => ⟨none, ?_⟩⟩
    simp only [optionEvents, List.map_cons, List.map_nil, Event.shift]
    rw [executed_pair (by decide)]
    simp only [Builder.run, Builder.exec_markh, Option.bind_some]
    by_cases empty : pre.length + 1 = pre.length + (1 + u.length)
    · rw [empty, Builder.exec_savePort_empty]
      exact ⟨b.uri.port, rfl⟩
    · rw [Builder.exec_savePort _ _ empty]
      exact ⟨_, rfl⟩

theorem effect_host (h : Str) (port : Option Str) :
    Effect (hostEvents n h port) (h ++ behind colon port) fun uri => { uri with host := h } :=
  (effect_hostOnly h).append (effect_port port) (apart_of_pos (effect_hostOnly h).within (pos_option port))

/-- What is marked and saved, and the path behind it: the path is marked where it begins, unless the mark was set
there before. -/
theorem executed_path {k j i a b c d : Nat} {x : Action} (notMark : x ≠ .markh) (notPath : x ≠ .savePath) :
    executed [⟨k, a, .markh⟩, ⟨j, b, x⟩, ⟨j, c, .markh⟩, ⟨i, d, .savePath⟩] =
      (.markh, k) :: (x, j) :: if j = k then [(.savePath, i)] else [(.markh, j), (.savePath, i)] := by
  by_cases same : j = k
  · simp [executed, List.eraseDups_cons, same, notMark, notPath.symm]
  · simp [executed, List.eraseDups_cons, same, notMark, notMark.symm, notPath.symm]

theorem within_path (path : Str) : ∀ e ∈ pathEvents m path, e.pos ≤ path.length := by
  simp [pathEvents]

/-- Behind a host without a port, the path is marked again or the mark is still there. -/
theorem exact_hostPath (h path : Str) :
    Exact ([⟨0, n, .markh⟩, ⟨h.length, n + 1, .saveHost⟩] ++ (pathEvents m path).map (Event.shift h.length)) (h ++ path)
      fun uri => { uri with host := h, path := path } := by
  refine ⟨by simp [pathEvents, Event.shift], fun pre rest b => ⟨none, ?_⟩⟩
  have saved : slice (pre ++ ((h ++ path) ++ rest)) (pre.length + 0) (pre.length + h.length) = h :=
    slice_eq (w := path ++ rest) (by simp) rfl rfl
  have saved' : slice (pre ++ ((h ++ path) ++ rest)) (pre.length + h.length) (pre.length + (h.length + path.length)) =
      path :=
    slice_eq (u := pre ++ h) (w := rest) (by simp) (by simp) (by simp [Nat.add_assoc])
  simp only [pathEvents, List.map_cons, List.map_nil, List.cons_append, List.nil_append, Event.shift]
  rw [Nat.add_zero h.length, executed_path (by decide) (by decide)]
  split
  · rename_i same
    rw [same] at saved'
    simp only [Builder.run, Builder.exec_markh, Builder.exec_saveHost, Builder.exec_savePath, Option.bind_some, saved,
      saved']
  · simp only [Builder.run, Builder.exec_markh, Builder.exec_saveHost, Builder.exec_savePath, Option.bind_some, saved,
      saved']

/-- A port and the path behind it: `atoi` reads from the port on, as far as it likes. -/
theorem run_portPath {u : Str} (some : u ≠ []) (path pre rest : Str) (b : Builder) :
    Builder.run (pre ++ ((behind colon (.some u) ++ path) ++ rest)) (executed ((optionEvents n .markh .savePort (.some u) ++
      (pathEvents m path).map (Event.shift (behind colon (.some u)).length)).map (Event.shift pre.length))) b =
        .some ⟨none, { b.uri with port := readPort (u ++ (path ++ rest)), path := path }⟩ := by
  have saved : slice (pre ++ ((behind colon (.some u) ++ path) ++ rest)) (pre.length + (1 + u.length))
      (pre.length + (1 + u.length + path.length)) = path :=
    slice_eq (u := pre ++ behind colon (.some u)) (w := rest) (by simp) (by simp [behind, Nat.add_comm])
      (by simp [behind]; omega)
  have apart : pre.length + (1 + u.length) ≠ pre.length + 1 := by
    have pos := List.length_pos_of_ne_nil some
    omega
  have length : (behind colon (.some u)).length = 1 + u.length := Nat.add_comm ..
  have behindColon : (pre ++ ((behind colon (.some u) ++ path) ++ rest)).drop (pre.length + 1) = u ++ (path ++ rest) := by
    rw [List.drop_append, List.drop_eq_nil_of_le (by omega), Nat.add_sub_cancel_left, behind]
    simp
  simp only [optionEvents, pathEvents, List.map_cons, List.map_nil, List.cons_append, List.nil_append, Event.shift,
    length, Nat.add_zero]
  rw [executed_path (by decide) (by decide), if_neg apart]
  simp only [Builder.run, Builder.exec_markh, Option.bind_some, Builder.exec_savePort _ _ apart.symm, behindColon,
    Builder.exec_savePath, saved]

theorem effect_portPath {u : Str} (some : u ≠ []) (path : Str) :
    Effect (optionEvents n .markh .savePort (.some u) ++ (pathEvents m path).map
      (Event.shift (behind colon (.some u)).length)) (behind colon (.some u) ++ path)
      fun uri => { uri with path := path } := by
  refine ⟨within_append (effect_port _).within (within_path path), fun _ _ => rfl, fun pre rest b => ?_⟩
  exact ⟨none, _, run_portPath some path pre rest b⟩

/-- Behind an empty port the path is not marked again, and there is no mark when it is saved. -/
theorem throws_portPath (path : Str) :
    Throws (optionEvents n .markh .savePort (some []) ++ (pathEvents m path).map
      (Event.shift (behind colon (some [])).length)) (behind colon (some []) ++ path) := by
  refine ⟨within_append (effect_port _).within (within_path path), fun pre rest b => ?_⟩
  have length : (behind colon (some [])).length = 1 := rfl
  simp only [optionEvents, pathEvents, List.map_cons, List.map_nil, List.cons_append, List.nil_append, Event.shift,
    length, List.length_nil, Nat.add_zero]
  rw [executed_path (by decide) (by decide), if_pos rfl]
  simp only [Builder.run, Builder.exec_markh, Option.bind_some, Builder.exec_savePort_empty, Builder.exec_savePath_none,
    Option.bind_none]

end Host

/-! ## Users -/

/-- The user that is saved: what is behind the first colon, where that begins with a digit. -/
def savedUser (userinfo : Str) : Str :=
  match (Rfc3986.splitAt colon userinfo).2 with
  | some rest => if digitFirst rest then rest else userinfo
  | none => userinfo

/-- The name before the first colon of a userinfo is saved as a host, until the host comes. -/
def strayHost (userinfo : Str) (uri : Uri) : Uri :=
  match Rfc3986.splitAt colon userinfo with
  | (name, some _) => { uri with host := name }
  | (_, none) => uri

section User

variable {n m k : Nat} {name rest : Str}

theorem effect_name (u : Str) : Effect [⟨0, n, .markh⟩, ⟨u.length, m, .saveUserinfo⟩] u
    fun uri => { uri with user := u } := by
  refine ⟨by simp, fun _ _ => rfl, fun pre post b => ⟨none, b.uri.port, ?_⟩⟩
  have saved : slice (pre ++ (u ++ post)) (pre.length + 0) (pre.length + u.length) = u := slice_eq rfl rfl rfl
  simp only [List.map_cons, List.map_nil, Event.shift]
  rw [executed_pair (by decide)]
  simp only [Builder.run, Builder.exec_markh, Builder.exec_saveUserinfo, Option.bind_some, saved]

theorem effect_noDigit (name rest : Str) :
    Effect [⟨0, n, .markh⟩, ⟨name.length, m, .saveHost⟩, ⟨(name ++ colon :: rest).length, k, .saveUserinfo⟩]
      (name ++ colon :: rest) fun uri => { uri with host := name, user := name ++ colon :: rest } := by
  refine ⟨?_, fun _ _ => rfl, fun pre post b => ⟨none, b.uri.port, ?_⟩⟩
  · simp
  have savedHost : slice (pre ++ ((name ++ colon :: rest) ++ post)) (pre.length + 0)
      (pre.length + name.length) = name :=
    slice_eq (w := colon :: rest ++ post) (by simp) rfl rfl
  have savedUser : slice (pre ++ ((name ++ colon :: rest) ++ post)) (pre.length + 0)
      (pre.length + (name ++ colon :: rest).length) = name ++ colon :: rest :=
    slice_eq rfl rfl rfl
  have list : ∀ i j l : Nat, executed [⟨i, n, Action.markh⟩, ⟨j, m, .saveHost⟩, ⟨l, k, .saveUserinfo⟩] =
      [(.markh, i), (.saveHost, j), (.saveUserinfo, l)] := by
    intro i j l
    simp [executed, List.eraseDups_cons]
  simp only [List.map_cons, List.map_nil, Event.shift]
  rw [list]
  simp only [Builder.run, Builder.exec_markh, Builder.exec_saveHost, Builder.exec_saveUserinfo, Option.bind_some,
    savedHost, savedUser]

/-- Where a digit follows the colon, the mark of a port is set, and the user is saved from there. -/
theorem effect_digit (name rest : Str) {l : Nat} :
    Effect [⟨0, n, .markh⟩, ⟨name.length, m, .saveHost⟩, ⟨name.length + 1, k, .markh⟩,
      ⟨(name ++ colon :: rest).length, l, .saveUserinfo⟩]
      (name ++ colon :: rest) fun uri => { uri with host := name, user := rest } := by
  refine ⟨?_, fun _ _ => rfl, fun pre post b => ⟨none, b.uri.port, ?_⟩⟩
  · simp
  have savedHost : slice (pre ++ ((name ++ colon :: rest) ++ post)) (pre.length + 0)
      (pre.length + name.length) = name :=
    slice_eq (w := colon :: rest ++ post) (by simp) rfl rfl
  have savedUser : slice (pre ++ ((name ++ colon :: rest) ++ post)) (pre.length + (name.length + 1))
      (pre.length + (name ++ colon :: rest).length) = rest :=
    slice_eq (u := pre ++ (name ++ [colon])) (w := post) (by simp) (by simp) (by simp; omega)
  have list : ∀ i j g : Nat, j + 1 ≠ i → executed [⟨i, n, Action.markh⟩, ⟨j, m, .saveHost⟩, ⟨j + 1, k, .markh⟩,
      ⟨g, l, .saveUserinfo⟩] = [(.markh, i), (.saveHost, j), (.markh, j + 1), (.saveUserinfo, g)] := by
    intro i j g apart
    simp [executed, List.eraseDups_cons, apart]
  simp only [List.map_cons, List.map_nil, Event.shift, ← Nat.add_assoc] at savedUser ⊢
  rw [list _ _ _ (by omega)]
  simp only [Builder.run, Builder.exec_markh, Builder.exec_saveHost, Builder.exec_saveUserinfo, Option.bind_some,
    savedHost, savedUser]

theorem effect_user (u : Str) :
    Effect (⟨0, n, .markh⟩ :: (strayEvents m u ++ [⟨u.length, k, .saveUserinfo⟩])) u
      fun uri => strayHost u { uri with user := savedUser u } := by
  obtain ⟨name, o, not, rfl⟩ := Rfc3986.exists_splitAt colon u
  have split := Rfc3986.splitAt_behind not o
  unfold strayEvents strayHost savedUser
  rw [split]
  cases o with
  | none =>
    rw [behind, List.append_nil]
    dsimp only
    split
    · exact effect_name name
    · exact (effect_name name).twice
  | some rest =>
    dsimp only
    split
    · exact (effect_digit name rest).twice
    · exact (effect_noDigit name rest).twice

end User

/-! ## Authorities -/

section Authority

variable {n : Nat} {a : Authority} {extra : List (Event Action)} {path : Str}

/-- The events of an authority and of what follows it, by those of the host and what follows it. -/
theorem authorityEvents_append : authorityEvents n a ++ extra.map (Event.shift a.text.length) =
    match a.userinfo with
    | none => ⟨0, n, .markh⟩ :: (hostEvents (n + 2) a.host a.port ++
        extra.map (Event.shift (a.host ++ behind colon a.port).length))
    | some u => (⟨0, n, .markh⟩ :: (strayEvents (n + 2) u ++ [⟨u.length, n + 1, .saveUserinfo⟩])) ++
        ((hostEvents (n + 2) a.host a.port ++ extra.map (Event.shift (a.host ++ behind colon a.port).length)).map
          (Event.shift [commat].length)).map (Event.shift u.length) := by
  rw [authorityEvents, Authority.text]
  cases a.userinfo with
  | none => rfl
  | some u =>
    have length : (before commat (some u) ++ (a.host ++ behind colon a.port)).length =
        u.length + ([commat].length + (a.host ++ behind colon a.port).length) := by
      simp only [before, List.length_append, Nat.add_assoc]
    rw [length]
    simp only [List.map_append, map_shift_shift, List.cons_append, List.append_assoc, List.nil_append]
    rfl

/-- The user, and then what the host and what follows it do. -/
theorem effect_authority {f : Uri → Uri} (overwrites : ∀ u uri, f (strayHost u uri) = f uri)
    (tail : Effect (hostEvents (n + 2) a.host a.port ++ extra.map (Event.shift (a.host ++ behind colon a.port).length))
      ((a.host ++ behind colon a.port) ++ path) f) :
    Effect (authorityEvents n a ++ extra.map (Event.shift a.text.length)) (a.text ++ path)
      fun uri => f (a.userinfo.elim uri fun u => { uri with user := savedUser u }) := by
  rw [authorityEvents_append, Authority.text]
  cases a.userinfo with
  | none => exact tail.twice
  | some u =>
    have whole := (effect_user (n := n) (m := n + 2) (k := n + 1) u).append (tail.after [commat])
      (apart_of_pos (effect_user u).within pos_after)
    have text : u ++ ([commat] ++ ((a.host ++ behind colon a.port) ++ path)) =
        (before commat (some u) ++ (a.host ++ behind colon a.port)) ++ path := by
      simp [before]
    have changes : (f ∘ fun uri : Uri => strayHost u { uri with user := savedUser u }) =
        fun uri : Uri => f { uri with user := savedUser u } := by
      ext1 uri
      exact overwrites u _
    rw [text, changes] at whole
    exact whole

theorem throws_authority
    (tail : Throws (hostEvents (n + 2) a.host a.port ++ extra.map (Event.shift (a.host ++ behind colon a.port).length))
      ((a.host ++ behind colon a.port) ++ path)) :
    Throws (authorityEvents n a ++ extra.map (Event.shift a.text.length)) (a.text ++ path) := by
  rw [authorityEvents_append, Authority.text]
  cases a.userinfo with
  | none => exact tail.twice
  | some u =>
    have whole := (effect_user (n := n) (m := n + 2) (k := n + 1) u).throws (tail.after [commat])
      (apart_of_pos (effect_user u).within pos_after)
    have text : u ++ ([commat] ++ ((a.host ++ behind colon a.port) ++ path)) =
        (before commat (some u) ++ (a.host ++ behind colon a.port)) ++ path := by
      simp [before]
    rw [text] at whole
    exact whole

end Authority

/-! ## References -/

section References

variable {n m : Nat} {h path : Str} {u : Str}

theorem hostEvents_append (port : Option Str) :
    hostEvents n h port ++ (pathEvents m path).map (Event.shift (h ++ behind colon port).length) =
      [⟨0, n, .markh⟩, ⟨h.length, n + 1, .saveHost⟩] ++ (optionEvents (n + 2) .markh .savePort port ++
        (pathEvents m path).map (Event.shift (behind colon port).length)).map (Event.shift h.length) := by
  rw [hostEvents, List.map_append, map_shift_shift, List.append_assoc, List.length_append]

theorem pos_portPath : ∀ e ∈ optionEvents n .markh .savePort (some u) ++
    (pathEvents m path).map (Event.shift (behind colon (some u)).length), 0 < e.pos := by
  intro e mem
  rcases List.mem_append.mp mem with mem | mem
  · exact pos_option (some u) e mem
  · exact pos_after e mem

/-- A host, a port and a path. -/
theorem effect_hier (port : Option Str) (some : port ≠ .some []) :
    Effect (hostEvents n h port ++ (pathEvents m path).map (Event.shift (h ++ behind colon port).length))
      ((h ++ behind colon port) ++ path) fun uri => { uri with host := h, path := path } := by
  cases port with
  | none =>
    have effect := (exact_hostPath (n := n) (m := m) h path).effect fun _ _ => rfl
    rw [hostEvents_append, behind, List.append_nil]
    simp only [optionEvents, List.length_nil, List.nil_append, map_shift_shift, Nat.add_zero]
    exact effect
  | some u =>
    have notEmpty : u ≠ [] := fun none => some (by rw [none])
    rw [hostEvents_append, List.append_assoc]
    exact (effect_hostOnly h).append (effect_portPath notEmpty path)
      (apart_of_pos (effect_hostOnly h).within pos_portPath)

theorem throws_hier (h path : Str) :
    Throws (hostEvents n h (some []) ++ (pathEvents m path).map (Event.shift (h ++ behind colon (some [])).length))
      ((h ++ behind colon (some [])) ++ path) := by
  rw [hostEvents_append, List.append_assoc]
  exact (effect_hostOnly h).throws (throws_portPath path) (apart_of_pos (effect_hostOnly h).within pos_portPath)

def saveRest (q f : Option Str) (uri : Uri) : Uri :=
  { uri with query := q.getD uri.query, fragment := f.getD uri.fragment }

theorem exact_queryFragment (q f : Option Str) :
    Exact (queryFragmentEvents n q f) (behind question q ++ behind hash f) (saveRest q f) := by
  have first : Exact (optionEvents n .marku .saveQuery q) (behind question q)
      (q.elim id fun v uri => { uri with query := v }) := exact_option q (by decide) fun _ _ _ _ => rfl
  have second : Exact (optionEvents (n + 2) .marku .saveFragment f) (behind hash f)
      (f.elim id fun v uri => { uri with fragment := v }) := exact_option f (by decide) fun _ _ _ _ => rfl
  have changes : (f.elim id fun (v : Str) (uri : Uri) => { uri with fragment := v }) ∘
      (q.elim id fun v uri => { uri with query := v }) = saveRest q f := by
    cases q with
    | none => cases f <;> rfl
    | some q => cases f <;> rfl
  rw [← changes]
  exact first.append second (apart_of_pos first.within (pos_option f))

theorem effect_queryFragment (q f : Option Str) :
    Effect (queryFragmentEvents n q f) (behind question q ++ behind hash f) (saveRest q f) :=
  (exact_queryFragment q f).effect fun _ _ => rfl

theorem pos_queryFragment (q f : Option Str) : ∀ e ∈ queryFragmentEvents n q f, 0 < e.pos := by
  intro e mem
  rcases List.mem_append.mp mem with mem | mem
  · exact pos_option q e mem
  · obtain ⟨e, inner, rfl⟩ := List.mem_map.mp mem
    have pos := pos_option f e inner
    simp only [Event.shift]
    omega

/-- A scheme, and an authority with a port that is there but empty. -/
def emptyPort (p : Parts) : Bool := p.scheme.isSome && p.authority.any fun a => a.port = some []

/-- What is made of a reference, apart from the port. -/
def built (p : Parts) : Uri where
  port := 0
  scheme := p.scheme.getD []
  user := (p.authority.bind fun a => a.userinfo).elim [] savedUser
  host := p.authority.elim [] fun a => a.host
  path := if p.scheme.isSome && p.authority.isSome then p.path else []
  query := p.query.getD []
  fragment := p.fragment.getD []

/-- The user of an authority. -/
def saveUser (a : Authority) (uri : Uri) : Uri := a.userinfo.elim uri fun u => { uri with user := savedUser u }

def saveHier (path : Str) (o : Option Authority) (uri : Uri) : Uri :=
  o.elim uri fun a => { saveUser a uri with host := a.host, path := path }

def saveRelative (o : Option Authority) (uri : Uri) : Uri :=
  o.elim uri fun a => { saveUser a uri with host := a.host }

variable {p : Parts} {name : Str}

theorem effect_hierPart (path : Str) (o : Option Authority) (filled : ∀ a ∈ o, a.port ≠ some []) :
    Effect (hierEvents n path o) (Rfc3986.authorityText o ++ path) (saveHier path o) := by
  cases o with
  | none => exact .silent _
  | some a =>
    have overwrites : ∀ (u : Str) (uri : Uri), { strayHost u uri with host := a.host, path := path } =
        { uri with host := a.host, path := path } := by
      intro u uri
      unfold strayHost
      split
      · rfl
      · rfl
    exact (effect_authority overwrites (effect_hier a.port (filled a rfl))).after [slash, slash]

theorem throws_hierPart (path : Str) {a : Authority} (empty : a.port = some []) :
    Throws (hierEvents n path (some a)) (Rfc3986.authorityText (some a) ++ path) := by
  have tail := throws_hier (n := n + 2) (m := n + 6) a.host path
  rw [← empty] at tail
  exact (throws_authority tail).after [slash, slash]

theorem effect_relativePart (path : Str) (o : Option Authority) :
    Effect (relativeEvents n o) (Rfc3986.authorityText o ++ path) (saveRelative o) := by
  cases o with
  | none => exact .silent _
  | some a =>
    have overwrites : ∀ (u : Str) (uri : Uri), { strayHost u uri with host := a.host } = { uri with host := a.host } := by
      intro u uri
      unfold strayHost
      split
      · rfl
      · rfl
    have silent := (effect_host (n := n + 2) a.host a.port).append (.silent path) (by simp)
    have whole := (effect_authority overwrites silent).after [slash, slash]
    rw [List.map_nil, List.append_nil] at whole
    exact whole

theorem effect_named (named : p.scheme = some name) (filled : emptyPort p = false) :
    Effect (referenceEvents p) p.text
      ((saveRest p.query p.fragment ∘ saveHier p.path p.authority) ∘ fun uri => { uri with scheme := name }) := by
  have ports : ∀ a ∈ p.authority, a.port ≠ some [] := by
    intro a mem empty
    rw [Option.mem_def] at mem
    simp [emptyPort, named, mem, empty] at filled
  have hier := effect_hierPart (n := 2) p.path p.authority ports
  have rest := effect_queryFragment (n := 10) p.query p.fragment
  have tail := hier.append rest (apart_of_pos hier.within (pos_queryFragment p.query p.fragment))
  have whole := (effect_scheme name).append (tail.after [colon]) (apart_of_pos (effect_scheme name).within pos_after)
  rw [text_named named, referenceEvents, named]
  exact whole

theorem throws_named (named : p.scheme = some name) (empty : emptyPort p = true) :
    Throws (referenceEvents p) p.text := by
  have port : ∃ a, p.authority = some a ∧ a.port = some [] := by
    simpa [emptyPort, named, Option.any_eq_true] using empty
  obtain ⟨a, eq, empty⟩ := port
  have hier := throws_hierPart (n := 2) p.path empty
  rw [← eq] at hier
  have rest := effect_queryFragment (n := 10) p.query p.fragment
  have tail := hier.append rest.within (apart_of_pos hier.within (pos_queryFragment p.query p.fragment))
  rw [text_named named, referenceEvents, named]
  exact (effect_scheme name).throws (tail.after [colon]) (apart_of_pos (effect_scheme name).within pos_after)

/-- The mark at the start of a relative reference, where a scheme could begin. -/
theorem effect_letter (letter : Bool) : Effect (if letter then [⟨0, 0, .marku⟩] else []) [] id := by
  cases letter with
  | false => exact .silent []
  | true => exact ⟨by simp, fun _ _ => rfl, fun pre rest b => ⟨some pre.length, b.uri.port, rfl⟩⟩

/-- Nothing but the mark of a scheme is done at the start of a relative reference. -/
theorem pos_relative (p : Parts) (k : Nat) : ∀ e ∈ relativeEvents 14 p.authority ++
    (queryFragmentEvents 20 p.query p.fragment).map (Event.shift k), 0 < e.pos := by
  intro e mem
  rcases List.mem_append.mp mem with mem | mem
  · cases eq : p.authority with
    | none =>
      rw [eq] at mem
      cases mem
    | some a =>
      rw [eq] at mem
      exact pos_after e mem
  · obtain ⟨e, inner, rfl⟩ := List.mem_map.mp mem
    have pos := pos_queryFragment p.query p.fragment e inner
    simp only [Event.shift]
    omega

theorem effect_unnamed (unnamed : p.scheme = none) :
    Effect (referenceEvents p) p.text (saveRest p.query p.fragment ∘ saveRelative p.authority) := by
  have hier := effect_relativePart (n := 14) p.path p.authority
  have rest := effect_queryFragment (n := 20) p.query p.fragment
  have tail := hier.append rest (apart_of_pos hier.within (pos_queryFragment p.query p.fragment))
  have whole := (effect_letter (letterFirst p.text)).append tail
    (apart_of_pos (effect_letter _).within (pos_relative p _))
  have shape : [] ++ ((Rfc3986.authorityText p.authority ++ p.path) ++
      (behind question p.query ++ behind hash p.fragment)) = p.text := (text_unnamed unnamed).symm
  rw [List.length_nil, map_shift_zero, shape] at whole
  rw [referenceEvents, unnamed]
  exact whole

theorem built_named (named : p.scheme = some name) :
    saveRest p.query p.fragment (saveHier p.path p.authority { init with scheme := name }) = built p := by
  rw [built, named]
  cases p.authority with
  | none => rfl
  | some a =>
    obtain ⟨userinfo, host, port⟩ := a
    cases userinfo with
    | none => rfl
    | some u => rfl

theorem built_unnamed (unnamed : p.scheme = none) :
    saveRest p.query p.fragment (saveRelative p.authority init) = built p := by
  rw [built, unnamed]
  cases p.authority with
  | none => rfl
  | some a =>
    obtain ⟨userinfo, host, port⟩ := a
    cases userinfo with
    | none => rfl
    | some u => rfl

end References

/-! ## `URI::create` -/

section Create

variable {p : Parts}

/-- `create` executes the trace of a reference. -/
theorem create_eq (valid : p.Valid UriParser.host) :
    create p.text = (Builder.run p.text (executed (referenceEvents p)) ⟨none, init⟩).map fun b => some b.uri := by
  have inside : p.text ∈ lang false uriReference := by
    rw [lang_uriReference]
    exact (Rfc3986.mem_lang_reference UriParser.host p.text).mpr ⟨p, valid, rfl⟩
  obtain ⟨st, acts, scan, final, run⟩ := scan_of_trace (by decide) inside (trace_reference valid)
  rw [create, scan]
  dsimp only
  rw [run, final]
  rfl

/-- Behind a scheme, an empty port makes `create` throw. -/
theorem create_throws (valid : p.Valid UriParser.host) (empty : emptyPort p = true) : create p.text = none := by
  cases named : p.scheme with
  | none => simp [emptyPort, named] at empty
  | some name =>
    have run := (throws_named named empty).runs [] [] ⟨none, init⟩
    rw [List.append_nil, List.nil_append, List.length_nil, map_shift_zero] at run
    rw [create_eq valid, run]
    rfl

theorem create_text (valid : p.Valid UriParser.host) (filled : emptyPort p = false) :
    ∃ n, create p.text = some (some { built p with port := n }) := by
  have effect : ∃ f, Effect (referenceEvents p) p.text f ∧ f init = built p := by
    cases named : p.scheme with
    | none => exact ⟨_, effect_unnamed named, built_unnamed named⟩
    | some name => exact ⟨_, effect_named named filled, built_named named⟩
  obtain ⟨f, effect, eq⟩ := effect
  obtain ⟨mark, n, run⟩ := effect.runs [] [] ⟨none, init⟩
  rw [List.append_nil, List.nil_append, List.length_nil, map_shift_zero] at run
  refine ⟨n, ?_⟩
  rw [create_eq valid, run, ← eq]
  rfl

/-- Only what the grammar derives is accepted. -/
theorem mem_lang_of_create {s : Str} {uri : Uri} (accepted : create s = some (some uri)) :
    s ∈ lang false uriReference := by
  rw [create] at accepted
  cases state : (Scan.scan (Ragel.step false) (fun _ => false) (Ragel.start uriReference) 0 s).state with
  | none =>
    rw [state] at accepted
    obtain ⟨b, -, none⟩ := Option.map_eq_some_iff.mp accepted
    cases none
  | some st =>
    rw [state] at accepted
    obtain ⟨b, -, made⟩ := Option.map_eq_some_iff.mp accepted
    have isFinal : Ragel.final st = true := by
      by_contra not
      rw [if_neg not] at made
      cases made
    exact mem_lang_of_scan (by decide) (fun _ => rfl) state isFinal

/-! ## Components -/

/-- The getters of a `URI` return the components of a reference. -/
structure Agrees (uri : Uri) (p : Parts) : Prop where
  scheme : uri.scheme = p.scheme.getD []
  user : uri.user = (p.authority.bind fun a => a.userinfo).getD []
  host : uri.host = p.authority.elim [] fun a => a.host
  path : uri.getPath = if p.path.isEmpty then bytes "/" else p.path
  query : uri.query = p.query.getD []
  fragment : uri.fragment = p.fragment.getD []

/-- A digit follows the first colon of a userinfo. -/
def digitBehindColon (userinfo : Str) : Bool := (Rfc3986.splitAt colon userinfo).2.any digitFirst

/-- The path is empty or `/`, or there are a scheme and an authority before it; and no digit follows the first
colon of the userinfo. -/
def Extracted (p : Parts) : Prop :=
  (p.path = [] ∨ p.path = bytes "/" ∨ p.scheme.isSome = true ∧ p.authority.isSome = true) ∧
    ∀ a ∈ p.authority, ∀ u ∈ a.userinfo, digitBehindColon u = false

theorem savedUser_eq_iff (u : Str) : savedUser u = u ↔ digitBehindColon u = false := by
  obtain ⟨name, o, not, rfl⟩ := Rfc3986.exists_splitAt colon u
  rw [savedUser, digitBehindColon, Rfc3986.splitAt_behind not]
  cases o with
  | none => exact iff_of_true rfl rfl
  | some rest =>
    rw [Option.any_some]
    dsimp only
    split
    · rename_i digit
      rw [digit]
      refine iff_of_false (fun eq => ?_) (by simp)
      have lengths := congrArg List.length eq
      rw [behind, List.length_append, List.length_cons] at lengths
      omega
    · rename_i digit
      exact iff_of_true rfl (Bool.eq_false_iff.mpr digit)

theorem user_built_iff : (built p).user = (p.authority.bind fun a => a.userinfo).getD [] ↔
    ∀ a ∈ p.authority, ∀ u ∈ a.userinfo, digitBehindColon u = false := by
  rw [built]
  dsimp only
  cases p.authority with
  | none => simp
  | some a =>
    cases user : a.userinfo with
    | none => simp [user]
    | some u => simp [user, savedUser_eq_iff]

theorem getPath_built_iff : (built p).getPath = (if p.path.isEmpty then bytes "/" else p.path) ↔
    p.path = [] ∨ p.path = bytes "/" ∨ p.scheme.isSome = true ∧ p.authority.isSome = true := by
  rw [getPath, built]
  dsimp only
  cases both : p.scheme.isSome && p.authority.isSome with
  | true =>
    rw [Bool.and_eq_true] at both
    exact iff_of_true rfl (.inr (.inr both))
  | false =>
    have notBoth : ¬ (p.scheme.isSome = true ∧ p.authority.isSome = true) := by
      rw [← Bool.and_eq_true, both]
      exact Bool.false_ne_true
    simp only [Bool.false_eq_true, if_false, List.isEmpty_nil, if_true, notBoth, or_false]
    by_cases none : p.path = []
    · rw [none]
      exact iff_of_true rfl (.inl rfl)
    · have some : ¬ p.path.isEmpty = true := fun isEmpty => none (List.isEmpty_iff.mp isEmpty)
      rw [if_neg some, or_iff_right none]
      exact eq_comm

/-- The components of an accepted string are returned exactly where no action of another alternative and no
missing one gets in the way. -/
theorem agrees_iff_extracted {s : Str} {uri : Uri} (accepted : create s = some (some uri)) :
    uri.Agrees (Parts.of s) ↔ Extracted (Parts.of s) := by
  have inside := mem_lang_of_create accepted
  rw [lang_uriReference, Rfc3986.mem_lang_reference] at inside
  obtain ⟨p, valid, rfl⟩ := inside
  rw [Parts.of_text valid fun a mem => hostLike (valid.authority a mem).host]
  cases empty : emptyPort p with
  | true =>
    rw [create_throws valid empty] at accepted
    cases accepted
  | false =>
    obtain ⟨n, made⟩ := create_text valid empty
    rw [made] at accepted
    obtain rfl := Option.some.inj (Option.some.inj accepted)
    constructor
    · exact fun agrees => ⟨getPath_built_iff.mp agrees.path, user_built_iff.mp agrees.user⟩
    · exact fun extracted => ⟨rfl, user_built_iff.mpr extracted.2, rfl, getPath_built_iff.mpr extracted.1, rfl, rfl⟩

/-- The reference of the tests, with a user and a path. -/
theorem agrees_iff_extracted_http :
    create (bytes "http://admin@h/test/uri?id=100#frg") = some (some ⟨0, bytes "http", bytes "admin", bytes "h",
      bytes "/test/uri", bytes "id=100", bytes "frg"⟩) ∧
      ((⟨0, bytes "http", bytes "admin", bytes "h", bytes "/test/uri", bytes "id=100", bytes "frg"⟩ : Uri).Agrees
        (Parts.of (bytes "http://admin@h/test/uri?id=100#frg")) ↔
          Extracted (Parts.of (bytes "http://admin@h/test/uri?id=100#frg"))) := by
  have accepted : create (bytes "http://admin@h/test/uri?id=100#frg") = some (some ⟨0, bytes "http", bytes "admin",
      bytes "h", bytes "/test/uri", bytes "id=100", bytes "frg"⟩) := by decide +kernel
  exact ⟨accepted, agrees_iff_extracted accepted⟩

/-- The path of a relative reference is lost. -/
theorem not_agrees : ¬ ∀ (s : Str) (uri : Uri), create s = some (some uri) → uri.Agrees (Parts.of s) := by
  intro agrees
  have accepted : create (bytes "/c") = some (some init) := by decide +kernel
  exact absurd (agrees _ _ accepted).path (by decide)

end Create

end Sylar.Uri
