import Mathlib

/-!
# Procedures — imperative code with state and exceptions

A procedure reads and writes a state and ends in one of three ways: it returns a value, it throws,
or it gets STUCK. An exception keeps the state the procedure had reached, because a caller may catch
it and go on with the same object. `stuck` is everything the language gives no meaning to (a null
pointer dereferenced, a loop that makes no progress), so it never compares equal to a return, and a
theorem that equates a procedure with one that is never stuck proves the absence of such errors.

`Refines` compares two procedures over two states: related states go to related states, with the
same value or the same exception, and neither side is stuck. It composes along `bind`, and
`observe_eq` carries it to whole sequences of calls.
-/

namespace Sylar.Lib

/-- How a procedure ends. -/
inductive Outcome (ε σ α : Type) where
  | done (value : α) (state : σ)
  | thrown (error : ε) (state : σ)
  | stuck

/-- Imperative code over a state `σ` that may throw an `ε`. -/
def Proc (ε σ α : Type) : Type := σ → Outcome ε σ α

namespace Proc

variable {ε σ τ α β ι ω : Type}

protected def pure (a : α) : Proc ε σ α := fun s => .done a s

protected def bind (p : Proc ε σ α) (f : α → Proc ε σ β) : Proc ε σ β := fun s =>
  match p s with
  | .done a s' => f a s'
  | .thrown e s' => .thrown e s'
  | .stuck => .stuck

instance : Monad (Proc ε σ) where
  pure := Proc.pure
  bind := Proc.bind

instance : LawfulMonad (Proc ε σ) := LawfulMonad.mk' _
  (by
    intro α x
    funext s
    show Proc.bind x (Pure.pure ∘ id) s = x s
    unfold Proc.bind
    cases x s <;> rfl)
  (fun _ _ => rfl)
  (by
    intro α β γ x f g
    funext s
    show Proc.bind (Proc.bind x f) g s = Proc.bind x (fun a => Proc.bind (f a) g) s
    unfold Proc.bind
    cases x s <;> rfl)

/-- The whole state. -/
def read : Proc ε σ σ := fun s => .done s s

/-- Replace the state by a function of it. -/
def update (f : σ → σ) : Proc ε σ Unit := fun s => .done () (f s)

/-- Throw, keeping the state reached. -/
def raise (e : ε) : Proc ε σ α := fun s => .thrown e s

/-- No defined behaviour. -/
def abort : Proc ε σ α := fun _ => .stuck

/-- The value of an option, stuck when there is none. -/
def demand : Option α → Proc ε σ α
  | some a => pure a
  | none => abort

/-! ## Evaluation -/

@[simp] theorem pure_apply (a : α) (s : σ) : (pure a : Proc ε σ α) s = .done a s := rfl

theorem bind_apply (p : Proc ε σ α) (f : α → Proc ε σ β) (s : σ) :
    (p >>= f) s = match p s with
      | .done a s' => f a s'
      | .thrown e s' => .thrown e s'
      | .stuck => .stuck := rfl

theorem bind_done {p : Proc ε σ α} {a : α} {s s' : σ} (f : α → Proc ε σ β)
    (h : p s = .done a s') : (p >>= f) s = f a s' := by
  rw [bind_apply, h]

theorem bind_thrown {p : Proc ε σ α} {e : ε} {s s' : σ} (f : α → Proc ε σ β)
    (h : p s = .thrown e s') : (p >>= f) s = .thrown e s' := by
  rw [bind_apply, h]

/-- A sequence that returned did so in both parts. -/
theorem bind_eq_done {p : Proc ε σ α} {f : α → Proc ε σ β} {s s' : σ} {b : β}
    (h : (p >>= f) s = .done b s') : ∃ a s₁, p s = .done a s₁ ∧ f a s₁ = .done b s' := by
  rw [bind_apply] at h
  cases run : p s <;> rw [run] at h
  · exact ⟨_, _, rfl, h⟩
  · cases h
  · cases h

@[simp] theorem pure_bind_apply (a : α) (f : α → Proc ε σ β) (s : σ) :
    ((pure a : Proc ε σ α) >>= f) s = f a s := rfl

@[simp] theorem read_bind_apply (f : σ → Proc ε σ β) (s : σ) :
    ((read : Proc ε σ σ) >>= f) s = f s s := rfl

@[simp] theorem update_bind_apply (g : σ → σ) (f : Unit → Proc ε σ β) (s : σ) :
    ((update g : Proc ε σ Unit) >>= f) s = f () (g s) := rfl

@[simp] theorem raise_bind_apply (e : ε) (f : α → Proc ε σ β) (s : σ) :
    ((raise e : Proc ε σ α) >>= f) s = .thrown e s := rfl

@[simp] theorem demand_some_bind_apply (a : α) (f : α → Proc ε σ β) (s : σ) :
    ((demand (some a) : Proc ε σ α) >>= f) s = f a s := rfl

@[simp] theorem update_apply (g : σ → σ) (s : σ) :
    (update g : Proc ε σ Unit) s = .done () (g s) := rfl

@[simp] theorem raise_apply (e : ε) (s : σ) : (raise e : Proc ε σ α) s = .thrown e s := rfl

/-! ## Refinement -/

/-- Two ends agree: the same value or the same exception, and related states. Being stuck agrees
with nothing, not even with being stuck. -/
def Agree (R : σ → τ → Prop) : Outcome ε σ α → Outcome ε τ α → Prop
  | .done a s, .done b t => a = b ∧ R s t
  | .thrown e s, .thrown f t => e = f ∧ R s t
  | _, _ => False

/-- From related states both procedures end, and their ends agree. -/
def Refines (R : σ → τ → Prop) (p : Proc ε σ α) (q : Proc ε τ α) : Prop :=
  ∀ s t, R s t → Agree R (p s) (q t)

theorem Refines.pure {R : σ → τ → Prop} (a : α) :
    Refines R (Pure.pure a : Proc ε σ α) (Pure.pure a) :=
  fun _ _ h => ⟨rfl, h⟩

theorem Refines.bind {R : σ → τ → Prop} {p : Proc ε σ α} {q : Proc ε τ α}
    {f : α → Proc ε σ β} {g : α → Proc ε τ β}
    (hp : Refines R p q) (hf : ∀ a, Refines R (f a) (g a)) :
    Refines R (p >>= f) (q >>= g) := by
  intro s t h
  have agree := hp s t h
  rw [bind_apply, bind_apply]
  cases hps : p s <;> cases hqt : q t <;> rw [hps, hqt] at agree <;>
    simp only [Agree] at agree ⊢
  · obtain ⟨rfl, related⟩ := agree
    exact hf _ _ _ related
  · exact agree

/-- Where the refined procedure returns, so does the refining one. -/
theorem Refines.done {R : σ → τ → Prop} {p : Proc ε σ α} {q : Proc ε τ α} (h : Refines R p q)
    {s : σ} {t t' : τ} {a : α} (related : R s t) (hq : q t = .done a t') :
    ∃ s', p s = .done a s' ∧ R s' t' := by
  have agree := h s t related
  rw [hq] at agree
  cases hp : p s <;> rw [hp] at agree <;> simp only [Agree] at agree
  obtain ⟨rfl, related'⟩ := agree
  exact ⟨_, rfl, related'⟩

/-- Where the refined procedure throws, so does the refining one. -/
theorem Refines.thrown {R : σ → τ → Prop} {p : Proc ε σ α} {q : Proc ε τ α} (h : Refines R p q)
    {s : σ} {t t' : τ} {e : ε} (related : R s t) (hq : q t = .thrown e t') :
    ∃ s', p s = .thrown e s' ∧ R s' t' := by
  have agree := h s t related
  rw [hq] at agree
  cases hp : p s <;> rw [hp] at agree <;> simp only [Agree] at agree
  obtain ⟨rfl, related'⟩ := agree
  exact ⟨_, rfl, related'⟩

/-- Mapping the values of refining procedures. -/
theorem Refines.map {R : σ → τ → Prop} {p : Proc ε σ α} {q : Proc ε τ α} (f : α → β)
    (hp : Refines R p q) :
    Refines R (p >>= fun a => Pure.pure (f a)) (q >>= fun a => Pure.pure (f a)) :=
  hp.bind fun a => Refines.pure (f a)

/-! ## Frames -/

/-- However the procedure ends, its last state is related to its first one. -/
def Keeps (R : σ → σ → Prop) (p : Proc ε σ α) : Prop :=
  ∀ s, match p s with
    | .done _ s' => R s s'
    | .thrown _ s' => R s s'
    | .stuck => True

namespace Keeps

variable {R : σ → σ → Prop}

theorem done {p : Proc ε σ α} (h : Keeps R p) {s s' : σ} {a : α} (run : p s = .done a s') :
    R s s' := by
  have kept := h s
  rwa [run] at kept

theorem thrown {p : Proc ε σ α} (h : Keeps R p) {s s' : σ} {e : ε} (run : p s = .thrown e s') :
    R s s' := by
  have kept := h s
  rwa [run] at kept

theorem mono {S : σ → σ → Prop} (weaker : ∀ a b, R a b → S a b) {p : Proc ε σ α} (hp : Keeps R p) :
    Keeps S p := by
  intro s
  cases run : p s with
  | done a s' => exact weaker _ _ (hp.done run)
  | thrown e s' => exact weaker _ _ (hp.thrown run)
  | stuck => trivial

theorem bind (trans : ∀ a b c, R a b → R b c → R a c) {p : Proc ε σ α} {f : α → Proc ε σ β}
    (hp : Keeps R p) (hf : ∀ a, Keeps R (f a)) : Keeps R (p >>= f) := by
  intro s
  rw [bind_apply]
  cases run : p s with
  | done a s₁ =>
    have first := hp.done run
    cases rest : f a s₁ with
    | done b s₂ => simp only [rest]; exact trans _ _ _ first ((hf a).done rest)
    | thrown e s₂ => simp only [rest]; exact trans _ _ _ first ((hf a).thrown rest)
    | stuck => simp only [rest]
  | thrown e s₁ => exact hp.thrown run
  | stuck => trivial

/-- After a look at the state the rest may depend on it. -/
theorem read_bind {f : σ → Proc ε σ β} (hf : ∀ s, Keeps R (f s)) : Keeps R (Proc.read >>= f) :=
  fun s => hf s s

theorem pure (refl : ∀ s, R s s) (a : α) : Keeps R (Pure.pure a : Proc ε σ α) := refl

theorem raise (refl : ∀ s, R s s) (e : ε) : Keeps R (Proc.raise e : Proc ε σ α) := refl

theorem demand (refl : ∀ s, R s s) (o : Option α) : Keeps R (Proc.demand o : Proc ε σ α) := by
  cases o with
  | some a => exact refl
  | none => intro s; trivial

theorem update {g : σ → σ} (h : ∀ s, R s (g s)) : Keeps R (Proc.update g : Proc ε σ Unit) := h

end Keeps

/-! ## Postconditions -/

/-- The end meets one condition when it is a return and another when it is an exception. -/
def Meets (Q : α → σ → Prop) (E : σ → Prop) : Outcome ε σ α → Prop
  | .done a s => Q a s
  | .thrown _ s => E s
  | .stuck => False

theorem Meets.bind {Q : α → σ → Prop} {Q' : β → σ → Prop} {E : σ → Prop} {p : Proc ε σ α}
    {f : α → Proc ε σ β} {s : σ} (hp : Meets Q E (p s))
    (hf : ∀ a s', Q a s' → Meets Q' E (f a s')) : Meets Q' E ((p >>= f) s) := by
  rw [bind_apply]
  cases run : p s <;> rw [run] at hp
  · exact hf _ _ hp
  · exact hp
  · exact hp

theorem Meets.done {Q : α → σ → Prop} {out : Outcome ε σ α} (h : Meets Q (fun _ => False) out) :
    ∃ a s, out = .done a s ∧ Q a s := by
  cases out with
  | done a s => exact ⟨a, s, rfl, h⟩
  | thrown e s => exact h.elim
  | stuck => exact h.elim

/-! ## Pairs of states -/

/-- Code over the first of two states. -/
def onFst (p : Proc ε σ α) : Proc ε (σ × τ) α := fun st =>
  match p st.1 with
  | .done a s => .done a (s, st.2)
  | .thrown e s => .thrown e (s, st.2)
  | .stuck => .stuck

theorem onFst_done {p : Proc ε σ α} {s s' : σ} {a : α} (t : τ) (h : p s = .done a s') :
    onFst p (s, t) = .done a (s', t) := by
  simp only [onFst, h]

/-! ## Sequences of calls -/

/-- One call, returned or thrown, and the state the caller goes on with. -/
def Called (call : ι → Proc ε σ α) (s : σ) (i : ι) (s' : σ) : Prop :=
  (∃ a, call i s = .done a s') ∨ ∃ e, call i s = .thrown e s'

/-- A call leads from a related state to a related state. -/
theorem Refines.called {R : σ → τ → Prop} {call : ι → Proc ε σ α} {call' : ι → Proc ε τ α} {i : ι}
    (refines : Refines R (call i) (call' i)) {s s' : σ} {t : τ} (related : R s t)
    (h : Called call s i s') : ∃ t', R s' t' := by
  have agree := refines s t related
  obtain ⟨a, run⟩ | ⟨e, run⟩ := h <;> rw [run] at agree <;> cases flat : call' i t <;>
    rw [flat] at agree <;> simp only [Agree] at agree
  · exact ⟨_, agree.2⟩
  · exact ⟨_, agree.2⟩

/-- What a caller sees of a sequence of calls: the value or the exception of each, and a view of the
state after it. Exceptions are caught between the calls. `none` when some call is stuck. -/
def observe (call : ι → Proc ε σ α) (view : σ → ω) : List ι → σ → Option (List (Except ε α × ω))
  | [], _ => some []
  | i :: is, s =>
    match call i s with
    | .done a s' => (observe call view is s').map ((.ok a, view s') :: ·)
    | .thrown e s' => (observe call view is s').map ((.error e, view s') :: ·)
    | .stuck => none

/-- Call by call refinement is refinement of every sequence of calls: the caller cannot tell the
two sides apart, and neither is ever stuck. -/
theorem observe_eq {R : σ → τ → Prop} {call : ι → Proc ε σ α} {call' : ι → Proc ε τ α}
    {view : σ → ω} {view' : τ → ω}
    (refines : ∀ i, Refines R (call i) (call' i))
    (views : ∀ s t, R s t → view s = view' t) (is : List ι) :
    ∀ s t, R s t → observe call view is s = observe call' view' is t ∧
      (observe call view is s).isSome := by
  induction is with
  | nil => intro s t _; exact ⟨rfl, rfl⟩
  | cons i is ih =>
    intro s t h
    have agree := refines i s t h
    cases hs : call i s <;> cases ht : call' i t <;> rw [hs, ht] at agree <;>
      simp only [Agree] at agree
    all_goals
      obtain ⟨rfl, related⟩ := agree
      obtain ⟨same, ends⟩ := ih _ _ related
      simp only [observe, hs, ht, ← same, views _ _ related, Option.isSome_map, ends, and_self]

/-! ## Procedures that return -/

/-- The procedure returns from every state. -/
def Returns (p : Proc ε σ α) : Prop := ∀ s, ∃ a s', p s = .done a s'

namespace Returns

theorem pure (a : α) : Returns (Pure.pure a : Proc ε σ α) := fun s => ⟨a, s, rfl⟩

theorem update (g : σ → σ) : Returns (Proc.update g : Proc ε σ Unit) := fun s => ⟨(), g s, rfl⟩

theorem demand (a : α) : Returns (Proc.demand (some a) : Proc ε σ α) := fun s => ⟨a, s, rfl⟩

theorem bind {p : Proc ε σ α} {f : α → Proc ε σ β} (hp : Returns p) (hf : ∀ a, Returns (f a)) :
    Returns (p >>= f) := by
  intro s
  obtain ⟨a, s₁, first⟩ := hp s
  rw [bind_done f first]
  exact hf a s₁

theorem read_bind {f : σ → Proc ε σ β} (hf : ∀ s, Returns (f s)) : Returns (Proc.read >>= f) :=
  fun s => hf s s

theorem ite {c : Prop} [Decidable c] {p q : Proc ε σ α} (hp : Returns p) (hq : Returns q) :
    Returns (if c then p else q) := by
  split
  · exact hp
  · exact hq

end Returns

end Proc

end Sylar.Lib
