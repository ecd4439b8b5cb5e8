import Mathlib

/-!
# Labelled runs

A system is a step relation between states, labelled by what the step does and what it answers. A
run is a finite sequence of steps. The rules below carry a fact along a run: an invariant that each
step keeps holds wherever the run ends, and a fact about a pair of a state and the labels still to
come is carried backwards through them.

`Guarded` restricts a system to the steps taken in states that meet a condition, so that "every run
whose steps all meet the condition" is a run of the guarded system.
-/

namespace Sylar.Lib

variable {σ ℓ : Type*} {step : σ → ℓ → σ → Prop}

/-- The finite runs of a step relation, with the labels of their steps in order. -/
inductive Run (step : σ → ℓ → σ → Prop) : σ → List ℓ → σ → Prop where
  | nil (s : σ) : Run step s [] s
  | cons {s t u : σ} {l : ℓ} {ls : List ℓ} : step s l t → Run step t ls u → Run step s (l :: ls) u

/-- The steps of a system that are taken where `cond` holds of the state and the label. -/
def Guarded (step : σ → ℓ → σ → Prop) (cond : σ → ℓ → Prop) : σ → ℓ → σ → Prop :=
  fun s l t => step s l t ∧ cond s l

namespace Run

theorem single {s t : σ} {l : ℓ} (h : step s l t) : Run step s [l] t :=
  .cons h (.nil t)

theorem append {s t u : σ} {ls ls' : List ℓ} (first : Run step s ls t) (second : Run step t ls' u) :
    Run step s (ls ++ ls') u := by
  induction first with
  | nil => exact second
  | cons h _ ih => exact .cons h (ih second)

/-- A run whose steps meet the condition wherever they are taken. -/
theorem guard (cond : σ → ℓ → Prop) {s t : σ} {ls : List ℓ} (run : Run step s ls t)
    (all : ∀ l ∈ ls, ∀ u, cond u l) : Run (Guarded step cond) s ls t := by
  induction run with
  | nil s => exact .nil s
  | cons h _ ih =>
    exact .cons ⟨h, all _ List.mem_cons_self _⟩ (ih fun l mem => all l (List.mem_cons_of_mem _ mem))

/-- Where steps are computed, a run is computed from its labels. -/
theorem of_foldlM {exec : σ → ℓ → Option σ} {t : σ} (ls : List ℓ) : ∀ {s : σ},
    ls.foldlM exec s = some t → Run (fun s l t => exec s l = some t) s ls t := by
  induction ls with
  | nil =>
    intro s done
    cases done
    exact .nil _
  | cons l ls ih =>
    intro s done
    rw [List.foldlM_cons] at done
    obtain ⟨u, first, rest⟩ := Option.bind_eq_some_iff.mp done
    exact .cons first (ih rest)

/-- What holds at the start and is kept by every step holds at the end. -/
theorem invariant {I : σ → Prop} (keep : ∀ s l t, I s → step s l t → I t) {s t : σ} {ls : List ℓ}
    (run : Run step s ls t) (start : I s) : I t := by
  induction run with
  | nil => exact start
  | cons h _ ih => exact ih (keep _ _ _ start h)

/-- The invariant rule for a fact that the steps keep only while their labels leave it alone. -/
theorem invariant_of_labels {I : σ → Prop} {quiet : ℓ → Prop}
    (keep : ∀ s l t, I s → step s l t → quiet l → I t) {s t : σ} {ls : List ℓ}
    (run : Run step s ls t) (start : I s) (all : ∀ l ∈ ls, quiet l) : I t := by
  induction run with
  | nil => exact start
  | cons h _ ih =>
    exact ih (keep _ _ _ start h (all _ List.mem_cons_self))
      fun l mem => all l (List.mem_cons_of_mem _ mem)

end Run

end Sylar.Lib
