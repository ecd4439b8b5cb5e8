import Mathlib

/-!
# Scans

A machine that reads bytes and says for each of them the next state and the actions to execute, or
that there is no next state. A scan runs it over a buffer from a position on: it ends at the end of the
buffer, before a byte on which the machine fails, or behind a byte with an action that breaks. What it
executes is its trace, with the position of the byte each action is executed on.

A scan of a buffer is a scan of its first part, and, where that neither fails nor breaks, a scan of the
rest from the state reached (`scan_append_of_stopped`, `scan_append_of_running`). So the trace of an
input does not depend on how it is cut.
-/

namespace Sylar.Lib

variable {Q A : Type}

/-- What a scan ends with. -/
structure Scan (Q A : Type) where
  /-- `none` where the machine failed. -/
  state : Option Q
  /-- The position behind the last byte taken. -/
  stop : Nat
  broke : Bool
  trace : List (A × Nat)
  deriving DecidableEq

namespace Scan

/-- The actions up to the first that breaks. -/
def upTo (breaks : A → Bool) : List A → List A
  | [] => []
  | a :: as => if breaks a then [a] else a :: upTo breaks as

/-- A byte with actions, in front of a scan. -/
def after (as : List A) (p : Nat) (s : Scan Q A) : Scan Q A :=
  { s with trace := as.map (·, p) ++ s.trace }

/-- The scan of a buffer from position `p` on. -/
def scan (step : Q → UInt8 → Option (Q × List A)) (breaks : A → Bool) : Q → Nat → List UInt8 → Scan Q A
  | q, p, [] => ⟨some q, p, false, []⟩
  | q, p, c :: cs =>
    match step q c with
    | none => ⟨none, p, false, []⟩
    | some (q', as) =>
      if as.any breaks then ⟨some q', p + 1, true, (upTo breaks as).map (·, p)⟩
      else (scan step breaks q' (p + 1) cs).after as p

/-- A trace, with every position moved on. -/
def shifted (b : Nat) (trace : List (A × Nat)) : List (A × Nat) := trace.map fun x => (x.1, x.2 + b)

variable {step : Q → UInt8 → Option (Q × List A)} {breaks : A → Bool}

attribute [local simp] scan

/-! ## One byte -/

section Byte

variable {q q' : Q} {p : Nat} {c : UInt8} {cs : List UInt8} {as : List A}

theorem scan_cons_none (next : step q c = none) :
    scan step breaks q p (c :: cs) = ⟨none, p, false, []⟩ := by
  rw [scan, next]

/-- Only what the machine does on the first byte tells two states apart. -/
theorem scan_cons_congr (same : step q c = step q' c) :
    scan step breaks q p (c :: cs) = scan step breaks q' p (c :: cs) := by
  rw [scan, scan, same]

theorem scan_cons_break (next : step q c = some (q', as)) (breaking : as.any breaks = true) :
    scan step breaks q p (c :: cs) = ⟨some q', p + 1, true, (upTo breaks as).map (·, p)⟩ := by
  simp only [scan, next, breaking, if_true]

theorem scan_cons_next (next : step q c = some (q', as)) (running : as.any breaks = false) :
    scan step breaks q p (c :: cs) = (scan step breaks q' (p + 1) cs).after as p := by
  simp only [scan, next, running, Bool.false_eq_true, if_false]

end Byte

/-! ## The position -/

/-- A scan from a later position. -/
theorem scan_shift (b : Nat) (cs : List UInt8) : ∀ (q : Q) (p : Nat),
    scan step breaks q (p + b) cs =
      ⟨(scan step breaks q p cs).state, (scan step breaks q p cs).stop + b,
        (scan step breaks q p cs).broke, shifted b (scan step breaks q p cs).trace⟩ := by
  induction cs with
  | nil => exact fun q p => rfl
  | cons c cs ih =>
    intro q p
    cases next : step q c with
    | none => rw [scan_cons_none next, scan_cons_none next]; rfl
    | some target =>
      obtain ⟨q', as⟩ := target
      cases breaking : as.any breaks with
      | true =>
        rw [scan_cons_break next breaking, scan_cons_break next breaking]
        simp only [shifted, List.map_map, Function.comp_def, Nat.add_right_comm]
      | false =>
        rw [scan_cons_next next breaking, scan_cons_next next breaking, Nat.add_right_comm, ih]
        simp only [after, shifted, List.map_append, List.map_map, Function.comp_def]

/-- A scan that neither fails nor breaks takes all bytes. -/
theorem stop_of_running (cs : List UInt8) : ∀ {q q' : Q} {p : Nat},
    (scan step breaks q p cs).state = some q' → (scan step breaks q p cs).broke = false →
    (scan step breaks q p cs).stop = p + cs.length := by
  induction cs with
  | nil => exact fun _ _ => rfl
  | cons c cs ih =>
    intro q q' p state noBreak
    cases next : step q c with
    | none =>
      rw [scan_cons_none next] at state
      cases state
    | some target =>
      obtain ⟨q₁, as⟩ := target
      cases breaking : as.any breaks with
      | true =>
        rw [scan_cons_break next breaking] at noBreak
        cases noBreak
      | false =>
        rw [scan_cons_next next breaking] at state noBreak ⊢
        have rest := ih state noBreak
        rw [List.length_cons]
        simp only [after]
        omega

/-- A scan ends in its buffer. -/
theorem le_stop (cs : List UInt8) : ∀ (q : Q) (p : Nat),
    p ≤ (scan step breaks q p cs).stop ∧ (scan step breaks q p cs).stop ≤ p + cs.length := by
  induction cs with
  | nil => exact fun _ _ => ⟨Nat.le_refl _, Nat.le_refl _⟩
  | cons c cs ih =>
    intro q p
    rw [List.length_cons]
    cases next : step q c with
    | none =>
      rw [scan_cons_none next]
      exact ⟨Nat.le_refl _, Nat.le_add_right ..⟩
    | some target =>
      obtain ⟨q', as⟩ := target
      cases breaking : as.any breaks with
      | true =>
        rw [scan_cons_break next breaking]
        exact ⟨Nat.le_succ _, by dsimp only; omega⟩
      | false =>
        rw [scan_cons_next next breaking]
        have rest := ih q' (p + 1)
        simp only [after]
        omega

/-- A scan that breaks takes a byte. -/
theorem lt_stop_of_broke (cs : List UInt8) : ∀ {q : Q} {p : Nat},
    (scan step breaks q p cs).broke = true → p < (scan step breaks q p cs).stop := by
  induction cs with
  | nil => exact fun broke => nomatch broke
  | cons c cs ih =>
    intro q p broke
    cases next : step q c with
    | none =>
      rw [scan_cons_none next] at broke
      cases broke
    | some target =>
      obtain ⟨q', as⟩ := target
      cases breaking : as.any breaks with
      | true =>
        rw [scan_cons_break next breaking]
        exact Nat.lt_succ_self _
      | false =>
        rw [scan_cons_next next breaking] at broke ⊢
        exact Nat.lt_of_succ_lt (ih broke)

/-- A scan that breaks ends in a state that a byte with a breaking action leads to. -/
theorem state_of_broke {I P : Q → Prop}
    (keep : ∀ q c q' as, I q → step q c = some (q', as) → I q' ∧ (as.any breaks = true → P q'))
    (cs : List UInt8) : ∀ {q : Q} {p : Nat}, I q → (scan step breaks q p cs).broke = true →
    ∃ q', (scan step breaks q p cs).state = some q' ∧ P q' := by
  induction cs with
  | nil => exact fun _ broke => nomatch broke
  | cons c cs ih =>
    intro q p start broke
    cases next : step q c with
    | none =>
      rw [scan_cons_none next] at broke
      cases broke
    | some target =>
      obtain ⟨q', as⟩ := target
      obtain ⟨kept, ends⟩ := keep q c q' as start next
      cases breaking : as.any breaks with
      | true =>
        rw [scan_cons_break next breaking]
        exact ⟨q', rfl, ends breaking⟩
      | false =>
        rw [scan_cons_next next breaking] at broke ⊢
        exact ih kept broke

/-- Where no action breaks, neither does a scan. -/
theorem not_broke (never : ∀ a, breaks a = false) (cs : List UInt8) : ∀ {q : Q} {p : Nat},
    (scan step breaks q p cs).broke = false := by
  induction cs with
  | nil => exact rfl
  | cons c cs ih =>
    intro q p
    cases next : step q c with
    | none => rw [scan_cons_none next]
    | some target =>
      obtain ⟨q', as⟩ := target
      have running : as.any breaks = false := by simp [never]
      rw [scan_cons_next next running]
      exact ih

/-- What is executed is executed on the bytes taken. -/
theorem mem_trace (cs : List UInt8) : ∀ {q : Q} {p : Nat} {x : A × Nat},
    x ∈ (scan step breaks q p cs).trace → p ≤ x.2 ∧ x.2 < (scan step breaks q p cs).stop := by
  induction cs with
  | nil => exact fun mem => absurd mem List.not_mem_nil
  | cons c cs ih =>
    intro q p x mem
    cases next : step q c with
    | none =>
      rw [scan_cons_none next] at mem
      exact absurd mem List.not_mem_nil
    | some target =>
      obtain ⟨q', as⟩ := target
      cases breaking : as.any breaks with
      | true =>
        rw [scan_cons_break next breaking] at mem ⊢
        obtain ⟨a, -, rfl⟩ := List.mem_map.mp mem
        exact ⟨Nat.le_refl _, Nat.lt_succ_self _⟩
      | false =>
        rw [scan_cons_next next breaking] at mem ⊢
        rcases List.mem_append.mp mem with here | later
        · obtain ⟨a, -, rfl⟩ := List.mem_map.mp here
          exact ⟨Nat.le_refl _, (le_stop cs q' (p + 1)).1⟩
        · have rest := ih later
          exact ⟨by omega, rest.2⟩

/-! ## Cutting the input -/

/-- A scan that has failed or broken does not see what follows. -/
theorem scan_append_of_stopped (cs ds : List UInt8) : ∀ {q : Q} {p : Nat},
    (scan step breaks q p cs).state = none ∨ (scan step breaks q p cs).broke = true →
    scan step breaks q p (cs ++ ds) = scan step breaks q p cs := by
  induction cs with
  | nil =>
    rintro q p (failed | broke)
    · cases failed
    · cases broke
  | cons c cs ih =>
    intro q p stopped
    rw [List.cons_append]
    cases next : step q c with
    | none => rw [scan_cons_none next, scan_cons_none next]
    | some target =>
      obtain ⟨q', as⟩ := target
      cases breaking : as.any breaks with
      | true => rw [scan_cons_break next breaking, scan_cons_break next breaking]
      | false =>
        rw [scan_cons_next next breaking] at stopped
        rw [scan_cons_next next breaking, scan_cons_next next breaking, ih stopped]

/-- A scan that has taken all of the first part goes on with the rest. -/
theorem scan_append_of_running (cs ds : List UInt8) : ∀ {q q' : Q} {p : Nat},
    (scan step breaks q p cs).state = some q' → (scan step breaks q p cs).broke = false →
    scan step breaks q p (cs ++ ds) =
      { scan step breaks q' (p + cs.length) ds with
        trace := (scan step breaks q p cs).trace ++ (scan step breaks q' (p + cs.length) ds).trace } := by
  induction cs with
  | nil =>
    intro q q' p state _
    obtain rfl := Option.some.inj state
    rfl
  | cons c cs ih =>
    intro q q' p state noBreak
    rw [List.cons_append]
    cases next : step q c with
    | none =>
      rw [scan_cons_none next] at state
      cases state
    | some target =>
      obtain ⟨q₁, as⟩ := target
      cases breaking : as.any breaks with
      | true =>
        rw [scan_cons_break next breaking] at noBreak
        cases noBreak
      | false =>
        rw [scan_cons_next next breaking] at state noBreak
        rw [scan_cons_next next breaking, scan_cons_next next breaking, ih state noBreak,
          List.length_cons, Nat.add_assoc p 1, Nat.add_comm 1]
        simp only [after, List.append_assoc]

end Scan

end Sylar.Lib
