import Mathlib.Order.WellFounded

/-!
# Runs without an end

A run is a sequence of states in which every event leads from one state to the next.  What
happens at last along a run is shown in two ways: something that waits until an event is served
(`eventually_of_waiting`), and a rank that goes down again and again until the aim is reached
(`eventually_of_rank`).
-/

namespace Runs

/-- A run without an end. -/
structure Run {σ ε : Type} (step : σ → ε → Option σ) where
  state : Nat → σ
  event : Nat → ε
  next : ∀ n, step (state n) (event n) = some (state (n + 1))

/-- What the first state has and every step keeps, every state has. -/
lemma Run.invariant {σ ε : Type} {step : σ → ε → Option σ} (r : Run step) {P : σ → Prop}
    (h0 : P (r.state 0)) (h : ∀ n, P (r.state n) → P (r.state (n + 1))) (n : Nat) :
    P (r.state n) := by
  induction n with
  | zero => exact h0
  | succ n ih => exact h n ih

/-- Something waits until it is served. -/
lemma eventually_of_waiting {Waits Served Aim : Nat → Prop}
    (h : ∀ n, Waits n → Aim (n + 1) ∨ (¬Served n ∧ Waits (n + 1))) {n m : Nat} (hle : n ≤ m)
    (hn : Waits n) (hm : Served m) : ∃ k, n ≤ k ∧ Aim k := by
  induction hle using Nat.decreasingInduction with
  | self =>
    rcases h m hn with haim | ⟨hno, -⟩
    · exact ⟨m + 1, by omega, haim⟩
    · exact absurd hm hno
  | of_succ k hk ih =>
    rcases h k hn with haim | ⟨-, hwaits⟩
    · exact ⟨k + 1, by omega, haim⟩
    · obtain ⟨j, hj, haim⟩ := ih hwaits
      exact ⟨j, by omega, haim⟩

/-- A rank goes down until the aim is reached. -/
lemma eventually_of_rank {Live Aim : Nat → Prop} {rank : Nat → Nat}
    (h : ∀ n, Live n → ∃ m, n ≤ m ∧ (Aim m ∨ (Live m ∧ rank m < rank n))) {n : Nat}
    (hn : Live n) : ∃ m, n ≤ m ∧ Aim m := by
  induction hrank : rank n using Nat.strong_induction_on generalizing n with
  | _ k ih =>
    obtain ⟨m, hle, haim | ⟨hlive, hlt⟩⟩ := h n hn
    · exact ⟨m, hle, haim⟩
    · obtain ⟨j, hj, haim⟩ := ih (rank m) (hrank ▸ hlt) hlive rfl
      exact ⟨j, hle.trans hj, haim⟩

end Runs
