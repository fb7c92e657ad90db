import Mathlib.Logic.Function.Basic
import Mathlib.Data.Nat.Basic

/-!
# The generic cell rate algorithm

A limiter lets requests through at a fixed interval, with a tolerance for bursts.  Its
state is the theoretical arrival time of the next request, or nothing before the first
one.  A state that is not in the future is as good as none (`admits_of_le`, `next_of_le`),
which is what allows a table of limiters to forget its idle entries.
-/

/-- The interval of a limiter and the tolerance for bursts. -/
structure Gcra where
  /-- The time between two requests at the allowed rate. -/
  interval : Nat
  /-- How far in the future the theoretical arrival time may be. -/
  tau : Nat

namespace Gcra

variable {tat : Option Nat} {now : Nat}

/-- The arrival time a request is held against. -/
def base (tat : Option Nat) (now : Nat) : Nat := max (tat.getD 0) now

variable (g : Gcra)

def admits (tat : Option Nat) (now : Nat) : Bool := decide (base tat now - now ≤ g.tau)

/-- The theoretical arrival time after a request that conforms. -/
def next (tat : Option Nat) (now : Nat) : Nat := base tat now + g.interval

lemma base_none (now : Nat) : base none now = now := Nat.zero_max now

lemma base_mono {t : Nat} (h : t ≤ now) : base tat t ≤ base tat now := by
  rw [base, base]
  omega

/-- A request that conforms does not bring the arrival time forward. -/
lemma base_le_next (t : Nat) : base tat t ≤ base (some (g.next tat now)) t := by
  simp only [base, next, Option.getD_some]
  omega

section

variable (h : ∀ t ∈ tat, t ≤ now)
include h

lemma base_of_le : base tat now = now := by
  cases tat with
  | none => exact base_none now
  | some t => exact max_eq_right (h t rfl)

/-- A state that is not in the future decides as no state. -/
lemma admits_of_le : g.admits tat now = g.admits none now := by
  rw [admits, admits, base_of_le h, base_none]

lemma next_of_le : g.next tat now = g.next none now := by
  rw [next, next, base_of_le h, base_none]

end

/-- A limiter without a state lets a request through. -/
lemma admits_none (now : Nat) : g.admits none now = true := by
  rw [admits, base_none, Nat.sub_self]
  exact decide_eq_true (Nat.zero_le _)

/-- After a request that conforms, the arrival time is within the tolerance and one interval. -/
lemma next_le {g : Gcra} (h : g.admits tat now = true) :
    g.next tat now ≤ now + (g.tau + g.interval) := by
  have hbase := of_decide_eq_true h
  rw [next]
  omega

end Gcra
