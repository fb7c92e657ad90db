import Mathlib.Order.Basic

/-!
# Binary search

`cmp i` tells how the item at place `i` of a sorted array compares with what is looked for.  The
search keeps two places, both of which may still be the one, and halves what is between them.
-/

namespace BinarySearch

/-- The loop, with both bounds inclusive. -/
def search (cmp : Nat → Ordering) : Nat → Nat → Nat → Option Nat
  | 0, _, _ => none
  | fuel + 1, low, high =>
    if low ≤ high then
      let mid := (low + high) / 2
      match cmp mid with
      | .eq => some mid
      | .lt => search cmp fuel (mid + 1) high
      | .gt => if mid = 0 then none else search cmp fuel low (mid - 1)
    else none

/-- Along the array, what is too large stays too large, and before what is too small everything
is too small. -/
structure Rising (cmp : Nat → Ordering) (size : Nat) : Prop where
  gt : ∀ i j, i ≤ j → j < size → cmp i = .gt → cmp j = .gt
  lt : ∀ i j, i ≤ j → j < size → cmp j = .lt → cmp i = .lt

variable {cmp : Nat → Ordering} {fuel high i low : Nat}

/-- What is found compares equal. -/
lemma search_sound (h : search cmp fuel low high = some i) : cmp i = .eq ∧ i ≤ high := by
  induction fuel generalizing low high with
  | zero => exact nomatch h
  | succ fuel ih =>
    rw [search] at h
    split_ifs at h with hle
    dsimp only at h
    split at h
    · case _ hcmp =>
      obtain rfl := Option.some.inj h
      exact ⟨hcmp, by omega⟩
    · exact ih h
    · split_ifs at h with hzero
      obtain ⟨hcmp, hi⟩ := ih h
      exact ⟨hcmp, by omega⟩

/-- In a sorted array, nothing between the bounds is missed. -/
lemma search_complete {size : Nat} (hrising : Rising cmp size) (hcmp : cmp i = .eq)
    (hfuel : high < low + fuel) (hlow : low ≤ i) (hhigh : i ≤ high)
    (hsize : high < size) : ∃ k, search cmp fuel low high = some k := by
  induction fuel generalizing low high with
  | zero => omega
  | succ fuel ih =>
    rw [search, if_pos (by omega)]
    dsimp only
    split
    · exact ⟨_, rfl⟩
    · case _ hmid =>
      have hlt : (low + high) / 2 < i := by
        by_contra hge
        have := hrising.lt i ((low + high) / 2) (by omega) (by omega) hmid
        rw [hcmp] at this
        cases this
      exact ih (by omega) (by omega) hhigh hsize
    · case _ hmid =>
      have hlt : i < (low + high) / 2 := by
        by_contra hge
        have := hrising.gt ((low + high) / 2) i (by omega) (by omega) hmid
        rw [hcmp] at this
        cases this
      rw [if_neg (by omega)]
      exact ih (by omega) hlow (by omega) (by omega)

end BinarySearch
