import Mathlib.Data.List.Basic

/-!
# Rows of optional slots

A row is a list of optional values.  It is read as if it went on with empty
slots for ever, so a row and the row with an empty slot appended are the same.
`trim` is the normal form of a row: it drops the empty slots at the end.  Two
rows have the same normal form exactly when they agree on every slot, and
comparing normal forms lexicographically is comparing slot by slot with the
empty slot first.
-/

namespace Slots

open List

variable {α : Type}

/-- The value in slot `i`. -/
def slot (l : List (Option α)) (i : Nat) : Option α := (l[i]?).join

def trim : List (Option α) → List (Option α)
  | [] => []
  | none :: l =>
    match trim l with
    | [] => []
    | x :: r => none :: x :: r
  | some a :: l => some a :: trim l

@[simp] lemma slot_nil (i : Nat) : slot ([] : List (Option α)) i = none := rfl

@[simp] lemma slot_cons_succ (o : Option α) (l : List (Option α)) (i : Nat) :
    slot (o :: l) (i + 1) = slot l i := rfl

section

variable (l : List (Option α))

/-- Slot `0` is the head of the row and the others are its tail. -/
lemma slot_tail (i : Nat) : slot l.tail i = slot l (i + 1) := by
  cases l <;> rfl

lemma trim_some_cons (a : α) (l : List (Option α)) : trim (some a :: l) = some a :: trim l := rfl

lemma trim_none_cons : trim (none :: l) = if trim l = [] then [] else none :: trim l := by
  rw [trim]
  cases trim l <;> rfl

lemma slot_trim (i : Nat) : slot (trim l) i = slot l i := by
  induction l generalizing i with
  | nil => rfl
  | cons o l ih =>
    cases o with
    | some a =>
      cases i with
      | zero => rfl
      | succ i => exact ih i
    | none =>
      rw [trim_none_cons]
      split
      case isTrue h =>
        -- the whole tail is empty, so every slot of it is
        cases i with
        | zero => rfl
        | succ i => rw [slot_cons_succ, ← ih i, h, slot_nil, slot_nil]
      case isFalse =>
        cases i with
        | zero => rfl
        | succ i => exact ih i

end

lemma trim_eq_nil {l : List (Option α)} (h : ∀ i, slot l i = none) : trim l = [] := by
  induction l with
  | nil => rfl
  | cons o l ih =>
    cases o with
    | some a => cases h 0
    | none => rw [trim_none_cons, if_pos (ih fun i => h (i + 1))]

variable {l m : List (Option α)}

/-- The normal form is determined by the slots. -/
lemma trim_congr (h : ∀ i, slot l i = slot m i) : trim l = trim m := by
  induction l generalizing m with
  | nil => exact (trim_eq_nil fun i => (h i).symm).symm
  | cons o l ih =>
    cases m with
    | nil => exact trim_eq_nil h
    | cons o' m =>
      have h0 : o = o' := h 0
      have ht : trim l = trim m := ih fun i => h (i + 1)
      subst h0
      cases o with
      | some a => rw [trim_some_cons, trim_some_cons, ht]
      | none => rw [trim_none_cons, trim_none_cons, ht]

/-- Two rows have one normal form exactly when they agree on every slot. -/
lemma trim_eq_trim : trim l = trim m ↔ ∀ i, slot l i = slot m i := by
  constructor
  · intro h i
    rw [← slot_trim l, h, slot_trim]
  · exact trim_congr

/-! ## Rows that cover others -/

/-- Every value of the first row is in the same slot of the second one. -/
def Covers (l m : List (Option α)) : Prop := ∀ i a, slot l i = some a → slot m i = some a

lemma covers_nil (m : List (Option α)) : Covers [] m := by
  intro i a h
  cases h

lemma covers_cons {o : Option α} :
    Covers (o :: l) m ↔ (∀ a, o = some a → slot m 0 = some a) ∧ Covers l m.tail := by
  constructor
  · intro h
    refine ⟨fun a ha => h 0 a ha, fun i a ha => ?_⟩
    rw [slot_tail]
    exact h (i + 1) a ha
  · rintro ⟨h0, h⟩ i a ha
    cases i with
    | zero => exact h0 a ha
    | succ i =>
      rw [← slot_tail]
      exact h i a ha

/-! ## The order of rows -/

variable [Ord α]

lemma compare_cons (a b : Option α) (l m : List (Option α)) :
    compare (a :: l) (b :: m) = (compare a b).then (compare l m) := by
  rw [List.compare_eq_compareLex, List.compareLex_cons_cons]

lemma compare_nil_cons (b : Option α) (m : List (Option α)) : compare [] (b :: m) = .lt := by
  rw [List.compare_eq_compareLex, List.compareLex_nil_cons]

lemma compare_cons_nil (a : Option α) (l : List (Option α)) : compare (a :: l) [] = .gt := by
  rw [List.compare_eq_compareLex, List.compareLex_cons_nil]

/-- Normal forms compare by the first slot, then by the rest. -/
lemma compare_trim_cons (a b : Option α) (l m : List (Option α)) :
    compare (trim (a :: l)) (trim (b :: m)) = (compare a b).then (compare (trim l) (trim m)) := by
  cases a with
  | some a =>
    cases b with
    | some b => rw [trim_some_cons, trim_some_cons, compare_cons]
    | none =>
      rw [trim_some_cons, trim_none_cons]
      split
      · exact compare_cons_nil _ _
      · exact compare_cons _ _ _ _
  | none =>
    cases b with
    | some b =>
      rw [trim_none_cons, trim_some_cons]
      split
      · exact compare_nil_cons _ _
      · exact compare_cons _ _ _ _
    | none =>
      rw [trim_none_cons, trim_none_cons]
      cases trim l with
      | nil =>
        cases trim m with
        | nil => rfl
        | cons y m' =>
          rw [if_pos rfl, if_neg (cons_ne_nil _ _), compare_nil_cons, compare_nil_cons]
          rfl
      | cons x l' =>
        cases trim m with
        | nil =>
          rw [if_pos rfl, if_neg (cons_ne_nil _ _), compare_cons_nil, compare_cons_nil]
          rfl
        | cons y m' =>
          rw [if_neg (cons_ne_nil _ _), if_neg (cons_ne_nil _ _), compare_cons]

end Slots
