import Alligator.Lib.Text

/-!
# Lines of a text that comes in pieces

A text falls into lines that a line feed ends, and an open line behind the last one.  When more
of the text comes, the complete lines stay, and the open line is the beginning of what follows
(`splitLines_append`).
-/

namespace Text

open List

def completeLines (s : List UInt8) : List (List UInt8) := (splitLines s).dropLast

/-- What is behind the last line feed. -/
def openLine (s : List UInt8) : List UInt8 := (splitLines s).getLastD []

lemma splitLines_ne_nil (s : List UInt8) : splitLines s ≠ [] := by
  cases s with
  | nil => exact cons_ne_nil _ _
  | cons c s =>
    rw [splitLines]
    split
    · exact cons_ne_nil _ _
    · split <;> exact cons_ne_nil _ _

lemma splitLines_eq (s : List UInt8) : splitLines s = completeLines s ++ [openLine s] := by
  rw [completeLines, openLine, getLastD_eq_getLast?,
    List.getLast?_eq_some_getLast (splitLines_ne_nil s), Option.getD_some, dropLast_concat_getLast]

variable {l s : List UInt8}

lemma completeLines_of_eq {ls : List (List UInt8)}
    (h : splitLines s = ls ++ [l]) : completeLines s = ls ∧ openLine s = l := by
  rw [completeLines, openLine, h]
  exact ⟨dropLast_concat, getLastD_concat⟩

lemma splitLines_of_not_mem (h : 10 ∉ l) : splitLines l = [l] := by
  induction l with
  | nil => rfl
  | cons c l ih =>
    rw [mem_cons, not_or] at h
    rw [splitLines, if_neg (Ne.symm h.1), ih h.2]

/-- A text without a line feed is an open line. -/
lemma completeLines_of_not_mem (h : 10 ∉ l) : completeLines l = [] ∧ openLine l = l :=
  completeLines_of_eq (splitLines_of_not_mem h)

lemma splitLines_append (a b : List UInt8) :
    splitLines (a ++ b) = completeLines a ++ splitLines (openLine a ++ b) := by
  induction a with
  | nil => rfl
  | cons c a ih =>
    have ha := splitLines_eq a
    by_cases hc : c = 10
    · obtain ⟨h1, h2⟩ : completeLines (c :: a) = [] :: completeLines a ∧
          openLine (c :: a) = openLine a := by
        refine completeLines_of_eq ?_
        rw [splitLines, if_pos hc, ha]
        rfl
      rw [h1, h2, cons_append, splitLines, if_pos hc, ih]
      rfl
    · rw [cons_append, splitLines, if_neg hc, ih]
      cases hls : completeLines a with
      | nil =>
        rw [hls] at ha
        obtain ⟨h1, h2⟩ : completeLines (c :: a) = [] ∧ openLine (c :: a) = c :: openLine a := by
          refine completeLines_of_eq ?_
          rw [splitLines, if_neg hc, ha]
          rfl
        rw [h1, h2, nil_append, nil_append, cons_append, splitLines, if_neg hc]
      | cons l ls =>
        rw [hls] at ha
        obtain ⟨h1, h2⟩ : completeLines (c :: a) = (c :: l) :: ls ∧
            openLine (c :: a) = openLine a := by
          refine completeLines_of_eq ?_
          rw [splitLines, if_neg hc, ha]
          rfl
        rw [h1, h2]
        rfl

lemma completeLines_append (a b : List UInt8) :
    completeLines (a ++ b) = completeLines a ++ completeLines (openLine a ++ b) ∧
      openLine (a ++ b) = openLine (openLine a ++ b) := by
  refine completeLines_of_eq ?_
  rw [splitLines_append, splitLines_eq (openLine a ++ b), append_assoc]

lemma not_mem_of_mem_splitLines : ∀ l ∈ splitLines s, 10 ∉ l := by
  induction s with
  | nil =>
    intro l hl
    rw [mem_singleton.mp hl]
    exact not_mem_nil
  | cons c s ih =>
    intro l hl
    rw [splitLines] at hl
    split at hl
    · rcases mem_cons.mp hl with rfl | hl
      · exact not_mem_nil
      · exact ih l hl
    · rename_i hc
      rw [splitLines_eq s] at hl ih
      cases hls : completeLines s ++ [openLine s] with
      | nil => exact absurd hls (by simp)
      | cons l0 ls =>
        rw [hls] at hl ih
        rcases mem_cons.mp hl with rfl | hl
        · rw [mem_cons, not_or]
          exact ⟨Ne.symm hc, ih l0 mem_cons_self⟩
        · exact ih l (mem_cons_of_mem l0 hl)

lemma not_mem_openLine (s : List UInt8) : 10 ∉ openLine s := by
  refine not_mem_of_mem_splitLines (openLine s) (s := s) ?_
  rw [splitLines_eq]
  exact mem_append_right _ mem_cons_self

/-- Texts that end with their last line do so together. -/
lemma openLine_flatMap {α : Type*} {xs : List α} {f : α → List UInt8}
    (h : ∀ x ∈ xs, openLine (f x) = []) : openLine (xs.flatMap f) = [] := by
  induction xs with
  | nil => rfl
  | cons x xs ih =>
    rw [flatMap_cons, (completeLines_append _ _).2, h x mem_cons_self]
    exact ih (forall_mem_cons.1 h).2

/-- More text does not change the lines that are complete. -/
lemma completeLines_mono {a b : List UInt8} (h : a <+: b) :
    completeLines a <+: completeLines b := by
  obtain ⟨c, rfl⟩ := h
  rw [(completeLines_append a c).1]
  exact prefix_append _ _

lemma intercalate_append {a b : List (List UInt8)} (ha : a ≠ []) (hb : b ≠ []) :
    [10].intercalate (a ++ b) = [10].intercalate a ++ 10 :: [10].intercalate b := by
  induction a with
  | nil => exact absurd rfl ha
  | cons x a ih =>
    cases a with
    | nil =>
      cases b with
      | nil => exact absurd rfl hb
      | cons y b => simp [intercalate_cons_cons]
    | cons y a =>
      have := ih (cons_ne_nil y a)
      simp_all [intercalate_cons_cons]

/-- Lines that are joined in groups are joined. -/
lemma intercalate_map {gs : List (List (List UInt8))} (h : ∀ g ∈ gs, g ≠ []) :
    [10].intercalate (gs.map [10].intercalate) = [10].intercalate gs.flatten := by
  induction gs with
  | nil => rfl
  | cons g gs ih =>
    cases gs with
    | nil => simp
    | cons g' gs =>
      have hne : (g' :: gs).flatten ≠ [] := by simp [h g']
      rw [flatten_cons, intercalate_append (h g mem_cons_self) hne, ← ih (forall_mem_cons.1 h).2]
      simp [intercalate_cons_cons]

end Text
