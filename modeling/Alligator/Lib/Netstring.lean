import Alligator.Lib.Text

/-!
# Length-prefixed strings

A list of strings written one after the other, each behind its length in decimal and a
colon, can be read back: two lists with the same text are equal (`frames_injective`).
-/

namespace Netstring

open Text

def frame (s : List UInt8) : List UInt8 := decimal s.length ++ 58 :: s

/-- Strings behind their lengths, one after the other. -/
def frames : List (List UInt8) → List UInt8
  | [] => []
  | s :: l => frame s ++ frames l

lemma frame_ne_nil (s : List UInt8) : frame s ≠ [] := by simp [frame]

/-- The first string of a text is determined, and so is what follows it. -/
lemma frame_append_inj {s t u v : List UInt8} (h : frame s ++ u = frame t ++ v) :
    s = t ∧ u = v := by
  have colon : ∀ w : List UInt8, NoDigit (58 :: w) := by
    intro w c hc
    rw [List.head?_cons, Option.mem_some_iff] at hc
    subst hc
    decide
  have read : ∀ w x : List UInt8, readDigits 0 (frame w ++ x) = (w.length, 58 :: (w ++ x)) := by
    intro w x
    rw [frame, List.append_assoc]
    exact readDigits_decimal w.length (colon (w ++ x))
  have hread := read s u
  rw [h, read t v, Prod.mk.injEq, List.cons.injEq] at hread
  exact (List.append_inj hread.2.2 hread.1).imp Eq.symm Eq.symm

lemma frames_injective : Function.Injective frames := by
  intro l
  induction l with
  | nil =>
    intro m h
    cases m with
    | nil => rfl
    | cons t m =>
      exact absurd (List.append_eq_nil_iff.mp h.symm).1 (frame_ne_nil t)
  | cons s l ih =>
    intro m h
    cases m with
    | nil => exact absurd (List.append_eq_nil_iff.mp h).1 (frame_ne_nil s)
    | cons t m =>
      obtain ⟨hs, hl⟩ := frame_append_inj h
      rw [hs, ih hl]

end Netstring
