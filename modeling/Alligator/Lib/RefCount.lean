import Mathlib.Data.List.AList
import Mathlib.Data.List.Count

/-!
# Reference counts

A table of reference counts over any type.  `retain` raises the count of an
entry and makes one for a new item; `release` lowers it and takes the entry out
when nothing refers to it any more.  A table counts a list when each item has
the number of its occurrences in the list, and no entry if there is none.
-/

namespace RefCount

variable {α : Type*} [DecidableEq α]

/-- The entries, with at most one for each item. -/
abbrev Table (α : Type*) := AList fun _ : α => Nat

def retain (t : Table α) (a : α) : Table α :=
  match t.lookup a with
  | some n => t.insert a (n + 1)
  | none => t.insert a 1

def release (t : Table α) (a : α) : Table α :=
  match t.lookup a with
  | some n => if n - 1 = 0 then t.erase a else t.insert a (n - 1)
  | none => t

/-- The number of occurrences of an item, if there are any. -/
def occurrences (l : List α) (a : α) : Option Nat :=
  if l.count a = 0 then none else some (l.count a)

/-- The table has the occurrences of a list. -/
def Counts (t : Table α) (l : List α) : Prop := ∀ a, t.lookup a = occurrences l a

lemma counts_nil : Counts (∅ : Table α) [] := fun a => by simp [occurrences]

variable {t : Table α}

lemma Counts.perm {l l' : List α} (h : Counts t l) (hp : l.Perm l') : Counts t l':= fun a => by
  rw [h a, occurrences, occurrences, hp.count_eq]

variable {l : List α}

lemma Counts.retain (h : Counts t l) (a : α) : Counts (retain t a) (a :: l) := by
  have ha := h a
  intro b
  rw [RefCount.retain]
  by_cases e : b = a
  · subst e
    rw [ha]
    by_cases hc : l.count b = 0 <;> simp [occurrences, hc, AList.lookup_insert]
  · have hb : (a :: l).count b = l.count b := List.count_cons_of_ne (Ne.symm e)
    rw [occurrences, hb, ← occurrences, ← h b]
    split <;> exact AList.lookup_insert_ne e

lemma Counts.release {a : α} (h : Counts t (a :: l)) : Counts (release t a) l := by
  have ha := h a
  rw [occurrences, List.count_cons_self, if_neg (Nat.succ_ne_zero _)] at ha
  intro b
  rw [RefCount.release, ha]
  by_cases e : b = a
  · subst e
    by_cases hc : l.count b = 0 <;>
      simp [occurrences, hc, AList.lookup_insert, AList.lookup_erase]
  · have hb := h b
    rw [occurrences, List.count_cons_of_ne (Ne.symm e), ← occurrences] at hb
    dsimp only
    split
    · exact (AList.lookup_erase_ne e).trans hb
    · exact (AList.lookup_insert_ne e).trans hb

lemma Counts.foldl_retain {l' : List α} (h : Counts t l) :
    Counts (l'.foldl RefCount.retain t) (l' ++ l) := by
  induction l' generalizing t l with
  | nil => exact h
  | cons a l' ih =>
    exact (ih (h.retain a)).perm List.perm_middle

lemma Counts.foldl_release {l' : List α} (h : Counts t (l' ++ l)) :
    Counts (l'.foldl RefCount.release t) l := by
  induction l' generalizing t l with
  | nil => exact h
  | cons a l' ih =>
    exact ih h.release

/-- An item has an entry exactly if it occurs. -/
lemma Counts.mem_iff (h : Counts t l) (a : α) : a ∈ t ↔ a ∈ l := by
  rw [← AList.lookup_isSome, h a, occurrences]
  split_ifs with hc
  · simpa using List.count_eq_zero.mp hc
  · simpa using List.count_pos_iff.mp (Nat.pos_of_ne_zero hc)

lemma Counts.eq_empty (h : Counts t []) : t = ∅ := by
  refine AList.ext (List.eq_nil_iff_forall_not_mem.mpr fun c hc => ?_)
  have : c.1 ∈ t := List.mem_keys_of_mem hc
  simp [h.mem_iff] at this

end RefCount
