import Alligator.Lib.RedBlack

/-!
# Searching a sorted tree

A walk over a tree that is sorted by some key may leave out a side of a node
whose key is too large or too small for what is looked for.  `cmp a` is how the
key of the node `a` compares with it.  On a sequence along which `cmp` does not go
down, the walk loses nothing (`scan_perm`).
-/

namespace RedBlack

open Memory List

/-- Along the sequence, what is too large stays too large, and before what is too
small everything is too small. -/
def Rising (cmp : Addr → Ordering) (l : List Addr) : Prop :=
  l.Pairwise fun a b => (cmp a = .gt → cmp b = .gt) ∧ (cmp b = .lt → cmp a = .lt)

/-- What is not before a key that is too large is too large, and so on. -/
lemma rising_of_isLE {α : Type} [Ord α] [Std.TransOrd α] {x y : α} (hle : (compare x y).isLE)
    (k : α) : (compare x k = .gt → compare y k = .gt) ∧ (compare y k = .lt → compare x k = .lt) := by
  constructor
  · intro hgt
    rw [Std.OrientedCmp.gt_iff_lt] at hgt ⊢
    exact Std.TransCmp.lt_of_lt_of_isLE hgt hle
  · exact fun hlt => Std.TransCmp.lt_of_isLE_of_lt hle hlt

namespace CTree

/-- The hits of a walk in preorder that goes only to the sides where there may be
one. -/
def scan (cmp : Addr → Ordering) (hit : Addr → Bool) : CTree → List Addr
  | .nil => []
  | .node a _ l r =>
    [a].filter hit ++ ((if cmp a = .lt then [] else l.scan cmp hit) ++
      (if cmp a = .gt then [] else r.scan cmp hit))

variable {cmp : Addr → Ordering} {hit : Addr → Bool} {a : Addr} {l r : CTree} {c : Color}

lemma scan_gt (hhit : hit a = true → cmp a = .eq)
    (h : cmp a = .gt) : (CTree.node a c l r).scan cmp hit = l.scan cmp hit := by
  have hno : hit a = false := Bool.eq_false_iff.mpr (mt hhit (by simp [h]))
  simp [scan, h, hno]

lemma scan_lt (hhit : hit a = true → cmp a = .eq)
    (h : cmp a = .lt) : (CTree.node a c l r).scan cmp hit = r.scan cmp hit := by
  have hno : hit a = false := Bool.eq_false_iff.mpr (mt hhit (by simp [h]))
  simp [scan, h, hno]

/-- Nothing is hit in a part where every node compares unequal. -/
lemma filter_eq_nil {l : List Addr} (hhit : ∀ a, hit a = true → cmp a = .eq)
    (h : ∀ a ∈ l, cmp a ≠ .eq) : l.filter hit = [] :=
  filter_eq_nil_iff.mpr fun a ha hh => h a ha (hhit a hh)

/-- The walk finds every hit once. -/
lemma scan_perm (hhit : ∀ a, hit a = true → cmp a = .eq) :
    ∀ {t : CTree}, Rising cmp t.addrs → (t.scan cmp hit).Perm (t.addrs.filter hit)
  | .nil, _ => List.Perm.nil
  | .node a c l r, h => by
    obtain ⟨hl, hr, hlr⟩ := pairwise_append.mp h
    obtain ⟨har, hr⟩ := pairwise_cons.mp hr
    have left : (if cmp a = .lt then [] else l.scan cmp hit).Perm (l.addrs.filter hit) := by
      split_ifs with hc
      · rw [filter_eq_nil hhit]
        intro b hb
        rw [(hlr b hb a mem_cons_self).2 hc]
        decide
      · exact scan_perm hhit hl
    have right : (if cmp a = .gt then [] else r.scan cmp hit).Perm (r.addrs.filter hit) := by
      split_ifs with hc
      · rw [filter_eq_nil hhit]
        intro b hb
        rw [(har b hb).1 hc]
        decide
      · exact scan_perm hhit hr
    have split : (l.addrs ++ a :: r.addrs).filter hit =
        l.addrs.filter hit ++ ([a].filter hit ++ r.addrs.filter hit) := by
      rw [filter_append, show a :: r.addrs = [a] ++ r.addrs from rfl, filter_append]
    rw [scan, addrs, split, ← append_assoc, ← append_assoc]
    exact ((left.append_left _).trans perm_append_comm).append right

/-- The first node on the way down that compares equal. -/
def find (cmp : Addr → Ordering) : CTree → Ptr
  | .nil => none
  | .node a _ l r =>
    match cmp a with
    | .gt => l.find cmp
    | .lt => r.find cmp
    | .eq => some a

lemma mem_of_find : ∀ {t : CTree}, t.find cmp = some a → a ∈ t.addrs ∧ cmp a = .eq
  | .node b c l r, h => by
    rw [find] at h
    rw [addrs, mem_append, mem_cons]
    cases hb : cmp b with
    | gt =>
      rw [hb] at h
      exact ⟨.inl (mem_of_find h).1, (mem_of_find h).2⟩
    | lt =>
      rw [hb] at h
      exact ⟨.inr (.inr (mem_of_find h).1), (mem_of_find h).2⟩
    | eq =>
      rw [hb] at h
      cases h
      exact ⟨.inr (.inl rfl), hb⟩

/-- The way down misses nothing. -/
lemma ne_of_find_eq_none : ∀ {t : CTree}, Rising cmp t.addrs → t.find cmp = none →
    ∀ a ∈ t.addrs, cmp a ≠ .eq
  | .node b c l r, hrise, h, a, ha => by
    obtain ⟨hl, hr, hlr⟩ := pairwise_append.mp hrise
    obtain ⟨hbr, hr⟩ := pairwise_cons.mp hr
    rw [find] at h
    rw [addrs, mem_append, mem_cons] at ha
    cases hb : cmp b with
    | gt =>
      rw [hb] at h
      rcases ha with ha | rfl | ha
      · exact ne_of_find_eq_none hl h a ha
      · simp [hb]
      · simp [(hbr a ha).1 hb]
    | lt =>
      rw [hb] at h
      rcases ha with ha | rfl | ha
      · simp [(hlr a ha b mem_cons_self).2 hb]
      · simp [hb]
      · exact ne_of_find_eq_none hr h a ha
    | eq =>
      rw [hb] at h
      cases h

end CTree

end RedBlack
