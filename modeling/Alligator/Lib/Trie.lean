import Mathlib.Data.List.Basic
import Mathlib.Data.List.Induction

/-!
# Binary tries and longest matches

A binary trie stores values under bit strings.  `deepest` walks down a trie along
an infinite string of bits and keeps the last value it meets, with its depth.
After any sequence of insertions this is the value of the longest string that the
walk follows, the latest one where a string was inserted twice
(`deepest_foldl_insert`).
-/

/-- A trie with values at its nodes. -/
inductive BinaryTrie (α : Type*) where
  | nil
  | node (left right : BinaryTrie α) (data : Option α)

namespace BinaryTrie

open List

variable {α : Type*}

def insert (a : α) : List Bool → BinaryTrie α → BinaryTrie α
  | [], nil => node nil nil (some a)
  | [], node l r _ => node l r (some a)
  | false :: p, nil => node (insert a p nil) nil none
  | true :: p, nil => node nil (insert a p nil) none
  | false :: p, node l r d => node (insert a p l) r d
  | true :: p, node l r d => node l (insert a p r) d

/-- The value that is stored under a bit string. -/
def get : BinaryTrie α → List Bool → Option α
  | nil, _ => none
  | node _ _ d, [] => d
  | node l _ _, false :: p => l.get p
  | node _ r _, true :: p => r.get p

def deeper (best : Option (Nat × α)) : Option (Nat × α) := best.map fun c => (c.1 + 1, c.2)

/-- The deepest value along a string of bits, with its depth. -/
def deepest : BinaryTrie α → (Nat → Bool) → Option (Nat × α)
  | nil, _ => none
  | node l r d, key =>
    (if key 0 then deeper (deepest r fun i => key (i + 1))
      else deeper (deepest l fun i => key (i + 1))).or (d.map fun a => (0, a))

/-- A string that the bits start with. -/
def starts : List Bool → (Nat → Bool) → Bool
  | [], _ => true
  | b :: p, key => b == key 0 && starts p fun i => key (i + 1)

lemma starts_iff {p : List Bool} {key : Nat → Bool} :
    starts p key = true ↔ p = (range p.length).map key := by
  induction p generalizing key with
  | nil => simp [starts]
  | cons b p ih =>
    rw [starts, Bool.and_eq_true, beq_iff_eq, ih, length_cons, range_succ_eq_map, map_cons, map_map,
      cons.injEq]
    rfl

variable (key : Nat → Bool)

/-- The better one of a match and a later string: the longer, and of two strings of
one length the later. -/
def better (best : Option (Nat × α)) (e : List Bool × α) : Option (Nat × α) :=
  if starts e.1 key && (best.all fun c => decide (c.1 ≤ e.1.length)) then
    some (e.1.length, e.2)
  else best

/-- A string that goes the way of the bits is compared below the root, where a value
at the root counts only if there is nothing deeper. -/
lemma better_cons (best : Option (Nat × α)) (d : Option α) (p : List Bool)
    (a : α) : better key ((deeper best).or (d.map fun a => (0, a))) (key 0 :: p, a) =
      (deeper (better (fun i => key (i + 1)) best (p, a))).or (d.map fun a => (0, a)) := by
  cases h : starts p fun i => key (i + 1) with
  | false => simp [better, starts, h]
  | true =>
    cases best with
    | none => cases d <;> simp [better, starts, h, deeper]
    | some c => by_cases hc : c.1 ≤ p.length <;> simp [better, starts, h, hc, deeper]

/-- A string that goes the other way changes nothing. -/
lemma better_of_ne {key : Nat → Bool} {b : Bool} (h : b ≠ key 0) (best : Option (Nat × α))
    (p : List Bool) (a : α) : better key best (b :: p, a) = best := by
  simp [better, starts, h]

/-- The walk goes on in the child of the first bit. -/
lemma deepest_node (l r : BinaryTrie α) (d : Option α) (key : Nat → Bool) :
    (node l r d).deepest key = (deeper ((bif key 0 then r else l).deepest fun i => key (i + 1))).or
        (d.map fun a => (0, a)) := by
  cases h : key 0 <;> simp [deepest, h]

/-- A missing node is an empty one. -/
lemma deepest_nil : (nil : BinaryTrie α).deepest key = (node nil nil none).deepest key := by
  simp [deepest, deeper]

lemma insert_nil (a : α) (p : List Bool) :
    (nil : BinaryTrie α).insert a p = (node nil nil none).insert a p := by
  cases p with
  | nil => rfl
  | cons b p => cases b <;> rfl

lemma get_nil (p : List Bool) : (nil : BinaryTrie α).get p = none := by cases p <;> rfl

lemma get_insert (a : α) (p q : List Bool) (t : BinaryTrie α) :
    (t.insert a p).get q = if q = p then some a else t.get q := by
  induction p generalizing t q with
  | nil => cases t <;> rcases q with _ | ⟨_ | _, q⟩ <;> simp [insert, get]
  | cons b p ih =>
    cases t <;> cases b <;> rcases q with _ | ⟨_ | _, q⟩ <;> simp [insert, get, ih]

/-- The strings of a sequence of insertions have values. -/
lemma isSome_get_foldl_insert (es : List (List Bool × α)) (t : BinaryTrie α) (q : List Bool) :
    ((es.foldl (fun t e => t.insert e.2 e.1) t).get q).isSome ↔
      (t.get q).isSome ∨ ∃ e ∈ es, e.1 = q := by
  induction es generalizing t with
  | nil => simp
  | cons e es ih =>
    rw [foldl_cons, ih, get_insert, exists_mem_cons_iff]
    split_ifs with h
    · simp [h]
    · simp [Ne.symm h]

/-- Insertion, as the walk along `key` sees it. -/
lemma deepest_insert (a : α) (p : List Bool) : ∀ (t : BinaryTrie α) (key : Nat → Bool),
      (t.insert a p).deepest key = better key (t.deepest key) (p, a) := by
  suffices hnode : ∀ (l r : BinaryTrie α) (d : Option α) (key : Nat → Bool),
      ((node l r d).insert a p).deepest key = better key ((node l r d).deepest key) (p, a) by
    intro t key
    cases t with
    | nil => rw [insert_nil, deepest_nil, hnode]
    | node l r d => exact hnode l r d key
  induction p with
  | nil =>
    intro l r d key
    rw [insert, deepest_node, deepest_node]
    cases (bif key 0 then r else l).deepest fun i => key (i + 1) with
    | none => cases d <;> simp [better, starts, deeper]
    | some c => simp [better, starts, deeper]
  | cons b p ih =>
    intro l r d key
    have below : ∀ t : BinaryTrie α, (t.insert a p).deepest (fun i => key (i + 1)) =
        better (fun i => key (i + 1)) (t.deepest fun i => key (i + 1)) (p, a) := by
      intro t
      cases t with
      | nil => rw [insert_nil, deepest_nil, ih]
      | node l r d => exact ih l r d _
    rw [deepest_node]
    by_cases hb : b = key 0
    · subst hb
      rw [better_cons, ← below]
      cases h : key 0 <;> rw [insert, deepest_node, h] <;> rfl
    · rw [better_of_ne hb]
      cases h : key 0 <;> cases b <;> simp_all [insert, deepest_node]

/-- After a sequence of insertions the deepest value is that of the longest match. -/
lemma deepest_foldl_insert (es : List (List Bool × α)) (t : BinaryTrie α) :
    (es.foldl (fun t e => t.insert e.2 e.1) t).deepest key =
      es.foldl (better key) (t.deepest key) := by
  induction es generalizing t with
  | nil => exact rfl
  | cons e es ih =>
    rw [foldl_cons, foldl_cons, ih, deepest_insert]

/-- What a sequence of comparisons ends with: the match it began with, if no string that
fits is as long, or the last one of the longest strings that fit. -/
lemma foldl_better_cases (best : Option (Nat × α))
    (es : List (List Bool × α)) : (es.foldl (better key) best = best ∧
        ∀ e ∈ es, starts e.1 key = true → ∃ c, best = some c ∧ e.1.length < c.1) ∨
      ∃ l1 e l2, es = l1 ++ e :: l2 ∧ starts e.1 key = true ∧
        (∀ x ∈ l1, starts x.1 key = true → x.1.length ≤ e.1.length) ∧
        (∀ x ∈ l2, starts x.1 key = true → x.1.length < e.1.length) ∧
        es.foldl (better key) best = some (e.1.length, e.2) := by
  induction es using List.reverseRecOn with
  | nil => exact .inl ⟨rfl, by simp⟩
  | append_singleton es x ih =>
    rw [foldl_append, foldl_cons, foldl_nil]
    cases hx : starts x.1 key && (es.foldl (better key) best).all fun c =>
        decide (c.1 ≤ x.1.length) with
    | true =>
      -- the last string wins
      rw [Bool.and_eq_true, Option.all_eq_true] at hx
      refine .inr ⟨es, x, [], rfl, hx.1, fun y hy hs => ?_, by simp, ?_⟩
      · rcases ih with ⟨heq, hall⟩ | ⟨l1, e, l2, rfl, he, h1, h2, heq⟩
        · obtain ⟨c, hc, hlt⟩ := hall y hy hs
          have := of_decide_eq_true (hx.2 c (heq.trans hc))
          omega
        · have hle := of_decide_eq_true (hx.2 _ heq)
          dsimp only at hle
          rcases mem_append.mp hy with hy | hy
          · exact Nat.le_trans (h1 y hy hs) hle
          · rcases mem_cons.mp hy with rfl | hy
            · exact hle
            · exact Nat.le_trans (Nat.le_of_lt (h2 y hy hs)) hle
      · rw [better, if_pos (by rw [Bool.and_eq_true, Option.all_eq_true]; exact hx)]
    | false =>
      rw [better, hx]
      simp only [Bool.false_eq_true, if_false]
      have hlast : starts x.1 key = true → ∃ c, es.foldl (better key) best = some c ∧
          x.1.length < c.1 := by
        intro hs
        cases hr : es.foldl (better key) best with
        | none => simp [hs, hr] at hx
        | some c =>
          refine ⟨c, rfl, ?_⟩
          simpa [hs, hr] using hx
      rcases ih with ⟨heq, hall⟩ | ⟨l1, e, l2, rfl, he, h1, h2, heq⟩
      · refine .inl ⟨heq, fun y hy hs => ?_⟩
        rcases mem_append.mp hy with hy | hy
        · exact hall y hy hs
        · rw [mem_singleton.mp hy] at hs ⊢
          rw [← heq]
          exact hlast hs
      · refine .inr ⟨l1, e, l2 ++ [x], by simp, he, h1, fun y hy hs => ?_, heq⟩
        rcases mem_append.mp hy with hy | hy
        · exact h2 y hy hs
        · rw [mem_singleton.mp hy] at hs ⊢
          obtain ⟨c, hc, hlt⟩ := hlast hs
          rw [heq] at hc
          cases hc
          exact hlt

end BinaryTrie
