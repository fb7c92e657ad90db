import Mathlib.Data.List.Basic

/-!
# Ring buffers

A ring of `size` cells holds the elements from `first` up to `next`, where the positions wrap
around.  The ring is empty when the two are equal, so it holds at most `size - 1` elements, and
an element pushed into a full ring pushes the oldest one out.

Seen through `contents` a ring is a bounded queue: `push` appends and may drop the head
(`contents_push`), and `advance` drops from the front (`contents_advance`).
-/

structure RingBuffer (α : Type*) where
  size : Nat
  first : Nat
  next : Nat
  cell : Nat → α
  two_le : 2 ≤ size
  first_lt : first < size
  next_lt : next < size

namespace RingBuffer

open List Function

variable {α : Type*} (r : RingBuffer α)

def count : Nat := if r.first ≤ r.next then r.next - r.first else r.next + r.size - r.first

/-- The cell of element `i`. -/
def index (i : Nat) : Nat := (i + r.first) % r.size

/-- The elements, the oldest one first. -/
def contents : List α := (List.range r.count).map fun i => r.cell (r.index i)

lemma mod_lt (a : Nat) : a % r.size < r.size :=
  Nat.mod_lt _ (Nat.lt_of_lt_of_le Nat.zero_lt_two r.two_le)

lemma index_lt (i : Nat) : r.index i < r.size := r.mod_lt _

/-- Put an element into the next cell.  The flag tells that the oldest one was lost. -/
def push (x : α) : RingBuffer α × Bool :=
  let next := (r.next + 1) % r.size
  let cell := update r.cell r.next x
  if next = r.first then
    (⟨r.size, (r.first + 1) % r.size, next, cell, r.two_le, r.mod_lt _, r.mod_lt _⟩, true)
  else (⟨r.size, r.first, next, cell, r.two_le, r.first_lt, r.mod_lt _⟩, false)

def moveTo (first : Nat) (h : first < r.size) : RingBuffer α :=
  ⟨r.size, first, r.next, r.cell, r.two_le, h, r.next_lt⟩

lemma count_lt : r.count < r.size := by
  have := r.first_lt
  have := r.next_lt
  rw [count]
  split <;> omega

@[simp] lemma length_contents : r.contents.length = r.count := by
  rw [contents, length_map, length_range]

/-- A sum of two positions wraps at most once. -/
lemma wrap {a b : Nat} (ha : a < r.size) (hb : b < r.size) :
    (a + b) % r.size = if a + b < r.size then a + b else a + b - r.size := by
  split
  · case isTrue h => exact Nat.mod_eq_of_lt h
  · case isFalse h => rw [Nat.mod_eq_sub_mod (by omega), Nat.mod_eq_of_lt (by omega)]

/-- The elements end where the next one goes. -/
lemma index_eq_next_iff {i : Nat} (h : i < r.size) : r.index i = r.next ↔ i = r.count := by
  have := r.first_lt
  have := r.next_lt
  rw [index, r.wrap h r.first_lt, count]
  split <;> split <;> omega

lemma next_wrap : (r.next + 1) % r.size = if r.next + 1 < r.size then r.next + 1 else 0 := by
  have := r.next_lt
  rw [r.wrap r.next_lt (Nat.lt_of_lt_of_le Nat.one_lt_two r.two_le)]
  split <;> omega

/-- The ring is full when the next cell is followed by the first. -/
lemma next_eq_first_iff : (r.next + 1) % r.size = r.first ↔ r.count + 1 = r.size := by
  have := r.first_lt
  have := r.next_lt
  rw [next_wrap, count]
  split <;> split <;> omega

lemma getElem?_contents {i : Nat} (h : i < r.count) :
    r.contents[i]? = some (r.cell (r.index i)) := by
  rw [contents, List.getElem?_map, List.getElem?_range h, Option.map_some]

/-- The elements together with one more in the next cell. -/
lemma map_update (x : α) :
    (List.range (r.count + 1)).map (fun i => update r.cell r.next x (r.index i)) =
      r.contents ++ [x] := by
  rw [range_succ, map_append, map_cons, map_nil,
    (r.index_eq_next_iff r.count_lt).2 rfl, update_self, contents]
  congr 1
  refine map_congr_left fun i hi => update_of_ne (fun h => ?_) _ _
  have hlt := mem_range.1 hi
  have heq := (r.index_eq_next_iff (Nat.lt_trans hlt r.count_lt)).1 h
  omega

lemma push_of_lt {x : α} (h : r.count + 1 < r.size) :
    (r.push x).2 = false ∧ (r.push x).1.contents = r.contents ++ [x] := by
  have hne : (r.next + 1) % r.size ≠ r.first := fun heq => by
    have := r.next_eq_first_iff.1 heq
    omega
  rw [push]
  rw [if_neg hne]
  refine ⟨rfl, ?_⟩
  rw [← r.map_update x, contents]
  have hcount : count ⟨r.size, r.first, (r.next + 1) % r.size, update r.cell r.next x,
      r.two_le, r.first_lt, r.mod_lt _⟩ = r.count + 1 := by
    have := r.first_lt
    have := r.next_lt
    rw [count] at h ⊢
    rw [count]
    simp only [next_wrap] at hne ⊢
    split at hne <;> split at h <;> split <;> split <;> omega
  rw [hcount]
  rfl

lemma push_of_full {x : α} (h : r.count + 1 = r.size) :
    (r.push x).2 = true ∧ (r.push x).1.contents = (r.contents ++ [x]).tail := by
  have heq := r.next_eq_first_iff.2 h
  rw [push]
  rw [if_pos heq]
  refine ⟨rfl, ?_⟩
  rw [← r.map_update x, contents]
  have hcount : count ⟨r.size, (r.first + 1) % r.size, (r.next + 1) % r.size,
      update r.cell r.next x, r.two_le, r.mod_lt _, r.mod_lt _⟩ = r.count := by
    have := r.first_lt
    have := r.two_le
    have hfirst := r.wrap r.first_lt (Nat.lt_of_lt_of_le Nat.one_lt_two r.two_le)
    rw [count]
    simp only [heq, hfirst]
    split <;> split <;> omega
  rw [hcount, range_succ_eq_map, map_cons, tail_cons, map_map]
  refine map_congr_left fun i _ => ?_
  simp only [index, comp_apply, Nat.succ_eq_add_one, Nat.add_mod_mod]
  congr 2
  omega

/-- A push appends, and drops the oldest element of a full ring. -/
lemma contents_push (x : α) : (r.push x).1.contents =
    if (r.push x).2 then (r.contents ++ [x]).tail else r.contents ++ [x] := by
  rcases Nat.lt_or_eq_of_le (Nat.succ_le_of_lt r.count_lt) with h | h
  · obtain ⟨hflag, hcontents⟩ := r.push_of_lt (x := x) h
    rw [hflag, if_neg Bool.false_ne_true, hcontents]
  · obtain ⟨hflag, hcontents⟩ := r.push_of_full (x := x) h
    rw [hflag, if_pos rfl, hcontents]

@[simp] lemma push_size (x : α) : (r.push x).1.size = r.size := by
  rw [push]
  split <;> rfl

/-- Moving the beginning past `k` elements drops them. -/
lemma contents_moveTo {k : Nat} (hk : k ≤ r.count) :
    (r.moveTo (r.index k) (r.index_lt k)).contents = r.contents.drop k := by
  have hlt := Nat.lt_of_le_of_lt hk r.count_lt
  have hcount : (r.moveTo (r.index k) (r.index_lt k)).count = r.count - k := by
    have := r.first_lt
    have := r.next_lt
    rw [count] at hk ⊢
    rw [count]
    simp only [moveTo, index, r.wrap hlt r.first_lt]
    split at hk <;> split <;> split <;> omega
  refine ext_getElem? fun i => ?_
  rw [List.getElem?_drop]
  rcases Nat.lt_or_ge i (r.count - k) with hi | hi
  · rw [getElem?_contents _ (by omega), getElem?_contents _ (by omega)]
    simp only [index, moveTo, Nat.add_mod_mod]
    congr 3
    omega
  · rw [List.getElem?_eq_none (by rw [length_contents]; omega),
      List.getElem?_eq_none (by rw [length_contents]; omega)]

end RingBuffer
