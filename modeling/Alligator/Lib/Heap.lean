import Mathlib.Data.List.Perm.Subperm

/-!
# Heaps of cells

A heap maps addresses to cells of one type.  Addresses are handed out in
increasing order and never reused, so a freed address stays dead.  A pointer is
an address or null.  Reading or writing through null, or through an address
that holds no cell, has no result (`none`): a program that never does it is one
whose every run has a result.

A view of a heap is a projection of every cell.  Each operation updates a view
at one address or leaves it alone (`Heap.view_update`, `Heap.view_alloc`,
`Heap.view_free`, `Heap.view_update_same`).
-/

namespace Memory

open Function

abbrev Addr := Nat

/-- A pointer; `none` is null. -/
abbrev Ptr := Option Addr

/-- A heap of cells of type `α`. -/
structure Heap (α : Type) where
  /-- The live cells. -/
  cells : Addr → Option α
  /-- The next address to hand out. -/
  next : Nat
  /-- No cell lives at an address that was not handed out yet. -/
  fresh : ∀ a : Nat, next ≤ a → cells a = none

variable {α β : Type} {h : Heap α} {a : Addr} {g : α → β}

/-- A step that is defined, in a computation that may not be. -/
lemma some_bind (a : α) (f : α → Option β) : (some a >>= f) = f a := rfl

namespace Heap

def empty : Heap α := ⟨fun _ => none, 0, fun _ _ => rfl⟩

def get (h : Heap α) (a : Addr) : Option α := h.cells a

def deref (h : Heap α) (p : Ptr) : Option α := p.bind h.get

/-- Change the cell at an address, if there is one. -/
def update (h : Heap α) (a : Addr) (f : α → α) : Heap α where
  cells b := if b = a then (h.get b).map f else h.get b
  next := h.next
  fresh b hb := by
    have : h.get b = none := h.fresh b hb
    split <;> simp [this]

/-- Change the cell behind a pointer.  Null and dead addresses have no result. -/
def modify (h : Heap α) (p : Ptr) (f : α → α) : Option (Heap α) :=
  match p with
  | none => none
  | some a => if (h.get a).isSome then some (h.update a f) else none

def alloc (h : Heap α) (x : α) : Heap α × Addr :=
  (⟨fun b => if b = h.next then some x else h.get b, h.next + 1, fun b hb => by
      have : h.get b = none := h.fresh b (Nat.le_of_succ_le hb)
      rw [if_neg (Nat.ne_of_gt hb), this]⟩, h.next)

def free (h : Heap α) (a : Addr) : Heap α where
  cells b := if b = a then none else h.get b
  next := h.next
  fresh b hb := by
    have : h.get b = none := h.fresh b hb
    split
    · rfl
    · exact this

/-! ## Reading back -/

@[simp] lemma deref_some (h : Heap α) (a : Addr) : h.deref (some a) = h.get a := rfl

lemma get_update_self (h : Heap α) (a : Addr) (f : α → α) :
    (h.update a f).get a = (h.get a).map f := by
  simp [get, update]

lemma get_update_ne (h : Heap α) {b : Addr} (hb : b ≠ a) (f : α → α) :
    (h.update a f).get b = h.get b := by
  simp [get, update, hb]

variable {x : α} {y : β} {f : α → α}

lemma modify_some (hx : h.get a = some x) (f : α → α) :
    h.modify (some a) f = some (h.update a f) := by
  simp [modify, hx]

lemma get_alloc (h : Heap α) (x : α) (b : Addr) :
    (h.alloc x).1.get b = if b = h.next then some x else h.get b := rfl

@[simp] lemma alloc_snd (h : Heap α) (x : α) : (h.alloc x).2 = h.next := rfl

lemma get_free (h : Heap α) (a b : Addr) : (h.free a).get b = if b = a then none else h.get b := rfl

/-- A live address was handed out. -/
lemma lt_next {a : Nat} (hx : h.get a = some x) : a < h.next := by
  by_contra hlt
  have := h.fresh a (by omega)
  rw [get, this] at hx
  cases hx

/-- A list of distinct live addresses is no longer than the addresses handed out. -/
lemma length_le_next {l : List Addr} (nodup : l.Nodup)
    (live : ∀ a ∈ l, (h.get a).isSome) : l.length ≤ h.next := by
  have sub : l ⊆ List.range h.next := by
    intro a ha
    obtain ⟨x, hx⟩ := Option.isSome_iff_exists.mp (live a ha)
    exact List.mem_range.mpr (lt_next hx)
  simpa using (List.subperm_of_subset nodup sub).length_le

/-! ## Views

A view is a projection of every cell.  Algorithms that read and write one part
of the cells are followed in the view of that part, and the views of the other
parts stay as they are. -/

/-- The projection `g` of the cells of a heap. -/
def view (g : α → β) (h : Heap α) : Addr → Option β := fun b => (h.get b).map g

lemma view_eq_some : h.view g a = some y ↔ ∃ x, h.get a = some x ∧ g x = y := by
  simp [view]

lemma view_of_get (g : α → β) (hx : h.get a = some x) : h.view g a = some (g x) := by
  simp [view, hx]

lemma view_update (hx : h.get a = some x) (hy : g (f x) = y) :
    (h.update a f).view g = Function.update (h.view g) a (some y) := by
  funext b
  by_cases e : b = a
  · subst e
    simp [view, get_update_self, hx, hy]
  · rw [update_of_ne e, view, get_update_ne h e, view]

lemma view_update_same (h : Heap α) (a : Addr)
    (hf : ∀ x, g (f x) = g x) : (h.update a f).view g = h.view g := by
  funext b
  by_cases e : b = a
  · subst e
    rw [view, get_update_self, Option.map_map, view]
    exact congrArg (fun k => Option.map k (h.get b)) (funext hf)
  · rw [view, get_update_ne h e, view]

variable (g : α → β)

lemma view_alloc (h : Heap α) (x : α) :
    (h.alloc x).1.view g = Function.update (h.view g) h.next (some (g x)) := by
  funext b
  by_cases e : b = h.next
  · subst e
    simp [view, get_alloc]
  · rw [update_of_ne e, view, get_alloc, if_neg e, view]

lemma view_free (h : Heap α) (a : Addr) : (h.free a).view g = Function.update (h.view g) a none := by
  funext b
  by_cases e : b = a
  · subst e
    simp [view, get_free]
  · rw [update_of_ne e, view, get_free, if_neg e, view]

lemma view_fresh {a : Nat} (ha : h.next ≤ a) : h.view g a = none := by
  rw [view, get, h.fresh a ha]
  rfl

lemma view_next (h : Heap α) : h.view g h.next = none :=
  view_fresh g (Nat.le_refl _)

end Heap

end Memory
