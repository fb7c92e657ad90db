import Mathlib.Data.List.Sort
import Mathlib.Data.Finset.Card
import Mathlib.Data.List.Range
import Mathlib.Tactic.Ring

/-!
# Binary heaps laid out in an array

An array is a function from positions to elements of which the first `n` are looked at. The
children of position `i` are `2 * i + 1` and `2 * i + 2`, and `above a b` says that `a` may be
the parent of `b`. A sift exchanges an element with a child for as long as the child is out of
place; the element that moves down is passed through `down`, which is the identity in a sound
heap and a lossy copy in an unsound one.

The rules say which positions a sift leaves alone, that with a lossless copy it only permutes
the array and repairs the heap, and that building a heap bottom up brings the topmost element
to the root even when the copies are lossy.
-/

namespace ArrayHeap

open List Function

/-! ## Permutations of an initial segment -/

variable {x : Nat}

section Permutes

variable {α : Type*} {f g k : Nat → α} {n m : Nat}

/-- The first `n` elements are permuted, the others are left alone. -/
def Permutes (n : Nat) (f g : Nat → α) : Prop :=
  ∃ σ : Equiv.Perm Nat, (∀ x, n ≤ x → σ x = x) ∧ g = f ∘ σ

lemma Permutes.refl (f : Nat → α) : Permutes n f f :=
  ⟨Equiv.refl _, fun _ _ => rfl, rfl⟩

variable (h : Permutes n f g)
include h

lemma Permutes.trans (h' : Permutes n g k) : Permutes n f k := by
  obtain ⟨σ, hσ, rfl⟩ := h
  obtain ⟨τ, hτ, rfl⟩ := h'
  refine ⟨τ.trans σ, fun x hx => ?_, rfl⟩
  rw [Equiv.trans_apply, hτ x hx, hσ x hx]

lemma Permutes.mono (hm : n ≤ m) : Permutes m f g := by
  obtain ⟨σ, hσ, rfl⟩ := h
  exact ⟨σ, fun x hx => hσ x (hm.trans hx), rfl⟩

lemma Permutes.eq_of_le (hx : n ≤ x) : g x = f x := by
  obtain ⟨σ, hσ, rfl⟩ := h
  rw [comp_apply, hσ x hx]

omit h in
lemma lt_of_fixes {σ : Equiv.Perm Nat} (hσ : ∀ x, n ≤ x → σ x = x) (hx : x < n) : σ x < n := by
  by_contra hle
  have hfix : σ (σ x) = σ x := hσ _ (not_lt.1 hle)
  have hsame : σ x = x := σ.injective hfix
  omega

lemma Permutes.exists_lt (hx : x < n) : ∃ y < n, g x = f y := by
  obtain ⟨σ, hσ, rfl⟩ := h
  exact ⟨σ x, lt_of_fixes hσ hx, rfl⟩

lemma Permutes.perm : ((List.range n).map g).Perm ((List.range n).map f) := by
  obtain ⟨σ, hσ, rfl⟩ := h
  rw [← map_map]
  refine List.Perm.map f ((perm_ext_iff_of_nodup ?_ nodup_range).2 fun x => ?_)
  · exact nodup_range.map σ.injective
  · have hinv : ∀ y, n ≤ y → σ.symm y = y := fun y hy => by
      rw [Equiv.symm_apply_eq, hσ y hy]
    rw [mem_map]
    constructor
    · rintro ⟨y, hy, rfl⟩
      exact mem_range.2 (lt_of_fixes hσ (mem_range.1 hy))
    · intro hx
      exact ⟨σ.symm x, mem_range.2 (lt_of_fixes hinv (mem_range.1 hx)), Equiv.apply_symm_apply _ _⟩

end Permutes

/-! ## Sifting -/

/-- The loop over `j - 1`, …, `0`. -/
def countdown {β : Type*} (step : β → Nat → β) : Nat → β → β
  | 0, b => b
  | j + 1, b => countdown step j (step b j)

section Sift

variable {α : Type*} (above : α → α → Prop) [DecidableRel above] (down : α → α)

/-- The element of `s` moves to `i`, that of `i` is copied down to `s`. -/
def exchange (f : Nat → α) (i s : Nat) : Nat → α :=
  update (update f i (f s)) s (down (f i))

/-- The position among `i` and its children that should be on top. -/
def topChild (n : Nat) (f : Nat → α) (i : Nat) : Nat :=
  let s := if 2 * i + 1 < n ∧ ¬ above (f i) (f (2 * i + 1)) then 2 * i + 1 else i
  if 2 * i + 2 < n ∧ ¬ above (f s) (f (2 * i + 2)) then 2 * i + 2 else s

/-- Sift the element at `i` down. Fuel `n` is enough, the position grows with every step. -/
def sift (n : Nat) : Nat → (Nat → α) → Nat → Nat → α
  | 0, f, _ => f
  | fuel + 1, f, i =>
    let s := topChild above n f i
    if s = i then f else sift n fuel (exchange down f i s) s

/-- Sift the positions below `j`, the last one first. -/
def build (n j : Nat) (f : Nat → α) : Nat → α :=
  countdown (sift above down n n) j f

/-- Move the root behind the heap and sift the new root, for as long as the heap has elements. -/
def extract (i : Nat) (f : Nat → α) : Nat → α :=
  countdown (fun f i => sift above id i i (if i = 0 then f else exchange id f 0 i) 0) i f

end Sift

variable {f : Nat → α} {k : Nat} {j : Nat} {fuel : Nat}

section Rules

variable {α : Type*} {above : α → α → Prop} [DecidableRel above] {down : α → α}
variable {n i j s fuel : Nat} {f g : Nat → α}

lemma exchange_left (h : i ≠ s) : exchange down f i s i = f s := by
  rw [exchange, update_of_ne h, update_self]

lemma exchange_right : exchange down f i s s = down (f i) := by
  rw [exchange, update_self]

lemma exchange_other (hi : x ≠ i) (hs : x ≠ s) : exchange down f i s x = f x := by
  rw [exchange, update_of_ne hs, update_of_ne hi]

/-- With a lossless copy an exchange is a transposition. -/
lemma exchange_permutes (h : down (f i) = f i) (hi : i < n) (hs : s < n) :
    Permutes n f (exchange down f i s) := by
  refine ⟨Equiv.swap i s, fun x hx => Equiv.swap_apply_of_ne_of_ne (by omega) (by omega), ?_⟩
  funext x
  by_cases hxs : x = s
  · rw [hxs, exchange_right, h, comp_apply, Equiv.swap_apply_right]
  · by_cases hxi : x = i
    · rw [hxi, exchange_left (by omega), comp_apply, Equiv.swap_apply_left]
    · rw [exchange_other hxi hxs, comp_apply, Equiv.swap_apply_of_ne_of_ne hxi hxs]

variable {Q : α → Prop} {f0 : Nat → α}

/-- An exchange keeps a property of the elements from `k` on that every copy has. -/
lemma exchange_forall (hdown : ∀ a, Q (down a))
    (h : ∀ x, k ≤ x → x ≠ i → Q (f x)) (hs : k ≤ s) (his : i ≠ s) :
    ∀ x, k ≤ x → Q (exchange down f i s x) := by
  intro x hx
  by_cases hxs : x = s
  · rw [hxs, exchange_right]
    exact hdown _
  · by_cases hxi : x = i
    · rw [hxi, exchange_left his]
      exact h s hs his.symm
    · rw [exchange_other hxi hxs]
      exact h x hx hxi

lemma sift_of_eq (h : topChild above n f i = i) : sift above down n (fuel + 1) f i = f := by
  exact if_pos h

lemma sift_of_ne (h : topChild above n f i ≠ i) : sift above down n (fuel + 1) f i =
      sift above down n fuel (exchange down f i (topChild above n f i)) (topChild above n f i) := by
  exact if_neg h

lemma build_succ :
    build above down n (j + 1) f = build above down n j (sift above down n n f j) := rfl

lemma extract_succ : extract above (i + 1) f =
    extract above i (sift above id i i (if i = 0 then f else exchange id f 0 i) 0) := rfl

/-- A position that moves down moves to one of its children. -/
lemma topChild_cases (above : α → α → Prop) [DecidableRel above] (n : Nat) (f : Nat → α)
    (i : Nat) : topChild above n f i = i ∨ topChild above n f i < n ∧ 0 < topChild above n f i ∧
        (topChild above n f i - 1) / 2 = i := by
  rw [topChild]
  by_cases hl : 2 * i + 1 < n ∧ ¬ above (f i) (f (2 * i + 1))
  · simp only [if_pos hl]
    split <;> exact .inr (by omega)
  · simp only [if_neg hl]
    split
    · exact .inr (by omega)
    · exact .inl rfl

lemma topChild_of_ordered (h : ∀ c, 0 < c → c < n → (c - 1) / 2 = i → above (f i) (f c)) :
    topChild above n f i = i := by
  have hl : ¬ (2 * i + 1 < n ∧ ¬ above (f i) (f (2 * i + 1))) := fun hl =>
    hl.2 (h _ (by omega) hl.1 (by omega))
  have hr : ¬ (2 * i + 2 < n ∧ ¬ above (f i) (f (2 * i + 2))) := fun hr =>
    hr.2 (h _ (by omega) hr.1 (by omega))
  simp only [topChild, if_neg hl, if_neg hr]

/-- A sift reaches a position other than its own only through the parent of that position. -/
lemma sift_other (hx : x ≠ i)
    (hparent : (x - 1) / 2 < i ∨ x = 0) : sift above down n fuel f i x = f x := by
  induction fuel generalizing f i x with
  | zero => rfl
  | succ fuel ih =>
    rcases topChild_cases above n f i with hs | ⟨-, hpos, hs⟩
    · rw [sift_of_eq hs]
    · rw [sift_of_ne (by omega), ih (by omega) (by omega), exchange_other hx (by omega)]

/-- A sift only permutes the array if the element that moves down is copied without loss, and is
the one of a sound heap. -/
lemma sift_lossless (h : topChild above n f i ≠ i → down (f i) = f i) :
    Permutes n f (sift above down n fuel f i) ∧
      sift above down n fuel f i = sift above id n fuel f i := by
  induction fuel generalizing f i with
  | zero => exact ⟨.refl f, rfl⟩
  | succ fuel ih =>
    rcases topChild_cases above n f i with hs | ⟨hlt, hpos, hs⟩
    · rw [sift_of_eq hs, sift_of_eq hs]
      exact ⟨.refl f, rfl⟩
    · have hcopy : down (f i) = f i := h (by omega)
      have hsame : exchange down f i (topChild above n f i) =
          exchange id f i (topChild above n f i) := by
        rw [exchange, hcopy]
        rfl
      have hstep : Permutes n f (exchange id f i (topChild above n f i)) :=
        exchange_permutes rfl (by omega) hlt
      obtain ⟨hperm, hid⟩ := ih (i := topChild above n f i)
        (f := exchange id f i (topChild above n f i)) fun _ => by rw [exchange_right, id, hcopy]
      rw [sift_of_ne (by omega), sift_of_ne (by omega), hsame]
      exact ⟨hstep.trans hperm, hid⟩

/-- A sift keeps a property of the elements from `k` on that every copy has. -/
lemma sift_forall (hdown : ∀ a, Q (down a)) (hki : k ≤ i) (hf : ∀ x, k ≤ x → Q (f x)) :
    ∀ x, k ≤ x → Q (sift above down n fuel f i x) := by
  induction fuel generalizing f i with
  | zero => intro x hx; exact hf x hx
  | succ fuel ih =>
    rcases topChild_cases above n f i with hs | ⟨-, hpos, hs⟩
    · rw [sift_of_eq hs]
      exact hf
    · rw [sift_of_ne (by omega)]
      exact ih (by omega) (exchange_forall hdown (fun x hx _ => hf x hx) (by omega) (by omega))

lemma extract_permutes : Permutes i f (extract above i f) := by
  induction i generalizing f with
  | zero => exact .refl f
  | succ i ih =>
    have hroot : Permutes (i + 1) f (if i = 0 then f else exchange id f 0 i) := by
      split
      · exact .refl f
      · exact exchange_permutes rfl (by omega) (by omega)
    have hsift : ∀ g : Nat → α, Permutes i g (sift above id i i g 0) := fun g =>
      And.left (sift_lossless fun _ => rfl)
    exact (hroot.trans ((hsift _).mono (Nat.le_succ i))).trans (ih.mono (Nat.le_succ i))

/-! ## Heap order -/

/-- The parents from `k` on are above their children. -/
def Ordered (above : α → α → Prop) (n k : Nat) (f : Nat → α) : Prop :=
  ∀ c, 0 < c → c < n → k ≤ (c - 1) / 2 → above (f ((c - 1) / 2)) (f c)

/-- What a sift at `j` needs: the parents from `k` on other than `j` are above their children,
and the parent of `j` is above the children of `j`. -/
structure SiftReady (above : α → α → Prop) (n k j : Nat) (f : Nat → α) : Prop where
  off : ∀ c, 0 < c → c < n → k ≤ (c - 1) / 2 → (c - 1) / 2 ≠ j → above (f ((c - 1) / 2)) (f c)
  grand : k < j → ∀ c, 0 < c → c < n → (c - 1) / 2 = j → above (f ((j - 1) / 2)) (f c)

/-- No position has a child beyond the middle. -/
lemma ordered_half : Ordered above n (n / 2) f := by
  intro c hpos hlt hk
  omega

/-- Building leaves a heap as it is. -/
lemma build_of_ordered (h : Ordered above n 0 f) : ∀ {j : Nat}, build above down n j f = f := by
  intro j
  induction j with
  | zero => rfl
  | succ j ih =>
    have hstep : sift above down n n f j = f := by
      cases n with
      | zero => rfl
      | succ n =>
        refine sift_of_eq (topChild_of_ordered fun c hpos hlt hc => ?_)
        rw [← hc]
        exact h c hpos hlt (Nat.zero_le _)
    rw [build_succ, hstep, ih]

variable [Std.Total above] [IsTrans α above]

omit [DecidableRel above] [IsTrans α above] in
lemma above_swap {a b : α} (h : ¬ above a b) : above b a :=
  (Std.Total.total a b).resolve_left h

omit [DecidableRel above] [IsTrans α above] in
lemma above_refl (a : α) : above a a :=
  (Std.Total.total a a).elim id id

/-- The position on top is above the position itself and above both children. -/
lemma topChild_above (above : α → α → Prop) [DecidableRel above] [Std.Total above]
    [IsTrans α above] (n : Nat) (f : Nat → α) (i : Nat) : above (f (topChild above n f i)) (f i) ∧
      ∀ c, 0 < c → c < n → (c - 1) / 2 = i → above (f (topChild above n f i)) (f c) := by
  rw [topChild]
  generalize hs : (if 2 * i + 1 < n ∧ ¬ above (f i) (f (2 * i + 1)) then 2 * i + 1 else i) = s
  have hfirst : above (f s) (f i) ∧ (2 * i + 1 < n → above (f s) (f (2 * i + 1))) := by
    by_cases hl : 2 * i + 1 < n ∧ ¬ above (f i) (f (2 * i + 1))
    · rw [← hs, if_pos hl]
      exact ⟨above_swap hl.2, fun _ => above_refl _⟩
    · rw [← hs, if_neg hl]
      exact ⟨above_refl _, fun hlt => not_not.1 fun hn => hl ⟨hlt, hn⟩⟩
  have hchild : ∀ c, 0 < c → (c - 1) / 2 = i → c = 2 * i + 1 ∨ c = 2 * i + 2 := by omega
  by_cases hr : 2 * i + 2 < n ∧ ¬ above (f s) (f (2 * i + 2))
  · simp only [if_pos hr]
    refine ⟨Trans.trans (above_swap hr.2) hfirst.1, fun c hpos hlt hc => ?_⟩
    rcases hchild c hpos hc with rfl | rfl
    · exact Trans.trans (above_swap hr.2) (hfirst.2 hlt)
    · exact above_refl _
  · simp only [if_neg hr]
    refine ⟨hfirst.1, fun c hpos hlt hc => ?_⟩
    rcases hchild c hpos hc with rfl | rfl
    · exact hfirst.2 hlt
    · exact not_not.1 fun hn => hr ⟨hlt, hn⟩

lemma not_above_topChild (h : topChild above n f i ≠ i) :
    ¬ above (f i) (f (topChild above n f i)) := by
  revert h
  rw [topChild]
  by_cases hl : 2 * i + 1 < n ∧ ¬ above (f i) (f (2 * i + 1))
  · simp only [if_pos hl]
    split
    · case isTrue hr => exact fun _ ha => hr.2 (Trans.trans (above_swap hl.2) ha)
    · exact fun _ => hl.2
  · simp only [if_neg hl]
    split
    · case isTrue hr => exact fun _ => hr.2
    · exact fun hne => absurd rfl hne

/-- The exchange with the child on top moves the fault down to that child. -/
lemma SiftReady.exchange (h : SiftReady above n k j f) (hk : k ≤ j)
    (hs : topChild above n f j < n ∧ 0 < topChild above n f j ∧
      (topChild above n f j - 1) / 2 = j) : SiftReady above n k (topChild above n f j)
      (ArrayHeap.exchange id f j (topChild above n f j)) := by
  obtain ⟨htop, hchildren⟩ := topChild_above above n f j
  obtain ⟨hlt, hpos, hparent⟩ := hs
  generalize topChild above n f j = s at *
  constructor
  · intro c hc hcn hkc hcs
    by_cases hcj : (c - 1) / 2 = j
    · rw [hcj, exchange_left (by omega)]
      by_cases hc' : c = s
      · rw [hc', exchange_right]
        exact htop
      · rw [exchange_other (by omega) hc']
        exact hchildren c hc hcn hcj
    · rw [exchange_other hcj hcs]
      by_cases hc' : c = j
      · rw [hc', exchange_left (by omega)]
        exact h.grand (by omega) s hpos hlt hparent
      · rw [exchange_other hc' (by omega)]
        exact h.off c hc hcn hkc hcj
  · intro _ c hc hcn hcs
    rw [hparent, exchange_left (by omega), exchange_other (by omega) (by omega), ← hcs]
    exact h.off c hc hcn (by omega) (by omega)

/-- A sift repairs the heap. -/
lemma sift_ordered (hfuel : n ≤ j + fuel)
    (hk : k ≤ j) (h : SiftReady above n k j f) : Ordered above n k (sift above id n fuel f j) := by
  induction fuel generalizing f j with
  | zero =>
    intro c hc hcn hkc
    exact h.off c hc hcn hkc (by omega)
  | succ fuel ih =>
    rcases topChild_cases above n f j with hs | hs
    · rw [sift_of_eq hs]
      intro c hc hcn hkc
      by_cases hcj : (c - 1) / 2 = j
      · have := (topChild_above above n f j).2 c hc hcn hcj
        rwa [hs, ← hcj] at this
      · exact h.off c hc hcn hkc hcj
    · rw [sift_of_ne (by omega)]
      exact ih (by omega) (by omega) (h.exchange hk hs)

lemma build_ordered (h : Ordered above n j f) : Ordered above n 0 (build above id n j f) := by
  induction j generalizing f with
  | zero => exact h
  | succ j ih =>
    refine ih (sift_ordered (by omega) le_rfl ⟨fun c hc hcn hkc hcj => ?_, fun hlt => ?_⟩)
    · exact h c hc hcn (by omega)
    · omega

omit [DecidableRel above] in
/-- The root of a heap is above every element. -/
lemma Ordered.root (h : Ordered above n 0 f) : ∀ {c : Nat}, c < n → above (f 0) (f c) := by
  intro c
  induction c using Nat.strong_induction_on with
  | _ c ih =>
    intro hc
    rcases Nat.eq_zero_or_pos c with rfl | hpos
    · exact above_refl _
    · exact Trans.trans (ih ((c - 1) / 2) (by omega) (by omega)) (h c hpos hc (Nat.zero_le _))

/-- Extraction leaves the elements with the topmost one last. The invariant is that what lies
behind the heap is above everything before it. -/
lemma extract_sorted {m : Nat} (hheap : Ordered above i 0 f)
    (htail : ∀ a b, a < b → i ≤ b → b < m → above (f b) (f a)) :
    ∀ a b, a < b → b < m → above (extract above i f b) (extract above i f a) := by
  induction i generalizing f with
  | zero => intro a b hab hb; exact htail a b hab (Nat.zero_le _) hb
  | succ i ih =>
    rw [extract_succ]
    have hswap : (if i = 0 then f else exchange id f 0 i) = exchange id f 0 i := by
      split
      · case isTrue h =>
        funext x
        rcases eq_or_ne x 0 with rfl | hx
        · rw [h, exchange_right, id]
        · rw [exchange_other hx (by omega)]
      · rfl
    rw [hswap]
    have hsift : Permutes i (exchange id f 0 i) (sift above id i i (exchange id f 0 i) 0) :=
      And.left (sift_lossless fun _ => rfl)
    have hall : Permutes (i + 1) f (sift above id i i (exchange id f 0 i) 0) :=
      (exchange_permutes rfl (by omega) (by omega)).trans (hsift.mono (by omega))
    have hlast : sift above id i i (exchange id f 0 i) 0 i = f 0 := by
      rw [hsift.eq_of_le le_rfl, exchange_right, id]
    refine ih (sift_ordered (by omega) le_rfl ⟨fun c hc hcn _ hc0 => ?_, fun hlt => ?_⟩)
      fun a b hab hib hbm => ?_
    · rw [exchange_other hc0 (by omega), exchange_other (by omega) (by omega)]
      exact hheap c hc (by omega) (Nat.zero_le _)
    · omega
    · rcases eq_or_lt_of_le hib with rfl | hlt
      · obtain ⟨y, hy, hay⟩ := hall.exists_lt (show a < i + 1 by omega)
        rw [hlast, hay]
        exact hheap.root hy
      · rw [hall.eq_of_le hlt]
        rcases lt_or_ge a (i + 1) with ha | ha
        · obtain ⟨y, hy, hay⟩ := hall.exists_lt ha
          rw [hay]
          exact htail y b (by omega) hlt hbm
        · rw [hall.eq_of_le ha]
          exact htail a b hab hlt hbm

/-! ## Building with lossy copies -/

/-- `x` is `i` or one of its descendants. -/
def Under : Nat → Nat → Prop := Relation.ReflTransGen fun p c => 0 < c ∧ (c - 1) / 2 = p

lemma Under.le (h : Under i x) : i ≤ x := by
  induction h with
  | refl => exact le_rfl
  | tail _ hc ih => omega

lemma under_zero : ∀ x, Under 0 x := by
  intro x
  induction x using Nat.strong_induction_on with
  | _ x ih =>
    rcases Nat.eq_zero_or_pos x with rfl | hpos
    · exact .refl
    · exact (ih ((x - 1) / 2) (by omega)).tail ⟨hpos, rfl⟩

/-- The positions below `j` are still those of `f0`, and the tops of the heaps from `j` on are
elements of `f0` from below them that are above all of these. -/
structure Crowned (above : α → α → Prop) (n j : Nat) (f0 f : Nat → α) : Prop where
  untouched : ∀ x < j, f x = f0 x
  top : ∀ c, j ≤ c → c < n → (c - 1) / 2 < j ∨ c = 0 → ∃ y < n, Under c y ∧ f c = f0 y
  covers : ∀ c x, j ≤ c → (c - 1) / 2 < j ∨ c = 0 → Under c x → x < n → above (f c) (f0 x)

omit [DecidableRel above] [IsTrans α above] in
lemma Crowned.start (h : n ≤ 2 * j + 1) : Crowned above n j f f := by
  refine ⟨fun _ _ => rfl, fun c _ hc _ => ⟨c, hc, .refl, rfl⟩, fun c x hc _ hx hxn => ?_⟩
  rcases hx.cases_head with rfl | ⟨d, hd, hx⟩
  · exact above_refl _
  · have hdx : d ≤ x := Under.le hx
    omega

/-- One sift of the building loop takes the next position in. -/
lemma Crowned.sift (h : Crowned above n (j + 1) f0 f) :
    Crowned above n j f0 (ArrayHeap.sift above down n n f j) := by
  obtain ⟨htop, hchildren⟩ := topChild_above above n f j
  have hroot : 0 < n → ArrayHeap.sift above down n n f j j = f (topChild above n f j) := by
    intro hn
    obtain ⟨m, rfl⟩ : ∃ m, n = m + 1 := ⟨n - 1, by omega⟩
    rcases topChild_cases above (m + 1) f j with hs | hs
    · rw [sift_of_eq hs, hs]
    · rw [sift_of_ne (by omega), sift_other (by omega) (by omega), exchange_left (by omega)]
  have hother : ∀ c, c ≠ j → (c - 1) / 2 < j ∨ c = 0 →
      ArrayHeap.sift above down n n f j c = f c := fun c hc hp => sift_other hc hp
  constructor
  · intro x hx
    rw [hother x (by omega) (by omega)]
    exact h.untouched x (by omega)
  · intro c hjc hcn hc
    rcases eq_or_lt_of_le hjc with rfl | hlt
    · rw [hroot (by omega)]
      rcases topChild_cases above n f j with hs | hs
      · exact ⟨j, hcn, .refl, by rw [hs, h.untouched j (by omega)]⟩
      · obtain ⟨y, hy, hunder, hfy⟩ := h.top _ (by omega) hs.1 (by omega)
        exact ⟨y, hy, .head hs.2 hunder, hfy⟩
    · rw [hother c (by omega) hc]
      exact h.top c hlt hcn (by omega)
  · intro c x hjc hc hx hxn
    have hcx : c ≤ x := hx.le
    rcases eq_or_lt_of_le hjc with rfl | hlt
    · rw [hroot (by omega)]
      rcases hx.cases_head with rfl | ⟨d, hd, hx⟩
      · rw [← h.untouched j (by omega)]
        exact htop
      · have hdx : d ≤ x := Under.le hx
        exact Trans.trans (hchildren d hd.1 (by omega) hd.2)
          (h.covers d x (by omega) (by omega) hx hxn)
    · rw [hother c (by omega) hc]
      exact h.covers c x hlt (by omega) hx hxn

lemma Crowned.build (h : Crowned above n j f0 f) :
    Crowned above n 0 f0 (ArrayHeap.build above down n j f) := by
  induction j generalizing f with
  | zero => exact h
  | succ j ih => exact ih h.sift

/-- Building brings the topmost element of the array to the root. -/
lemma build_root (h : n ≤ 2 * j + 1) (hn : 0 < n) :
    (∃ y < n, build above down n j f 0 = f y) ∧ ∀ x < n, above (build above down n j f 0) (f x) := by
  have hbuilt : Crowned above n 0 f (build above down n j f) := (Crowned.start h).build
  obtain ⟨y, hy, -, hroot⟩ := hbuilt.top 0 le_rfl hn (.inr rfl)
  exact ⟨⟨y, hy, hroot⟩, fun x hx => hbuilt.covers 0 x le_rfl (.inr rfl) (under_zero x) hx⟩

/-- A position that has to stay below one of its descendants moves down. -/
lemma Crowned.moves (h : Crowned above n (j + 1) f0 f) (hx : Under j x) (hxn : x < n)
    (hna : ¬ above (f0 j) (f0 x)) : topChild above n f j ≠ j := by
  intro hs
  rcases hx.cases_head with rfl | ⟨c, hc, hx⟩
  · exact hna (above_refl _)
  · have hcx : c ≤ x := Under.le hx
    have htop := (topChild_above above n f j).2 c hc.1 (by omega) hc.2
    rw [hs, h.untouched j (by omega)] at htop
    exact hna (Trans.trans htop (h.covers c x (by omega) (by omega) hx hxn))

/-- Where the root has to move down, building leaves no more than a copy of it. -/
lemma Crowned.build_forall (hdown : ∀ a, Q (down a))
    (hx : x < n) (hroot : ¬ above (f0 0) (f0 x))
    (h : Crowned above n (j + 1) f0 f) (hQ : ∀ y, 1 ≤ y → Q (f y)) :
    ∀ y, Q (ArrayHeap.build above down n (j + 1) f y) := by
  induction j generalizing f with
  | zero =>
    intro y
    have hmoves := h.moves (under_zero x) hx hroot
    obtain ⟨m, rfl⟩ : ∃ m, n = m + 1 := ⟨n - 1, by omega⟩
    rw [build_succ, sift_of_ne hmoves]
    refine sift_forall hdown (Nat.zero_le _) ?_ y (Nat.zero_le _)
    exact exchange_forall hdown (fun z _ hz => hQ z (by omega)) (Nat.zero_le _) hmoves.symm
  | succ j ih =>
    exact ih h.sift (sift_forall hdown (by omega) hQ)

/-! ## When nothing is lost -/

/-- Building only permutes the array if every element that is below one of its descendants is
copied without loss. -/
lemma Crowned.build_lossless (h : Crowned above n j f0 f)
    (hlow : ∀ i x, Under i x → x < n → ¬ above (f0 i) (f0 x) → down (f0 i) = f0 i) :
    Permutes n f (ArrayHeap.build above down n j f) ∧
      ArrayHeap.build above down n j f = ArrayHeap.build above id n j f := by
  induction j generalizing f with
  | zero => exact ⟨.refl f, rfl⟩
  | succ j ih =>
    have hstep : Permutes n f (ArrayHeap.sift above down n n f j) ∧ _ := sift_lossless fun hs => by
      have hchild := (topChild_cases above n f j).resolve_left hs
      obtain ⟨y, hy, hunder, hfy⟩ := h.top _ (by omega) hchild.1 (by omega)
      have hna := not_above_topChild hs
      rw [h.untouched j (by omega), hfy] at hna
      rw [h.untouched j (by omega)]
      exact hlow j y (.head hchild.2 hunder) hy hna
    obtain ⟨hperm, hid⟩ := ih h.sift
    refine ⟨hstep.1.trans hperm, hid.trans ?_⟩
    rw [hstep.2, build_succ]

variable [DecidableEq α]

/-- The positions whose elements are copied without loss. -/
def lossless (n : Nat) (down : α → α) (f : Nat → α) : Finset Nat :=
  {x ∈ Finset.range n | down (f x) = f x}

lemma Permutes.card_lossless (h : Permutes n f g) :
    (lossless n down g).card = (lossless n down f).card := by
  have hcount := h.perm.countP_eq fun a => decide (down a = a)
  rwa [countP_map, countP_map, countP_eq_length_filter, countP_eq_length_filter] at hcount

section Idempotent

variable (hdown : ∀ a, down (down a) = down a)
include hdown

/-- A copy is copied without loss, so an exchange loses no such element, and wins one if the
element that moves down is none. -/
lemma card_exchange (hi : i < n) (hs : s < n) :
    (lossless n down f).card ≤ (lossless n down (exchange down f i s)).card ∧
      (down (f i) ≠ f i →
        (lossless n down f).card < (lossless n down (exchange down f i s)).card) := by
  have hperm : Permutes n f (exchange id f i s) := exchange_permutes rfl hi hs
  have hcopy : s ∈ lossless n down (exchange down f i s) := by
    rw [lossless, Finset.mem_filter, exchange_right]
    exact ⟨Finset.mem_range.2 hs, hdown _⟩
  have hsub : lossless n down (exchange id f i s) ⊆ lossless n down (exchange down f i s) := by
    intro x hx
    by_cases hxs : x = s
    · exact hxs ▸ hcopy
    · rwa [lossless, Finset.mem_filter, exchange, update_of_ne hxs] at hx ⊢
  rw [← hperm.card_lossless]
  refine ⟨Finset.card_le_card hsub, fun hi => Finset.card_lt_card ?_⟩
  refine (Finset.ssubset_iff_of_subset hsub).2 ⟨s, hcopy, fun hmem => hi ?_⟩
  rw [lossless, Finset.mem_filter, exchange_right] at hmem
  exact hmem.2

omit [Std.Total above] [IsTrans α above] in
lemma card_sift : (lossless n down f).card ≤ (lossless n down (sift above down n fuel f i)).card := by
  induction fuel generalizing f i with
  | zero => exact le_rfl
  | succ fuel ih =>
    rcases topChild_cases above n f i with hs | ⟨hlt, hpos, hs⟩
    · rw [sift_of_eq hs]
    · rw [sift_of_ne (by omega)]
      exact (card_exchange hdown (by omega) hlt).1.trans ih

omit [Std.Total above] [IsTrans α above] in
lemma card_build : (lossless n down f).card ≤ (lossless n down (build above down n j f)).card := by
  induction j generalizing f with
  | zero => exact le_rfl
  | succ j ih => exact (card_sift hdown).trans ih

/-- An element below one of its descendants is moved, and is gone if the copy is not lossless. -/
lemma Crowned.card_build_lt (h : Crowned above n j f0 f) (hij : i < j) (hx : Under i x)
    (hxn : x < n) (hna : ¬ above (f0 i) (f0 x)) (hloss : down (f0 i) ≠ f0 i) :
    (lossless n down f).card < (lossless n down (ArrayHeap.build above down n j f)).card := by
  induction j generalizing f with
  | zero => omega
  | succ j ih =>
    rcases eq_or_lt_of_le (Nat.le_of_lt_succ hij) with rfl | hlt
    · have hmoves := h.moves hx hxn hna
      have hs := (topChild_cases above n f i).resolve_left hmoves
      obtain ⟨m, rfl⟩ : ∃ m, n = m + 1 := ⟨n - 1, by omega⟩
      rw [build_succ, sift_of_ne hmoves]
      rw [← h.untouched i hij] at hloss
      exact ((card_exchange hdown (by omega) hs.1).2 hloss).trans_le
        ((card_sift hdown).trans (card_build hdown))
    · exact (card_sift hdown).trans_lt (ih h.sift hlt)

/-- Building leaves a heap of the same elements if and only if every element that is below one of
its descendants is copied without loss. -/
lemma build_lossless_iff (hj : n ≤ 2 * j + 1) :
    Permutes n f (build above down n j f) ∧ Ordered above n 0 (build above down n j f) ↔
      ∀ i x, Under i x → x < n → ¬ above (f i) (f x) → down (f i) = f i := by
  have hstart : Crowned above n j f f := .start hj
  refine ⟨fun h i x hx hxn hna => ?_, fun h => ?_⟩
  · by_contra hloss
    have hij : i < j := by
      rcases hx.cases_head with rfl | ⟨c, hc, hx⟩
      · exact absurd (above_refl _) hna
      · have hcx : c ≤ x := Under.le hx
        omega
    have hlt := hstart.card_build_lt hdown hij hx hxn hna hloss
    rw [h.1.card_lossless] at hlt
    exact hlt.false
  · obtain ⟨hperm, hid⟩ := hstart.build_lossless h
    refine ⟨hperm, hid ▸ build_ordered fun c hc hcn hk => ?_⟩
    omega

end Idempotent

end Rules

/-! ## Order statistics -/

section Descending

variable {α : Type*} [LinearOrder α] {n k : Nat} {f g : Nat → α} {v : α}

/-- The first `n` elements, the largest one first. -/
def descending (n : Nat) (f : Nat → α) : List α :=
  ((List.range n).map f).mergeSort fun a b => decide (b ≤ a)

lemma descending_perm (n : Nat) (f : Nat → α) : (descending n f).Perm ((List.range n).map f) :=
  mergeSort_perm _ _

lemma descending_pairwise (n : Nat) (f : Nat → α) : (descending n f).Pairwise (· ≥ ·) := by
  have hsorted : (descending n f).Pairwise fun a b => decide (b ≤ a) = true := by
    refine pairwise_mergeSort (fun a b c hab hbc => ?_) (fun a b => ?_) _
    · rw [decide_eq_true_eq] at *
      exact hbc.trans hab
    · rw [Bool.or_eq_true, decide_eq_true_eq, decide_eq_true_eq]
      exact le_total b a
  exact hsorted.imp fun h => of_decide_eq_true h

/-- An array in descending order is its own list of order statistics. -/
lemma map_eq_descending (hperm : Permutes n f g) (h : ∀ a b, a < b → b < n → g b ≤ g a) :
    (List.range n).map g = descending n f := by
  refine List.Perm.eq_of_pairwise (fun a b _ _ hab hba => le_antisymm hba hab) ?_
    (descending_pairwise n f) (hperm.perm.trans (descending_perm n f).symm)
  rw [pairwise_map]
  exact pairwise_lt_range.imp_of_mem fun _ hb hab => h _ _ hab (mem_range.1 hb)

lemma descending_eq_of_permutes (hperm : Permutes n f g) : descending n g = descending n f :=
  List.Perm.eq_of_pairwise (fun _ _ _ _ hab hba => le_antisymm hba hab) (descending_pairwise n g)
    (descending_pairwise n f)
    ((descending_perm n g).trans (hperm.perm.trans (descending_perm n f).symm))

/-- In a descending list the element at `k` is the one that at most `k` elements exceed and
more than `k` elements reach. -/
lemma getElem?_of_counts {l : List α} (hl : l.Pairwise (· ≥ ·))
    (hlow : l.countP (v < ·) ≤ k) (hhigh : k < l.countP (v ≤ ·)) : l[k]? = some v := by
  induction l generalizing k with
  | nil => simp at hhigh
  | cons a l ih =>
    obtain ⟨ha, hl'⟩ := pairwise_cons.1 hl
    rcases lt_or_ge v a with hva | hav
    · rw [countP_cons_of_pos (by simpa using hva)] at hlow
      rw [countP_cons_of_pos (by simpa using hva.le)] at hhigh
      obtain ⟨k, rfl⟩ : ∃ m, k = m + 1 := ⟨k - 1, by omega⟩
      exact ih hl' (by omega) (by omega)
    · -- nothing exceeds the head, so the element sought is the head itself
      obtain ⟨b, hb, hvb⟩ := countP_pos_iff.1 (Nat.zero_lt_of_lt hhigh)
      have hba : b ≤ a := by
        rcases mem_cons.1 hb with rfl | hb
        · exact le_rfl
        · exact ha b hb
      obtain rfl : a = v := le_antisymm hav ((of_decide_eq_true hvb).trans hba)
      cases k with
      | zero => rfl
      | succ k =>
        rw [countP_cons_of_pos (by simp)] at hhigh
        refine ih hl' (Nat.le_of_eq ?_ |>.trans (Nat.zero_le k)) (by omega)
        exact countP_eq_zero.2 fun b hb => by simpa using ha b hb

lemma descending_getElem? (hlow : ((Finset.range n).filter (v < f ·)).card ≤ k)
    (hhigh : k < ((Finset.range n).filter (v ≤ f ·)).card) : (descending n f)[k]? = some v := by
  have hcount : ∀ (q : α → Prop) [DecidablePred q],
      (descending n f).countP (q ·) = ((Finset.range n).filter (q <| f ·)).card := by
    intro q _
    rw [(descending_perm n f).countP_eq, countP_map, countP_eq_length_filter]
    rfl
  exact getElem?_of_counts (descending_pairwise n f) (by rwa [hcount]) (by rwa [hcount])

/-- Extraction from a heap with the smallest element on top. -/
lemma extract_build_permutes (n : Nat) (f : Nat → α) :
    Permutes n f (extract (· ≤ ·) n (build (· ≤ ·) id n (n / 2) f)) := by
  have hbuild : Permutes n f (build (· ≤ ·) id n (n / 2) f) :=
    And.left (Crowned.build_lossless (.start (by omega)) fun _ _ _ _ _ => rfl)
  exact hbuild.trans extract_permutes

lemma extract_build_eq_descending (n : Nat) (f : Nat → α) :
    (List.range n).map (extract (· ≤ ·) n (build (· ≤ ·) id n (n / 2) f)) = descending n f := by
  refine map_eq_descending (extract_build_permutes n f) fun a b hab hb => ?_
  exact extract_sorted (build_ordered ordered_half) (by omega) a b hab hb

end Descending

end ArrayHeap
