import Alligator.Lib.Heap
import Mathlib.Data.List.Nodup

/-!
# Families of doubly linked lists in memory

Intrusive doubly linked lists: every node carries the addresses of its
neighbours, and a list is known by the pointer to its first node.  `Seg` says
that the links hold a stretch of a list, `insert_seg` and `unlink_seg` put a
node between two neighbours and take one out.

A family has one list per bucket.  Every node of it knows its bucket, so the
lists are disjoint.  `Family.insert`, `Family.unlink` and `Family.take` are the
three things that can happen to one list of a family; the other lists stay.
-/

namespace DList

open Memory List Function

variable {p pr nxt : Ptr} {b a : Addr} {l m : List Addr}

structure DLink where
  next : Ptr
  prev : Ptr
deriving DecidableEq

abbrev DLinks := Addr → Option DLink

/-- Write the `next` field behind a pointer, if it is not null. -/
def putNext (v : DLinks) (p n : Ptr) : DLinks :=
  match p with
  | none => v
  | some a => update v a ((v a).map fun l => { l with next := n })

/-- Write the `prev` field behind a pointer, if it is not null. -/
def putPrev (v : DLinks) (p n : Ptr) : DLinks :=
  match p with
  | none => v
  | some a => update v a ((v a).map fun l => { l with prev := n })

variable {v : DLinks}

lemma putNext_of_ne {n : Ptr} (h : p ≠ some b) : putNext v p n b = v b := by
  cases p with
  | none => rfl
  | some a =>
    rw [putNext, update_of_ne]
    rintro rfl
    exact h rfl

lemma putPrev_of_ne {n : Ptr} (h : p ≠ some b) : putPrev v p n b = v b := by
  cases p with
  | none => rfl
  | some a =>
    rw [putPrev, update_of_ne]
    rintro rfl
    exact h rfl

/-- The two fields are written independently. -/
lemma isSome_putNext (v : DLinks) (p n : Ptr) (c : Addr) :
    (putNext v p n c).isSome = (v c).isSome := by
  cases p with
  | none => rfl
  | some a => by_cases e : c = a <;> simp [putNext, e]

lemma isSome_putPrev (v : DLinks) (p n : Ptr) (c : Addr) :
    (putPrev v p n c).isSome = (v c).isSome := by
  cases p with
  | none => rfl
  | some a => by_cases e : c = a <;> simp [putPrev, e]

lemma putNext_putPrev (v : DLinks) (p n p' n' : Ptr) :
    putNext (putPrev v p' n') p n = putPrev (putNext v p n) p' n' := by
  cases p with
  | none => rfl
  | some a =>
    cases p' with
    | none => rfl
    | some a' =>
      by_cases e : a = a'
      · subst e
        simp only [putNext, putPrev, update_self, update_idem, Option.map_map]
        rfl
      · simp only [putNext, putPrev, update_of_ne e, update_of_ne (Ne.symm e)]
        exact (update_comm e _ _ _).symm

/-- The last node of a list, `pr` if there is none. -/
def lastOf (pr : Ptr) : List Addr → Ptr
  | [] => pr
  | a :: l => lastOf (some a) l

lemma lastOf_append (pr : Ptr) (l : List Addr) (a : Addr) : lastOf pr (l ++ [a]) = some a := by
  induction l generalizing pr with
  | nil => rfl
  | cons b l ih => exact ih (some b)

lemma lastOf_mem (h : lastOf pr l = some a) : a ∈ l ∨ (l = [] ∧ pr = some a) := by
  induction l generalizing pr with
  | nil => exact .inr ⟨rfl, h⟩
  | cons b l ih =>
    rcases ih h with hm | ⟨-, e⟩
    · exact .inl (mem_cons_of_mem _ hm)
    · cases e
      exact .inl mem_cons_self

lemma lastOf_none_eq (l : List Addr) : lastOf none l = l.getLast? := by
  rcases eq_nil_or_concat l with rfl | ⟨l', a, rfl⟩
  · rfl
  · rw [concat_eq_append, lastOf_append, List.getLast?_append]
    rfl

/-- The nodes of `l` follow each other from the pointer `p` to the pointer
`nxt`, and point back, the first one to `pr`. -/
def Seg (v : DLinks) : Ptr → Ptr → List Addr → Ptr → Prop
  | _, p, [], nxt => p = nxt
  | pr, p, a :: l, nxt => p = some a ∧ ∃ n, v a = some ⟨n, pr⟩ ∧ Seg v (some a) n l nxt

lemma Seg.congr {v v' : DLinks} (h : Seg v pr p l nxt) (hv : ∀ b ∈ l, v' b = v b) :
    Seg v' pr p l nxt := by
  induction l generalizing pr p with
  | nil => exact h
  | cons a l ih =>
    obtain ⟨hp, n, ha, hl⟩ := h
    exact ⟨hp, n, by rw [hv a mem_cons_self, ha], ih hl (forall_mem_cons.1 hv).2⟩

lemma Seg.head (h : Seg v pr p l none) : p = l.head? := by
  cases l with
  | nil => exact h
  | cons a l => exact h.1

lemma seg_append : Seg v pr p (l ++ m) nxt ↔ ∃ q, Seg v pr p l q ∧ Seg v (lastOf pr l) q m nxt := by
  induction l generalizing pr p with
  | nil =>
    constructor
    · intro h
      exact ⟨p, rfl, h⟩
    · rintro ⟨q, e, h⟩
      cases e
      exact h
  | cons a l ih =>
    constructor
    · rintro ⟨hp, n, ha, hl⟩
      obtain ⟨q, hq, hm⟩ := ih.mp hl
      exact ⟨q, ⟨hp, n, ha, hq⟩, hm⟩
    · rintro ⟨q, ⟨hp, n, ha, hq⟩, hm⟩
      exact ⟨hp, n, ha, ih.mpr ⟨q, hq, hm⟩⟩

/-- Let a stretch end at another node. -/
lemma Seg.putNext (h : Seg v pr p l nxt) (nd : l.Nodup) (ne : l ≠ [])
    (nxt' : Ptr) : Seg (putNext v (lastOf pr l) nxt') pr p l nxt' := by
  induction l generalizing pr p with
  | nil => exact absurd rfl ne
  | cons a l ih =>
    obtain ⟨hp, n, ha, hl⟩ := h
    rw [nodup_cons] at nd
    cases l with
    | nil =>
      refine ⟨hp, nxt', ?_, rfl⟩
      rw [lastOf, lastOf, DList.putNext, update_self, ha]
      rfl
    | cons b l =>
      refine ⟨hp, n, ?_, ih hl nd.2 (cons_ne_nil _ _)⟩
      rw [putNext_of_ne, ha]
      intro e
      rcases lastOf_mem (show lastOf (some a) (b :: l) = some a from e) with hm | ⟨h0, -⟩
      · exact nd.1 hm
      · cases h0

/-- Let a stretch point back to another node. -/
lemma Seg.putPrev (h : Seg v pr p l nxt) (nd : l.Nodup) (pr' : Ptr) :
    Seg (putPrev v l.head? pr') pr' p l nxt := by
  cases l with
  | nil => exact h
  | cons a l =>
    obtain ⟨hp, n, ha, hl⟩ := h
    rw [nodup_cons] at nd
    refine ⟨hp, n, ?_, hl.congr fun b hb => putPrev_of_ne fun e => ?_⟩
    · rw [List.head?_cons, DList.putPrev, update_self, ha]
      rfl
    · cases e
      exact nd.1 hb

/-- The links after the neighbours of `a` were told of each other. -/
def linkOut (v : DLinks) (l m : List Addr) : DLinks :=
  putPrev (putNext v (lastOf none l) m.head?) m.head? (lastOf none l)

/-- The links after `a` was put between its neighbours. -/
def linkIn (v : DLinks) (a : Addr) (l m : List Addr) : DLinks :=
  putPrev (putNext (update v a (some ⟨m.head?, lastOf none l⟩)) (lastOf none l) (some a))
    m.head? (some a)

lemma linkOut_of_not_mem (hl : b ∉ l) (hm : b ∉ m) : linkOut v l m b = v b := by
  rw [linkOut, putPrev_of_ne, putNext_of_ne]
  · intro e
    rcases lastOf_mem e with h | ⟨-, h⟩
    · exact hl h
    · cases h
  · exact fun e => hm (mem_of_mem_head? e)

lemma linkIn_of_not_mem (ha : b ≠ a) (hl : b ∉ l) (hm : b ∉ m) : linkIn v a l m b = v b := by
  rw [linkIn, putPrev_of_ne, putNext_of_ne, update_of_ne ha]
  · intro e
    rcases lastOf_mem e with h | ⟨-, h⟩
    · exact hl h
    · cases h
  · exact fun e => hm (mem_of_mem_head? e)

/-- What a node in the middle of a list points to. -/
lemma Seg.at (h : Seg v none p (l ++ a :: m) none) : v a = some ⟨m.head?, lastOf none l⟩ := by
  obtain ⟨q, -, -, n, ha, hm⟩ := seg_append.mp h
  rw [ha, hm.head]

/-- Take a node out of a list. -/
lemma unlink_seg (h : Seg v none p (l ++ a :: m) none) (nd : (l ++ a :: m).Nodup) :
    Seg (linkOut v l m) none (if l = [] then m.head? else p) (l ++ m) none := by
  obtain ⟨q, hl, -, n, -, hm⟩ := seg_append.mp h
  obtain ⟨ndl, ndm, disj⟩ := nodup_append.mp nd
  obtain ⟨-, ndm⟩ := nodup_cons.mp ndm
  have hn := hm.head
  subst hn
  refine seg_append.mpr ⟨m.head?, ?_, ?_⟩
  · cases l with
    | nil => exact if_pos rfl
    | cons b l =>
      refine (hl.putNext ndl (cons_ne_nil _ _) m.head?).congr fun c hc => putPrev_of_ne ?_
      exact fun e => disj c hc c (mem_cons_of_mem _ (mem_of_mem_head? e)) rfl
  · rw [linkOut, ← putNext_putPrev]
    refine (hm.putPrev ndm (lastOf none l)).congr fun c hc => putNext_of_ne fun e => ?_
    rcases lastOf_mem e with hcl | ⟨-, e⟩
    · exact disj c hcl c (mem_cons_of_mem _ hc) rfl
    · cases e

/-- Put a node into a list. -/
lemma insert_seg (h : Seg v none p (l ++ m) none) (nd : (l ++ m).Nodup) (ha : a ∉ l ++ m) :
    Seg (linkIn v a l m) none (if l = [] then some a else p) (l ++ a :: m) none := by
  obtain ⟨q, hl, hm⟩ := seg_append.mp h
  obtain ⟨ndl, ndm, disj⟩ := nodup_append.mp nd
  rw [mem_append, not_or] at ha
  have hq := hm.head
  subst hq
  have off : ∀ c, c ≠ a → update v a (some ⟨m.head?, lastOf none l⟩) c = v c :=
    fun c hc => update_of_ne hc _ _
  have lastl : ∀ c, lastOf none l = some c → c ∈ l := by
    intro c e
    rcases lastOf_mem e with hcl | ⟨-, e⟩
    · exact hcl
    · cases e
  refine seg_append.mpr ⟨some a, ?_, rfl, m.head?, ?_, ?_⟩
  · cases l with
    | nil => exact if_pos rfl
    | cons b l =>
      have hl' : Seg (update v a (some ⟨m.head?, lastOf none (b :: l)⟩)) none p (b :: l)
          m.head? := hl.congr fun c hc => off c fun e => ha.1 (e ▸ hc)
      refine (hl'.putNext ndl (cons_ne_nil _ _) (some a)).congr fun c hc => putPrev_of_ne ?_
      exact fun e => disj c hc c (mem_of_mem_head? e) rfl
  · rw [linkIn, putPrev_of_ne, putNext_of_ne, update_self]
    · exact fun e => ha.1 (lastl a e)
    · exact fun e => ha.2 (mem_of_mem_head? e)
  · rw [linkIn, ← putNext_putPrev]
    have hm' : Seg (update v a (some ⟨m.head?, lastOf none l⟩)) (lastOf none l) m.head? m
        none := hm.congr fun c hc => off c fun e => ha.2 (e ▸ hc)
    refine (hm'.putPrev ndm (some a)).congr fun c hc => putNext_of_ne fun e => ?_
    exact disj c (lastl c e) c hc rfl

/-! ## Families -/

variable {β : Type}

/-- One list per bucket, and every node of a list has that bucket. -/
structure Family (v : DLinks) (home : Addr → Option β) (heads : β → Ptr)
    (lists : β → List Addr) : Prop where
  seg : ∀ b, Seg v none (heads b) (lists b) none
  nodup : ∀ b, (lists b).Nodup
  home : ∀ b, ∀ a ∈ lists b, home a = some b

section Family

variable {v : DLinks} {home : Addr → Option β} {heads : β → Ptr}
  {lists : β → List Addr}

lemma Family.disjoint (F : Family v home heads lists) {b b' : β} (h : a ∈ lists b)
    (h' : a ∈ lists b') : b = b' :=
  Option.some.inj ((F.home b a h).symm.trans (F.home b' a h'))

/-- Nothing but links of other nodes and buckets of other nodes changed. -/
lemma Family.congr (F : Family v home heads lists) {v' : DLinks}
    {home' : Addr → Option β} (hv : ∀ b, ∀ a ∈ lists b, v' a = v a)
    (hh : ∀ b, ∀ a ∈ lists b, home' a = home a) : Family v' home' heads lists where
  seg b := (F.seg b).congr (hv b)
  nodup := F.nodup
  home b a ha := by rw [hh b a ha, F.home b a ha]

variable [DecidableEq β]

lemma mem_update_nil {b b' : β} : a ∈ update lists b [] b' ↔ b' ≠ b ∧ a ∈ lists b' := by
  by_cases e : b' = b
  · simp [e]
  · rw [update_of_ne e, and_iff_right e]

variable (F : Family v home heads lists)
include F

lemma Family.insert {b : β} (hb : lists b = l ++ m) (free : ∀ b', a ∉ lists b') :
    Family (linkIn v a l m) (update home a (some b))
      (update heads b (if l = [] then some a else heads b))
      (update lists b (l ++ a :: m)) where
  seg b' := by
    by_cases e : b' = b
    · subst e
      rw [update_self, update_self]
      exact insert_seg (hb ▸ F.seg b') (hb ▸ F.nodup b') (hb ▸ free b')
    · rw [update_of_ne e, update_of_ne e]
      refine (F.seg b').congr fun c hc => linkIn_of_not_mem ?_ ?_ ?_
      · rintro rfl
        exact free b' hc
      · exact fun hcl => e (F.disjoint hc (hb ▸ mem_append_left _ hcl))
      · exact fun hcm => e (F.disjoint hc (hb ▸ mem_append_right _ hcm))
  nodup b' := by
    by_cases e : b' = b
    · subst e
      rw [update_self, nodup_middle, nodup_cons]
      exact ⟨hb ▸ free b', hb ▸ F.nodup b'⟩
    · rw [update_of_ne e]
      exact F.nodup b'
  home b' c hc := by
    by_cases e : b' = b
    · subst e
      rw [update_self, mem_append, mem_cons] at hc
      by_cases hca : c = a
      · rw [hca, update_self]
      · rw [update_of_ne hca]
        refine F.home b' c (hb ▸ ?_)
        rw [mem_append]
        tauto
    · rw [update_of_ne e] at hc
      rw [update_of_ne, F.home b' c hc]
      rintro rfl
      exact free b' hc

lemma Family.unlink {b : β} (hb : lists b = l ++ a :: m) (x : Option DLink) :
    Family (update (linkOut v l m) a x) home (update heads b (if l = [] then m.head? else heads b))
      (update lists b (l ++ m)) where
  seg b' := by
    have nd : (l ++ a :: m).Nodup := hb ▸ F.nodup b
    have hna : a ∉ l ++ m := (nodup_cons.mp (nodup_middle.mp nd)).1
    by_cases e : b' = b
    · subst e
      rw [update_self, update_self]
      refine (unlink_seg (hb ▸ F.seg b') nd).congr fun c hc => update_of_ne ?_ _ _
      rintro rfl
      exact hna hc
    · rw [update_of_ne e, update_of_ne e]
      refine (F.seg b').congr fun c hc => ?_
      rw [update_of_ne, linkOut_of_not_mem]
      · exact fun hcl => e (F.disjoint hc (hb ▸ mem_append_left _ hcl))
      · exact fun hcm => e (F.disjoint hc (hb ▸ mem_append_right _ (mem_cons_of_mem _ hcm)))
      · rintro rfl
        exact e (F.disjoint hc (hb ▸ mem_append_right _ mem_cons_self))
  nodup b' := by
    by_cases e : b' = b
    · subst e
      rw [update_self]
      have nd : (l ++ a :: m).Nodup := hb ▸ F.nodup b'
      exact (nodup_cons.mp (nodup_middle.mp nd)).2
    · rw [update_of_ne e]
      exact F.nodup b'
  home b' c hc := by
    by_cases e : b' = b
    · subst e
      rw [update_self] at hc
      refine F.home b' c (hb ▸ ?_)
      rw [mem_append] at hc
      rw [mem_append]
      tauto
    · rw [update_of_ne e] at hc
      exact F.home b' c hc

lemma Family.take (b : β) : Family v home (update heads b none) (update lists b []) where
  seg b' := by
    by_cases e : b' = b
    · subst e
      rw [update_self, update_self]
      rfl
    · rw [update_of_ne e, update_of_ne e]
      exact F.seg b'
  nodup b' := by
    by_cases e : b' = b
    · subst e
      rw [update_self]
      exact nodup_nil
    · rw [update_of_ne e]
      exact F.nodup b'
  home b' c hc := F.home b' c (mem_update_nil.mp hc).2

end Family

end DList
