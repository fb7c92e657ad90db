import Mathlib.Data.List.Basic
import Mathlib.Data.List.GetD

/-!
# A draft

Players share out a number of slots.  They take turns, and in its turn a player takes the first
slot in its own row of preferences that is still free, until no slot is.

When every row names every slot, each turn finds a slot, the draft comes to its end, and every
slot then has an owner (`draft_full`).  The players then have equally many slots, up to one
(`draft_even`).
-/

/-- The owners of the slots, how far every player has got in its row, and the number of slots
that are taken. -/
structure Draft where
  entry : List (Option Nat)
  next : List Nat
  taken : Nat

namespace Draft

open List Option

variable {entry : List (Option Nat)} {c i : Nat}

def start (players slots : Nat) : Draft :=
  ⟨List.replicate slots none, List.replicate players 0, 0⟩

def occupied (entry : List (Option Nat)) (c : Nat) : Bool := (entry.getD c none).isSome

/-- The first place from `k` on in a row whose slot is free. -/
def seek (row : Nat → Nat) (entry : List (Option Nat)) : Nat → Nat → Nat
  | 0, k => k
  | fuel + 1, k => if occupied entry (row k) then seek row entry fuel (k + 1) else k

def pick (pref : Nat → Nat → Nat) (st : Draft) (i : Nat) : Draft :=
  let k := seek (pref i) st.entry st.entry.length (st.next.getD i 0)
  ⟨st.entry.set (pref i k) (some i), st.next.set i (k + 1), st.taken + 1⟩

/-- The turns of some players, up to the last free slot. -/
def turns (pref : Nat → Nat → Nat) : List Nat → Draft → Draft
  | [], st => st
  | i :: is, st =>
    let st := st.pick pref i
    if st.taken = st.entry.length then st else turns pref is st

/-- Rounds of turns, up to the last free slot. -/
def draft (pref : Nat → Nat → Nat) (players : Nat) : Nat → Draft → Option Draft
  | 0, _ => none
  | fuel + 1, st =>
    let st := turns pref (List.range players) st
    if st.taken = st.entry.length then some st else draft pref players fuel st

/-! ## Seeking -/

variable {fuel k : Nat}

lemma seek_spec {row : Nat → Nat} {j : Nat} (hkj : k ≤ j) (hj : j < k + fuel)
    (hfree : occupied entry (row j) = false) :
    occupied entry (row (seek row entry fuel k)) = false ∧ seek row entry fuel k ≤ j ∧
      ∀ l, k ≤ l → l < seek row entry fuel k → occupied entry (row l) = true := by
  induction fuel generalizing k j with
  | zero => omega
  | succ fuel ih =>
    by_cases hk : occupied entry (row k) = true
    · rw [seek, if_pos hk]
      have hne : k ≠ j := by
        rintro rfl
        rw [hk] at hfree
        cases hfree
      obtain ⟨h1, h2, h3⟩ := ih (k := k + 1) (j := j) (by omega) (by omega) hfree
      refine ⟨h1, h2, fun l hkl hl => ?_⟩
      rcases Nat.lt_or_eq_of_le hkl with hlt | rfl
      · exact h3 l hlt hl
      · exact hk
    · rw [seek, if_neg hk]
      exact ⟨Bool.eq_false_iff.2 hk, hkj, fun l hkl hl => by omega⟩

/-! ## The slots -/

lemma occupied_set {d : Nat} (h : occupied entry d = true) :
    occupied (entry.set c (some i)) d = true := by
  rw [occupied, getD_eq_getElem?_getD] at *
  rw [List.getElem?_set]
  split_ifs with hcd hlt
  · rfl
  · rw [List.getElem?_eq_none (by omega)] at h
    cases h
  · exact h

lemma occupied_set_self (hc : c < entry.length) : occupied (entry.set c (some i)) c = true := by
  rw [occupied, getD_eq_getElem?_getD, List.getElem?_set_self hc]
  rfl

lemma countP_set_free (hc : c < entry.length) (hfree : occupied entry c = false) :
    (entry.set c (some i)).countP Option.isSome = entry.countP Option.isSome + 1 := by
  have hget : entry[c].isSome = false := by
    rwa [occupied, getD_eq_getElem _ _ hc] at hfree
  rw [countP_set hc, hget]
  rfl

/-- While not all slots are taken one is free. -/
lemma exists_free (h : entry.countP Option.isSome < entry.length) :
    ∃ c, c < entry.length ∧ occupied entry c = false := by
  by_contra hall
  have hcount : entry.countP Option.isSome = entry.length := by
    rw [countP_eq_length]
    intro a ha
    obtain ⟨c, hc, rfl⟩ := getElem_of_mem ha
    by_contra hfree
    refine hall ⟨c, hc, ?_⟩
    rw [occupied, getD_eq_getElem _ _ hc]
    exact Bool.eq_false_iff.2 hfree
  omega

/-! ## The draft -/

section Rows

variable {pref : Nat → Nat → Nat} {players slots : Nat} {st : Draft}

structure Rows (pref : Nat → Nat → Nat) (players slots : Nat) : Prop where
  lt : ∀ i j, i < players → pref i j < slots
  onto : ∀ i c, i < players → c < slots → ∃ j, j < slots ∧ pref i j = c

/-- In the middle of the draft: what a player has passed in its row is taken. -/
structure Fair (pref : Nat → Nat → Nat) (players slots : Nat) (st : Draft) : Prop where
  length : st.entry.length = slots
  nextLength : st.next.length = players
  counted : st.taken = st.entry.countP Option.isSome
  passed : ∀ i, i < players → ∀ j, j < st.next.getD i 0 → occupied st.entry (pref i j) = true
  owner : ∀ i, some i ∈ st.entry → i < players

lemma fair_start (pref : Nat → Nat → Nat) (players slots : Nat) :
    Fair pref players slots (start players slots) where
  length := length_replicate
  nextLength := length_replicate
  counted := by simp [start, countP_replicate]
  passed := by
    intro i hi j hj
    simp [start, hi] at hj
  owner := by
    intro i hi
    cases eq_of_mem_replicate hi

/-- A player whose turn it is finds a free slot before the end of its row. -/
lemma Fair.seek (h : Fair pref players slots st) (hrows : Rows pref players slots)
    (hi : i < players) (hfree : st.taken < slots) :
    let k := Draft.seek (pref i) st.entry st.entry.length (st.next.getD i 0)
    occupied st.entry (pref i k) = false ∧ k < slots ∧
      ∀ l, st.next.getD i 0 ≤ l → l < k → occupied st.entry (pref i l) = true := by
  obtain ⟨c, hc, hcfree⟩ := exists_free (h.counted ▸ h.length.symm ▸ hfree)
  obtain ⟨j, hj, rfl⟩ := hrows.onto i c hi (h.length ▸ hc)
  have hpassed : st.next.getD i 0 ≤ j := by
    by_contra hlt
    rw [h.passed i hi j (by omega)] at hcfree
    cases hcfree
  have hnear : j < st.next.getD i 0 + st.entry.length := by
    rw [h.length]
    omega
  obtain ⟨hk, hkj, hbefore⟩ := seek_spec hpassed hnear hcfree
  exact ⟨hk, Nat.lt_of_le_of_lt hkj hj, hbefore⟩

lemma Fair.pick (h : Fair pref players slots st) (hrows : Rows pref players slots)
    (hi : i < players) (hfree : st.taken < slots) : Fair pref players slots (st.pick pref i) := by
  obtain ⟨hk, -, hbefore⟩ := h.seek hrows hi hfree
  rw [Draft.pick]
  generalize Draft.seek (pref i) st.entry st.entry.length (st.next.getD i 0) = k at hk hbefore
  have hlt : pref i k < st.entry.length := h.length ▸ hrows.lt i k hi
  constructor
  · rw [length_set, h.length]
  · rw [length_set, h.nextLength]
  · rw [countP_set_free hlt hk, ← h.counted]
  · intro i' hi' l hl
    by_cases heq : i' = i
    · subst heq
      rw [getD_eq_getElem?_getD, List.getElem?_set_self (h.nextLength.symm ▸ hi'), getD_some] at hl
      rcases Nat.lt_or_ge l (st.next.getD i' 0) with hlow | hlow
      · exact occupied_set (h.passed i' hi' l hlow)
      · rcases Nat.lt_or_eq_of_le (Nat.le_of_lt_succ hl) with hlk | rfl
        · exact occupied_set (hbefore l hlow hlk)
        · exact occupied_set_self hlt
    · rw [getD_eq_getElem?_getD, List.getElem?_set_ne (Ne.symm heq), ← getD_eq_getElem?_getD] at hl
      exact occupied_set (h.passed i' hi' l hl)
  · intro i' hi'
    rcases mem_or_eq_of_mem_set hi' with hmem | heq
    · exact h.owner i' hmem
    · exact some.inj heq ▸ hi

section

variable (hrows : Rows pref players slots)
include hrows

lemma Fair.turns {is : List Nat}
    (h : Fair pref players slots st) (hlt : st.taken < slots) (his : ∀ i ∈ is, i < players) :
    Fair pref players slots (st.turns pref is) ∧ (st.turns pref is).taken ≤ slots ∧
      (is ≠ [] → st.taken < (st.turns pref is).taken) := by
  induction is generalizing st with
  | nil => exact ⟨h, Nat.le_of_lt hlt, fun hne => absurd rfl hne⟩
  | cons i is ih =>
    have hpick := h.pick hrows (his i mem_cons_self) hlt
    have htaken : (st.pick pref i).taken = st.taken + 1 := rfl
    rw [Draft.turns]
    split_ifs with hall
    · exact ⟨hpick, by omega, fun _ => by omega⟩
    · have hmore : (st.pick pref i).taken < slots := by
        rw [hpick.length] at hall
        omega
      obtain ⟨hfair, hle, -⟩ := ih hpick hmore (forall_mem_cons.1 his).2
      refine ⟨hfair, hle, fun _ => ?_⟩
      cases is with
      | nil => exact Nat.lt_succ_self _
      | cons j is =>
        have := (ih hpick hmore (forall_mem_cons.1 his).2).2.2
          (cons_ne_nil _ _)
        omega

/-- Each round takes a slot, so there are at most as many rounds as slots. -/
lemma Fair.draft (hplayers : 0 < players)
    (h : Fair pref players slots st) (hlt : st.taken < slots) (hfuel : slots ≤ st.taken + fuel) :
    ∃ st', st.draft pref players fuel = some st' ∧ Fair pref players slots st' ∧
      st'.taken = slots := by
  induction fuel generalizing st with
  | zero => omega
  | succ fuel ih =>
    obtain ⟨hfair, hle, hmore⟩ := h.turns hrows hlt fun i hi => mem_range.1 hi
    have hne : List.range players ≠ [] := by
      rw [ne_eq, range_eq_nil]
      omega
    have hgrow := hmore hne
    rw [Draft.draft]
    split_ifs with hall
    · exact ⟨_, rfl, hfair, hall.trans hfair.length⟩
    · rw [hfair.length] at hall
      exact ih hfair (by omega) (by omega)

omit hrows in
lemma Fair.full (h : Fair pref players slots st) (hall : st.taken = slots)
    (hc : c < slots) : ∃ i, i < players ∧ st.entry[c]? = some (some i) := by
  have hlen : c < st.entry.length := h.length.symm ▸ hc
  have hcount : st.entry.countP Option.isSome = st.entry.length := by
    rw [← h.counted, hall, h.length]
  have hsome := countP_eq_length.1 hcount st.entry[c] (getElem_mem hlen)
  obtain ⟨i, hi⟩ := isSome_iff_exists.1 hsome
  refine ⟨i, h.owner i (hi ▸ getElem_mem hlen), ?_⟩
  rw [List.getElem?_eq_getElem hlen, hi]

/-- The draft comes to its end, and every slot has an owner. -/
lemma draft_full (hplayers : 0 < players) (hslots : 0 < slots) :
    ∃ st, (start players slots).draft pref players slots = some st ∧
      st.entry.length = slots ∧ ∀ c, c < slots → ∃ i, i < players ∧ st.entry[c]? = some (some i) := by
  have hfuel : slots ≤ (start players slots).taken + slots := Nat.le_add_left _ _
  obtain ⟨st, hst, hfair, hall⟩ :=
    Fair.draft hrows hplayers (fair_start pref players slots) hslots hfuel
  exact ⟨st, hst, hfair.length, fun c hc => hfair.full hall hc⟩

end

/-! ## Even shares -/

/-- The players before the `k`-th have one slot more than the others, and nobody has read past
the end of its row. -/
structure Even (players slots r k : Nat) (st : Draft) : Prop where
  count : ∀ i, i < players → st.entry.count (some i) = if i < k then r + 1 else r
  within : ∀ i, i < players → st.next.getD i 0 ≤ slots

lemma even_start (players slots : Nat) : Even players slots 0 0 (start players slots) where
  count := by simp [start, count_replicate]
  within := by
    intro i hi
    simp [start, hi]

variable {r : Nat}

lemma Even.pick (h : Even players slots r k st) (hfair : Fair pref players slots st)
    (hrows : Rows pref players slots) (hk : k < players) (hfree : st.taken < slots) :
    Even players slots r (k + 1) (st.pick pref k) := by
  obtain ⟨hslot, hlt, -⟩ := hfair.seek hrows hk hfree
  rw [Draft.pick]
  generalize Draft.seek (pref k) st.entry st.entry.length (st.next.getD k 0) = place at hslot hlt
  have hentry : pref k place < st.entry.length := hfair.length ▸ hrows.lt k place hk
  have hnone : st.entry[pref k place] = none := by
    rwa [occupied, getD_eq_getElem _ _ hentry, isSome_eq_false_iff, isNone_iff_eq_none] at hslot
  constructor
  · intro i hi
    rw [count_set hentry, hnone, h.count i hi]
    by_cases hik : i = k
    · simp [hik]
    · have : i < k + 1 ↔ i < k := by omega
      simp [this, Ne.symm hik]
  · intro i hi
    rw [getD_eq_getElem?_getD, List.getElem?_set]
    split_ifs with hik
    · exact hlt
    · rw [getD_none]
      exact Nat.zero_le _
    · rw [← getD_eq_getElem?_getD]
      exact h.within i hi

variable (hrows : Rows pref players slots)
include hrows

/-- A round that is not the last one gives everybody a slot. -/
lemma Even.turns : ∀ {n k : Nat} {st : Draft},
    k + n = players → Fair pref players slots st → st.taken < slots → Even players slots r k st →
    ∃ k', Even players slots r k' (st.turns pref (List.range' k n)) ∧
      ((st.turns pref (List.range' k n)).taken ≠ slots → k' = players) := by
  intro n
  induction n with
  | zero => exact fun {k st} hk _ _ h => ⟨k, h, fun _ => hk⟩
  | succ n ih =>
    intro k st hk hfair hlt h
    have hpick := h.pick hfair hrows (by omega) hlt
    have hfair' := hfair.pick hrows (i := k) (by omega) hlt
    rw [List.range'_succ, Draft.turns]
    split_ifs with hall
    · exact ⟨k + 1, hpick, fun hne => absurd (hall.trans hfair'.length) hne⟩
    · rw [hfair'.length] at hall
      have htaken : (st.pick pref k).taken = st.taken + 1 := rfl
      exact ih (by omega) hfair' (by omega) hpick

lemma Even.draft {st' : Draft}
    (hfair : Fair pref players slots st) (hlt : st.taken < slots) (h : Even players slots r 0 st)
    (hst : st.draft pref players fuel = some st') : ∃ r k, Even players slots r k st' := by
  induction fuel generalizing r st st' with
  | zero => exact nomatch hst
  | succ fuel ih =>
    obtain ⟨k, heven, hround⟩ := Even.turns hrows (Nat.zero_add players) hfair hlt h
    obtain ⟨hfair', hle, -⟩ := hfair.turns hrows hlt fun i hi => mem_range.1 hi
    rw [← range_eq_range'] at heven hround
    rw [Draft.draft] at hst
    split_ifs at hst with hall
    · exact some.inj hst ▸ ⟨r, k, heven⟩
    · rw [hfair'.length] at hall
      refine ih (r := r + 1) hfair' (by omega) ⟨fun i hi => ?_, heven.within⟩ hst
      rw [heven.count i hi, hround hall, if_pos hi, if_neg (Nat.not_lt_zero i)]

/-- At the end any two players have the same number of slots up to one. -/
lemma draft_even (hslots : 0 < slots)
    (hst : (start players slots).draft pref players slots = some st) :
    (∀ i, i < players → st.next.getD i 0 ≤ slots) ∧ ∀ i j, i < players → j < players →
      st.entry.count (some i) ≤ st.entry.count (some j) + 1 := by
  obtain ⟨r, k, h⟩ := Even.draft hrows (fair_start pref players slots) hslots
    (even_start players slots) hst
  refine ⟨h.within, fun i j hi hj => ?_⟩
  rw [h.count i hi, h.count j hj]
  split_ifs <;> omega

end Rows

end Draft
