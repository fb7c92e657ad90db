import Alligator.Metric.Query
import Alligator.Metric.Exposition
import Mathlib.Algebra.Order.BigOperators.Group.List

/-!
# Internal queries

A query sorts the series that it selects into groups, keeps a summary of each group, and writes
a metric from every summary that passes the comparator.  Numbers are exact.
-/

namespace Alligator

open Text Memory RedBlack List Label

/-! ## Groups -/

/-- The tokens that the loops over a list of label names see.  One of 255 bytes or more is cut,
and an empty one ends the loop. -/
def groupTokens : Nat → Str → List Str
  | 0, _ => []
  | fuel + 1, s =>
    if s = [] then []
    else
      let token := s.takeWhile (· ≠ 44)
      token.take 254 ::
        if token = [] then [] else groupTokens fuel (s.dropWhile (· ≠ 44)).tail

variable (labels : Labels)

def labelsToGroupkey (groupkey : Str) : Str :=
  (groupTokens groupkey.length groupkey).flatMap fun n =>
    (labels.filter fun l => l.name = n).flatMap fun l => l.key.getD [] ++ cstr ", "

def labelsToHash (groupkey : Str) : Option LabelHash :=
  (groupTokens groupkey.length groupkey).foldl (fun lbl n =>
    (labels.filter fun l => l.name = n).foldl (fun lbl l =>
      let hash := lbl.getD .empty
      some (l.key.elim hash (hash.insert l.name))) lbl) none

/-- The number that a sample stands for. -/
def Series.number (x : Series) : ℚ :=
  match x.type with
  | .none => 0
  | .double => Binary64.toRat x.value
  | .int => x.value.toInt
  | .uint => x.value.toNat

/-- `query_struct`: the summary of a group. -/
structure QueryStruct where
  key : Str
  lbl : Option LabelHash
  count : Nat
  val : ℚ
  min : ℚ
  max : ℚ
  equalHits : Nat
  unequalHits : Nat

namespace QueryStruct

/-- A summary of one sample that was not read yet. -/
def first (key : Str) (lbl : Option LabelHash) : QueryStruct := ⟨key, lbl, 1, 0, 0, 0, 0, 0⟩

/-- What the branches for the three types do with a value. -/
def sample (opval : ℚ) (qs : QueryStruct) (v : ℚ) : QueryStruct :=
  { qs with
    val := qs.val + v
    equalHits := if opval = v then qs.equalHits + 1 else qs.equalHits
    unequalHits := if opval = v then qs.unequalHits else qs.unequalHits + 1
    min := if qs.count = 1 then v else if v < qs.min then v else qs.min
    max := if qs.count = 1 then v else if qs.max < v then v else qs.max }

/-- A sample without a type is counted only. -/
def read (opval : ℚ) (x : Series) (qs : QueryStruct) : QueryStruct :=
  if x.type = .none then qs else qs.sample opval x.number

@[simp]
lemma key_sample (opval v : ℚ) (qs : QueryStruct) : (qs.sample opval v).key = qs.key := rfl

@[simp]
lemma key_read (opval : ℚ) (x : Series) (qs : QueryStruct) : (qs.read opval x).key = qs.key := by
  rw [read]
  split <;> rfl

end QueryStruct

variable {gk : Str} {opval v : ℚ} {vs : List ℚ} {qs : QueryStruct} {xs : List Series}
  {res : List QueryStruct} {x : Series}

def labelsGenMetric (groupkey : Str) (opval : ℚ) (res : List QueryStruct) (x : Series) :
    List QueryStruct :=
  if x.labels.isEmpty then res
  else
    let key := labelsToGroupkey x.labels groupkey
    if key ∈ res.map QueryStruct.key then
      res.map fun qs =>
        if qs.key = key then { qs with count := qs.count + 1 }.read opval x else qs
    else res ++ [(QueryStruct.first key (labelsToHash x.labels groupkey)).read opval x]

def groupOf (gk key : Str) (xs : List Series) : List Series :=
  xs.filter fun x => labelsToGroupkey x.labels gk = key

structure Sums (opval : ℚ) (vs : List ℚ) (qs : QueryStruct) : Prop where
  count : qs.count = vs.length
  val : qs.val = vs.sum
  equal : 0 < qs.equalHits ↔ opval ∈ vs
  unequal : 0 < qs.unequalHits ↔ ∃ v ∈ vs, v ≠ opval
  min : qs.min ∈ vs ∧ ∀ v ∈ vs, qs.min ≤ v
  max : qs.max ∈ vs ∧ ∀ v ∈ vs, v ≤ qs.max

lemma sums_first (opval v : ℚ) (key : Str) (lbl : Option LabelHash) :
    Sums opval [v] ((QueryStruct.first key lbl).sample opval v) := by
  refine ⟨rfl, by simp [QueryStruct.first, QueryStruct.sample], ?_, ?_, by simp [QueryStruct.sample,
    QueryStruct.first], by simp [QueryStruct.sample, QueryStruct.first]⟩
  · simp only [QueryStruct.sample, QueryStruct.first]
    split <;> simp [*]
  · simp only [QueryStruct.sample, QueryStruct.first]
    split <;> simp [*, eq_comm]

lemma Sums.sample (h : Sums opval vs qs) (v : ℚ) :
    Sums opval (vs ++ [v]) ({ qs with count := qs.count + 1 }.sample opval v) := by
  have hne : qs.count ≠ 0 := by
    rw [h.count]
    exact (length_pos_of_mem h.min.1).ne'
  obtain ⟨hmin, hleast⟩ := h.min
  obtain ⟨hmax, hgreatest⟩ := h.max
  refine ⟨by simp [QueryStruct.sample, h.count], by simp [QueryStruct.sample, h.val], ?_, ?_,
    ?_, ?_⟩
  · simp only [QueryStruct.sample, mem_append, mem_singleton, ← h.equal]
    split <;> simp [*]
  · simp only [QueryStruct.sample, mem_append, mem_singleton, or_and_right, exists_or, ← h.unequal]
    split <;> simp [*, eq_comm]
  · rw [forall_mem_append, forall_mem_singleton, mem_append, mem_singleton]
    simp only [QueryStruct.sample, Nat.add_eq_right, hne, if_false]
    split
    · case isTrue hlt => exact ⟨.inr rfl, fun w hw => hlt.le.trans (hleast w hw), le_rfl⟩
    · case isFalse hle => exact ⟨.inl hmin, hleast, not_lt.1 hle⟩
  · rw [forall_mem_append, forall_mem_singleton, mem_append, mem_singleton]
    simp only [QueryStruct.sample, Nat.add_eq_right, hne, if_false]
    split
    · case isTrue hlt => exact ⟨.inr rfl, fun w hw => (hgreatest w hw).trans hlt.le, le_rfl⟩
    · case isFalse hle => exact ⟨.inl hmax, hgreatest, not_lt.1 hle⟩

structure Grouped (gk : Str) (opval : ℚ) (xs : List Series) (res : List QueryStruct) : Prop where
  nodup : (res.map QueryStruct.key).Nodup
  keys : ∀ key, key ∈ res.map QueryStruct.key ↔ ∃ x ∈ xs, labelsToGroupkey x.labels gk = key
  sums : (∀ x ∈ xs, x.type ≠ .none) → ∀ qs ∈ res,
    Sums opval ((groupOf gk qs.key xs).map Series.number) qs

lemma Grouped.step (h : Grouped gk opval xs res) (hx : x.labels ≠ []) :
    Grouped gk opval (xs ++ [x]) (labelsGenMetric gk opval res x) := by
  rw [labelsGenMetric, if_neg (by simpa using hx)]
  dsimp only
  generalize hkey : labelsToGroupkey x.labels gk = key
  have hgroup : ∀ key', groupOf gk key' (xs ++ [x]) =
      groupOf gk key' xs ++ if key = key' then [x] else [] := by
    intro key'
    cases hdec : decide (key = key') <;> simp_all [groupOf]
  have hsplit : ∀ key', (∃ y ∈ xs ++ [x], labelsToGroupkey y.labels gk = key') ↔
      (∃ y ∈ xs, labelsToGroupkey y.labels gk = key') ∨ key = key' := by
    simp [hkey]
  split
  · case isTrue hold =>
      have hkeys : (res.map fun qs => if qs.key = key then
          { qs with count := qs.count + 1 }.read opval x else qs).map QueryStruct.key =
          res.map QueryStruct.key := by
        rw [map_map]
        refine map_congr_left fun qs _ => ?_
        rw [Function.comp_apply]
        split <;> simp
      refine ⟨hkeys ▸ h.nodup, ?_, ?_⟩
      · intro key'
        rw [hkeys, h.keys, hsplit]
        exact ⟨.inl, Or.rec id fun e => e ▸ (h.keys key).1 hold⟩
      · intro ht qs' hqs'
        obtain ⟨ht, hxt⟩ := forall_mem_append.1 ht
        obtain ⟨qs, hqs, rfl⟩ := mem_map.1 hqs'
        have hsums := h.sums ht qs hqs
        rw [hgroup]
        split
        · case isTrue e =>
            subst e
            simpa [QueryStruct.read, hxt x] using hsums.sample x.number
        · case isFalse e => simpa [Ne.symm e] using hsums
  · case isFalse hnew =>
      have hnone : groupOf gk key xs = [] := by
        rw [groupOf, filter_eq_nil_iff]
        intro y hy e
        exact hnew ((h.keys key).2 ⟨y, hy, of_decide_eq_true e⟩)
      refine ⟨?_, ?_, ?_⟩
      · rw [map_append, map_singleton, QueryStruct.key_read, ← concat_eq_append]
        exact h.nodup.concat hnew
      · intro key'
        rw [map_append, map_singleton, QueryStruct.key_read, mem_append, mem_singleton, h.keys,
          hsplit, eq_comm (a := key')]
        rfl
      · intro ht
        obtain ⟨ht, hxt⟩ := forall_mem_append.1 ht
        rw [forall_mem_append, forall_mem_singleton, hgroup]
        refine ⟨fun qs hqs => ?_, ?_⟩
        · rw [hgroup, if_neg fun e : key = qs.key => hnew (e ▸ mem_map_of_mem hqs), append_nil]
          exact h.sums ht qs hqs
        · simpa [QueryStruct.read, QueryStruct.first, hnone, hxt x] using
            sums_first opval x.number key _

/-- A walk over the series makes their groups. -/
lemma grouped_foldl (gk : Str) (opval : ℚ) (hxs : ∀ x ∈ xs, x.labels ≠ []) :
    Grouped gk opval xs (xs.foldl (labelsGenMetric gk opval) []) := by
  induction xs using List.reverseRecOn with
  | nil => exact ⟨nodup_nil, fun key => by simp, fun _ => nofun⟩
  | append_singleton xs x ih =>
    obtain ⟨hxs, hx⟩ := forall_mem_append.1 hxs
    rw [foldl_append]
    exact (ih hxs).step (hx x mem_cons_self)

/-! ## Groups by label values -/

/-- A list of label names, as the parser writes it. -/
def byList : List Str → Str
  | [] => []
  | [n] => n
  | n :: names => n ++ 44 :: byList names

def ListedName (n : Str) : Prop := n ≠ [] ∧ 44 ∉ n ∧ n.length < 255

lemma groupTokens_word {n t : Str} (h : ListedName n) (ht : ∀ c ∈ t.head?, c = 44) (fuel : Nat) :
    groupTokens (fuel + 1) (n ++ t) = n :: groupTokens fuel t.tail := by
  obtain ⟨hne, hcomma, hlen⟩ := h
  have hword : ∀ c ∈ n, decide (c ≠ 44) = true := by
    intro c hc
    simpa using fun e : c = 44 => hcomma (e ▸ hc)
  have hsplit : (n ++ t).takeWhile (· ≠ 44) = n ∧ (n ++ t).dropWhile (· ≠ 44) = t := by
    rw [takeWhile_append_of_pos hword, dropWhile_append_of_pos hword]
    cases t with
    | nil => simp
    | cons c t => simp [ht c rfl]
  rw [groupTokens, if_neg (by simp [hne]), hsplit.1, hsplit.2]
  dsimp only
  rw [if_neg hne, take_of_length_le (Nat.le_of_lt_succ hlen)]

variable {names : List Str}

lemma groupTokens_byList (h : ∀ n ∈ names, ListedName n) {fuel : Nat}
    (hfuel : (byList names).length ≤ fuel) : groupTokens fuel (byList names) = names := by
  induction names generalizing fuel with
  | nil => cases fuel <;> rfl
  | cons n names ih =>
    obtain ⟨hn, hnames⟩ := forall_mem_cons.1 h
    obtain ⟨t, ht, htail, e⟩ : ∃ t : Str, (∀ c ∈ t.head?, c = 44) ∧ t.tail = byList names ∧
        byList (n :: names) = n ++ t := by
      cases names with
      | nil => exact ⟨[], nofun, rfl, (append_nil n).symm⟩
      | cons m names => exact ⟨_ :: _, fun c hc => (Option.some.inj hc).symm, rfl, rfl⟩
    have hpos := length_pos_iff.2 hn.1
    rw [e, length_append] at hfuel
    rw [← htail, length_tail] at ih
    cases fuel with
    | zero => omega
    | succ fuel => rw [e, groupTokens_word hn ht, htail, ← htail, ih hnames (by omega)]

/-- What precedes the first separator is determined. -/
lemma separated_inj {v v' r r' : Str} (h : ¬[44, 32] <:+: v) (h' : ¬[44, 32] <:+: v')
    (e : v ++ 44 :: 32 :: r = v' ++ 44 :: 32 :: r') : v = v' ∧ r = r' := by
  induction v generalizing v' with
  | nil =>
    match v' with
    | [] => simpa using e
    | [c] => simp at e
    | c :: d :: t =>
      obtain ⟨rfl, rfl, -⟩ : 44 = c ∧ 32 = d ∧ _ := by simpa using e
      exact absurd ⟨[], t, rfl⟩ h'
  | cons c t ih =>
    match v' with
    | [] =>
      match t with
      | [] => simp at e
      | d :: t =>
        obtain ⟨rfl, rfl, -⟩ : c = 44 ∧ d = 32 ∧ _ := by simpa using e
        exact absurd ⟨[], t, rfl⟩ h
    | c' :: t' =>
      obtain ⟨rfl, ht⟩ := cons.inj e
      obtain ⟨rfl, hr⟩ := ih (fun hi => h (infix_cons hi)) (fun hi => h' (infix_cons hi)) ht
      exact ⟨rfl, hr⟩

lemma flatMap_separated_inj {ps qs : List Str} (hp : ∀ p ∈ ps, ¬[44, 32] <:+: p)
    (hq : ∀ q ∈ qs, ¬[44, 32] <:+: q) :
    (ps.flatMap (· ++ cstr ", ") = qs.flatMap (· ++ cstr ", ")) ↔ ps = qs := by
  refine ⟨fun e => ?_, fun e => e ▸ rfl⟩
  induction ps generalizing qs with
  | nil => cases qs <;> simp_all [cstr]
  | cons p ps ih =>
    cases qs with
    | nil => simp [cstr] at e
    | cons q qs =>
      obtain ⟨hp, hps⟩ := forall_mem_cons.1 hp
      obtain ⟨hq, hqs⟩ := forall_mem_cons.1 hq
      simp only [flatMap_cons, append_assoc] at e
      obtain ⟨rfl, he⟩ := separated_inj hp hq e
      rw [ih hps hqs he]

/-- Texts with separators are told apart if there is at most one of them on each side. -/
lemma flatMap_single_inj {ps qs : List Str} (hp : ps.length ≤ 1) (hq : qs.length ≤ 1) :
    (ps.flatMap (· ++ cstr ", ") = qs.flatMap (· ++ cstr ", ")) ↔ ps = qs := by
  match ps, qs with
  | [], [] => simp
  | [], [q] => simp [cstr]
  | [p], [] => simp [cstr]
  | [p], [q] => simp

def nodesOf (n : Str) : Labels := labels.filter fun l => l.name = n

def labelOf (n : Str) : Option Str := (nodesOf labels n).head?.bind Label.key

/-- No value of the listed labels holds a separator. -/
def NoSeparator (names : List Str) (labels : Labels) : Prop :=
  ∀ l ∈ labels, l.name ∈ names → ¬[44, 32] <:+: l.key.getD []

/-- What the nodes of a label add to a group key. -/
def slotTexts (labels : Labels) (n : Str) : List Str :=
  (nodesOf labels n).map fun l => l.key.getD []

/-- A label that both series miss has nodes in both or in none. -/
def SameSlots (ls ls' : Labels) : Prop :=
  ls.head?.bind key = none → ls'.head?.bind key = none → (ls = [] ↔ ls' = [])

/-- No node has the empty value where the other one has none. -/
def SameEmpty (ls ls' : Labels) : Prop :=
  ∀ l ∈ ls, ∀ l' ∈ ls', l.key.getD [] = [] → l'.key.getD [] = [] → l.key = l'.key

lemma labelsToGroupkey_byList (h : ∀ n ∈ names, ListedName n) (labels : Labels) :
    labelsToGroupkey labels (byList names) =
      (names.flatMap (slotTexts labels)).flatMap (· ++ cstr ", ") := by
  rw [labelsToGroupkey, groupTokens_byList h le_rfl, flatMap_assoc]
  simp [flatMap_map, nodesOf, slotTexts]

/-- Two walks with pieces of which none is longer in the first. -/
lemma flatMap_eq_flatMap_iff {α β : Type*} {f g : α → List β} {as : List α}
    (h : ∀ a, (f a).length ≤ (g a).length) : as.flatMap f = as.flatMap g ↔ ∀ a ∈ as, f a = g a := by
  induction as with
  | nil => simp
  | cons a as ih =>
    have hle : (as.flatMap f).length ≤ (as.flatMap g).length := by
      rw [length_flatMap, length_flatMap]
      exact sum_le_sum fun a _ => h a
    rw [flatMap_cons, flatMap_cons, forall_mem_cons, ← ih, eq_comm, append_eq_iff (h a) hle,
      eq_comm, eq_comm (a := flatMap g as)]

lemma length_nodesOf (n : Str) : (nodesOf labels n).length = (labels.map name).count n := by
  rw [count, countP_map, countP_eq_length_filter]
  exact congrArg _ (filter_congr fun l _ => (beq_eq_decide l.name n).symm)

lemma NoSeparator.slotTexts {labels : Labels} (h : NoSeparator names labels) :
    ∀ p ∈ names.flatMap (slotTexts labels), ¬[44, 32] <:+: p := by
  intro p hp
  obtain ⟨n, hn, hp⟩ := mem_flatMap.1 hp
  obtain ⟨l, hl, rfl⟩ := mem_map.1 hp
  obtain ⟨hl, e⟩ := mem_filter.1 hl
  exact h l hl (of_decide_eq_true e ▸ hn)

/-- At most one node for a name on both sides: the texts are as equal as the values are, up to
slots that only one side has and to empty values. -/
lemma slotTexts_cases {ls ls' : Labels} (hone : ls.length ≤ 1) (hone' : ls'.length ≤ 1) :
    let same := (ls.map fun l => l.key.getD []) = ls'.map fun l => l.key.getD []
    let agree := ls.head?.bind key = ls'.head?.bind key
    (agree → SameSlots ls ls' → same) ∧ (same → SameEmpty ls ls' → agree) ∧
      (agree → same → SameSlots ls ls' ∧ SameEmpty ls ls') := by
  unfold SameSlots SameEmpty
  match ls, ls' with
  | [], [] => simp
  | [], [l] => cases hk : l.key <;> simp [hk]
  | [l], [] => cases hk : l.key <;> simp [hk]
  | [l], [l'] => cases hk : l.key <;> cases hk' : l'.key <;> simp_all

/-- The group keys are the same if and only if the texts of every label are. -/
lemma groupkey_eq_iff {P : SortPlan} {labels labels' : Labels} (hf : Fits P labels)
    (hf' : Fits P labels') (hnames : ∀ n ∈ names, ListedName n)
    (hone' : ∀ n ∈ names, (nodesOf labels' n).length ≤ 1)
    (hv : 2 ≤ names.length → NoSeparator names labels ∧ NoSeparator names labels')
    (hle : labels.length ≤ labels'.length) :
    labelsToGroupkey labels (byList names) = labelsToGroupkey labels' (byList names) ↔
      ∀ n ∈ names, slotTexts labels n = slotTexts labels' n := by
  -- the names of the shorter chain are the first of the longer one
  have hprefix : labels.map name <+: labels'.map name :=
    prefix_of_prefix_length_le hf.1 hf'.1 (by simpa using hle)
  have hlen : ∀ n, (nodesOf labels n).length ≤ (nodesOf labels' n).length := by
    intro n
    rw [length_nodesOf, length_nodesOf]
    exact hprefix.sublist.count_le n
  have hjoined : (labelsToGroupkey labels (byList names) =
      labelsToGroupkey labels' (byList names)) ↔
      names.flatMap (slotTexts labels) = names.flatMap (slotTexts labels') := by
    rw [labelsToGroupkey_byList hnames, labelsToGroupkey_byList hnames]
    match names with
    | [] => simp
    | [n] =>
      have hle' := hone' n mem_cons_self
      exact flatMap_single_inj (by simpa [slotTexts] using (hlen n).trans hle')
        (by simpa [slotTexts] using hle')
    | _ :: _ :: _ =>
      obtain ⟨hplain, hplain'⟩ := hv (by simp)
      exact flatMap_separated_inj hplain.slotTexts hplain'.slotTexts
  rw [hjoined, flatMap_eq_flatMap_iff (by simpa [slotTexts] using hlen)]

/-- A group holds exactly the series that agree on the labels of the list, if and only if series
that agree have the same slots, and series with the same texts differ in no empty value. -/
theorem same_group_iff {P : SortPlan} {names : List Str}
    (hP : mainMetricName ∈ names → mainMetricName ∉ P.labels)
    (hnames : ∀ n ∈ names, ListedName n) (hxs : ∀ x ∈ xs, Fits P x.labels) (opval : ℚ)
    {y : Series} (hx : x ∈ xs) (hy : y ∈ xs)
    (hv : 2 ≤ names.length → NoSeparator names x.labels ∧ NoSeparator names y.labels) :
    ((∃ qs ∈ xs.foldl (labelsGenMetric (byList names) opval) [],
        x ∈ groupOf (byList names) qs.key xs ∧ y ∈ groupOf (byList names) qs.key xs) ↔
      ∀ n ∈ names, labelOf x.labels n = labelOf y.labels n) ↔
      ((∀ n ∈ names, labelOf x.labels n = labelOf y.labels n) →
        ∀ n ∈ names, SameSlots (nodesOf x.labels n) (nodesOf y.labels n)) ∧
      ((∀ n ∈ names, slotTexts x.labels n = slotTexts y.labels n) →
        ∀ n ∈ names, SameEmpty (nodesOf x.labels n) (nodesOf y.labels n)) := by
  have hgrouped : Grouped (byList names) opval xs _ := grouped_foldl _ _ fun z hz e => by
    obtain ⟨-, n, hn⟩ := hxs z hz
    rw [e] at hn
    cases hn
  have hsame : (∃ qs ∈ xs.foldl (labelsGenMetric (byList names) opval) [],
      x ∈ groupOf (byList names) qs.key xs ∧ y ∈ groupOf (byList names) qs.key xs) ↔
      labelsToGroupkey x.labels (byList names) = labelsToGroupkey y.labels (byList names) := by
    simp only [groupOf, mem_filter, hx, hy, true_and, decide_eq_true_eq]
    refine ⟨fun ⟨qs, _, e, e'⟩ => e.trans e'.symm, fun e => ?_⟩
    obtain ⟨qs, hqs, hkey⟩ := mem_map.1 ((hgrouped.keys _).2 ⟨x, hx, rfl⟩)
    exact ⟨qs, hqs, hkey.symm, e ▸ hkey.symm⟩
  have hone : ∀ z ∈ xs, ∀ n ∈ names, (nodesOf z.labels n).length ≤ 1 := by
    intro z hz n hn
    rw [length_nodesOf]
    refine ((hxs z hz).1.sublist.count_le n).trans ?_
    rw [SortPlan.plan, count_cons]
    split_ifs with hmain
    · rw [count_eq_zero.2 (beq_iff_eq.1 hmain ▸ hP (beq_iff_eq.1 hmain ▸ hn))]
    · exact nodup_iff_count_le_one.1 P.nodup n
  have htexts : labelsToGroupkey x.labels (byList names) = labelsToGroupkey y.labels (byList names) ↔
      ∀ n ∈ names, slotTexts x.labels n = slotTexts y.labels n := by
    rcases le_total x.labels.length y.labels.length with hle | hle
    · exact groupkey_eq_iff (hxs x hx) (hxs y hy) hnames (hone y hy) hv hle
    · rw [eq_comm, groupkey_eq_iff (hxs y hy) (hxs x hx) hnames (hone x hx)
        (fun h => (hv h).symm) hle]
      simp only [eq_comm]
  have hcases := fun n hn => slotTexts_cases (hone x hx n hn) (hone y hy n hn)
  rw [hsame, htexts]
  constructor
  · intro h
    exact ⟨fun hagree n hn => ((hcases n hn).2.2 (hagree n hn) (h.2 hagree n hn)).1,
      fun htext n hn => ((hcases n hn).2.2 (h.1 htext n hn) (htext n hn)).2⟩
  · rintro ⟨hslots, hempty⟩
    exact ⟨fun htext n hn => (hcases n hn).2.1 (htext n hn) (hempty htext n hn),
      fun hagree n hn => (hcases n hn).1 (hagree n hn) (hslots hagree n hn)⟩

/-- A series with the labels `a` and `b`. -/
def abSeries (a b : Option Str) : Series :=
  ⟨[⟨mainMetricName, some (cstr "m")⟩, ⟨cstr "a", a⟩, ⟨cstr "b", b⟩], .int, 1, none⟩

/-- Two series with a separator in the value of the only label of the list. -/
theorem same_group_two :
    ∃ x y, x = abSeries (some (cstr "x, y")) none ∧
      y = abSeries (some (cstr "x, y")) (some (cstr "z")) ∧
      ((∃ qs ∈ [x, y].foldl (labelsGenMetric (byList [cstr "a"]) 0) [],
        x ∈ groupOf (byList [cstr "a"]) qs.key [x, y] ∧
        y ∈ groupOf (byList [cstr "a"]) qs.key [x, y]) ↔
      ∀ n ∈ [cstr "a"], labelOf x.labels n = labelOf y.labels n) := by
  refine ⟨_, _, rfl, rfl, (same_group_iff (P := ⟨[cstr "a", cstr "b"], by decide, by decide⟩)
    (by decide) (forall_mem_singleton.2 ⟨by decide, by decide, by decide⟩)
    (forall_mem_cons.2 ⟨⟨by decide, _, rfl⟩, forall_mem_singleton.2 ⟨by decide, _, rfl⟩⟩) 0
    mem_cons_self (mem_cons_of_mem _ mem_cons_self) (fun h => absurd h (by decide))).2 ⟨?_, ?_⟩⟩
  · intro _
    unfold SameSlots
    decide
  · intro _
    unfold SameEmpty
    decide

/-- Values with a separator fall into one group, and a series that is older than the label `b`
does not come to one that misses it. -/
theorem same_group_not :
    ([abSeries (some (cstr "x, y")) (some (cstr "z")),
      abSeries (some (cstr "x")) (some (cstr "y, z"))].foldl
        (labelsGenMetric (byList [cstr "a", cstr "b"]) 0) []).length = 1 ∧
    ([abSeries none none, ⟨[⟨mainMetricName, some (cstr "m")⟩], .int, 1, none⟩].foldl
        (labelsGenMetric (byList [cstr "b"]) 0) []).length = 2 := by
  decide

/-! ## Comparators -/

/-- `QUERY_OPERATOR_*` -/
inductive QueryOperator where
  | eq
  | ne
  | gt
  | lt
  | ge
  | le
deriving DecidableEq

/-- What a comparator says. -/
def QueryOperator.Holds : QueryOperator → ℚ → ℚ → Prop
  | eq, x, v => x = v
  | ne, x, v => x ≠ v
  | gt, x, v => x > v
  | lt, x, v => x < v
  | ge, x, v => x ≥ v
  | le, x, v => x ≤ v

variable (op : Option QueryOperator)

def queryStructCheckExpr (val opval : ℚ) : Bool :=
  match op with
  | none => true
  | some .eq => val = opval
  | some .ne => val ≠ opval
  | some .gt => val > opval
  | some .lt => val < opval
  | some .ge => val ≥ opval
  | some .le => val ≤ opval

def queryStructCheckExprNone (opval : ℚ) (qs : QueryStruct) : Bool :=
  match op with
  | none => true
  | some .eq => qs.equalHits > 0
  | some .ne => qs.unequalHits > 0
  | some .gt => qs.max > opval
  | some .lt => qs.min < opval
  | some .ge => qs.max ≥ opval
  | some .le => qs.min < opval

lemma queryStructCheckExpr_iff (val opval : ℚ) :
    queryStructCheckExpr op val opval = true ↔ ∀ o ∈ op, o.Holds val opval := by
  cases op with
  | none => simp [queryStructCheckExpr]
  | some o => cases o <;> simp [queryStructCheckExpr, QueryOperator.Holds]

lemma Sums.check_iff (h : Sums opval vs qs) (op : QueryOperator) :
    (queryStructCheckExprNone (some op) opval qs = true ↔ ∃ v ∈ vs, op.Holds v opval) ↔
      ¬(op = .le ∧ opval ∈ vs ∧ ∀ v ∈ vs, opval ≤ v) := by
  obtain ⟨hmin, hleast⟩ := h.min
  obtain ⟨hmax, hgreatest⟩ := h.max
  cases op with
  | eq => simpa [queryStructCheckExprNone, QueryOperator.Holds] using h.equal
  | ne => simpa [queryStructCheckExprNone, QueryOperator.Holds] using h.unequal
  | gt | ge =>
    simp only [queryStructCheckExprNone, QueryOperator.Holds, decide_eq_true_eq, reduceCtorEq,
      false_and, not_false_eq_true, iff_true]
    exact ⟨fun hv => ⟨_, hmax, hv⟩, fun ⟨v, hv, h⟩ => Trans.trans (hgreatest v hv).ge h⟩
  | lt =>
    simp only [queryStructCheckExprNone, QueryOperator.Holds, decide_eq_true_eq, reduceCtorEq,
      false_and, not_false_eq_true, iff_true]
    exact ⟨fun hv => ⟨_, hmin, hv⟩, fun ⟨v, hv, hlt⟩ => (hleast v hv).trans_lt hlt⟩
  | le =>
    -- the least sample decides, and the test is strict
    have hsome : (∃ v ∈ vs, v ≤ opval) ↔ qs.min ≤ opval :=
      ⟨fun ⟨v, hv, hle⟩ => (hleast v hv).trans hle, fun hle => ⟨_, hmin, hle⟩⟩
    have hedge : (opval ∈ vs ∧ ∀ v ∈ vs, opval ≤ v) ↔ qs.min = opval :=
      ⟨fun ⟨hv, hle⟩ => (hleast _ hv).antisymm (hle _ hmin), fun e => e ▸ h.min⟩
    simp only [queryStructCheckExprNone, QueryOperator.Holds, decide_eq_true_eq, hsome, hedge,
      true_and, lt_iff_le_and_ne]
    tauto

/-- A bare selector with a comparator fires if and only if a sample of the group satisfies it,
except for `<=` with the least sample. -/
theorem comparator_fires_iff (gk : Str) (opval : ℚ) (op : QueryOperator) (xs : List Series)
    (hxs : ∀ x ∈ xs, x.labels ≠ [] ∧ x.type ≠ .none)
    (hqs : qs ∈ xs.foldl (labelsGenMetric gk opval) []) :
    let vs := (groupOf gk qs.key xs).map Series.number
    (queryStructCheckExprNone (some op) opval qs = true ↔ ∃ v ∈ vs, op.Holds v opval) ↔
      ¬(op = .le ∧ opval ∈ vs ∧ ∀ v ∈ vs, opval ≤ v) :=
  ((grouped_foldl gk opval fun x hx => (hxs x hx).1).sums (fun x hx => (hxs x hx).2) qs
    hqs).check_iff op

/-- A group of the samples 3 and 1. -/
theorem comparator_fires_two :
    ∃ xs qs, xs = [(⟨[⟨mainMetricName, some (cstr "m")⟩], .int, 3, none⟩ : Series),
        ⟨[⟨mainMetricName, some (cstr "m")⟩], .uint, 1, none⟩] ∧
      qs ∈ xs.foldl (labelsGenMetric [] 2) [] ∧
      (queryStructCheckExprNone (some .le) 2 qs = true ↔
        ∃ v ∈ (groupOf [] qs.key xs).map Series.number, QueryOperator.Holds .le v 2) :=
  ⟨_, _, rfl, mem_cons_self, (comparator_fires_iff [] 2 .le _ (by decide) mem_cons_self).2
    (by decide)⟩

/-- The group of the one sample 1 against `<= 1`. -/
theorem comparator_fires_not :
    ∃ qs ∈ [(⟨[⟨mainMetricName, some (cstr "m")⟩], .int, 1, none⟩ : Series)].foldl
        (labelsGenMetric [] 1) [],
      queryStructCheckExprNone (some .le) 1 qs = false ∧ QueryOperator.Holds .le 1 1 :=
  ⟨_, mem_cons_self, by decide, le_refl (1 : ℚ)⟩

/-! ## The query -/

/-- `QUERY_FUNC_*` -/
inductive QueryFunc where
  | none
  | count
  | sum
  | absent
  | present
  | min
  | max
  | avg
deriving DecidableEq

/-- `metric_query_context`, as far as a query reads it. -/
structure MetricQuery where
  sel : Selector
  groupkey : Str
  func : QueryFunc
  op : Option QueryOperator
  opval : ℚ

/-- What a query stores: a call of `metric_add`, or of `metric_upsert` with a chain. -/
inductive QueryWrite where
  | add (name : Str) (lbl : Option LabelHash) (type : DataType) (value : ℚ)
  | upsert (labels : Labels) (value : ℚ)

def QueryWrite.value : QueryWrite → ℚ
  | add _ _ _ value => value
  | upsert _ value => value

section Foreach

variable (mqc : MetricQuery) (name : Str) (qs : QueryStruct)

/-- A value is stored if it passes the comparator. -/
def metricGenForeach (lbl : Option LabelHash) (type : DataType) (value : ℚ) : Option QueryWrite :=
  if queryStructCheckExpr mqc.op value mqc.opval then some (.add name lbl type value) else none

def metricGenForeachMin : Option QueryWrite := metricGenForeach mqc name qs.lbl .double qs.min

def metricGenForeachMax : Option QueryWrite := metricGenForeach mqc name qs.lbl .double qs.max

def metricGenForeachSum : Option QueryWrite := metricGenForeach mqc name qs.lbl .double qs.val

/-- `metric_gen_foreach_count`: a group without labels gets those of the selector. -/
def metricGenForeachCount : Option QueryWrite :=
  let hash := qs.lbl.getD .empty
  let lbl := if hash.pairs = [] ∧ mqc.sel.hash.pairs ≠ [] then
      some (labelsMerge hash mqc.sel.hash)
    else qs.lbl
  metricGenForeach mqc name lbl .uint qs.count

def metricGenForeachAvg : Option QueryWrite :=
  some (.add name qs.lbl .double (qs.val / qs.count))

def metricGenForeachNone : Option QueryWrite :=
  if queryStructCheckExprNone mqc.op mqc.opval qs then some (.add name qs.lbl .uint qs.count)
  else none

def groupWrite : Option QueryWrite :=
  match mqc.func with
  | .count => metricGenForeachCount mqc name qs
  | .sum => metricGenForeachSum mqc name qs
  | .min => metricGenForeachMin mqc name qs
  | .max => metricGenForeachMax mqc name qs
  | .avg => metricGenForeachAvg name qs
  | .none => metricGenForeachNone mqc name qs
  | .absent | .present => none

end Foreach

/-- The end of `metric_query_gen`, from the groups on. -/
def queryWrites (mqc : MetricQuery) (newName : Str) (chain : Labels) (res : List QueryStruct) :
    List QueryWrite :=
  let upsert (value : ℚ) : List QueryWrite := if queryStructCheckExpr mqc.op value mqc.opval then
      [.upsert (⟨mainMetricName, some newName⟩ :: chain.tail) value]
    else []
  match res, mqc.func with
  | [], .count => [.add newName (some (labelsDup mqc.sel.hash)) .uint 0]
  | [], _ => upsert 0
  | _ :: _, .present => upsert 1
  | _ :: _, .absent => upsert 0
  | _ :: _, _ => res.filterMap (groupWrite mqc newName)

def metricQueryGen (s : Store) (mqc : MetricQuery) (newName : Str) : Option (List QueryWrite) := do
  let q := mqc.sel.query s.plan
  let s := { s with plan := mqc.sel.planAfter s.plan }
  if s.root = none then return []
  let hits ← metrictreeGen s q
  return queryWrites mqc newName q.labels
    ((hits.filterMap (seriesAt s.nodes)).foldl (labelsGenMetric mqc.groupkey mqc.opval) [])

def Chosen (sel : Selector) (L : List Record) (xs : List Series) : Prop :=
  ∃ p : Series → Bool, xs.Perm ((L.map Record.series).filter p) ∧
    ∀ x ∈ L, p x.series = true ↔ sel.Selects (seriesKey x.series.labels)

variable {L : List Record}

lemma Chosen.mem {sel : Selector} (h : Chosen sel L xs) :
    x ∈ xs ↔ ∃ y ∈ L, y.series = x ∧ sel.Selects (seriesKey x.labels) := by
  obtain ⟨p, hperm, hp⟩ := h
  rw [hperm.mem_iff, mem_filter, mem_map]
  constructor
  · intro ⟨⟨y, hy, e⟩, hx⟩
    exact ⟨y, hy, e, e ▸ (hp y hy).1 (e ▸ hx)⟩
  · intro ⟨y, hy, e, hx⟩
    exact ⟨⟨y, hy, e⟩, e ▸ (hp y hy).2 (e ▸ hx)⟩

lemma filterMap_seriesAt_filter (h : Nodes) (p : Labels → Bool) (as : List Addr) :
    (as.filter fun a => p (labelsAt h a)).filterMap (seriesAt h) =
      (as.filterMap (seriesAt h)).filter fun x => p x.labels := by
  induction as with
  | nil => rfl
  | cons a as ih =>
    cases hget : h.get a with
    | none =>
      have hnone : seriesAt h a = none := by simp [seriesAt, payload, Heap.view, hget]
      rw [filterMap_cons_none hnone, ← ih, filter_cons]
      split <;> simp [filterMap_cons_none hnone]
    | some n =>
      have hsome : seriesAt h a = some n.toSeries := by
        simp [seriesAt, payload, Heap.view, hget]
      have hlabels : labelsAt h a = n.labels := by simp [labelsAt, hget]
      rw [filterMap_cons_some hsome, filter_cons, filter_cons, hlabels]
      split <;> simp [filterMap_cons_some hsome, ih]

/-- A query over a store that is not empty writes from the groups of the selected series. -/
lemma metricQueryGen_eq {s : Store} (h : Holds s L) (hL : L ≠ [])
    (mqc : MetricQuery) (newName : Str) :
    ∃ xs res, Chosen mqc.sel L xs ∧ Grouped mqc.groupkey mqc.opval xs res ∧
      metricQueryGen s mqc newName =
        some (queryWrites mqc newName (mqc.sel.query s.plan).labels res) := by
  obtain ⟨T, lists, S, -⟩ := h
  have S1 : Stored { s with plan := mqc.sel.planAfter s.plan } T lists L :=
    S.grow (labelsInitiate_grows _ _ _)
  obtain ⟨hits, hgen, -, hperm⟩ := S1.walkers (q := mqc.sel.query s.plan) (cons_ne_nil _ _)
  have hchosen : Chosen mqc.sel L (hits.filterMap (seriesAt s.nodes)) := by
    refine ⟨fun x => metricSelectorMatch (mqc.sel.planAfter s.plan).size x.labels
      (mqc.sel.query s.plan), ?_, fun x hx => selectorMatch_iff (S1.fits x hx) _ (.refl _)⟩
    rw [← S.series_eq, ← filterMap_seriesAt_filter s.nodes fun labels =>
      metricSelectorMatch _ labels _, ← S.addrs_eq]
    exact hperm.filterMap _
  have hlabels : ∀ x ∈ hits.filterMap (seriesAt s.nodes), x.labels ≠ [] := by
    intro x hx e
    obtain ⟨y, hy, rfl, -⟩ := hchosen.mem.1 hx
    obtain ⟨-, n, hn⟩ := S.fits y hy
    rw [e] at hn
    cases hn
  have hroot : s.root ≠ none := by
    rw [← S.tree.root_eq]
    cases T with
    | nil => exact fun _ => hL (map_eq_nil_iff.1 S.records.symm)
    | node => exact nofun
  refine ⟨_, _, hchosen, grouped_foldl _ _ hlabels, ?_⟩
  simp only [metricQueryGen, if_neg hroot, hgen]
  rfl

lemma Chosen.exists_iff {sel : Selector} (h : Chosen sel L xs) (hg : Grouped gk opval xs res) :
    (∃ x ∈ L, sel.Selects (seriesKey x.series.labels)) ↔ res ≠ [] := by
  have hxs : (∃ x ∈ L, sel.Selects (seriesKey x.series.labels)) ↔ ∃ x, x ∈ xs := by
    simp only [h.mem]
    exact ⟨fun ⟨x, hx, hsel⟩ => ⟨_, x, hx, rfl, hsel⟩, fun ⟨_, x, hx, e, hsel⟩ => ⟨x, hx, e ▸ hsel⟩⟩
  rw [hxs]
  constructor
  · intro ⟨x, hx⟩ e
    have := (hg.keys _).2 ⟨x, hx, rfl⟩
    rw [e] at this
    cases this
  · intro hne
    obtain ⟨qs, hqs⟩ := exists_mem_of_ne_nil res hne
    obtain ⟨x, hx, -⟩ := (hg.keys _).1 (mem_map_of_mem hqs)
    exact ⟨x, hx⟩

/-- Present tells whether a series matches.  Absent is right if one does. -/
theorem presence_stored_iff {s : Store} {L : List Record} (h : Holds s L) (hL : L ≠ [])
    (mqc : MetricQuery) (hop : mqc.op = none) (hf : mqc.func = .present ∨ mqc.func = .absent)
    (newName : Str) :
    let matched := ∃ x ∈ L, mqc.sel.Selects (seriesKey x.series.labels)
    let claimed := mqc.func = .present ↔ matched
    ∃ v, metricQueryGen s mqc newName = some [.upsert (⟨mainMetricName, some newName⟩ ::
        (mqc.sel.query s.plan).labels.tail) v] ∧
      ((v = 1 ↔ claimed) ∧ (v = 0 ↔ ¬claimed) ↔ mqc.func = .present ∨ matched) := by
  obtain ⟨xs, res, hchosen, hgrouped, e⟩ := metricQueryGen_eq h hL mqc newName
  have hsome := hchosen.exists_iff hgrouped
  rw [e, hsome]
  cases res with
  | nil =>
    refine ⟨0, ?_, ?_⟩
    · rcases hf with hf | hf <;> simp [queryWrites, hf, queryStructCheckExpr, hop]
    · rcases hf with hf | hf <;> simp [hf]
  | cons qs res =>
    rcases hf with hf | hf
    · exact ⟨1, by simp [queryWrites, hf, queryStructCheckExpr, hop], by simp [hf]⟩
    · exact ⟨0, by simp [queryWrites, hf, queryStructCheckExpr, hop], by simp [hf]⟩

/-- Two series, of which one is selected. -/
theorem presence_stored_up :
    ∃ s outs v, (Store.init 0).mapRun (fun a _ => a)
        [.put (cstr "up") .empty 1, .put (cstr "down") .empty 3] = some (s, outs) ∧
      (metricQueryGen s ⟨⟨.exact (cstr "up") (by decide), .empty⟩, [], .present, none, 0⟩
        (cstr "t")).map (List.map QueryWrite.value) = some [v] ∧ v = 1 := by
  obtain ⟨s, outs, e, hL, x, hx, hkey⟩ := mapRun_init (fun a _ => a)
    [.put (cstr "up") .empty 1, .put (cstr "down") .empty 3]
    (fun L => ∃ x ∈ L, (seriesKey x.series.labels).1 = cstr "up") (by decide +kernel)
  obtain ⟨v, e', hv⟩ := presence_stored_iff hL (ne_nil_of_mem hx)
    ⟨⟨.exact (cstr "up") (by decide), .empty⟩, [], .present, none, 0⟩ rfl (.inl rfl) (cstr "t")
  refine ⟨s, outs, v, e, by rw [e']; rfl, (hv.2 (.inl rfl)).1.2 ⟨fun _ => ?_, fun _ => rfl⟩⟩
  exact ⟨x, hx, hkey, by simp [LabelHash.empty]⟩

/-- No series is called `down`, and 0 is stored for its absence. -/
theorem absence_stored_zero :
    ((upsertSample (fun a _ => a) ⟨10, 10⟩ (.init 0) (cstr "up") .empty
        ⟨.int, 1, 100, false, false⟩).bind fun r =>
      (metricQueryGen r.1 ⟨⟨.exact (cstr "down") (by decide), .empty⟩, [], .absent, none, 0⟩
        (cstr "t")).map fun ws =>
          (r.1.contents.map fun x => keyOf x.series.labels, ws.map QueryWrite.value)) =
    some ([some (cstr "up")], [0]) := by
  decide

def QueryFunc.aggregate : QueryFunc → List ℚ → ℚ
  | count, vs => vs.length
  | sum, vs => vs.sum
  | min, vs => vs.min?.getD 0
  | max, vs => vs.max?.getD 0
  | avg, vs => vs.sum / vs.length
  | _, _ => 0

lemma metricGenForeach_spec (mqc : MetricQuery) (name : Str) (lbl : Option LabelHash)
    (type : DataType) (value : ℚ) :
    (∀ w ∈ metricGenForeach mqc name lbl type value, w.value = value) ∧
      ((metricGenForeach mqc name lbl type value).isSome ↔
        ∀ o ∈ mqc.op, o.Holds value mqc.opval) := by
  rw [← queryStructCheckExpr_iff, metricGenForeach]
  split
  · simp [*, QueryWrite.value]
  · simp [*]

lemma Sums.groupWrite_spec {mqc : MetricQuery} (h : Sums mqc.opval vs qs)
    (hf : mqc.func ∈ [QueryFunc.count, .sum, .min, .max, .avg]) (name : Str) :
    let agg := mqc.func.aggregate vs
    let passes := ∀ o ∈ mqc.op, o.Holds agg mqc.opval
    (∀ w ∈ groupWrite mqc name qs, w.value = agg) ∧
      (((groupWrite mqc name qs).isSome ↔ passes) ↔ (mqc.func = .avg → passes)) := by
  have hmin : vs.min? = some qs.min := min?_eq_some_iff.2 h.min
  have hmax : vs.max? = some qs.max := max?_eq_some_iff.2 h.max
  simp only [mem_cons, not_mem_nil, or_false] at hf
  rcases hf with hf | hf | hf | hf | hf
  pick_goal 5
  · simp [groupWrite, hf, QueryFunc.aggregate, ← h.count, ← h.val, metricGenForeachAvg,
      QueryWrite.value]
  all_goals
    simp only [groupWrite, hf, QueryFunc.aggregate, ← h.count, ← h.val, hmin, hmax, reduceCtorEq,
      false_imp_iff, iff_true]
    exact metricGenForeach_spec mqc name _ _ _

/-- Every aggregate is stored with its value, and all but the average are filtered. -/
theorem aggregates_filtered_iff {s : Store} {L : List Record} (h : Holds s L) (hL : L ≠ [])
    (mqc : MetricQuery) (hf : mqc.func ∈ [QueryFunc.count, .sum, .min, .max, .avg])
    (ht : ∀ x ∈ L, mqc.sel.Selects (seriesKey x.series.labels) → x.series.type ≠ .none)
    (newName : Str) :
    ∃ xs res, Chosen mqc.sel L xs ∧ Grouped mqc.groupkey mqc.opval xs res ∧
      (res ≠ [] → metricQueryGen s mqc newName = some (res.filterMap (groupWrite mqc newName))) ∧
      ∀ qs ∈ res, let agg := mqc.func.aggregate ((groupOf mqc.groupkey qs.key xs).map Series.number)
        let passes := ∀ o ∈ mqc.op, o.Holds agg mqc.opval
        (∀ w ∈ groupWrite mqc newName qs, w.value = agg) ∧
          (((groupWrite mqc newName qs).isSome ↔ passes) ↔ (mqc.func = .avg → passes)) := by
  obtain ⟨xs, res, hchosen, hgrouped, e⟩ := metricQueryGen_eq h hL mqc newName
  have htyped : ∀ x ∈ xs, x.type ≠ .none := by
    intro x hx
    obtain ⟨y, hy, rfl, hsel⟩ := hchosen.mem.1 hx
    exact ht y hy hsel
  refine ⟨xs, res, hchosen, hgrouped, fun hne => e.trans (congrArg some ?_),
    fun qs hqs => (hgrouped.sums htyped qs hqs).groupWrite_spec hf newName⟩
  cases res with
  | nil => exact absurd rfl hne
  | cons qs res =>
    simp only [mem_cons, not_mem_nil, or_false] at hf
    rcases hf with hf | hf | hf | hf | hf <;> simp only [queryWrites, hf]

/-- The sum of two series. -/
theorem aggregates_filtered_up :
    ∃ s outs res, (Store.init 0).mapRun (fun a _ => a)
        [.put (cstr "up") .empty 1, .put (cstr "down") .empty 3] = some (s, outs) ∧
      s.contents.length = 2 ∧ res ≠ [] ∧
      metricQueryGen s ⟨⟨.any, .empty⟩, [], .sum, some .gt, 0⟩ (cstr "t") =
        some (res.filterMap
          (groupWrite ⟨⟨.any, .empty⟩, [], .sum, some .gt, 0⟩ (cstr "t"))) := by
  obtain ⟨s, outs, e, hL, hlen, htype⟩ := mapRun_init (fun a _ => a)
    [.put (cstr "up") .empty 1, .put (cstr "down") .empty 3]
    (fun L => L.length = 2 ∧ ∀ x ∈ L, x.series.type ≠ .none) (by decide +kernel)
  obtain ⟨x, hx⟩ := exists_mem_of_length_pos (hlen ▸ Nat.two_pos)
  obtain ⟨xs, res, hchosen, hgrouped, hwrites, -⟩ := aggregates_filtered_iff hL (ne_nil_of_mem hx)
    ⟨⟨.any, .empty⟩, [], .sum, some .gt, 0⟩ (by decide) (fun x hx _ => htype x hx) (cstr "t")
  have hne := (hchosen.exists_iff hgrouped).1 ⟨x, hx, trivial, by simp [LabelHash.empty]⟩
  exact ⟨s, outs, res, e, hlen, hne, hwrites hne⟩

/-- The average 1 is stored although it is not above 100. -/
theorem average_not_filtered :
    ((upsertSample (fun a _ => a) ⟨10, 10⟩ (.init 0) (cstr "up") .empty
        ⟨.int, 1, 100, false, false⟩).bind fun r =>
      (metricQueryGen r.1 ⟨⟨.any, .empty⟩, [], .avg, some .gt, 100⟩ (cstr "t")).map fun ws =>
        ws.map QueryWrite.value) = some [1] := by
  decide +kernel

end Alligator
