import Alligator.Mapping.Processing
import Mathlib.Algebra.BigOperators.Group.Finset.Basic

/-!
# Buckets

A mapping with buckets counts each observed value in a series of its bucket.  The buckets are
half open, with the bound before as the lower one, and the bound before the first is 0.  A value
on the last bound and a negative value below the first one belong to no bucket.

A mapping with cumulative bounds counts a value for every bound that is not below it.  The label of
a bound has six digits of it, and bounds that share a label share a series (`cumulative_iff`).
-/

namespace Alligator

open Text Binary64 List Function

variable {b : BitVec 64} {bs bucket : List (BitVec 64)}

def bucketSeries (name : Str) (labels : LabelHash) (key : Str) : SeriesKey :=
  (derivedName name (cstr "_bucket"), (labels.insert (cstr "bucket") key).pairs.toFinset)

/-- The series that `calc_buckets` updates for a value. -/
def bucketUpdates (bucket : List (BitVec 64)) (name : Str) (labels : LabelHash) (d : BitVec 64) :
    List SeriesKey :=
  (bucketKeys d 0 bucket).map (bucketSeries name labels)

/-- What `metric_gset` makes of the counts with the integer 1. -/
def countOne {α : Type} [DecidableEq α] (counts : α → Nat) (series : α) : α → Nat :=
  update counts series (counts series + 1)

def bucketCounts (bucket : List (BitVec 64)) (name : Str) (labels : LabelHash)
    (values : List (BitVec 64)) : SeriesKey → Nat :=
  (values.flatMap (bucketUpdates bucket name labels)).foldl countOne fun _ => 0

/-- The key of the first bound above a value. -/
def bucketAbove (bucket : List (BitVec 64)) (d : BitVec 64) : Str :=
  match bucket.find? (lt d) with
  | some b => (printLg b).take 29
  | none => cstr "+Inf"

structure Ascending (bucket : List (BitVec 64)) : Prop where
  number : ∀ b ∈ bucket, isNan b = false
  sorted : bucket.Pairwise fun a b => lt a b = true

/-- A value that has a bucket. -/
def Bucketed (bucket : List (BitVec 64)) (d : BitVec 64) : Prop :=
  match bucket with
  | [] => False
  | b :: bs =>
    isNan d = false ∧ order d ≠ order ((b :: bs).getLast (cons_ne_nil b bs)) ∧
      (lt d b = true → le 0 d = true)

instance (bucket : List (BitVec 64)) (d : BitVec 64) : Decidable (Bucketed bucket d) :=
  match bucket with
  | [] => inferInstanceAs (Decidable False)
  | _ :: _ => inferInstanceAs (Decidable (_ ∧ _ ∧ _))

/-! ## One value -/

variable {d a : BitVec 64}

lemma bucketKeys_nan (h : isNan d = true) (preKey : BitVec 64)
    (bucket : List (BitVec 64)) : bucketKeys d preKey bucket = [] := by
  induction bucket generalizing preKey with
  | nil => rfl
  | cons b bs ih => simp [bucketKeys, lt, h, ih]

lemma Ascending.tail (h : Ascending (b :: bs)) : Ascending bs :=
  ⟨(forall_mem_cons.1 h.number).2, (pairwise_cons.1 h.sorted).2⟩

lemma lt_iff (ha : isNan a = false) (hb : isNan b = false) : lt a b = true ↔ order a < order b := by
  simp [lt, ha, hb]

lemma le_iff (ha : isNan a = false) (hb : isNan b = false) : le a b = true ↔ order a ≤ order b := by
  simp [le, ha, hb]

lemma bucketAbove_cons (b : BitVec 64) (bs : List (BitVec 64)) (d : BitVec 64) :
    bucketAbove (b :: bs) d = if lt d b = true then (printLg b).take 29 else bucketAbove bs d := by
  rw [bucketAbove, List.find?_cons]
  cases lt d b with
  | true | false => rfl

lemma Ascending.le_last (h : Ascending (b :: bs)) :
    order b ≤ order ((b :: bs).getLast (cons_ne_nil b bs)) := by
  cases bs with
  | nil => exact le_rfl
  | cons b' bs =>
    have hmem : (b' :: bs).getLast (cons_ne_nil b' bs) ∈ b' :: bs := getLast_mem _
    exact ((lt_iff (h.number b mem_cons_self) (h.tail.number _ hmem)).1
      ((pairwise_cons.1 h.sorted).1 _ hmem)).le

/-- What the bounds of a list count, by induction on the list.  Below the bound before the list
nothing is counted any more. -/
lemma bucketKeys_eq (hd : isNan d = false) {preKey : BitVec 64}
    (hpre : isNan preKey = false) (h : Ascending (b :: bs)) : bucketKeys d preKey (b :: bs) =
      if order d < order b ∧ order d < order preKey ∨
        order d = order ((b :: bs).getLast (cons_ne_nil b bs)) then []
      else [bucketAbove (b :: bs) d] := by
  have hb := h.number b mem_cons_self
  have hlast := h.le_last
  induction bs generalizing preKey b with
  | nil =>
    obtain hlt | heq | hgt := lt_trichotomy (order d) (order b)
    · obtain hlow | hup := lt_or_ge (order d) (order preKey)
      · simp [bucketKeys, lt_iff, le_iff, hd, hb, hpre, hlt, hlt.not_gt, hlow]
      · simp [bucketKeys, bucketAbove_cons, lt_iff, le_iff, hd, hb, hpre, hlt, hlt.ne, hup]
    · simp [bucketKeys, lt_iff, hd, hb, heq]
    · simp [bucketKeys, bucketAbove, hd, hb, hgt, hgt.ne', hgt.not_gt, lt]
  | cons b' bs ih =>
    have hb' := h.tail.number b' mem_cons_self
    have hbb' : order b < order b' :=
      (lt_iff hb hb').1 ((pairwise_cons.1 h.sorted).1 b' mem_cons_self)
    have hlast' := h.tail.le_last
    rw [bucketKeys, ih hb h.tail hb' hlast', bucketAbove_cons b]
    obtain hlt | hge := lt_or_ge (order d) (order b)
    · have hne := (hlt.trans_le (hbb'.le.trans hlast')).ne
      obtain hlow | hup := lt_or_ge (order d) (order preKey)
      · simp [le_iff, hd, hpre, hlt, hlt.trans hbb', hlow]
      · simp [lt_iff, le_iff, hd, hb, hpre, hlt, hlt.trans hbb', hne, hup]
    · simp [lt_iff, hd, hb, hge.not_gt]

/-- A value is counted in the bucket of the first bound above it, or nowhere. -/
lemma bucketKeys_bucketed (h : Ascending bucket) (d : BitVec 64) :
    bucketKeys d 0 bucket = if Bucketed bucket d then [bucketAbove bucket d] else [] := by
  cases bucket with
  | nil => rfl
  | cons b bs =>
    have hzero : isNan (0 : BitVec 64) = false := by decide
    have hb := h.number b mem_cons_self
    cases hd : isNan d with
    | true => simp [bucketKeys_nan hd, Bucketed, hd]
    | false =>
      simp only [bucketKeys_eq hd hzero h, Bucketed, hd, lt_iff hd hb, le_iff hzero hd,
        true_and, ← not_lt, ← not_and]
      rw [← ite_not]
      refine if_congr ?_ rfl rfl
      rw [not_or, and_comm]

/-! ## Sequences of values -/

lemma foldl_countOne {α : Type} [DecidableEq α] (series : α) (updates : List α)
    (counts : α → Nat) :
    updates.foldl countOne counts series = counts series + updates.count series := by
  induction updates generalizing counts with
  | nil => simp
  | cons k updates ih =>
    rw [foldl_cons, ih, countOne]
    by_cases hk : k = series
    · subst hk
      simp [add_comm, add_left_comm]
    · simp [update_of_ne (Ne.symm hk), hk]

lemma sum_bucketCounts (bucket : List (BitVec 64)) (name : Str) (labels : LabelHash)
    (values : List (BitVec 64)) :
    ∑ k ∈ (values.flatMap (bucketUpdates bucket name labels)).toFinset,
        bucketCounts bucket name labels values k =
      (values.flatMap (bucketUpdates bucket name labels)).length := by
  rw [← sum_toFinset_count_eq_length]
  refine Finset.sum_congr rfl fun k _ => ?_
  rw [bucketCounts, foldl_countOne, zero_add]

lemma bucketUpdates_eq (h : Ascending bucket) (name : Str) (labels : LabelHash) (d : BitVec 64) :
    bucketUpdates bucket name labels d =
      if Bucketed bucket d then [bucketSeries name labels (bucketAbove bucket d)] else [] := by
  rw [bucketUpdates, bucketKeys_bucketed h]
  split <;> rfl

lemma length_bucketUpdates (h : Ascending bucket) (name : Str) (labels : LabelHash)
    (values : List (BitVec 64)) : (values.flatMap (bucketUpdates bucket name labels)).length =
      values.countP fun d => decide (Bucketed bucket d) := by
  induction values with
  | nil => rfl
  | cons d values ih =>
    rw [flatMap_cons, length_append, ih, bucketUpdates_eq h]
    split
    · case isTrue hd => simp [hd, add_comm]
    · case isFalse hd => simp [hd]

/-- A call of `calc_buckets` counts a value once, in the bucket of the first bound above it, if
and only if there is a bound, the value is not on the last one, and is not both negative and
below the first one.  The counts of a sequence sum up to its length if and only if all its
values are such. -/
theorem bucket_once_iff (bucket : List (BitVec 64)) (h : Ascending bucket) (name : Str)
    (labels : LabelHash) : (∀ d, bucketUpdates bucket name labels d =
        [bucketSeries name labels (bucketAbove bucket d)] ↔ Bucketed bucket d) ∧
    ∀ values : List (BitVec 64), ∑ k ∈ (values.flatMap (bucketUpdates bucket name labels)).toFinset,
          bucketCounts bucket name labels values k = values.length ↔
        ∀ d ∈ values, Bucketed bucket d := by
  refine ⟨fun d => ?_, fun values => ?_⟩
  · rw [bucketUpdates_eq h]
    split
    · case isTrue hd => simp [hd]
    · case isFalse hd => simp [hd]
  · rw [sum_bucketCounts, length_bucketUpdates h]
    simp

def twoBounds : List (BitVec 64) := [0x3ff0000000000000, 0x4024000000000000]

lemma twoBounds_ascending : Ascending twoBounds where
  number := by
    simp only [twoBounds, forall_mem_cons]
    exact ⟨by decide, by decide, nofun⟩
  sorted := by decide

/-- The values 0.5 and 10.5 are counted. -/
theorem bucket_once_two :
    let values : List (BitVec 64) := [0x3fe0000000000000, 0x4025000000000000]
    ∑ k ∈ (values.flatMap (bucketUpdates twoBounds (cstr "lat") .empty)).toFinset,
      bucketCounts twoBounds (cstr "lat") .empty values k = values.length := by
  intro values
  rw [(bucket_once_iff twoBounds twoBounds_ascending (cstr "lat") .empty).2 values]
  simp only [values, forall_mem_cons]
  exact ⟨by decide, by decide, nofun⟩

/-- The value 10 is on the last bound, and -1 is negative and below the first one. -/
theorem bucket_once_nowhere :
    Ascending twoBounds ∧
      bucketUpdates twoBounds (cstr "lat") .empty 0x4024000000000000 = [] ∧
      bucketUpdates twoBounds (cstr "lat") .empty 0xbff0000000000000 = [] := by
  have hlast : bucketKeys 0x4024000000000000 0 twoBounds = [] := by decide
  have hbelow : bucketKeys 0xbff0000000000000 0 twoBounds = [] := by decide
  refine ⟨twoBounds_ascending, ?_, ?_⟩
  · rw [bucketUpdates, hlast, map_nil]
  · rw [bucketUpdates, hbelow, map_nil]

/-! ## Cumulative buckets -/

section Cumulative

variable {bounds : List (BitVec 64)} {name : Str} {labels : LabelHash} {key : Str}

def leSeries (name : Str) (labels : LabelHash) (key : Str) : SeriesKey :=
  (derivedName name (cstr "_le"), (labels.insert (cstr "le") key).pairs.toFinset)

def leKey (b : BitVec 64) : Str := (printLg b).take 29

/-- The counts after a sequence of calls of `calc_buckets_cumulative`. -/
def leCounts (bounds : List (BitVec 64)) (name : Str) (labels : LabelHash)
    (values : List (BitVec 64)) : SeriesKey → Nat :=
  (values.flatMap fun d => (leKeys d bounds).map (leSeries name labels)).foldl countOne fun _ => 0

/-- The series make up a histogram: the one of a bound counts the values up to it, and the last
one all values. -/
structure Cumulative (bounds : List (BitVec 64)) (name : Str) (labels : LabelHash)
    (values : List (BitVec 64)) : Prop where
  upTo : ∀ b ∈ bounds, leCounts bounds name labels values (leSeries name labels (leKey b)) =
    values.countP fun d => le d b
  all : leCounts bounds name labels values (leSeries name labels (cstr "+Inf")) = values.length
  mono : ∀ b ∈ bounds, ∀ b' ∈ bounds, le b b' = true →
    leCounts bounds name labels values (leSeries name labels (leKey b)) ≤
      leCounts bounds name labels values (leSeries name labels (leKey b'))

lemma leSeries_injective (h : cstr "le" ∉ labels.pairs.map Prod.fst) :
    Injective (leSeries name labels) := by
  intro key key' heq
  simp only [leSeries, LabelHash.insert, dif_neg h, Prod.mk.injEq, Finset.ext_iff, mem_toFinset,
    true_and] at heq
  rcases mem_append.1 ((heq (cstr "le", key)).1 (by simp)) with hmem | hmem
  · exact absurd (mem_map_of_mem hmem) h
  · exact (Prod.mk.inj (mem_singleton.1 hmem)).2

/-- A label `le` of the sample is kept, so there is one series only. -/
lemma leSeries_const (h : cstr "le" ∈ labels.pairs.map Prod.fst) (key' : Str) :
    leSeries name labels key = leSeries name labels key' := by
  simp only [leSeries, LabelHash.insert, dif_pos h]

lemma leCounts_eq (values : List (BitVec 64)) (series : SeriesKey) :
    leCounts bounds name labels values series = (values.map fun d =>
      (leKeys d bounds).countP fun key => decide (leSeries name labels key = series)).sum := by
  rw [leCounts, foldl_countOne, zero_add]
  refine (countP_flatMap (p := fun k => decide (k = series))).trans ?_
  simp only [comp_def, countP_map]

lemma leCounts_of_injective (h : cstr "le" ∉ labels.pairs.map Prod.fst)
    (values : List (BitVec 64)) (key : Str) :
    leCounts bounds name labels values (leSeries name labels key) =
      (values.map fun d => (leKeys d bounds).count key).sum := by
  simp only [leCounts_eq, (leSeries_injective h).eq_iff]
  exact congrArg List.sum (map_congr_left fun d _ => countP_congr fun k _ => by simp)

/-- A bound is counted once, if no other one has its label. -/
lemma count_leKeys (hne : bounds ≠ []) (hkeys : (bounds.map leKey ++ [cstr "+Inf"]).Nodup)
    (hb : b ∈ bounds) (d : BitVec 64) :
    (leKeys d bounds).count (leKey b) = if le d b then 1 else 0 := by
  obtain ⟨hnodup, -, hinf⟩ := nodup_append.1 hkeys
  have hother : leKey b ∉ [cstr "+Inf"] := fun hmem => hinf _ (mem_map_of_mem hb) _ hmem rfl
  have hmem : leKey b ∈ (bounds.filter (le d)).map leKey ↔ le d b = true := by
    refine ⟨fun h => ?_, fun h => mem_map_of_mem (mem_filter.2 ⟨hb, h⟩)⟩
    obtain ⟨b', hb', heq⟩ := mem_map.1 h
    rw [← inj_on_of_nodup_map hnodup (mem_filter.1 hb').1 hb heq]
    exact (mem_filter.1 hb').2
  rw [leKeys, if_neg hne, count_append, count_eq_zero_of_not_mem hother]
  split_ifs with h
  · exact count_eq_one_of_mem (hnodup.sublist (filter_sublist.map _)) (hmem.2 h)
  · exact count_eq_zero_of_not_mem (mt hmem.1 h)

lemma count_leKeys_inf (hne : bounds ≠ []) (hkeys : (bounds.map leKey ++ [cstr "+Inf"]).Nodup)
    (d : BitVec 64) : (leKeys d bounds).count (cstr "+Inf") = 1 := by
  have hinf : cstr "+Inf" ∉ (bounds.filter (le d)).map leKey := fun hmem =>
    (nodup_append.1 hkeys).2.2 _ ((filter_sublist.map _).subset hmem) _ (mem_singleton_self _) rfl
  rw [leKeys, if_neg hne, count_append]
  exact congrArg (· + 1) (count_eq_zero_of_not_mem hinf)

lemma le_minusInf (h : isNan b = false) : le 0xfff0000000000000 b = true := by
  have hlow : isNan 0xfff0000000000000 = false := by decide
  rw [le_iff hlow h]
  have hb : ¬(exponent b = 2047 ∧ fraction b ≠ 0) := of_decide_eq_false h
  rw [exponent, fraction] at hb
  have hhigh : order 0xfff0000000000000 = -0x7ff0000000000000 := by decide
  have hlt := b.isLt
  rw [hhigh, order]
  split_ifs with hneg
  · have := of_decide_eq_true hneg
    omega
  · omega

end Cumulative

/-- Calls of `calc_buckets_cumulative` make a histogram of every sequence of values if and only
if there is a bound, the sample has no label `le` of its own, and the bounds have different
labels. -/
theorem cumulative_iff {bounds : List (BitVec 64)} (hnumber : ∀ b ∈ bounds, isNan b = false)
    (name : Str) (labels : LabelHash) :
    (∀ values, Cumulative bounds name labels values) ↔
      bounds ≠ [] ∧ cstr "le" ∉ labels.pairs.map Prod.fst ∧
        (bounds.map leKey ++ [cstr "+Inf"]).Nodup := by
  constructor
  · intro h
    -- the value minus infinity is counted for every bound
    obtain ⟨low, hlow⟩ : ∃ low, ∀ b ∈ bounds, le low b = true :=
      ⟨0xfff0000000000000, fun b hb => le_minusInf (hnumber b hb)⟩
    have hkeys : bounds ≠ [] → leKeys low bounds = bounds.map leKey ++ [cstr "+Inf"] := by
      intro hne
      rw [leKeys, if_neg hne, filter_eq_self.2 hlow]
      rfl
    have hall := (h [low]).all
    rw [leCounts_eq] at hall
    have hne : bounds ≠ [] := by
      rintro rfl
      simp [leKeys] at hall
    have hle : cstr "le" ∉ labels.pairs.map Prod.fst := by
      intro hmem
      simp [leSeries_const hmem (cstr "+Inf"), hkeys hne, hne] at hall
    refine ⟨hne, hle, ?_⟩
    rw [nodup_iff_count_eq_one]
    intro key hkey
    rw [← hkeys hne]
    rcases mem_append.1 hkey with hmem | hmem
    · obtain ⟨b, hb, rfl⟩ := mem_map.1 hmem
      have := (h [low]).upTo b hb
      rw [leCounts_of_injective hle] at this
      simpa [hlow b hb] using this
    · have := (h [low]).all
      rw [leCounts_of_injective hle] at this
      simpa [mem_singleton.1 hmem] using this
  · rintro ⟨hne, hle, hkeys⟩ values
    have hupTo : ∀ b ∈ bounds, leCounts bounds name labels values
        (leSeries name labels (leKey b)) = values.countP fun d => le d b := by
      intro b hb
      simp only [leCounts_of_injective hle, count_leKeys hne hkeys hb]
      induction values with
      | nil => rfl
      | cons d values ih => rw [map_cons, sum_cons, ih, countP_cons, add_comm]
    refine ⟨hupTo, ?_, fun b hb b' hb' hbb' => ?_⟩
    · simp [leCounts_of_injective hle, count_leKeys_inf hne hkeys]
    · rw [hupTo b hb, hupTo b' hb']
      refine countP_mono_left fun d _ hd => ?_
      simp only [le, Bool.and_eq_true, decide_eq_true_eq] at hd hbb' ⊢
      exact ⟨⟨hd.1.1, hbb'.1.2⟩, hd.2.trans hbb'.2⟩

/-- The bounds 1 and 10 have the labels `1` and `10`. -/
theorem cumulative_two : Cumulative twoBounds (cstr "lat") .empty [0x3fe0000000000000] :=
  (cumulative_iff twoBounds_ascending.number (cstr "lat") .empty).2
    ⟨by decide, by decide, by decide⟩ _

/-- The bounds 1.0000001 and 1.0000002 have one label, so that the value 1 is counted twice. -/
theorem cumulative_shared :
    leKeys 0x3ff0000000000000 [0x3ff000001ad7f29b, 0x3ff0000035afe535] =
        [cstr "1", cstr "1", cstr "+Inf"] ∧
      ¬Cumulative [0x3ff000001ad7f29b, 0x3ff0000035afe535] (cstr "lat") .empty
        [0x3ff0000000000000] := by
  have hkeys : leKeys 0x3ff0000000000000 [0x3ff000001ad7f29b, 0x3ff0000035afe535] =
      [cstr "1", cstr "1", cstr "+Inf"] := by decide
  refine ⟨hkeys, fun h => ?_⟩
  have hone := h.upTo 0x3ff000001ad7f29b mem_cons_self
  revert hone
  decide

/-! ## The configured buckets -/

/-- A number in the JSON array of the buckets. -/
inductive BucketNumber where
  | integer (n : Int)
  | real (d : BitVec 64)

def BucketNumber.toDouble : BucketNumber → BitVec 64
  | .integer n => ofInt n
  | .real d => d

/-- `json_real_value`, which is 0 for anything but a real. -/
def jsonRealValue : BucketNumber → BitVec 64
  | .integer _ => 0
  | .real d => d

/-- `mapping_bucket_compare`: the difference of the representations, as an `int`. -/
def mappingBucketCompare (i j : BitVec 64) : Int := ((i - j).setWidth 32).toInt

/-- What the C standard says of `qsort`: it rearranges, and it sorts by a comparison that is
consistent on the elements. -/
structure Qsort (α : Type) where
  sort : (α → α → Int) → List α → List α
  perm : ∀ compar l, (sort compar l).Perm l
  sorted : ∀ compar l, (∀ a ∈ l, ∀ b ∈ l, compar a b < 0 ↔ 0 < compar b a) →
    (∀ a ∈ l, ∀ b ∈ l, ∀ c ∈ l, compar a b ≤ 0 → compar b c ≤ 0 → compar a c ≤ 0) →
    (sort compar l).Pairwise fun a b => compar a b ≤ 0

/-- A merge sort is one. -/
def Qsort.merge (α : Type) : Qsort α where
  sort compar l :=
    (l.attach.mergeSort fun a b => decide (compar a.1 b.1 ≤ 0)).map Subtype.val
  perm compar l := by
    have h := (mergeSort_perm l.attach fun a b => decide (compar a.1 b.1 ≤ 0)).map Subtype.val
    rwa [attach_map_subtype_val] at h
  sorted compar l hconsistent htrans := by
    have hsorted := @pairwise_mergeSort _
      (fun a b : { x // x ∈ l } => decide (compar a.1 b.1 ≤ 0))
      (fun a b c hab hbc => decide_eq_true (htrans a a.2 b b.2 c c.2 (of_decide_eq_true hab)
        (of_decide_eq_true hbc)))
      (fun a b => by
        have := hconsistent b b.2 a a.2
        simp only [Bool.or_eq_true, decide_eq_true_eq]
        omega) l.attach
    exact (hsorted.imp of_decide_eq_true).map Subtype.val fun _ _ h => h

/-- The buckets that `json_mapping_parser` makes of an array. -/
def jsonMappingBuckets (qsort : Qsort (BitVec 64)) (bucket : List BucketNumber) :
    List (BitVec 64) :=
  qsort.sort mappingBucketCompare (bucket.map jsonRealValue)

lemma mappingBucketCompare_eq_zero {i j : BitVec 64} (h : order i = order j) :
    mappingBucketCompare i j = 0 := by
  have hlow : ((i - j).setWidth 32).toNat = 0 := by
    rw [BitVec.toNat_setWidth, BitVec.toNat_sub]
    simp only [order, negative, decide_eq_true_eq] at h
    split_ifs at h <;> omega
  rw [mappingBucketCompare, BitVec.toInt_eq_toNat_of_lt (by omega), hlow]
  rfl

/-- The buckets are the numbers of the array in ascending order, if every integer among them is
0 and the comparison of the representations is right for them. -/
theorem buckets_sorted (qsort : Qsort (BitVec 64)) {bucket : List BucketNumber}
    (hread : ∀ x ∈ bucket, jsonRealValue x = x.toDouble)
    (hcompare : ∀ i ∈ bucket.map BucketNumber.toDouble, ∀ j ∈ bucket.map BucketNumber.toDouble,
      mappingBucketCompare i j ≤ 0 ↔ le i j = true) :
    (jsonMappingBuckets qsort bucket).Perm (bucket.map BucketNumber.toDouble) ∧
      (jsonMappingBuckets qsort bucket).Pairwise fun i j => le i j = true := by
  rw [jsonMappingBuckets, map_congr_left hread]
  generalize bucket.map BucketNumber.toDouble = numbers at hcompare
  have hperm := qsort.perm mappingBucketCompare numbers
  refine ⟨hperm, ?_⟩
  have hnumber : ∀ i ∈ numbers, isNan i = false := by
    intro i hi
    have := (hcompare i hi i hi).1 (by simp [mappingBucketCompare])
    simp [le] at this
    exact this
  -- on the numbers of the array the comparison is the one of their places in the order
  have horder : ∀ i ∈ numbers, ∀ j ∈ numbers,
      mappingBucketCompare i j ≤ 0 ↔ order i ≤ order j := fun i hi j hj =>
    (hcompare i hi j hj).trans (le_iff (hnumber i hi) (hnumber j hj))
  refine (qsort.sorted _ _ (fun i hi j hj => ?_) fun i hi j hj k hk hij hjk => ?_).imp_of_mem
    fun hi hj h => (hcompare _ (hperm.mem_iff.1 hi) _ (hperm.mem_iff.1 hj)).1 h
  · have hij := horder i hi j hj
    have hji := horder j hj i hi
    by_cases heq : order i = order j
    · rw [mappingBucketCompare_eq_zero heq, mappingBucketCompare_eq_zero heq.symm]
    · have hzero : mappingBucketCompare i j = 0 → mappingBucketCompare j i = 0 := fun h => by
        have hlow := BitVec.eq_of_toInt_eq (h.trans BitVec.toInt_zero.symm)
        rw [mappingBucketCompare, show (j - i).setWidth 32 = 0#32 by bv_omega]
        rfl
      omega
  · rw [horder i hi k hk]
    exact ((horder i hi j hj).1 hij).trans ((horder j hj k hk).1 hjk)

/-- Two neighbouring doubles. -/
theorem buckets_sorted_near :
    (jsonMappingBuckets (.merge _) [.real 0x3ff0000000000001, .real 0x3ff0000000000000]).Pairwise
      fun i j => le i j = true :=
  (buckets_sorted (.merge _) (by simp [jsonRealValue, BucketNumber.toDouble])
    (by
      simp only [map_cons, map_nil, forall_mem_cons, not_mem_nil, false_imp_iff, implies_true]
      decide)).2

/-- The integer 1 is read as 0, and 2.0 is put in front of the double behind 0.5. -/
theorem buckets_unsorted :
    (∀ qsort, jsonMappingBuckets qsort [.integer 1] = [0] ∧
      jsonMappingBuckets qsort [.real 0x3fe0000000000001, .real 0x4000000000000000] =
        [0x4000000000000000, 0x3fe0000000000001]) ∧
      le 0x4000000000000000 0x3fe0000000000001 = false := by
  refine ⟨fun qsort => ⟨perm_singleton.1 (qsort.perm _ _), ?_⟩, by decide⟩
  -- the comparison is consistent, and wrong
  have hsorted := qsort.sorted mappingBucketCompare [0x3fe0000000000001, 0x4000000000000000]
    (by simp only [forall_mem_cons, not_mem_nil, false_imp_iff, implies_true]; decide)
    (by simp only [forall_mem_cons, not_mem_nil, false_imp_iff, implies_true]; decide)
  have hperm := qsort.perm mappingBucketCompare [0x3fe0000000000001, 0x4000000000000000]
  obtain ⟨a, b, hl⟩ := length_eq_two.1 hperm.length_eq
  rw [hl] at hsorted hperm
  refine hl.trans ?_
  rcases mem_pair.1 (hperm.subset mem_cons_self) with rfl | rfl
  · obtain rfl := singleton_perm_singleton.1 ((perm_cons _).1 hperm)
    exact absurd (rel_of_pairwise_cons hsorted mem_cons_self) (by decide)
  · obtain rfl := singleton_perm_singleton.1 ((perm_cons _).1 (hperm.trans (.swap _ _ _)))
    rfl

end Alligator
