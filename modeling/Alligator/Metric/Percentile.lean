import Alligator.Lib.ArrayHeap
import Mathlib.Data.Nat.Log
import Mathlib.Data.Rat.Floor
import Mathlib.Order.Interval.Finset.Nat

/-!
# Quantiles of a sample ring

A percentile buffer keeps the last `n` samples of a series in a ring. To emit the quantiles it
copies the ring, builds a heap with the largest sample on top over all of it, sorts only a
prefix of the heap and reads one position per configured quantile. The samples are rationals.

The rings here are those without a time window.
-/

namespace Alligator

open ArrayHeap List Function Option

variable {k a b : Nat} {arr : Nat → ℚ}

/-! ## The sort -/

/-- A double stored in an integer loses its fraction. -/
def truncate (q : ℚ) : ℚ := ((q.num.tdiv q.den : Int) : ℚ)

/-- The temporary of the exchange is an integer. -/
def maxheapify (heapsize : Nat) (arr : Nat → ℚ) (i : Nat) : Nat → ℚ :=
  sift (· ≥ ·) truncate heapsize heapsize arr i

def buildmaxheap (n : Nat) (arr : Nat → ℚ) : Nat → ℚ :=
  countdown (maxheapify n) (n / 2 + 1) arr

def heapify (n : Nat) (arr : Nat → ℚ) (i : Nat) : Nat → ℚ :=
  sift (· ≤ ·) id n n arr i

def heapSort (n : Nat) (arr : Nat → ℚ) : Nat → ℚ :=
  countdown (fun arr i => heapify i (if i = 0 then arr else exchange id arr 0 i) 0) n
    (countdown (heapify n) (n / 2) arr)

lemma truncate_eq_self {q : ℚ} : truncate q = q ↔ ∃ z : Int, q = z :=
  ⟨fun h => ⟨_, h.symm⟩, fun ⟨z, h⟩ => by simp [h, truncate]⟩

lemma truncate_isInt (q : ℚ) : ∃ z : Int, truncate q = z :=
  ⟨_, rfl⟩

lemma heapSort_permutes (n : Nat) (arr : Nat → ℚ) : Permutes n arr (heapSort n arr) :=
  extract_build_permutes n arr

lemma heapSort_eq_descending (n : Nat) (arr : Nat → ℚ) :
    (List.range n).map (heapSort n arr) = descending n arr :=
  extract_build_eq_descending n arr

lemma heapSort_getElem? {m : Nat} (arr : Nat → ℚ) (h : k < m) :
    (descending m arr)[k]? = some (heapSort m arr k) := by
  rw [← heapSort_eq_descending, List.getElem?_map, List.getElem?_range h, map_some]

variable {n : Nat}

/-- The samples are only rearranged if and only if every sample that is below one of its
descendants is a whole number. -/
theorem buildmaxheap_heap_iff :
    Permutes n arr (buildmaxheap n arr) ∧ Ordered (· ≥ ·) n 0 (buildmaxheap n arr) ↔
      ∀ i x, Under i x → x < n → arr i < arr x → ∃ z : Int, arr i = z := by
  refine (build_lossless_iff (fun q => truncate_eq_self.2 ⟨_, rfl⟩) (by omega)).trans ?_
  simp only [ge_iff_le, not_le, truncate_eq_self]

/-- The half below the one is moved down through the integer and comes out as zero. -/
theorem buildmaxheap_drops_half :
    ¬ Permutes 2 (fun i => if i = 0 then 1 / 2 else 1)
      (buildmaxheap 2 fun i => if i = 0 then 1 / 2 else 1) :=
  fun h => absurd h.perm (by decide +kernel)

/-- The largest sample reaches the root unharmed, it is never the temporary. -/
lemma buildmaxheap_root (hn : 0 < n) (arr : Nat → ℚ) :
    (∃ y < n, buildmaxheap n arr 0 = arr y) ∧ ∀ x < n, buildmaxheap n arr 0 ≥ arr x :=
  build_root (by omega) hn

lemma buildmaxheap_of_ordered (h : Ordered (· ≥ ·) n 0 arr) : buildmaxheap n arr = arr :=
  build_of_ordered h

/-! ## The plan of the quantiles -/

/-- The global settings a mapping falls back to. -/
structure PercentileDefaults where
  percentileBufferMin : Int
  percentileCalcEvery : Int

/-- The largest configured quantile, at least 1. -/
def percentilelong (percentile : List Int) : Int :=
  let long := percentile.foldl (fun long p => if long < p then p else long) (percentile.headD 0)
  if long ≤ 0 then 1 else long

/-- The integer part of the decimal logarithm of a positive number. -/
def log10 (p : Int) : Nat := Nat.log 10 p.toNat

/-- The position of one quantile in a descending ring of `n` samples, `naturalN = 10 ^ digits`
being the number of samples its own digits ask for. -/
def ipercentileOf (digits n : Nat) (p : Int) : Nat :=
  if p ≤ 0 then 0
  else
    let naturalN : Int := (10 ^ digits : Nat)
    let curpercentile : Int := p * (10 ^ (digits - log10 p - 1) : Nat)
    let naturalIp := naturalN - curpercentile
    let ip := if (n : Int) = naturalN then naturalIp else (naturalIp * n).tdiv naturalN
    let ip := if ip < 0 then 0 else ip
    let ip := if (n : Int) ≤ ip then (n : Int) - 1 else ip
    ip.toNat

/-- The doubling loop that looks for the first power of two from `i` on that reaches `max`. -/
def doubling (max : Nat) : Nat → Nat → Nat
  | 0, i => i
  | fuel + 1, i => if i < max then doubling max fuel (i * 2) else i

/-- What is fixed when the buffer is made. -/
structure PercentilePlan where
  n : Nat
  percentile : List Int
  ipercentile : List Nat
  percentilemax : Nat
  sortsize : Nat
  calcEvery : Int
  deriving DecidableEq

variable (ac : PercentileDefaults)

/-- The samples a ring holds, the floor of the mapping or the global one where it has none. -/
def ringSize (digits : Nat) (bufferMin : Int) : Nat :=
  let naturalN := 10 ^ digits
  let resolvedMin := if bufferMin < 0 then ac.percentileBufferMin else bufferMin
  if 0 < resolvedMin ∧ naturalN < resolvedMin.toNat then resolvedMin.toNat else naturalN

def percentilePlan (percentile : List Int) (bufferMin calcEvery : Int) : PercentilePlan :=
  let percentile := if percentile = [] then [-1] else percentile
  let digits := log10 (percentilelong percentile) + 1
  let n := ringSize ac digits bufferMin
  let ipercentile := percentile.map (ipercentileOf digits n)
  let percentilemax := ipercentile.foldl (fun max ip => if max < ip then ip else max) 0
  let resolvedEvery := if calcEvery < 0 then ac.percentileCalcEvery else calcEvery
  let i := doubling percentilemax percentilemax 1
  { n := n
    percentile := percentile
    ipercentile := ipercentile
    percentilemax := percentilemax
    sortsize := if n ≤ i then n else i
    calcEvery := if resolvedEvery < 0 then 0 else resolvedEvery }

/-! ## The buffer -/

structure PercentileBuffer where
  plan : PercentilePlan
  arr : Nat → ℚ
  sortArr : Nat → ℚ
  cur : Nat
  insertsSinceCalc : Int
  sorted : Bool

def initPercentileBufferOpts (percentile : List Int)
    (bufferMin calcEvery : Int) : PercentileBuffer :=
  { plan := percentilePlan ac percentile bufferMin calcEvery
    arr := fun _ => 0
    sortArr := fun _ => 0
    cur := 0
    insertsSinceCalc := 0
    sorted := false }

/-- A new sample takes the place of the oldest. The first one fills a cold ring. -/
def heapInsertAt (pb : PercentileBuffer) (key : ℚ) : PercentileBuffer :=
  let cur := if pb.plan.n ≤ pb.cur then 0 else pb.cur
  let arr := update pb.arr cur key
  let arr := if cur = 0 ∧ arr 1 = 0
    then fun i => if 1 ≤ i ∧ i < pb.plan.n then key else arr i
    else arr
  { pb with arr := arr, cur := cur + 1, insertsSinceCalc := pb.insertsSinceCalc + 1 }

def PercentileBuffer.needSort (pb : PercentileBuffer) : Bool :=
  let every := if 0 < pb.plan.calcEvery then pb.plan.calcEvery else 1
  !pb.sorted || decide (every ≤ pb.insertsSinceCalc)

/-- The buffer afterwards and the values emitted, one for each configured quantile. -/
def calcPercentiles (pb : PercentileBuffer) : PercentileBuffer × List ℚ :=
  let pb := if pb.needSort then
      { pb with
        sortArr := heapSort pb.plan.sortsize (buildmaxheap pb.plan.n pb.arr)
        insertsSinceCalc := 0
        sorted := true }
    else pb
  (pb, pb.plan.ipercentile.map pb.sortArr)

/-- Every value emitted is the order statistic that its position names. -/
def QuantilesExact (pb : PercentileBuffer) : Prop :=
  (calcPercentiles pb).2.map some =
    pb.plan.ipercentile.map fun ip => (descending pb.plan.n pb.arr)[ip]?

variable {pb : PercentileBuffer}

lemma calcPercentiles_values (h : pb.needSort = true) :
    (calcPercentiles pb).2 = pb.plan.ipercentile.map
      (heapSort pb.plan.sortsize (buildmaxheap pb.plan.n pb.arr)) := by
  rw [calcPercentiles, if_pos h]

lemma quantilesExact_iff (h : pb.needSort = true) :
    QuantilesExact pb ↔ ∀ ip ∈ pb.plan.ipercentile, (descending pb.plan.n pb.arr)[ip]? =
      some (heapSort pb.plan.sortsize (buildmaxheap pb.plan.n pb.arr) ip) := by
  rw [QuantilesExact, calcPercentiles_values h, List.map_map, List.map_inj_left]
  exact ⟨fun hall ip hip => (hall ip hip).symm, fun hall ip hip => (hall ip hip).symm⟩

/-! ## The positions of a plan -/

lemma foldl_larger {α : Type*} [LinearOrder α] {l : List α} {a : α} :
    (∀ x ∈ a :: l, x ≤ l.foldl (fun m x => if m < x then x else m) a) ∧
      l.foldl (fun m x => if m < x then x else m) a ∈ a :: l := by
  have hmax : (fun m x : α => if m < x then x else m) = max := by
    funext m x
    exact (max_def_lt m x).symm
  rw [hmax]
  exact (max?_eq_some_iff.1 max?_cons').symm

variable {p : Int} {digits : Nat}

lemma le_percentilelong {l : List Int} (h : p ∈ l) : p ≤ percentilelong l := by
  cases l with
  | nil => cases h
  | cons a l =>
    have hle := (foldl_larger (l := a :: l) (a := a)).1 p (mem_cons_of_mem _ h)
    rw [percentilelong, headD_cons]
    split <;> omega

lemma ipercentileOf_nonpos (h : p ≤ 0) : ipercentileOf digits n p = 0 :=
  if_pos h

/-- A quantile below 1 never asks for the largest sample nor for one outside the ring. -/
lemma ipercentileOf_pos (hp : 0 < p) (hlog : log10 p < digits)
    (hn : 10 ^ digits ≤ n) : 0 < ipercentileOf digits n p ∧ ipercentileOf digits n p < n := by
  obtain ⟨q, rfl⟩ : ∃ q : Nat, p = q := ⟨p.toNat, by omega⟩
  have hcur : q * 10 ^ (digits - log10 q - 1) < 10 ^ digits := by
    have hlt : q < 10 ^ (log10 q + 1) := by
      exact Nat.lt_pow_succ_log_self (by omega) q
    calc q * 10 ^ (digits - log10 q - 1)
        < 10 ^ (log10 q + 1) * 10 ^ (digits - log10 q - 1) :=
          Nat.mul_lt_mul_of_pos_right hlt (Nat.pow_pos (by omega))
      _ = 10 ^ digits := by rw [← pow_add]; congr 1; omega
  have hpos : 0 < q * 10 ^ (digits - log10 q - 1) := Nat.mul_pos (by omega) (Nat.pow_pos (by omega))
  rw [ipercentileOf]
  dsimp only
  generalize 10 ^ digits = N at *
  have hcast : (N : Int) - (q : Int) * (10 ^ (digits - log10 q - 1) : Nat) =
      ((N - q * 10 ^ (digits - log10 q - 1) : Nat) : Int) := by
    rw [Nat.cast_sub hcur.le, Nat.cast_mul]
  rw [hcast]
  generalize q * 10 ^ (digits - log10 q - 1) = cur at *
  have hscaled : ((N - cur : Nat) * n : Int).tdiv N = (((N - cur) * n / N : Nat) : Int) := by
    rw [← Nat.cast_mul, Int.ofNat_tdiv]
  have hlow : 0 < (N - cur) * n / N :=
    Nat.div_pos (hn.trans (Nat.le_mul_of_pos_left n (by omega))) (by omega)
  have hhigh : (N - cur) * n / N < n := by
    rw [Nat.div_lt_iff_lt_mul (by omega), mul_comm n N]
    exact Nat.mul_lt_mul_of_pos_right (by omega) (by omega)
  generalize (N - cur) * n / N = ip at *
  split_ifs <;> omega

lemma doubling_spec {max : Nat} {fuel i : Nat} (hi : 0 < i) (h : max ≤ i + fuel) :
    ∃ k, doubling max fuel i = i * 2 ^ k ∧ max ≤ i * 2 ^ k ∧ (k = 0 ∨ i * 2 ^ k < 2 * max) := by
  induction fuel generalizing i with
  | zero => exact ⟨0, by simp [doubling], by simpa using h, .inl rfl⟩
  | succ fuel ih =>
    rw [doubling]
    split
    · case isTrue hlt =>
      obtain ⟨k, heq, hle, hk⟩ := ih (i := i * 2) (by omega) (by omega)
      have hpow : i * 2 * 2 ^ k = i * 2 ^ (k + 1) := by ring
      rw [hpow] at heq hle hk
      refine ⟨k + 1, heq, hle, .inr ?_⟩
      rcases hk with rfl | hk
      · omega
      · exact hk
    · case isFalse hge => exact ⟨0, by simp, by simpa using not_lt.1 hge, .inl rfl⟩

lemma pow_le_ringSize (digits : Nat) (bufferMin : Int) :
    10 ^ digits ≤ ringSize ac digits bufferMin := by
  rw [ringSize]
  generalize (if bufferMin < 0 then ac.percentileBufferMin else bufferMin) = resolvedMin
  split
  · case isTrue h => exact h.2.le
  · exact le_rfl

structure PercentilePlan.Sound (plan : PercentilePlan) (positive : Prop) : Prop where
  ten : 10 ≤ plan.n
  lt : ∀ ip ∈ plan.ipercentile, ip < plan.n
  le : ∀ ip ∈ plan.ipercentile, ip ≤ plan.percentilemax
  /-- With a positive quantile the last position read is not the first of the ring. -/
  last : positive → 0 < plan.percentilemax ∧ plan.percentilemax ∈ plan.ipercentile
  flat : ¬ positive → plan.percentilemax = 0
  /-- The whole ring is sorted, or the first power of two that reaches the last position. -/
  sorts : (plan.sortsize = plan.n ∧ ∀ k, plan.percentilemax ≤ 2 ^ k → plan.n ≤ 2 ^ k) ∨
    ∃ k, plan.sortsize = 2 ^ k ∧ 2 ^ k < plan.n ∧ plan.percentilemax ≤ 2 ^ k ∧
      (k = 0 ∨ 2 ^ k < 2 * plan.percentilemax)

lemma percentilePlan_sound (percentile : List Int) (bufferMin calcEvery : Int) :
    (percentilePlan ac percentile bufferMin calcEvery).Sound (∃ p ∈ percentile, 0 < p) := by
  obtain ⟨configured, hconf⟩ : ∃ l, l = if percentile = [] then [-1] else percentile := ⟨_, rfl⟩
  have hpositive : (∃ p ∈ percentile, 0 < p) ↔ ∃ p ∈ configured, 0 < p := by
    rw [hconf]
    split
    · case isTrue h => simp [h]
    · rfl
  obtain ⟨digits, hdigits⟩ : ∃ d, d = log10 (percentilelong configured) + 1 := ⟨_, rfl⟩
  obtain ⟨n, hn⟩ : ∃ n, n = ringSize ac digits bufferMin := ⟨_, rfl⟩
  have hpow : 10 ^ digits ≤ n := hn ▸ pow_le_ringSize ac digits bufferMin
  have hten : 10 ≤ 10 ^ digits := Nat.le_self_pow (by omega) 10
  have hip : ∀ p ∈ configured, 0 < p →
      0 < ipercentileOf digits n p ∧ ipercentileOf digits n p < n := fun p hp hpos =>
    ipercentileOf_pos hpos (by
      have hle : log10 p ≤ log10 (percentilelong configured) :=
        Nat.log_mono_right (Int.toNat_le_toNat (le_percentilelong hp))
      omega) hpow
  obtain ⟨ips, hips⟩ : ∃ l, l = configured.map (ipercentileOf digits n) := ⟨_, rfl⟩
  obtain ⟨max, hmax⟩ : ∃ m, m = ips.foldl (fun max ip => if max < ip then ip else max) 0 := ⟨_, rfl⟩
  obtain ⟨hle, hmem⟩ := foldl_larger (l := ips) (a := 0)
  rw [← hmax] at hle hmem
  obtain ⟨k, hk, hreach, hleast⟩ := @doubling_spec max max 1 one_pos (by omega)
  rw [one_mul] at hk hreach hleast
  have hplan : percentilePlan ac percentile bufferMin calcEvery =
      ⟨n, configured, ips, max, if n ≤ 2 ^ k then n else 2 ^ k,
        (percentilePlan ac percentile bufferMin calcEvery).calcEvery⟩ := by
    simp only [percentilePlan, ← hconf, ← hdigits, ← hn, ← hips, ← hmax, hk]
  have hflat : (¬ ∃ p ∈ percentile, 0 < p) → ∀ ip ∈ ips, ip = 0 := by
    intro hno ip hmem
    rw [hips, List.mem_map] at hmem
    obtain ⟨p, hp, rfl⟩ := hmem
    exact ipercentileOf_nonpos (not_lt.1 fun hpos => hno (hpositive.2 ⟨p, hp, hpos⟩))
  rw [hplan]
  refine ⟨hten.trans hpow, fun ip h => ?_, (forall_mem_cons.1 hle).2,
    fun h => ?_, fun h => ?_, ?_⟩
  · rw [hips, List.mem_map] at h
    obtain ⟨p, hp, rfl⟩ := h
    rcases le_or_gt p 0 with hp0 | hp0
    · rw [ipercentileOf_nonpos hp0]
      exact lt_of_lt_of_le (by omega) (hten.trans hpow)
    · exact (hip p hp hp0).2
  · obtain ⟨p, hp, hpos⟩ := hpositive.1 h
    have hmem' : ipercentileOf digits n p ∈ ips := hips ▸ mem_map_of_mem hp
    have hmax0 : 0 < max := (hip p hp hpos).1.trans_le (hle _ (mem_cons_of_mem _ hmem'))
    exact ⟨hmax0, (mem_cons.1 hmem).resolve_left (by omega)⟩
  · rcases mem_cons.1 hmem with hmem | hmem
    · exact hmem
    · exact hflat h max hmem
  · dsimp only
    rcases le_or_gt n (2 ^ k) with hnk | hnk
    · refine .inl ⟨if_pos hnk, fun k' hk' => hnk.trans (Nat.pow_le_pow_right (by omega) ?_)⟩
      rcases hleast with rfl | hleast
      · exact Nat.zero_le _
      · by_contra hlt
        have hdouble : 2 * 2 ^ k' ≤ 2 ^ k := by
          rw [← Nat.pow_succ']
          exact Nat.pow_le_pow_right (by omega) (by omega)
        omega
    · exact .inr ⟨k, if_neg (by omega), hnk, hreach, hleast⟩

/-! ## Where the quantiles are exact -/

/-- A ring of zeros and ones that is a heap already. -/
def marked (a b : Nat) : Nat → ℚ := fun i => if i < a ∨ i = b then 1 else 0

lemma marked_ordered (n : Nat) (h : (b - 1) / 2 < a) : Ordered (· ≥ ·) n 0 (marked a b) := by
  intro c hc _ _
  simp only [marked]
  split_ifs
  · exact le_rfl
  · exact zero_le_one
  · omega
  · exact le_rfl

lemma marked_isInt (a b i : Nat) : ∃ z : Int, marked a b i = z := by
  rw [marked]
  split
  · exact ⟨1, by simp⟩
  · exact ⟨0, by simp⟩

lemma marked_one (hab : a ≤ b) (hb : b < n) (hk : k ≤ a) :
    (descending n (marked a b))[k]? = some 1 := by
  have hsup : insert b (Finset.range a) ⊆ (Finset.range n).filter ((1 : ℚ) ≤ marked a b ·) := by
    intro i hi
    rw [Finset.mem_insert, Finset.mem_range] at hi
    rw [Finset.mem_filter, Finset.mem_range, marked, if_pos (by omega)]
    exact ⟨by omega, le_rfl⟩
  have hcard := Finset.card_le_card hsup
  rw [Finset.card_insert_of_notMem (by rw [Finset.mem_range]; omega), Finset.card_range] at hcard
  refine descending_getElem? ?_ (by omega)
  rw [Finset.filter_false_of_mem]
  · exact Nat.zero_le _
  · intro i _
    rw [marked]
    split <;> norm_num

lemma marked_zero (hk : k < n) (hlow : a ≤ k ∧ n ≤ b ∨ a + 1 ≤ k) :
    (descending n (marked a b))[k]? = some 0 := by
  refine descending_getElem? ?_ ?_
  · rcases hlow with ⟨hak, hnb⟩ | hak
    · have hsub : (Finset.range n).filter ((0 : ℚ) < marked a b ·) ⊆ Finset.range a := by
        intro i hi
        rw [Finset.mem_filter, Finset.mem_range, marked] at hi
        obtain ⟨hin, hi⟩ := hi
        rw [Finset.mem_range]
        by_contra hle
        rw [if_neg (by omega)] at hi
        exact lt_irrefl _ hi
      have hcard := Finset.card_le_card hsub
      rw [Finset.card_range] at hcard
      omega
    · have hsub : (Finset.range n).filter ((0 : ℚ) < marked a b ·) ⊆
          insert b (Finset.range a) := by
        intro i hi
        rw [Finset.mem_filter, marked] at hi
        rw [Finset.mem_insert, Finset.mem_range]
        by_contra hle
        rw [if_neg (by omega)] at hi
        exact lt_irrefl _ hi.2
      have hcard := (Finset.card_le_card hsub).trans (Finset.card_insert_le _ _)
      rw [Finset.card_range] at hcard
      omega
  · rw [Finset.filter_true_of_mem, Finset.card_range]
    · exact hk
    · intro i _
      rw [marked]
      split <;> norm_num

/-- Where only a prefix is sorted, a ring of whole numbers is misread at the last position. -/
lemma exists_misread_prefix {p : Nat} (hn : 10 ≤ n) (hp : 0 < p) (hpk : p ≤ 2 ^ k)
    (hkn : 2 ^ k < n) (hleast : k = 0 ∨ 2 ^ k < 2 * p) :
    ∃ arr : Nat → ℚ, (∀ i, ∃ z : Int, arr i = z) ∧
      (descending n arr)[p]? ≠ some (heapSort (2 ^ k) (buildmaxheap n arr) p) := by
  have hbuilt : ∀ {a b : Nat}, (b - 1) / 2 < a →
      buildmaxheap n (marked a b) = marked a b := fun h =>
    buildmaxheap_of_ordered (marked_ordered n h)
  have hbeyond : ∀ (a b : Nat), 2 ^ k ≤ p →
      heapSort (2 ^ k) (marked a b) p = marked a b p := fun a b h =>
    (heapSort_permutes _ _).eq_of_le h
  have hhalf : 2 ^ k = 1 ∨ 2 ^ k < 2 * p := hleast.imp_left fun h => by rw [h, pow_zero]
  generalize 2 ^ k = m at *
  rcases lt_or_ge p m with hlt | hge
  · -- the prefix has one mark less than the ring
    refine ⟨marked p m, marked_isInt p m, ?_⟩
    have hcode := heapSort_getElem? (marked p m) hlt
    rw [marked_zero hlt (.inl ⟨le_rfl, le_rfl⟩)] at hcode
    rw [hbuilt (by omega), marked_one hlt.le hkn le_rfl, ← hcode]
    simp
  · -- the position lies behind the prefix and is never sorted
    rcases lt_or_ge 1 p with hp1 | hp1
    · refine ⟨marked (p - 1) p, marked_isInt (p - 1) p, ?_⟩
      rw [hbuilt (by omega), hbeyond _ _ hge, marked_zero (by omega) (.inr (by omega)), marked]
      simp
    · refine ⟨marked 1 2, marked_isInt 1 2, ?_⟩
      rw [hbuilt (by omega), hbeyond _ _ hge, marked_one (by omega) (by omega) (by omega), marked,
        if_neg (by omega)]
      simp

/-- A sample that is not whole, with `p` larger ones in the ring. -/
def halved (p : Nat) : Nat → ℚ := fun i => if i = 0 then 1 / 2 else if i ≤ p then 1 else 0

lemma halved_order {p : Nat} (hp : p < n) : (descending n (halved p))[p]? = some (1 / 2) := by
  refine descending_getElem? ?_ ?_
  · have hsub : (Finset.range n).filter ((1 / 2 : ℚ) < halved p ·) ⊆ Finset.Icc 1 p := by
      intro i hi
      rw [Finset.mem_filter, halved] at hi
      rw [Finset.mem_Icc]
      obtain ⟨-, hi⟩ := hi
      split_ifs at hi with h0 hip
      · exact absurd hi (lt_irrefl _)
      · omega
      · norm_num at hi
    have hcard := Finset.card_le_card hsub
    rw [Nat.card_Icc] at hcard
    omega
  · have hsup : Finset.range (p + 1) ⊆ (Finset.range n).filter ((1 / 2 : ℚ) ≤ halved p ·) := by
      intro i hi
      rw [Finset.mem_range] at hi
      rw [Finset.mem_filter, Finset.mem_range, halved]
      refine ⟨by omega, ?_⟩
      split_ifs with h0 hip
      · exact le_rfl
      · norm_num
      · omega
    have hcard := Finset.card_le_card hsup
    rw [Finset.card_range] at hcard
    omega

/-- The sample is cut when it moves down from the root, and no order statistic is left of it. -/
lemma exists_misread_fraction {p : Nat} (hp : 0 < p) (hpn : p < n) (m : Nat) :
    (descending n (halved p))[p]? ≠ some (heapSort m (buildmaxheap n (halved p)) p) := by
  have hone : 1 < n := by omega
  have hstart : Crowned (· ≥ ·) n (n / 2 + 1) (halved p) (halved p) := .start (by omega)
  have hwhole : ∀ i, ∃ z : Int, buildmaxheap n (halved p) i = z := by
    refine hstart.build_forall (Q := fun q : ℚ => ∃ z : Int, q = z) truncate_isInt hone
      ?_ fun i hi => ?_
    · rw [halved, halved, if_pos rfl, if_pos (show 1 ≤ p from hp)]
      norm_num
    · rw [halved, if_neg (by omega)]
      split
      · exact ⟨1, by simp⟩
      · exact ⟨0, by simp⟩
  obtain ⟨σ, -, hσ⟩ := heapSort_permutes m (buildmaxheap n (halved p))
  obtain ⟨z, hz⟩ := hwhole (σ p)
  rw [halved_order hpn, hσ, comp_apply, hz]
  intro h
  have hhalf : (1 / 2 : ℚ) = z := some.inj h
  have htwo : (1 : ℚ) = ((2 * z : Int) : ℚ) := by
    rw [Int.cast_mul, ← hhalf]
    norm_num
  have hint : (1 : Int) = 2 * z := by exact_mod_cast htwo
  omega

/-- The first position is always read right, it is the root of the heap. -/
lemma first_exact (hn : 0 < n) (arr : Nat → ℚ) :
    (descending n arr)[0]? = some (heapSort 1 (buildmaxheap n arr) 0) := by
  obtain ⟨y, hy, hroot⟩ := (heapSort_permutes 1 (buildmaxheap n arr)).exists_lt one_pos
  obtain rfl : y = 0 := by omega
  obtain ⟨⟨y, hy, hmem⟩, hmax⟩ := buildmaxheap_root hn arr
  refine descending_getElem? ?_ ?_
  · rw [Finset.filter_false_of_mem, Finset.card_empty]
    intro i hi
    exact not_lt.2 (hmax i (Finset.mem_range.1 hi))
  · exact Finset.card_pos.2 ⟨y, Finset.mem_filter.2 ⟨Finset.mem_range.2 hy, hmem.le⟩⟩

/-- A ring of whole numbers that is sorted as a whole is read right everywhere. -/
lemma whole_exact (h : ∀ i < n, ∃ z : Int, arr i = z) (hk : k < n) :
    (descending n arr)[k]? = some (heapSort n (buildmaxheap n arr) k) := by
  have hstart : Crowned (· ≥ ·) n (n / 2 + 1) arr arr := .start (by omega)
  have hperm : Permutes n arr (buildmaxheap n arr) := And.left <| hstart.build_lossless
    fun i x hx hxn _ => truncate_eq_self.2 (h i (hx.le.trans_lt hxn))
  rw [← descending_eq_of_permutes hperm]
  exact heapSort_getElem? _ hk

/-- A buffer with the given ring whose values are due. -/
def PercentilePlan.due (plan : PercentilePlan) (arr : Nat → ℚ) : PercentileBuffer :=
  ⟨plan, arr, fun _ => 0, 0, 0, false⟩

section Exact

variable {plan : PercentilePlan} {positive : Prop} (h : plan.Sound positive)
include h

lemma PercentilePlan.Sound.exact_flat (hno : ¬ positive)
    (hplan : pb.plan = plan) (hdue : pb.needSort = true) : QuantilesExact pb := by
  subst hplan
  rw [quantilesExact_iff hdue]
  have hn := h.ten
  have hsort : pb.plan.sortsize = 1 := by
    rcases h.sorts with ⟨-, hall⟩ | ⟨k, hk, -, -, hleast⟩
    · have := hall 0 (by rw [h.flat hno]; exact Nat.zero_le _)
      omega
    · rw [h.flat hno] at hleast
      rw [hk]
      rcases hleast with rfl | hleast
      · rfl
      · omega
  intro ip hip
  have hle := h.le ip hip
  rw [h.flat hno] at hle
  obtain rfl : ip = 0 := by omega
  rw [hsort]
  exact first_exact (by omega) _

lemma PercentilePlan.Sound.exact_whole (hall : ∀ k, plan.percentilemax ≤ 2 ^ k → plan.n ≤ 2 ^ k)
    (hplan : pb.plan = plan) (hdue : pb.needSort = true)
    (hwhole : ∀ i < plan.n, ∃ z : Int, pb.arr i = z) : QuantilesExact pb := by
  subst hplan
  rw [quantilesExact_iff hdue]
  have hsort : pb.plan.sortsize = pb.plan.n := by
    rcases h.sorts with ⟨hsort, -⟩ | ⟨k, -, hlt, hle, -⟩
    · exact hsort
    · exact absurd (hall k hle) (by omega)
  intro ip hip
  rw [hsort]
  exact whole_exact hwhole (h.lt ip hip)

lemma PercentilePlan.Sound.last_of_exact (hpos : positive)
    (hexact : QuantilesExact (plan.due arr)) : (descending plan.n arr)[plan.percentilemax]? =
      some (heapSort plan.sortsize (buildmaxheap plan.n arr) plan.percentilemax) :=
  (quantilesExact_iff rfl).1 hexact _ (h.last hpos).2

end Exact

/-- The values emitted are the order statistics of every ring if and only if no quantile is
positive, that is if only the maximum is asked for. For rings of whole numbers they also are
where no power of two lies between the last position and the size of the ring, and in no other
case. -/
theorem quantiles_exact_iff (ac : PercentileDefaults) (percentile : List Int)
    (bufferMin calcEvery : Int) :
    let plan := percentilePlan ac percentile bufferMin calcEvery
    ((∀ pb : PercentileBuffer, pb.plan = plan → pb.needSort = true → QuantilesExact pb) ↔
      ∀ p ∈ percentile, p ≤ 0) ∧
    ((∀ pb : PercentileBuffer, pb.plan = plan → pb.needSort = true →
        (∀ i < plan.n, ∃ z : Int, pb.arr i = z) → QuantilesExact pb) ↔
      (∀ p ∈ percentile, p ≤ 0) ∨ ∀ k, plan.percentilemax ≤ 2 ^ k → plan.n ≤ 2 ^ k) := by
  intro plan
  have hsound := percentilePlan_sound ac percentile bufferMin calcEvery
  have hnone : (∀ p ∈ percentile, p ≤ 0) ↔ ¬ ∃ p ∈ percentile, 0 < p := by
    push Not
    rfl
  rw [hnone]
  refine ⟨⟨fun hall hpos => ?_, fun hno pb hplan hdue => hsound.exact_flat hno hplan hdue⟩,
    fun hall => ?_, ?_⟩
  · exact exists_misread_fraction (hsound.last hpos).1 (hsound.lt _ (hsound.last hpos).2) _
      (hsound.last_of_exact hpos (hall (plan.due _) rfl rfl))
  · by_contra hcond
    rw [not_or, not_not] at hcond
    obtain ⟨hpos, hgap⟩ := hcond
    rcases hsound.sorts with ⟨-, hk⟩ | ⟨k, hk, hkn, hpk, hleast⟩
    · exact hgap hk
    · obtain ⟨arr, hwhole, hbad⟩ :=
        exists_misread_prefix hsound.ten (hsound.last hpos).1 hpk hkn hleast
      have hexact := hsound.last_of_exact hpos (hall (plan.due arr) rfl rfl fun i _ => hwhole i)
      rw [hk] at hexact
      exact hbad hexact
  · rintro (hno | hall) pb hplan hdue hwhole
    · exact hsound.exact_flat hno hplan hdue
    · exact hsound.exact_whole hall hplan hdue hwhole

/-- The quantile 0.5 of the samples 1, 1, 1, 1, 1, 0, 0, 0, 1, 0 is the sample at position 5 of
the descending ring, which is 1. Only the first eight samples are sorted, and 0 is emitted. -/
theorem quantiles_exact_median :
    let plan := percentilePlan ⟨0, 0⟩ [5] 0 0
    plan.ipercentile = [5] ∧ (descending plan.n (marked 5 8))[5]? = some 1 ∧
      (calcPercentiles (plan.due (marked 5 8))).2 = [0] := by
  have hplan : percentilePlan ⟨0, 0⟩ [5] 0 0 = ⟨10, [5], [5], 5, 8, 0⟩ := by decide
  have hcode := heapSort_getElem? (marked 5 8) (show 5 < 8 by decide)
  rw [marked_zero (by decide) (.inl ⟨le_rfl, le_rfl⟩), some_inj] at hcode
  have hbuilt : buildmaxheap 10 (marked 5 8) = marked 5 8 :=
    buildmaxheap_of_ordered (marked_ordered 10 (by decide))
  rw [hplan]
  refine ⟨rfl, marked_one (by decide) (by decide) le_rfl, ?_⟩
  rw [calcPercentiles_values rfl]
  simp [PercentilePlan.due, hbuilt, ← hcode]

/-! ## The samples of a ring -/

/-- The buffer after the first samples of a sequence. -/
def heapInsertFirst (pb : PercentileBuffer) (key : Nat → ℚ) : Nat → PercentileBuffer
  | 0 => pb
  | m + 1 => heapInsertAt (heapInsertFirst pb key m) (key m)

/-- What a slot holds after `r` samples of round `q`. The slots not yet reached hold the samples
of the round before, unless the first sample of this round filled the ring. -/
def ringSlot (n : Nat) (key : Nat → ℚ) (q r j : Nat) : ℚ :=
  if j < r then key (q * n + j)
  else if q = 0 ∨ key ((q - 1) * n + 1) = 0 then key (q * n)
  else key ((q - 1) * n + j)

/-- A ring that was cold at first, after `r` samples of round `q`. -/
structure Fed (n : Nat) (key : Nat → ℚ) (q r : Nat) (pb : PercentileBuffer) : Prop where
  size : pb.plan.n = n
  cur : pb.cur = r
  slot : ∀ j < n, pb.arr j = ringSlot n key q r j

section Ring

variable {n q r : Nat} {key : Nat → ℚ} {pb : PercentileBuffer} {x : ℚ}

/-- The first sample of a round leaves the other slots only where slot 1 does not hold 0. -/
lemma heapInsertAt_first (hcur : pb.cur = 0 ∨ pb.plan.n ≤ pb.cur) {j : Nat} (hj : j < pb.plan.n) :
    (heapInsertAt pb x).arr j = if j = 0 ∨ pb.arr 1 = 0 then x else pb.arr j := by
  have hzero : (if pb.plan.n ≤ pb.cur then 0 else pb.cur) = 0 := by
    split <;> omega
  rw [heapInsertAt]
  rw [hzero]
  cases j with
  | zero => split <;> simp
  | succ j => by_cases h : pb.arr 1 = 0 <;> simp [h, hj]

lemma heapInsertAt_next (hpos : 0 < pb.cur) (hcur : pb.cur < pb.plan.n) :
    (heapInsertAt pb x).arr = update pb.arr pb.cur x := by
  simp [heapInsertAt, not_le.2 hcur, hpos.ne']

lemma Fed.first (hn : 2 ≤ n) (h : Fed n key q n pb) :
    Fed n key (q + 1) 1 (heapInsertAt pb (key ((q + 1) * n))) where
  size := h.size
  cur := by simp [heapInsertAt, h.size, h.cur]
  slot := fun j hj => by
    rw [heapInsertAt_first (.inr (h.size.trans h.cur.symm).le) (h.size.symm ▸ hj), h.slot 1 hn,
      h.slot j hj, ringSlot, if_pos (show 1 < n from hn), ringSlot, if_pos hj, ringSlot]
    cases j with
    | zero | succ j => simp

lemma Fed.next (hr : 0 < r) (hrn : r < n) (h : Fed n key q r pb) :
    Fed n key q (r + 1) (heapInsertAt pb (key (q * n + r))) where
  size := h.size
  cur := by simp [heapInsertAt, h.size, h.cur, not_le.2 hrn]
  slot := fun j hj => by
    have hcur : pb.cur < pb.plan.n := h.cur.symm ▸ h.size.symm ▸ hrn
    rw [heapInsertAt_next (h.cur.symm ▸ hr) hcur, h.cur]
    obtain hlt | rfl | hgt := lt_trichotomy j r
    · rw [update_of_ne hlt.ne, h.slot j hj, ringSlot, ringSlot, if_pos hlt,
        if_pos (Nat.lt_succ_of_lt hlt)]
    · rw [update_self, ringSlot, if_pos (Nat.lt_succ_self j)]
    · rw [update_of_ne hgt.ne', h.slot j hj, ringSlot, ringSlot, if_neg hgt.not_gt,
        if_neg (show ¬ j < r + 1 by omega)]

/-- The rounds of a cold ring, by induction on the samples. -/
lemma fed_heapInsertFirst (hn : 2 ≤ pb.plan.n) (hcur : pb.cur = 0) (hcold : pb.arr 1 = 0)
    (key : Nat → ℚ) (m : Nat) :
    Fed pb.plan.n key (m / pb.plan.n) (m % pb.plan.n + 1) (heapInsertFirst pb key (m + 1)) := by
  have hpos : 0 < pb.plan.n := by omega
  induction m with
  | zero =>
    rw [Nat.zero_mod, heapInsertFirst, heapInsertFirst]
    exact
      { size := rfl
        cur := by simp [heapInsertAt, hcur]
        slot := fun j hj => by
          rw [heapInsertAt_first (.inl hcur) hj, if_pos (.inr hcold)]
          cases j with
          | zero => simp [ringSlot]
          | succ j => simp [ringSlot] }
  | succ m ih =>
    have hm := Nat.div_add_mod' m pb.plan.n
    obtain hfull | hmore : m % pb.plan.n + 1 = pb.plan.n ∨ m % pb.plan.n + 1 < pb.plan.n :=
      (Nat.succ_le_of_lt (Nat.mod_lt m hpos)).eq_or_lt
    · have hwrap : m + 1 = (m / pb.plan.n + 1) * pb.plan.n := by
        rw [add_mul]
        omega
      rw [hfull] at ih
      have hstep := ih.first hn
      rw [← hwrap] at hstep
      rw [hwrap, Nat.mul_div_cancel _ hpos, Nat.mul_mod_left, ← hwrap]
      exact hstep
    · have hdiv : (m + 1) / pb.plan.n = m / pb.plan.n :=
        Nat.div_eq_of_lt_le (by omega) (by rw [Nat.succ_mul]; omega)
      have hmod : (m + 1) % pb.plan.n = m % pb.plan.n + 1 := by
        rw [Nat.add_mod, Nat.mod_eq_of_lt (show 1 < pb.plan.n from hn), Nat.mod_eq_of_lt hmore]
      have hstep := ih.next (Nat.add_one_pos _) hmore
      rw [← add_assoc, hm] at hstep
      rw [hdiv, hmod]
      exact hstep

lemma map_range_split {f : Nat → ℚ} (h : r ≤ n) :
    (List.range n).map f = (List.range r).map f ++ (List.range (n - r)).map fun i => f (r + i) := by
  rw [← Nat.add_sub_cancel' h, List.range_add, List.map_append, List.map_map,
    Nat.add_sub_cancel_left]
  rfl

/-- The slots that this round did not reach. -/
lemma Fed.behind (h : Fed n key q r pb) (hr : r ≤ n) (hm : n ≤ q * n + r) :
    ((List.range (n - r)).map fun i => pb.arr (r + i)) =
      if key (q * n - n + 1) = 0 then List.replicate (n - r) (key (q * n))
      else (List.range (n - r)).map fun i => key (q * n + r - n + i) := by
  cases q with
  | zero =>
    have hfull : n - r = 0 := by omega
    simp [hfull]
  | succ q =>
    have hround : (q + 1) * n - n = q * n := by rw [Nat.succ_mul, Nat.add_sub_cancel]
    have hslot : ∀ i < n - r, pb.arr (r + i) =
        if key (q * n + 1) = 0 then key ((q + 1) * n) else key ((q + 1) * n + r - n + i) := by
      intro i hi
      have hlast : (q + 1) * n + r - n + i = q * n + (r + i) := by
        rw [Nat.succ_mul]
        omega
      rw [h.slot (r + i) (by omega), ringSlot, hlast]
      simp
    rw [hround]
    split
    · case isTrue hfill =>
        refine eq_replicate_iff.2 ⟨by simp, fun x hx => ?_⟩
        obtain ⟨i, hi, rfl⟩ := mem_map.1 hx
        rw [hslot i (mem_range.1 hi), if_pos hfill]
    · case isFalse hkept =>
        refine map_congr_left fun i hi => ?_
        rw [hslot i (mem_range.1 hi), if_neg hkept]

/-- The slots behind the last sample decide whether the ring holds the last samples. -/
lemma Fed.perm_iff (h : Fed n key q r pb) (hr : r ≤ n) (hm : n ≤ q * n + r) :
    ((List.range n).map pb.arr).Perm ((List.range n).map fun i => key (q * n + r - n + i)) ↔
      key (q * n - n + 1) ≠ 0 ∨ ∀ i, q * n + r - n ≤ i → i < q * n → key i = key (q * n) := by
  have hreached : (List.range r).map pb.arr = (List.range r).map fun i => key (q * n + i) := by
    refine map_congr_left fun i hi => ?_
    rw [h.slot i ((mem_range.1 hi).trans_le hr), ringSlot, if_pos (mem_range.1 hi)]
  have hlast : (List.range (n - (n - r))).map (fun i => key (q * n + r - n + (n - r + i))) =
      (List.range r).map fun i => key (q * n + i) := by
    rw [Nat.sub_sub_self hr]
    exact map_congr_left fun i _ => congrArg key (by omega)
  rw [map_range_split hr, map_range_split (Nat.sub_le n r), hreached, hlast, h.behind hr hm]
  refine ((perm_append_comm.congr_right _).trans (List.perm_append_left_iff _)).trans ?_
  split
  · case isTrue hfill =>
      rw [List.perm_comm, List.perm_replicate, List.eq_replicate_iff]
      simp only [hfill, ne_eq, not_true_eq_false, false_or, length_map, List.length_range,
        List.forall_mem_map, mem_range, true_and]
      constructor
      · intro hall i hlow hhigh
        have := hall (i - (q * n + r - n)) (by omega)
        rwa [Nat.add_sub_cancel' hlow] at this
      · intro hall i hi
        exact hall _ (by omega) (by omega)
  · case isFalse hkept => simp [hkept]

end Ring

/-- A ring of `n` slots without a window holds the last `n` of its samples if and only if the
last round did not fill it, that is slot 1 did not hold 0 when the round began, or the samples
lost to the fill are equal to the one that filled the ring. -/
theorem ring_latest_iff (ac : PercentileDefaults) (percentile : List Int)
    (bufferMin calcEvery : Int) (key : Nat → ℚ) (m : Nat) :
    let pb := initPercentileBufferOpts ac percentile bufferMin calcEvery
    let n := pb.plan.n
    let start := (m - 1) / n * n
    n ≤ m →
      (((List.range n).map (heapInsertFirst pb key m).arr).Perm
          ((List.range n).map fun i => key (m - n + i)) ↔
        key (start - n + 1) ≠ 0 ∨ ∀ i, m - n ≤ i → i < start → key i = key start) := by
  intro pb n start hm
  have hten : 10 ≤ n := (percentilePlan_sound ac percentile bufferMin calcEvery).ten
  obtain ⟨m, rfl⟩ : ∃ m', m = m' + 1 := ⟨m - 1, by omega⟩
  have hfed : Fed n key (m / n) (m % n + 1) (heapInsertFirst pb key (m + 1)) :=
    fed_heapInsertFirst (hten.trans' (by decide)) rfl rfl key m
  have hdiv : m / n * n + (m % n + 1) = m + 1 := by
    rw [← add_assoc, Nat.div_add_mod']
  have hiff := hfed.perm_iff (Nat.mod_lt m (by omega)) (hdiv.symm ▸ hm)
  rw [hdiv] at hiff
  exact hiff

/-- The ring for the quantile 0.5 has ten slots. Its second sample is 0, so the eleventh sample
overwrites the nine before it. -/
theorem ring_latest_zero :
    let pb := initPercentileBufferOpts ⟨0, 0⟩ [5] 0 0
    let key : Nat → ℚ := fun i => if i = 1 then 0 else i
    pb.plan.n = 10 ∧
      (List.range 10).map (fun i => key (11 - 10 + i)) = [0, 2, 3, 4, 5, 6, 7, 8, 9, 10] ∧
      (List.range 10).map (heapInsertFirst pb key 11).arr = List.replicate 10 10 := by
  decide

theorem ring_latest_iff_ten :
    let pb := initPercentileBufferOpts ⟨0, 0⟩ [5] 0 0
    ((List.range pb.plan.n).map (heapInsertFirst pb (fun i => i + 1) 11).arr).Perm
      ((List.range pb.plan.n).map fun i => ((11 - pb.plan.n + i : Nat) : ℚ) + 1) :=
  (ring_latest_iff ⟨0, 0⟩ [5] 0 0 (fun i => i + 1) 11 (by decide)).2
    (.inl (by decide +kernel))

end Alligator
