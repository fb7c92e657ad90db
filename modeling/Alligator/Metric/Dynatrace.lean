import Alligator.Metric.Labels
import Mathlib.Algebra.Order.Ring.Rat
import Mathlib.Algebra.BigOperators.Group.List.Basic

/-!
# Counter deltas

A counter is exported to Dynatrace as its increase since the export before.  The last value is
kept under a text made of the name and the labels, so two series with one text share it.
-/

namespace Alligator

open List Function

/-- `dynatrace_series_key`; a label without a key leaves its name. -/
def dynatraceSeriesKey (labels : Labels) : Str :=
  (((keyOf labels).getD []).takeWhile (· ≠ 0) ++ labels.tail.flatMap fun l =>
    if l.name = [] then [] else 44 :: l.name ++ 61 :: l.key.getD []).takeWhile (· ≠ 0)

/-- `dynatrace_counter_delta`: the last values and the delta of an export. -/
def dynatraceCounterDelta (last : Str → Option ℚ) (seriesKey : Str) (current : ℚ) :
    (Str → Option ℚ) × ℚ :=
  (update last seriesKey (some current),
    match last seriesKey with
    | none => current
    | some prev => if current < prev then current else current - prev)

/-- The deltas of a run of exports, each of a series and its value. -/
def dynatraceDeltas (last : Str → Option ℚ) : List (Labels × ℚ) → List (Labels × ℚ)
  | [] => []
  | (x, current) :: run =>
    let r := dynatraceCounterDelta last (dynatraceSeriesKey x) current
    (x, r.2) :: dynatraceDeltas r.1 run

/-- The numbers of one series, whatever chains it was exported with. -/
def numbersOf (k : SeriesKey) (run : List (Labels × ℚ)) : List ℚ :=
  (run.filter (seriesKey ·.1 = k)).map Prod.snd

/-- How much a counter grows over the exports behind one, a fall being a restart from zero. -/
def growth : ℚ → List ℚ → ℚ
  | _, [] => 0
  | prev, current :: values =>
    (if prev ≤ current then current - prev else current) + growth current values

variable {k : SeriesKey} {text : Str} {y : Labels} {run : List (Labels × ℚ)}
variable {last : Str → Option ℚ} {v : ℚ} {vs : List ℚ}

lemma numbersOf_self (h : seriesKey y = k) :
    numbersOf k ((y, v) :: run) = v :: numbersOf k run := by
  simp [numbersOf, h]

lemma numbersOf_ne (h : seriesKey y ≠ k) : numbersOf k ((y, v) :: run) = numbersOf k run := by
  simp [numbersOf, h]

/-- From an export on, the deltas of a series add up.  The induction is on the run. -/
lemma sum_dynatraceDeltas {prev : ℚ}
    (hkey : ∀ y ∈ run, dynatraceSeriesKey y.1 = text ↔ seriesKey y.1 = k)
    (hlast : last text = some prev) :
    (numbersOf k (dynatraceDeltas last run)).sum = growth prev (numbersOf k run) := by
  induction run generalizing last prev with
  | nil => rfl
  | cons y run ih =>
    obtain ⟨hy, hrun⟩ := forall_mem_cons.mp hkey
    by_cases h : seriesKey y.1 = k
    · rw [dynatraceDeltas, numbersOf_self h, numbersOf_self h, sum_cons, growth,
        dynatraceCounterDelta, hy.2 h, ih hrun (update_self ..), hlast]
      simp only [← not_lt, ite_not]
    · rw [dynatraceDeltas, numbersOf_ne h, numbersOf_ne h]
      exact ih hrun ((update_of_ne (fun e => h (hy.1 e.symm)) ..).trans hlast)

/-- The deltas of a series behind its first export add up to its growth, when its exports are
those with one key. -/
lemma dynatraceDeltas_sum (hx : numbersOf k run = v :: vs)
    (hkey : ∀ y ∈ run, dynatraceSeriesKey y.1 = text ↔ seriesKey y.1 = k)
    (hlast : last text = none) :
    ∃ deltas, numbersOf k (dynatraceDeltas last run) = v :: deltas ∧ deltas.sum = growth v vs := by
  induction run generalizing last with
  | nil => cases hx
  | cons y run ih =>
    obtain ⟨hy, hrun⟩ := forall_mem_cons.mp hkey
    by_cases h : seriesKey y.1 = k
    · rw [numbersOf_self h] at hx
      cases hx
      rw [dynatraceDeltas, numbersOf_self h, dynatraceCounterDelta, hy.2 h, hlast]
      exact ⟨_, rfl, sum_dynatraceDeltas hrun (update_self ..)⟩
    · rw [numbersOf_ne h] at hx
      rw [dynatraceDeltas, numbersOf_ne h]
      exact ih hx hrun ((update_of_ne (fun e => h (hy.1 e.symm)) ..).trans hlast)

/-- The deltas of a series add up in every run of exports of some chains if and only if the chains
of the series have one key, which no other of the chains has. -/
theorem dynatrace_deltas_iff (k : SeriesKey) (chains : Set Labels) :
    (∀ run : List (Labels × ℚ), (∀ y ∈ run, y.1 ∈ chains) → ∀ v vs, numbersOf k run = v :: vs →
      ∃ deltas, numbersOf k (dynatraceDeltas (fun _ => none) run) = v :: deltas ∧
        deltas.sum = growth v vs) ↔
      ∀ x ∈ chains, seriesKey x = k → ∀ y ∈ chains,
        (dynatraceSeriesKey y = dynatraceSeriesKey x ↔ seriesKey y = k) := by
  constructor
  · rintro hsum x hx rfl y hy
    by_contra hne
    by_cases h : seriesKey y = seriesKey x
    · -- the series is exported again under another key
      have htext : dynatraceSeriesKey y ≠ dynatraceSeriesKey x := fun e => hne (by simp [e, h])
      obtain ⟨deltas, hd, hgrowth⟩ := hsum [(x, 10), (y, 12)] (by simp [hx, hy]) 10 [12]
        (by simp [numbersOf, h])
      simp [numbersOf, dynatraceDeltas, dynatraceCounterDelta, h, htext] at hd
      subst hd
      exact absurd hgrowth (by decide +kernel)
    · -- another series takes the last value
      have htext : dynatraceSeriesKey y = dynatraceSeriesKey x := by simpa [h] using hne
      obtain ⟨deltas, hd, hgrowth⟩ := hsum [(x, 10), (y, 3), (x, 11)] (by simp [hx, hy]) 10 [11]
        (by simp [numbersOf, h])
      simp [numbersOf, dynatraceDeltas, dynatraceCounterDelta, h, htext] at hd
      subst hd
      exact absurd hgrowth (by decide +kernel)
  · intro hkey run hrun v vs hx
    obtain ⟨x, hxrun, hk⟩ : ∃ x ∈ run, seriesKey x.1 = k := by
      have hmem : v ∈ numbersOf k run := by rw [hx]; exact mem_cons_self
      obtain ⟨x, hx, -⟩ := mem_map.1 hmem
      exact ⟨x, mem_of_mem_filter hx, by simpa using (mem_filter.1 hx).2⟩
    exact dynatraceDeltas_sum hx (fun y hy => hkey x.1 (hrun x hxrun) hk y.1 (hrun y hy)) rfl

/-- The key of one label is that of two: the second delta of the first series is 8, not 1. -/
theorem dynatrace_deltas_mixed :
    let x : Labels := [⟨mainMetricName, some (cstr "m")⟩, ⟨cstr "a", some (cstr "1,b=2")⟩]
    let y : Labels := [⟨mainMetricName, some (cstr "m")⟩, ⟨cstr "a", some (cstr "1")⟩,
      ⟨cstr "b", some (cstr "2")⟩]
    numbersOf (seriesKey x) (dynatraceDeltas (fun _ => none) [(x, 10), (y, 3), (x, 11)]) = [10, 8] ∧
      growth 10 [11] = 1 := by
  decide +kernel

end Alligator
