import Alligator.Lib.Double
import Alligator.Mapping.Template
import Alligator.Metric.Dump
import Alligator.Metric.Percentile

/-!
# Mapping processing

A sample that is written is held against the mappings of its context.  A mapping that matches
the name of the series writes samples of its own, for the quantiles or the buckets, with the
same context, and these are held against the mappings again.  `metric_add` stops at names that
look derived, `metric_update` does not.

The processing ends after one round for the samples that `Apart` describes, and only for these
no derived series is mapped again.
-/

namespace Alligator

open Text List Function Option

/-! ## Writes and buffers -/

inductive WritePath where
  | add
  | update
  deriving DecidableEq

/-- A sample on its way to the mappings, with the number that `metric_get_double` makes of its
value. -/
structure MappedWrite where
  path : WritePath
  name : Str
  labels : LabelHash
  dval : Int

def MappedWrite.key (w : MappedWrite) : SeriesKey := (w.name, w.labels.pairs.toFinset)

/-- A plan has a quantile, and a position for each. -/
def PercentilePlan.Paired (plan : PercentilePlan) : Prop :=
  plan.percentile ≠ [] ∧ plan.ipercentile.length = plan.percentile.length

lemma percentilePlan_paired (ac : PercentileDefaults) (percentile : List Int)
    (bufferMin calcEvery : Int) : (percentilePlan ac percentile bufferMin calcEvery).Paired := by
  constructor
  · simp only [percentilePlan]
    split
    · exact cons_ne_nil _ _
    · assumption
  · simp [percentilePlan]

/-- The percentile buffer of a series.  The quantiles of a window are written without a context,
so that nothing of such a buffer meets a mapping. -/
inductive QuantileBuffer where
  | ring (pb : PercentileBuffer) (paired : pb.plan.Paired)
  | window

abbrev Buffers := SeriesKey → Option QuantileBuffer

structure QuantileDefaults extends PercentileDefaults where
  quantileWindow : Int

/-! ## The samples that a mapping derives -/

/-- `snprintf` of a name and a suffix into 255 bytes. -/
def derivedName (name suffix : Str) : Str := (name ++ suffix).take 254

/-- `calc_buckets`: the keys of the buckets that are counted, with the bound before. -/
def bucketKeys (d : BitVec 64) : BitVec 64 → List (BitVec 64) → List Str
  | _, [] => []
  | preKey, b :: bs =>
    (if Binary64.lt d b && Binary64.le preKey d then [(Binary64.printLg b).take 29]
      else if Binary64.lt b d && bs.isEmpty then [cstr "+Inf"]
      else []) ++ bucketKeys d b bs

def calcBuckets (bucket : List (BitVec 64)) (w : MappedWrite) : List MappedWrite :=
  (bucketKeys (Binary64.ofInt w.dval) 0 bucket).map fun key =>
    ⟨.update, derivedName w.name (cstr "_bucket"), w.labels.insert (cstr "bucket") key, 1⟩

def leKeys (d : BitVec 64) (le : List (BitVec 64)) : List Str :=
  if le = [] then []
  else ((le.filter (Binary64.le d)).map fun b => (Binary64.printLg b).take 29) ++ [cstr "+Inf"]

variable (le : List (BitVec 64))

def calcBucketsCumulative (w : MappedWrite) : List MappedWrite :=
  (leKeys (Binary64.ofInt w.dval) le).map fun key =>
    ⟨.update, derivedName w.name (cstr "_le"), w.labels.insert (cstr "le") key, 1⟩

def emitQuantile (w : MappedWrite) (percentile : Int) (value : ℚ) : MappedWrite :=
  let key := if percentile = -1 then cstr "1.0" else cstr "0." ++ printInt percentile
  ⟨.add, derivedName w.name (cstr "_quantile"), w.labels.insert (cstr "quantile") key,
    value.num.tdiv value.den⟩

variable (pb : PercentileBuffer)

lemma heapInsertAt_plan (key : ℚ) : (heapInsertAt pb key).plan = pb.plan:= rfl

lemma calcPercentiles_plan : (calcPercentiles pb).1.plan = pb.plan := by
  rw [calcPercentiles]
  split <;> rfl

lemma calcPercentiles_length : (calcPercentiles pb).2.length = pb.plan.ipercentile.length := by
  rw [calcPercentiles]
  split <;> exact length_map _

/-- A buffer whose quantiles are written with the context. -/
def QuantileBuffer.isRing : QuantileBuffer → Bool
  | .ring _ _ => true
  | .window => false

/-- The buffer that a mapping with quantiles gives to a series without one. -/
def newBuffer (ac : QuantileDefaults) (mm : Mapping) (percentile : List Int) : QuantileBuffer :=
  let window := if mm.quantileWindow < 0 then ac.quantileWindow else mm.quantileWindow
  if 0 < window then .window
  else .ring (initPercentileBufferOpts ac.toPercentileDefaults percentile mm.percentileBufferMin
    mm.percentileCalcEvery) (percentilePlan_paired _ _ _ _)

/-- The sample enters the ring, and the quantiles are emitted. -/
def calcQuantiles (w : MappedWrite) : QuantileBuffer → QuantileBuffer × List MappedWrite
  | .window => (.window, [])
  | .ring pb paired =>
    let inserted := heapInsertAt pb (Binary64.toRat (Binary64.ofInt w.dval))
    (.ring (calcPercentiles inserted).1 (by rwa [calcPercentiles_plan, heapInsertAt_plan]),
      (pb.plan.percentile.zip (calcPercentiles inserted).2).map fun q => emitQuantile w q.1 q.2)

/-! ## The recursion -/

def MappedWrite.mapped (w : MappedWrite) : Bool :=
  match w.path with
  | .update => true
  | .add => !numbercheck w.name && !decide (cstr "_quantile" <:+: w.name) &&
      !decide (cstr "_le" <:+: w.name) && !decide (cstr "_bucket" <:+: w.name)

/-- What one mapping does with a sample: the buffers and the samples it writes. -/
def mappingStep (ac : QuantileDefaults) (w : MappedWrite) (st : Buffers) (mm : Mapping) :
    Buffers × List MappedWrite :=
  if (matchAndExtract mm.template w.name).isNone then (st, [])
  else
    match mm.percentile, mm.le, mm.bucket with
    | some percentile, _, _ =>
      let r := calcQuantiles w ((st w.key).getD (newBuffer ac mm percentile))
      (update st w.key (some r.1), r.2)
    | none, some le, _ => (st, calcBucketsCumulative le w)
    | none, none, some bucket => (st, calcBuckets bucket w)
    | none, none, none => (st, [])

/-- The mappings of a sample, each of which writes samples that meet the mappings before the
next mapping is tried.  Without fuel the recursion goes on. -/
def mappingProcessing (ac : QuantileDefaults) (mms : List Mapping) :
    Nat → Buffers → MappedWrite → Option Buffers
  | 0, _, _ => none
  | fuel + 1, st, w =>
    if w.mapped then
      mms.foldlM (fun st mm =>
        let r := mappingStep ac w st mm
        r.2.foldlM (mappingProcessing ac mms fuel) r.1) st
    else some st

/-! ## Derived series -/

/-- The samples that the mappings write for a sample, in their order, as long as none of these
is mapped itself. -/
def derivedBy (ac : QuantileDefaults) (w : MappedWrite) :
    Buffers → List Mapping → List MappedWrite
  | _, [] => []
  | st, mm :: mms =>
    (mappingStep ac w st mm).2 ++ derivedBy ac w (mappingStep ac w st mm).1 mms

/-- Whether a mapping derives anything at all. -/
def Mapping.measures (mm : Mapping) : Bool :=
  mm.percentile.isSome || mm.le.isSome || mm.bucket.isSome

/-- A mapping works on the sample. -/
def MappedAgain (mms : List Mapping) (w : MappedWrite) : Prop :=
  w.mapped = true ∧
    ∃ mm ∈ mms, (matchAndExtract mm.template w.name).isSome = true ∧ mm.measures = true

/-- The processing of a sample ends, and no sample that it derives is mapped again. -/
def MappedOnce (ac : QuantileDefaults) (mms : List Mapping) (st : Buffers) (w : MappedWrite) :
    Prop :=
  (∃ fuel, (mappingProcessing ac mms fuel st w).isSome = true) ∧
    (w.mapped = true → ∀ d ∈ derivedBy ac w st mms, ¬ MappedAgain mms d)

/-- The quantiles of a mapping that matches the sample. -/
def quantilesFor (w : MappedWrite) (mm : Mapping) : Option (List Int) :=
  if (matchAndExtract mm.template w.name).isSome then mm.percentile else none

/-- Whether the series has a ring, or gets one from the first mapping with quantiles. -/
def seriesRing (ac : QuantileDefaults) (w : MappedWrite) (st : Buffers) (mms : List Mapping) :
    Bool :=
  ((st w.key).or (mms.findSome? fun mm => (quantilesFor w mm).map (newBuffer ac mm))).any
    QuantileBuffer.isRing

/-- How and under which name a mapping writes, if it writes. -/
def mappingTarget (ring : Bool) (w : MappedWrite) (mm : Mapping) : Option (WritePath × Str) :=
  if (matchAndExtract mm.template w.name).isNone then none
  else
    match mm.percentile, mm.le, mm.bucket with
    | some _, _, _ => if ring then some (.add, derivedName w.name (cstr "_quantile")) else none
    | none, some le, _ =>
      if le = [] then none else some (.update, derivedName w.name (cstr "_le"))
    | none, none, some bucket =>
      if bucketKeys (Binary64.ofInt w.dval) 0 bucket = [] then none
      else some (.update, derivedName w.name (cstr "_bucket"))
    | none, none, none => none

/-- No mapping works on a name that the mappings write for the sample. -/
def Apart (ac : QuantileDefaults) (mms : List Mapping) (st : Buffers) (w : MappedWrite) : Prop :=
  w.mapped = true → ∀ mm ∈ mms, ∀ t ∈ mappingTarget (seriesRing ac w st mms) w mm,
    ¬ MappedAgain mms ⟨t.1, t.2, .empty, 0⟩

lemma mappedAgain_congr {mms : List Mapping} {w w' : MappedWrite} (hpath : w.path = w'.path)
    (hname : w.name = w'.name) : MappedAgain mms w ↔ MappedAgain mms w' := by
  rw [MappedAgain, MappedAgain, MappedWrite.mapped, MappedWrite.mapped, hpath, hname]

section Step

variable {ac : QuantileDefaults} {w : MappedWrite} {st : Buffers} {mm : Mapping}
variable {mms : List Mapping}

section

variable (w : MappedWrite)

section

variable (b : QuantileBuffer)

lemma calcQuantiles_isRing : (calcQuantiles w b).1.isRing = b.isRing := by
  cases b <;> rfl

lemma calcQuantiles_name : ∀ d ∈ (calcQuantiles w b).2,
      (d.path, d.name) = (WritePath.add, derivedName w.name (cstr "_quantile")) := by
  intro d hd
  cases b with
  | window => exact (not_mem_nil hd).elim
  | ring pb paired =>
    obtain ⟨q, -, rfl⟩ := mem_map.1 hd
    rfl

lemma calcQuantiles_eq_nil : (calcQuantiles w b).2 = [] ↔ b.isRing = false := by
  cases b with
  | window => exact ⟨fun _ => rfl, fun _ => rfl⟩
  | ring pb paired =>
    have hlen : (calcQuantiles w (.ring pb paired)).2.length = pb.plan.percentile.length := by
      rw [calcQuantiles, length_map, length_zip, calcPercentiles_length,
        heapInsertAt_plan, paired.2, min_self]
    refine ⟨fun hnil => ?_, fun h => nomatch h⟩
    rw [hnil] at hlen
    exact absurd (length_eq_zero_iff.1 hlen.symm) paired.1

end

lemma calcBuckets_name (bucket : List (BitVec 64)) (w : MappedWrite) :
    ∀ d ∈ calcBuckets bucket w,
      (d.path, d.name) = (WritePath.update, derivedName w.name (cstr "_bucket")) := by
  intro d hd
  obtain ⟨key, -, rfl⟩ := mem_map.1 hd
  rfl

lemma calcBucketsCumulative_name : ∀ d ∈ calcBucketsCumulative le w,
      (d.path, d.name) = (WritePath.update, derivedName w.name (cstr "_le")) := by
  intro d hd
  obtain ⟨key, -, rfl⟩ := mem_map.1 hd
  rfl

lemma calcBucketsCumulative_eq_nil : calcBucketsCumulative le w = [] ↔ le = [] := by
  rw [calcBucketsCumulative, leKeys]
  split
  · case isTrue h => exact ⟨fun _ => h, fun _ => rfl⟩
  · case isFalse h => exact ⟨fun hnil => absurd hnil (by simp), fun hle => absurd hle h⟩

end

lemma target_of_uniform {l : List MappedWrite} {p : WritePath × Str}
    {t : Option (WritePath × Str)} (hp : ∀ d ∈ l, (d.path, d.name) = p)
    (ht : t = if l = [] then none else some p) :
    (∀ d ∈ l, t = some (d.path, d.name)) ∧ (l = [] → t = none) := by
  refine ⟨fun d hd => ?_, fun hnil => by rw [ht, if_pos hnil]⟩
  rw [ht, if_neg (ne_nil_of_mem hd), hp d hd]

/-- The samples of one mapping all go one way and have one name. -/
lemma mappingStep_target {ring : Bool} (hring : ∀ percentile ∈ quantilesFor w mm,
      ((st w.key).getD (newBuffer ac mm percentile)).isRing = ring) :
    (∀ d ∈ (mappingStep ac w st mm).2, mappingTarget ring w mm = some (d.path, d.name)) ∧
      ((mappingStep ac w st mm).2 = [] → mappingTarget ring w mm = none) := by
  rw [mappingStep, mappingTarget]
  rw [quantilesFor] at hring
  cases hmatch : matchAndExtract mm.template w.name with
  | none => exact ⟨fun d hd => (not_mem_nil hd).elim, fun _ => rfl⟩
  | some fields =>
    rw [hmatch, isSome_some] at hring
    rw [isNone_some, if_neg Bool.false_ne_true, if_neg Bool.false_ne_true]
    cases hp : mm.percentile with
    | some percentile =>
      refine target_of_uniform (calcQuantiles_name w _) ?_
      rw [← hring percentile hp]
      simp [calcQuantiles_eq_nil, ← Bool.not_eq_true]
    | none =>
      cases hl : mm.le with
      | some le =>
        refine target_of_uniform (calcBucketsCumulative_name le w) ?_
        simp only [calcBucketsCumulative_eq_nil]
      | none =>
        cases hb : mm.bucket with
        | some bucket =>
          refine target_of_uniform (calcBuckets_name bucket w) ?_
          simp [calcBuckets]
        | none => exact ⟨fun d hd => (not_mem_nil hd).elim, fun _ => rfl⟩

/-- Only a mapping with quantiles touches a buffer, and only that of the series. -/
lemma mappingStep_state : (mappingStep ac w st mm).1 = match quantilesFor w mm with
    | some percentile => update st w.key
        (some (calcQuantiles w ((st w.key).getD (newBuffer ac mm percentile))).1)
    | none => st := by
  rw [mappingStep, quantilesFor]
  cases matchAndExtract mm.template w.name with
  | none => rfl
  | some fields =>
    cases mm.percentile with
    | some percentile => rfl
    | none =>
      cases mm.le with
      | some le => rfl
      | none =>
        cases mm.bucket with
        | some bucket | none => rfl

/-- The first mapping with quantiles decides for the others. -/
lemma seriesRing_step :
    seriesRing ac w (mappingStep ac w st mm).1 mms = seriesRing ac w st (mm :: mms) := by
  rw [mappingStep_state, seriesRing, seriesRing, List.findSome?_cons]
  cases quantilesFor w mm with
  | none => rfl
  | some percentile =>
    dsimp only
    rw [update_self, some_or, any_some, calcQuantiles_isRing]
    cases st w.key with
    | none | some b => rfl

lemma ring_of_quantilesFor {percentile : List Int} (h : percentile ∈ quantilesFor w mm) :
    ((st w.key).getD (newBuffer ac mm percentile)).isRing = seriesRing ac w st (mm :: mms) := by
  rw [seriesRing, List.findSome?_cons, mem_def.1 h]
  cases st w.key with
  | none | some b => rfl

/-- The names of the derived samples are the targets of the mappings. -/
lemma derivedBy_target (st : Buffers) : (∀ d ∈ derivedBy ac w st mms,
      ∃ mm ∈ mms, mappingTarget (seriesRing ac w st mms) w mm = some (d.path, d.name)) ∧
    ∀ mm ∈ mms, ∀ t ∈ mappingTarget (seriesRing ac w st mms) w mm,
      ∃ d ∈ derivedBy ac w st mms, (d.path, d.name) = t := by
  induction mms generalizing st with
  | nil => exact ⟨fun d hd => (nomatch hd), fun mm hmm => (nomatch hmm)⟩
  | cons mm mms ih =>
    have hring : ∀ percentile ∈ quantilesFor w mm,
        ((st w.key).getD (newBuffer ac mm percentile)).isRing = seriesRing ac w st (mm :: mms) :=
      fun percentile h => ring_of_quantilesFor h
    obtain ⟨hstep, hnil⟩ := mappingStep_target hring
    obtain ⟨htail, hcover⟩ := ih (mappingStep ac w st mm).1
    rw [seriesRing_step] at htail hcover
    rw [derivedBy]
    constructor
    · intro d hd
      rcases mem_append.1 hd with hd | hd
      · exact ⟨mm, mem_cons_self, hstep d hd⟩
      · obtain ⟨m, hm, ht⟩ := htail d hd
        exact ⟨m, mem_cons_of_mem _ hm, ht⟩
    · intro m hm t ht
      rcases mem_cons.1 hm with rfl | hm
      · cases hw : (mappingStep ac w st m).2 with
        | nil =>
          rw [hnil hw] at ht
          exact nomatch ht
        | cons d ds =>
          have hd : d ∈ (mappingStep ac w st m).2 := by rw [hw]; exact mem_cons_self
          have hdt := hstep d hd
          rw [mem_def.1 ht] at hdt
          exact ⟨d, mem_append_left _ mem_cons_self, (some.inj hdt).symm⟩
      · obtain ⟨d, hd, hdt⟩ := hcover m hm t ht
        exact ⟨d, mem_append_right _ hd, hdt⟩

end Step

/-! ## One round -/

variable {w : MappedWrite}

section Once

variable {ac : QuantileDefaults} {mms : List Mapping}

/-- A mapping that does not match or that derives nothing leaves everything as it is. -/
lemma mappingStep_idle {mm : Mapping} (st : Buffers)
    (h : ¬ ((matchAndExtract mm.template w.name).isSome = true ∧ mm.measures = true)) :
    mappingStep ac w st mm = (st, []) := by
  rw [mappingStep]
  cases hmatch : matchAndExtract mm.template w.name with
  | none => rfl
  | some fields =>
    rw [hmatch, Mapping.measures] at h
    cases hp : mm.percentile with
    | some p => simp [hp] at h
    | none =>
      cases hl : mm.le with
      | some le => simp [hl] at h
      | none =>
        cases hb : mm.bucket with
        | some bucket => simp [hb] at h
        | none => rfl

lemma foldlM_some {α β : Type*} {f : β → α → Option β} {l : List α} {b : β}
    (h : ∀ a ∈ l, ∀ b, f b a = some b) : l.foldlM f b = some b := by
  induction l generalizing b with
  | nil => rfl
  | cons a l ih =>
    rw [foldlM_cons, h a mem_cons_self]
    exact ih (forall_mem_cons.1 h).2

lemma mappingProcessing_idle (h : ¬ MappedAgain mms w) (fuel : Nat)
    (st : Buffers) : mappingProcessing ac mms (fuel + 1) st w = some st := by
  rw [mappingProcessing]
  split
  · case isTrue hmapped =>
    refine foldlM_some fun mm hmm st => ?_
    rw [mappingStep_idle st fun hmm' => h ⟨hmapped, mm, hmm, hmm'⟩]
    rfl
  · rfl

/-- Where no derived sample is mapped again, two levels of the recursion are enough. -/
lemma mappingProcessing_once {st : Buffers}
    (h : w.mapped = true → ∀ d ∈ derivedBy ac w st mms, ¬ MappedAgain mms d) :
    (mappingProcessing ac mms 2 st w).isSome = true := by
  rw [mappingProcessing]
  split
  · case isTrue hmapped =>
    have hloop : ∀ (l : List Mapping) (st : Buffers),
        (∀ d ∈ derivedBy ac w st l, ¬ MappedAgain mms d) →
        (l.foldlM (fun st mm => (mappingStep ac w st mm).2.foldlM (mappingProcessing ac mms 1)
          (mappingStep ac w st mm).1) st).isSome = true := by
      intro l
      induction l with
      | nil => intro st _; rfl
      | cons mm l ih =>
        intro st hd
        rw [foldlM_cons, foldlM_some fun d hmem st =>
          mappingProcessing_idle (hd d (mem_append_left _ hmem)) 0 st]
        exact ih _ fun d hmem => hd d (mem_append_right _ hmem)
    exact hloop mms st (h hmapped)
  · rfl

end Once

/-- The processing of a sample ends without a derived series being mapped again, if and only if
no mapping with quantiles or bounds matches a name, cut to 254 bytes, that a mapping matching
the sample writes. -/
theorem mapped_once_iff (ac : QuantileDefaults) (mms : List Mapping) (st : Buffers)
    (w : MappedWrite) : MappedOnce ac mms st w ↔ Apart ac mms st w := by
  constructor
  · rintro ⟨-, honce⟩ hmapped mm hmm t ht
    obtain ⟨d, hd, rfl⟩ := (derivedBy_target st).2 mm hmm t ht
    exact fun hagain => honce hmapped d hd ((mappedAgain_congr rfl rfl).2 hagain)
  · intro hapart
    have hnot : w.mapped = true → ∀ d ∈ derivedBy ac w st mms, ¬ MappedAgain mms d := by
      intro hmapped d hd hagain
      obtain ⟨mm, hmm, ht⟩ := (derivedBy_target st).1 d hd
      exact hapart hmapped mm hmm _ ht ((mappedAgain_congr rfl rfl).1 hagain)
    exact ⟨⟨2, mappingProcessing_once hnot⟩, hnot⟩

/-! ## A mapping that never ends -/

/-- A mapping of every name without dots to the bucket of values up to 1. -/
def globMapping : Mapping :=
  ⟨cstr "*", none, [], none, -1, -1, -1, some [Binary64.ofInt 1], none⟩

lemma dotTokens_of_not_mem {s : Str} (hne : s ≠ []) (hdot : 46 ∉ s) : dotTokens s = [s] := by
  have hsplit : s.splitOn 46 = [s] := by
    refine splitOnP_eq_singleton fun c hc => beq_false_of_ne fun h => hdot ?_
    rwa [← h]
  rw [dotTokens, hsplit, filter_cons_of_pos (by simpa using hne), filter_nil]

lemma matchAndExtract_glob {name : Str} (hne : name ≠ []) (hdot : 46 ∉ name) :
    matchAndExtract (cstr "*") name = some [name.take 1023] := by
  have hstar : dotTokens ((cstr "*").take 1023) = [cstr "*"] := by decide
  have hname : dotTokens (name.take 1023) = [name.take 1023] :=
    dotTokens_of_not_mem (by simpa using hne) fun h => hdot (mem_of_mem_take h)
  rw [matchAndExtract, hname]
  rfl

lemma derivedName_undotted {name suffix : Str} (hne : name ≠ []) (hdot : 46 ∉ name)
    (hsuffix : 46 ∉ suffix) : derivedName name suffix ≠ [] ∧ 46 ∉ derivedName name suffix := by
  constructor
  · simpa [derivedName] using fun h => absurd h hne
  · intro h
    rcases mem_append.1 (mem_of_mem_take h) with h | h
    · exact hdot h
    · exact hsuffix h

lemma mappingProcessing_glob (ac : QuantileDefaults) (fuel : Nat) (st : Buffers)
    (w : MappedWrite) (hmapped : w.mapped = true) (hne : w.name ≠ []) (hdot : 46 ∉ w.name) :
    mappingProcessing ac [globMapping] fuel st w = none := by
  induction fuel generalizing st w with
  | zero => rfl
  | succ fuel ih =>
    have hsuffix : 46 ∉ cstr "_le" := by decide
    obtain ⟨hne', hdot'⟩ := derivedName_undotted hne hdot hsuffix
    have hstep : mappingStep ac w st globMapping =
        (st, calcBucketsCumulative [Binary64.ofInt 1] w) := by
      rw [mappingStep, globMapping, matchAndExtract_glob hne hdot]
      rfl
    cases hw : calcBucketsCumulative [Binary64.ofInt 1] w with
    | nil => exact nomatch (calcBucketsCumulative_eq_nil _ _).1 hw
    | cons d ds =>
      have hd : (d.path, d.name) = (WritePath.update, derivedName w.name (cstr "_le")) :=
        calcBucketsCumulative_name _ w d (by rw [hw]; exact mem_cons_self)
      obtain ⟨hpath, hname⟩ := Prod.mk.inj hd
      rw [mappingProcessing, if_pos hmapped, foldlM_cons, hstep, hw]
      rw [foldlM_cons, ih st d (by rw [MappedWrite.mapped, hpath]) (hname ▸ hne')
        (hname ▸ hdot')]
      rfl

/-- With such a mapping the sample `a` is counted in `a_le`, this sample in `a_le_le`, and so
on without end. -/
theorem mapped_once_glob :
    (∀ fuel, mappingProcessing ⟨⟨0, 0⟩, 0⟩ [globMapping] fuel (fun _ => none)
        ⟨.add, cstr "a", .empty, 1⟩ = none) ∧
      ¬ MappedOnce ⟨⟨0, 0⟩, 0⟩ [globMapping] (fun _ => none) ⟨.add, cstr "a", .empty, 1⟩ := by
  have hnone : ∀ fuel, mappingProcessing ⟨⟨0, 0⟩, 0⟩ [globMapping] fuel (fun _ => none)
      ⟨.add, cstr "a", .empty, 1⟩ = none := fun fuel =>
    mappingProcessing_glob _ fuel _ _ (by decide) (by decide) (by decide)
  refine ⟨hnone, fun ⟨⟨fuel, h⟩, _⟩ => ?_⟩
  rw [hnone fuel] at h
  exact nomatch h

end Alligator
