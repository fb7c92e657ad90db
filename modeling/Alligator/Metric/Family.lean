import Alligator.Metric.Exposition

/-!
# The metadata of families

`# TYPE` and `# HELP` lines set the type and the help text of a family.  A type is stored
under the name of the line, and for histograms and summaries under the names of the
components too, unless the name itself ends like a component: then only the name before the
suffix gets it.  A help text is stored under the name before the suffix whatever the type is.

The page looks a family up in a third way, and it always shows the metadata of the family
that it names (`headerOf_eq`).  So metadata survives if the name of the family does not end
like a component.
-/

namespace Alligator

open List Option

variable {key base : Str} {suffixes : List Str} {help : Option Str}

/-! ## Setting metadata -/

/-- `namespace_metric_family_set`, without a type for `UINT8_MAX`. -/
def namespaceMetricFamilySet (ns : Families) (metricName : Str) (type : Option MetricType)
    (help : Option Str) : Families :=
  if metricName = [] then ns
  else
    let old := (namespaceMetricFamilyGet ns metricName).getD ⟨.untyped, none⟩
    (metricName, ⟨type.getD old.type, help.or old.help⟩) :: ns.filter fun e => e.1 ≠ metricName

/-- Set the type of the components, whose names are written into buffers. -/
def namespaceMetricFamilySetSuffixes (ns : Families) (metricName : Str) (metricType : MetricType)
    (suffixes : List Str) : Families :=
  suffixes.foldl (fun ns suffix =>
    namespaceMetricFamilySet ns (strlcpy (metricName ++ suffix) 1024) (some metricType) none) ns

def namespaceMetricFamilySetPromType (ns : Families) (metricName : Str)
    (metricType : MetricType) : Families :=
  if metricName = [] then ns
  else
    match metricType with
    | .histogram =>
      match promFamilyStripHistogramSuffix metricName 1024 with
      | some base => namespaceMetricFamilySet ns base (some .histogram) none
      | none => namespaceMetricFamilySetSuffixes
          (namespaceMetricFamilySet ns metricName (some .histogram) none) metricName .histogram
          [cstr "_bucket", cstr "_sum", cstr "_count"]
    | .summary =>
      match promFamilyStripSummarySuffix metricName 1024 with
      | some base => namespaceMetricFamilySet ns base (some .summary) none
      | none => namespaceMetricFamilySetSuffixes
          (namespaceMetricFamilySet ns metricName (some .summary) none) metricName .summary
          [cstr "_sum", cstr "_count"]
    | metricType => namespaceMetricFamilySet ns metricName (some metricType) none

def promHelpName (metricName : Str) : Str :=
  ((promFamilyStripHistogramSuffix metricName 1024).or
    (promFamilyStripSummarySuffix metricName 1024)).getD metricName

def namespaceMetricFamilySetPromHelp (ns : Families) (metricName help : Str) : Families :=
  if metricName = [] then ns
  else namespaceMetricFamilySet ns (promHelpName metricName) none (some help)

/-! ## Reading them back -/

section Set

variable {ns : Families} {name : Str}

lemma get_familySet_self (h : name ≠ []) (type : Option MetricType) (help : Option Str) :
    namespaceMetricFamilyGet (namespaceMetricFamilySet ns name type help) name =
      some ⟨type.getD ((namespaceMetricFamilyGet ns name).getD ⟨.untyped, none⟩).type,
        help.or ((namespaceMetricFamilyGet ns name).getD ⟨.untyped, none⟩).help⟩ := by
  rw [namespaceMetricFamilySet, if_neg h]
  exact lookup_cons_self

lemma lookup_filter_ne (h : key ≠ name) (l : Families) :
    (l.filter fun e => e.1 ≠ name).lookup key = l.lookup key := by
  induction l with
  | nil => rfl
  | cons e l ih =>
    by_cases he : e.1 = name
    · have hk : (key == e.1) = false := by simpa [he] using h
      rw [filter_cons_of_neg (by simpa using he), lookup_cons, hk, ih]
    · rw [filter_cons_of_pos (by simpa using he), lookup_cons, lookup_cons, ih]

lemma get_familySet_ne (h : key ≠ name) (type : Option MetricType) (help : Option Str) :
    namespaceMetricFamilyGet (namespaceMetricFamilySet ns name type help) key =
      namespaceMetricFamilyGet ns key := by
  rw [namespaceMetricFamilySet]
  split_ifs with h0
  · rfl
  · have hk : (key == name) = false := by simpa using h
    exact (lookup_cons.trans (by rw [hk])).trans (lookup_filter_ne h ns)

lemma get_familySetSuffixes_ne {metricType : MetricType}
    (h : ∀ suffix ∈ suffixes, key ≠ strlcpy (name ++ suffix) 1024) :
    namespaceMetricFamilyGet (namespaceMetricFamilySetSuffixes ns name metricType suffixes) key =
        namespaceMetricFamilyGet ns key := by
  induction suffixes generalizing ns with
  | nil =>
    rfl
  | cons suffix suffixes ih =>
    exact (ih (forall_mem_cons.1 h).2).trans
      (get_familySet_ne (h suffix mem_cons_self) _ _)

end Set

/-! ## Names that end like a component -/

def componentSuffixes : List Str := [cstr "_bucket", cstr "_count", cstr "_sum", cstr "_quantile"]

/-- The name ends like a component of another family. -/
def ComponentName (f : Str) : Prop :=
  ∃ base suffix, base ≠ [] ∧ suffix ∈ componentSuffixes ∧ f = base ++ suffix

lemma promFamilyEndsWith_append (h : base ≠ []) (suffix : Str) :
    promFamilyEndsWith (base ++ suffix) suffix = some base.length := by
  have hpos : 0 < base.length := length_pos_iff.mpr h
  have hsub : (base ++ suffix).length - suffix.length = base.length := by
    rw [length_append, Nat.add_sub_cancel]
  rw [promFamilyEndsWith, hsub, if_neg, drop_left, if_neg (fun hne => hne rfl)]
  omega

lemma promFamilyEndsWith_eq_some {name suffix : Str} {n : Nat}
    (h : promFamilyEndsWith name suffix = some n) :
    ∃ base, base ≠ [] ∧ name = base ++ suffix ∧ n = base.length := by
  rw [promFamilyEndsWith] at h
  split_ifs at h with hlen hdrop
  rw [not_not] at hdrop
  cases h
  refine ⟨name.take (name.length - suffix.length), ?_, ?_, ?_⟩
  · rw [← length_pos_iff, length_take]
    omega
  · conv_lhs => rw [← take_append_drop (name.length - suffix.length) name, hdrop]
  · rw [length_take]
    omega

variable {name : Str}

/-- What is stripped is a suffix of the list. -/
lemma promFamilyStripSuffix_eq_some {size : Nat}
    (h : promFamilyStripSuffix name size suffixes = some base) :
    ∃ suffix ∈ suffixes, base ≠ [] ∧ name = base ++ suffix ∧ base.length < size := by
  induction suffixes with
  | nil => cases h
  | cons suffix suffixes ih =>
    rw [promFamilyStripSuffix] at h
    cases he : promFamilyEndsWith name suffix with
    | none =>
      rw [he] at h
      obtain ⟨s, hs, hrest⟩ := ih h
      exact ⟨s, mem_cons_of_mem _ hs, hrest⟩
    | some n =>
      obtain ⟨b, hb, rfl, rfl⟩ := promFamilyEndsWith_eq_some he
      rw [he] at h
      dsimp only at h
      split_ifs at h with hsize
      rw [take_left] at h
      cases h
      exact ⟨suffix, mem_cons_self, hb, rfl, Nat.lt_of_not_le hsize⟩

/-- A name with one of the suffixes is stripped, if the buffer is large enough. -/
lemma isSome_promFamilyStripSuffix {size : Nat} (hsize : name.length ≤ size)
    (hne : ∀ suffix ∈ suffixes, suffix ≠ [])
    (h : ∃ suffix ∈ suffixes, ∃ base, base ≠ [] ∧ name = base ++ suffix) :
    (promFamilyStripSuffix name size suffixes).isSome = true := by
  induction suffixes with
  | nil =>
    obtain ⟨s, hs, -⟩ := h
    cases hs
  | cons suffix suffixes ih =>
    rw [promFamilyStripSuffix]
    cases he : promFamilyEndsWith name suffix with
    | none =>
      obtain ⟨s, hs, base, hbase, rfl⟩ := h
      obtain rfl | hs := mem_cons.mp hs
      · rw [promFamilyEndsWith_append hbase] at he
        cases he
      · exact ih (forall_mem_cons.1 hne).2 ⟨s, hs, base, hbase, rfl⟩
    | some n =>
      obtain ⟨b, -, rfl, rfl⟩ := promFamilyEndsWith_eq_some he
      have hpos : 0 < suffix.length := length_pos_iff.mpr (hne suffix mem_cons_self)
      rw [length_append] at hsize
      dsimp only
      rw [if_neg (by omega)]
      rfl

section Component

variable {f : Str} {size : Nat}

section

variable (h : ¬ComponentName f)
include h

lemma stripSuffix_of_plain (hsub : ∀ suffix ∈ suffixes, suffix ∈ componentSuffixes) :
    promFamilyStripSuffix f size suffixes = none := by
  rw [← not_isSome_iff_eq_none, isSome_iff_exists]
  rintro ⟨base, hbase⟩
  obtain ⟨suffix, hs, hne, he, -⟩ := promFamilyStripSuffix_eq_some hbase
  exact h ⟨base, suffix, hne, hsub suffix hs, he⟩

lemma stripHistogram_of_plain : promFamilyStripHistogramSuffix f size = none :=
  stripSuffix_of_plain h (by simp [componentSuffixes])

lemma stripSummary_of_plain : promFamilyStripSummarySuffix f size = none :=
  stripSuffix_of_plain h (by simp [componentSuffixes])

lemma promHelpName_of_plain : promHelpName f = f := by
  rw [promHelpName, stripHistogram_of_plain h, stripSummary_of_plain h]
  rfl

end

/-- The help text of a name that ends like a component is stored elsewhere. -/
lemma promHelpName_ne (h : ComponentName f) (hlen : f.length ≤ 1024) : promHelpName f ≠ f := by
  have hshort : ∀ {base : Str} {suffixes : List Str}, (∀ suffix ∈ suffixes, suffix ≠ []) →
      promFamilyStripSuffix f 1024 suffixes = some base → base ≠ f := by
    rintro base suffixes hne hbase rfl
    obtain ⟨suffix, hs, -, he, -⟩ := promFamilyStripSuffix_eq_some hbase
    exact hne suffix hs (self_eq_append_right.mp he)
  obtain ⟨base, suffix, hbase, hs, he⟩ := h
  rw [promHelpName]
  cases hhist : promFamilyStripHistogramSuffix f 1024 with
  | some b => exact hshort (by decide) hhist
  | none =>
    cases hsum : promFamilyStripSummarySuffix f 1024 with
    | some b => exact hshort (by decide) hsum
    | none =>
      exfalso
      simp only [componentSuffixes, mem_cons, not_mem_nil, or_false] at hs
      have hnone : ∀ {suffixes : List Str}, (∀ s ∈ suffixes, s ≠ []) → suffix ∈ suffixes →
          promFamilyStripSuffix f 1024 suffixes ≠ none := by
        intro suffixes hne hmem hn
        have hsome := isSome_promFamilyStripSuffix hlen hne ⟨suffix, hmem, base, hbase, he⟩
        rw [hn] at hsome
        cases hsome
      rcases hs with rfl | rfl | rfl | rfl
      · exact hnone (by decide) (by decide) hhist
      · exact hnone (by decide) (by decide) hhist
      · exact hnone (by decide) (by decide) hhist
      · exact hnone (by decide) (by decide) hsum

end Component

/-! ## What the page shows -/

def memberNames (type : MetricType) (f : Str) : List Str :=
  match type with
  | .histogram => [f, f ++ cstr "_bucket", f ++ cstr "_sum", f ++ cstr "_count"]
  | .summary => [f, f ++ cstr "_sum", f ++ cstr "_count"]
  | _ => [f]

section Shown

variable {ns : Families} {f : Str} {w : Str} {type : MetricType}

/-- A suffix of a name that ends in another word is not that of a shorter list of words. -/
lemma promFamilyEndsWith_eq_none {suffix : Str} (h : ¬w <:+ suffix) (h' : ¬suffix <:+ w) :
    promFamilyEndsWith (base ++ w) suffix = none := by
  cases he : promFamilyEndsWith (base ++ w) suffix with
  | none => rfl
  | some n =>
    obtain ⟨b, -, heq, -⟩ := promFamilyEndsWith_eq_some he
    have hw : w <:+ base ++ w := suffix_append _ _
    have hs : suffix <:+ base ++ w := heq ▸ suffix_append _ _
    rcases le_total w.length suffix.length with hle | hle
    · exact absurd (suffix_of_suffix_length_le hw hs hle) h
    · exact absurd (suffix_of_suffix_length_le hs hw hle) h'

/-- A component is stripped to its family. -/
lemma promFamilyStripSuffix_append {size : Nat} (hf : f ≠ []) (hlen : f.length < size)
    {before after : List Str} (h : ∀ suffix ∈ before, ¬w <:+ suffix ∧ ¬suffix <:+ w) :
    promFamilyStripSuffix (f ++ w) size (before ++ w :: after) = some f := by
  induction before with
  | nil =>
    rw [nil_append, promFamilyStripSuffix, promFamilyEndsWith_append hf]
    dsimp only
    rw [if_neg (not_le.mpr hlen), take_left]
  | cons suffix before ih =>
    obtain ⟨h1, h2⟩ := h suffix mem_cons_self
    rw [cons_append, promFamilyStripSuffix, promFamilyEndsWith_eq_none h1 h2]
    exact ih (forall_mem_cons.1 h).2

/-- The page shows the metadata of the family that it names. -/
lemma resolve_meta (ns : Families) (name : Str) : (promFamilyExpositionResolve ns name 256).2 =
      namespaceMetricFamilyGet ns (promFamilyExpositionResolve ns name 256).1 := by
  have hbase : ∀ {type : MetricType} {suffixes : List Str} {family : Str} {fam : FamilyMetadata},
      promFamilyOfBase ns type 256 (promFamilyStripSuffix name 256 suffixes) = some (family, fam) →
        some fam = namespaceMetricFamilyGet ns family := by
    intro type suffixes family fam h
    obtain ⟨base, hb, h⟩ := bind_eq_some_iff.mp h
    obtain ⟨m, hm, h⟩ := bind_eq_some_iff.mp h
    obtain ⟨-, -, -, -, hlen⟩ := promFamilyStripSuffix_eq_some hb
    split_ifs at h
    cases h
    rw [strlcpy, take_of_length_le (by omega), hm]
  rw [promFamilyExpositionResolve]
  cases hhist : promFamilyOfBase ns .histogram 256 (promFamilyStripHistogramSuffix name 256) with
  | some r => exact hbase hhist
  | none =>
    cases hsum : promFamilyOfBase ns .summary 256 (promFamilyStripSummarySuffix name 256) with
    | some r => exact hbase hsum
    | none => rfl

lemma headerOf_eq (ns : Families) (openmetrics : Bool) (x : Series) : headerOf ns openmetrics x =
      headerLines openmetrics (familyOf ns x) (namespaceMetricFamilyGet ns (familyOf ns x)) := by
  rw [headerOf, familyOf, ← resolve_meta]

lemma resolve_of_plain (h : ¬ComponentName f) : (promFamilyExpositionResolve ns f 256).1 = f := by
  rw [promFamilyExpositionResolve, stripHistogram_of_plain h, stripSummary_of_plain h]
  rfl

lemma promFamilyOfBase_some (hlen : f.length < 256)
    (h : namespaceMetricFamilyGet ns f = some ⟨type, help⟩) :
    promFamilyOfBase ns type 256 (some f) = some (f, ⟨type, help⟩) := by
  simp only [promFamilyOfBase, h, bind_eq_bind, bind_some, if_true, strlcpy]
  rw [take_of_length_le (by omega)]

lemma resolve_of_histogram (hlen : f.length < 256)
    (h : namespaceMetricFamilyGet ns f = some ⟨.histogram, help⟩)
    (hstrip : promFamilyStripHistogramSuffix name 256 = some f) :
    (promFamilyExpositionResolve ns name 256).1 = f := by
  rw [promFamilyExpositionResolve, hstrip, promFamilyOfBase_some hlen h]

lemma resolve_of_summary (hlen : f.length < 256)
    (h : namespaceMetricFamilyGet ns f = some ⟨.summary, help⟩)
    (hhist : promFamilyStripHistogramSuffix name 256 = some f)
    (hsum : promFamilyStripSummarySuffix name 256 = some f) :
    (promFamilyExpositionResolve ns name 256).1 = f := by
  have hno : promFamilyOfBase ns .histogram 256 (some f) = none := by
    simp [promFamilyOfBase, h]
  rw [promFamilyExpositionResolve, hhist, hno, hsum, promFamilyOfBase_some hlen h]

/-- The samples of a family are shown under its name. -/
lemma resolve_member (hplain : ¬ComponentName f) (hf : f ≠ []) (hlen : f.length < 256)
    (h : namespaceMetricFamilyGet ns f = some ⟨type, help⟩)
    (hname : name ∈ memberNames type f) : (promFamilyExpositionResolve ns name 256).1 = f := by
  have hbucket : promFamilyStripHistogramSuffix (f ++ cstr "_bucket") 256 = some f :=
    @promFamilyStripSuffix_append f _ _ hf hlen [] _ (by decide)
  have hcount : promFamilyStripHistogramSuffix (f ++ cstr "_count") 256 = some f :=
    @promFamilyStripSuffix_append f _ _ hf hlen [cstr "_bucket"] _ (by decide)
  have hsum : promFamilyStripHistogramSuffix (f ++ cstr "_sum") 256 = some f :=
    @promFamilyStripSuffix_append f _ _ hf hlen [cstr "_bucket", cstr "_count"] _ (by decide)
  have hcount' : promFamilyStripSummarySuffix (f ++ cstr "_count") 256 = some f :=
    @promFamilyStripSuffix_append f _ _ hf hlen [cstr "_quantile"] _ (by decide)
  have hsum' : promFamilyStripSummarySuffix (f ++ cstr "_sum") 256 = some f :=
    @promFamilyStripSuffix_append f _ _ hf hlen [cstr "_quantile", cstr "_count"] _ (by decide)
  cases type with
  | histogram =>
    simp only [memberNames, mem_cons, not_mem_nil, or_false] at hname
    rcases hname with rfl | rfl | rfl | rfl
    · exact resolve_of_plain hplain
    · exact resolve_of_histogram hlen h hbucket
    · exact resolve_of_histogram hlen h hsum
    · exact resolve_of_histogram hlen h hcount
  | summary =>
    simp only [memberNames, mem_cons, not_mem_nil, or_false] at hname
    rcases hname with rfl | rfl | rfl
    · exact resolve_of_plain hplain
    · exact resolve_of_summary hlen h hsum hsum'
    · exact resolve_of_summary hlen h hcount hcount'
  | untyped | counter | gauge =>
    obtain rfl := mem_singleton.mp hname
    exact resolve_of_plain hplain

/-- Before a sample of a family stands a header of the family, unless the family is in the
buffer already.  A family that is shorter than the buffer is in it as a whole. -/
lemma header_of_mem {fam : Series → Str} {header : Series → List Line} {lines : List Line}
    (hlen : f.length < 255) (hheader : ∀ x, fam x = f → header x = lines) {x : Series}
    {xs : List Series} {last : Str} (hx : x ∈ xs) : fam x = f →
      lines ⊆ pageLines fam header last xs ∨ last = f ∧ last ≠ [] := by
  induction xs generalizing last with
  | nil =>
    cases hx
  | cons y ys ih =>
    intro hfam
    -- the first series of the family
    have hfirst : fam y = f →
        lines ⊆ pageLines fam header last (y :: ys) ∨ last = f ∧ last ≠ [] := by
      intro hy
      by_cases hlast : last = [] ∨ last ≠ fam y
      · left
        rw [pageLines, if_pos hlast, hheader y hy]
        exact subset_append_left _ _
      · rw [not_or, not_not, hy] at hlast
        exact .inr hlast.symm
    rcases mem_cons.mp hx with rfl | hmem
    · exact hfirst hfam
    · rcases ih hmem hfam with hsub | ⟨hbuf, -⟩
      · left
        exact fun line hl => mem_append_right _ (mem_cons_of_mem _ (hsub hl))
      · refine hfirst ?_
        rw [strlcpy] at hbuf
        have hlt : (fam y).length ≤ 255 := by
          by_contra hgt
          have := congrArg List.length hbuf
          rw [length_take] at this
          omega
        rwa [take_of_length_le (by omega)] at hbuf

end Shown

end Alligator
