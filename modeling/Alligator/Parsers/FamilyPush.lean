import Alligator.Parsers.TextPush

/-!
# Metadata along a push

A push that holds a `# HELP` and a `# TYPE` line of a family leaves this metadata in the
namespace, and the page shows it with every sample of the family, provided that the name of
the family does not end like a component (`family_survives_iff`).  The help text of a name
like `http_request_count` is stored under `http_request` and lost for its family.
-/

namespace Alligator

open Text List Option

variable {raw text : Str} {lines : List Str} {t : MetricType}

/-! ## The two lines -/

inductive HelpText : Str → Str → Prop where
  | nil : HelpText [] []
  | newline {raw text : Str} (h : HelpText raw text) : HelpText (92 :: 110 :: raw) (10 :: text)
  | backslash {raw text : Str} (h : HelpText raw text) : HelpText (92 :: 92 :: raw) (92 :: text)
  | quote {raw text : Str} (h : HelpText raw text) : HelpText (92 :: 34 :: raw) (34 :: text)
  | plain {raw text : Str} {c : UInt8} (hc : c ∉ [92, 10, 13, 0]) (h : HelpText raw text) :
      HelpText (c :: raw) (c :: text)

/-- `# HELP f raw` -/
def helpLine (f raw : Str) : Str := cstr "# HELP " ++ (f ++ 32 :: raw)

/-- `# TYPE f keyword` -/
def typeLine (f : Str) (t : MetricType) (openmetrics : Bool) : Str :=
  cstr "# TYPE " ++ (f ++ 32 :: promTypeExpositionKeyword t openmetrics)

lemma HelpText.unescape (h : HelpText raw text) : helpUnescape raw = text := by
  induction h with
  | nil => rfl
  | newline _ ih | backslash _ ih | quote _ ih => simp [helpUnescape, ih]
  | @plain raw text c hc _ ih =>
    have hc' : c ≠ 92 := fun e => hc (by simp [e])
    cases raw with
    | nil =>
      rw [← ih]
      rfl
    | cons d raw =>
      rw [helpUnescape, if_neg (fun h => hc' h.1), ih]

lemma HelpText.not_mem (h : HelpText raw text) : ∀ c ∈ raw, c ∉ [10, 13, 0] := by
  induction h with
  | nil =>
    intro c hc
    cases hc
  | newline _ ih | backslash _ ih | quote _ ih => simpa using ih
  | plain hc _ ih =>
    intro d hd
    rcases mem_cons.mp hd with rfl | hd
    · intro hmem
      exact hc (mem_cons_of_mem _ hmem)
    · exact ih d hd

lemma not_blank_of_metricChar {c : UInt8} (h : metricChar c = true) : isBlank c = false := by
  cases hc : isBlank c with
  | false => rfl
  | true =>
    rw [isBlank, Bool.or_eq_true, beq_iff_eq, beq_iff_eq] at hc
    rcases hc with rfl | rfl <;> exact absurd h (by decide)

lemma commentName_line {kw f s : Str} (hkw : ∀ c ∈ kw, isBlank c = false)
    (hf : validMetricName f = true) (hlen : f.length < 255) (hs : ∀ c ∈ s.head?, isBlank c = false) :
    commentName (kw ++ 32 :: (f ++ 32 :: s)) = some (f, s) := by
  have hchars := metricChar_of_validMetricName hf
  have hf' : ∀ c ∈ f, (!isBlank c) = true := fun c hc => by
    rw [not_blank_of_metricChar (hchars c hc)]
    rfl
  have hword : ((kw ++ 32 :: (f ++ 32 :: s)).dropWhile fun c => !isBlank c) =
      32 :: (f ++ 32 :: s) := by
    rw [dropWhile_append_of_pos fun c hc => by rw [hkw c hc]; rfl]
    rfl
  have hblank : (32 :: (f ++ 32 :: s)).dropWhile isBlank = f ++ 32 :: s := by
    cases f with
    | nil => cases hf
    | cons c t =>
      rw [dropWhile_cons_of_pos rfl, cons_append,
        dropWhile_cons_of_neg (by rw [not_blank_of_metricChar (hchars c mem_cons_self)]; decide)]
  have hname : ((f ++ 32 :: s).takeWhile fun c => !isBlank c) = f := by
    rw [takeWhile_append_of_pos hf']
    exact append_nil f
  have hrest : (32 :: s).dropWhile isBlank = s := by
    rw [dropWhile_cons_of_pos rfl]
    cases s with
    | nil => rfl
    | cons c s => rw [dropWhile_cons_of_neg (by rw [hs c rfl]; decide)]
  have hnormal : prometheusMetricNameNormalizer f f.length = f :=
    nameNormalizer_eq fun c hc => by
      have := hchars c hc
      simp only [metricChar, labelChar, Bool.or_eq_true] at this ⊢
      tauto
  simp only [commentName, hword, hblank, hname, drop_left, hrest, hnormal]
  rw [if_neg (by omega)]

lemma commentOp_helpLine {f : Str} (hf : validMetricName f = true) (hlen : f.length < 255)
    (h : HelpText raw text) (hraw : raw.length ≤ 2047) (hblank : ∀ c ∈ raw.head?, isBlank c = false) :
    commentOp (helpLine f raw) = some (.help f text) := by
  have hline : (helpLine f raw).tail.dropWhile isBlank = cstr "HELP" ++ 32 :: (f ++ 32 :: raw) := rfl
  have htype : (cstr "TYPE").isPrefixOf (cstr "HELP" ++ 32 :: (f ++ 32 :: raw)) = false := rfl
  have hhelp : (cstr "HELP").isPrefixOf (cstr "HELP" ++ 32 :: (f ++ 32 :: raw)) = true := rfl
  have hcut : (raw.takeWhile fun c => c != 13 && c != 10) = raw :=
    takeWhile_eq_self_iff.mpr fun c hc => by
      have := h.not_mem c hc
      simp only [mem_cons, not_or] at this
      simp [this.1, this.2.1]
  rw [commentOp, hline, htype, commentName_line (by decide +kernel) hf hlen hblank]
  simp [hcut, take_of_length_le hraw, h.unescape]

lemma metricTypeFromString_keyword (t : MetricType) (openmetrics : Bool) :
    metricTypeFromString (promTypeExpositionKeyword t openmetrics) = t := by
  cases t <;> cases openmetrics <;> decide

lemma commentOp_typeLine {f : Str} (hf : validMetricName f = true) (hlen : f.length < 255)
    (t : MetricType) (openmetrics : Bool) :
    commentOp (typeLine f t openmetrics) = some (.type f t) := by
  have hline : (typeLine f t openmetrics).tail.dropWhile isBlank =
      cstr "TYPE" ++ 32 :: (f ++ 32 :: promTypeExpositionKeyword t openmetrics) := rfl
  have htype : (cstr "TYPE").isPrefixOf
      (cstr "TYPE" ++ 32 :: (f ++ 32 :: promTypeExpositionKeyword t openmetrics)) = true := rfl
  have hkeyword : ∀ c ∈ (promTypeExpositionKeyword t openmetrics).head?, isBlank c = false := by
    cases t <;> cases openmetrics <;> decide +kernel
  rw [commentOp, hline, commentName_line (by decide +kernel) hf hlen hkeyword]
  simp [metricTypeFromString_keyword]

/-! ## The families after the lines of a push -/

/-- What a line does to the families, outside the head of an HTTP response. -/
def lineFamilies (ns : Families) (tmp : Str) : Families :=
  if tmp.head? = some 35 then (commentOp tmp).elim ns (PushOp.families ns) else ns

/-- The line does not open the head of an HTTP response. -/
def BodyLine (l : Str) : Prop := startsCase (cstr "HTTP/") (l.dropWhile isBlank) = false

section Lines

variable {http : Option HttpReplyData} {ns : Families}

lemma familiesAfter_append (ops : List PushOp) (op : PushOp) :
    familiesAfter ns (ops ++ [op]) = op.families (familiesAfter ns ops) := by
  rw [familiesAfter, foldl_append]
  rfl

lemma textSample_spec (st : TextState) (tmp : Str) (tmpLen : Nat) :
    (textSample http st tmp tmpLen).skipHttpHeaders = st.skipHttpHeaders ∧
      familiesAfter ns (textSample http st tmp tmpLen).ops = familiesAfter ns st.ops := by
  unfold textSample
  dsimp only
  split
  · exact ⟨rfl, rfl⟩
  · exact ⟨rfl, familiesAfter_append _ _⟩

variable {st : TextState}

lemma textLine_families (hskip : st.skipHttpHeaders = false) {tmp : Str}
    (hbody : BodyLine tmp) (tmpLen : Nat) : (textLine http st tmp tmpLen).skipHttpHeaders = false ∧
      familiesAfter ns (textLine http st tmp tmpLen).ops =
        lineFamilies (familiesAfter ns st.ops) tmp := by
  rw [textLine, if_neg (by rw [hskip]; decide), if_neg (by rw [hbody]; decide), lineFamilies]
  by_cases hhash : tmp.head? = some 35
  · rw [if_pos hhash, if_pos hhash]
    cases commentOp tmp with
    | none => exact ⟨hskip, rfl⟩
    | some op => exact ⟨hskip, familiesAfter_append _ _⟩
  · split_ifs
    · exact ⟨hskip, rfl⟩
    · exact ⟨hskip, rfl⟩
    · obtain ⟨h1, h2⟩ := textSample_spec st tmp tmpLen
      exact ⟨h1.trans hskip, h2⟩

lemma foldl_textLine {lines : List (Str × Nat)}
    (hskip : st.skipHttpHeaders = false) (hbody : ∀ l ∈ lines, BodyLine l.1) :
    familiesAfter ns (lines.foldl (fun st l => textLine http st l.1 l.2) st).ops =
      (lines.map Prod.fst).foldl lineFamilies (familiesAfter ns st.ops) := by
  induction lines generalizing st with
  | nil =>
    rfl
  | cons l lines ih =>
    obtain ⟨hskip', hfam⟩ : _ ∧ familiesAfter ns (textLine http st l.1 l.2).ops = _ :=
      textLine_families hskip (hbody l mem_cons_self) l.2
    rw [foldl_cons, ih hskip' (forall_mem_cons.1 hbody).2, hfam]
    rfl

/-- Lines that fit into the buffer are read as they are. -/
lemma charFgets_unlines (h : ∀ l ∈ lines, 10 ∉ l ∧ 0 ∉ l ∧ l.length < 65535) {fuel : Nat}
    (hfuel : (unlines lines).length ≤ fuel) :
    charFgets fuel (unlines lines) = lines.map fun l => (l, l.length + 1) := by
  induction lines generalizing fuel with
  | nil =>
    cases fuel <;> rfl
  | cons l lines ih =>
    obtain ⟨h10, h0, hlen⟩ := h l mem_cons_self
    have htext : unlines (l :: lines) = l ++ 10 :: unlines lines := by
      rw [unlines, flatMap_cons, append_assoc]
      rfl
    have hline : (l ++ 10 :: unlines lines).takeWhile (· != 10) = l := by
      rw [takeWhile_append_of_pos fun c hc => by
        simpa using fun e : c = 10 => h10 (e ▸ hc)]
      exact append_nil l
    have hbuf : (l.take 65534).takeWhile (· != 0) = l := by
      rw [take_of_length_le (by omega)]
      exact takeWhile_eq_self_iff.mpr fun c hc => by
        simpa using fun e : c = 0 => h0 (e ▸ hc)
    rw [htext] at hfuel ⊢
    rw [length_append, length_cons] at hfuel
    obtain ⟨c, s, hcons⟩ : ∃ c s, l ++ 10 :: unlines lines = c :: s := by
      cases l with
      | nil => exact ⟨_, _, rfl⟩
      | cons c t => exact ⟨c, _, rfl⟩
    cases fuel with
    | zero => omega
    | succ fuel =>
      rw [hcons, charFgets, ← hcons]
      simp only [hline, drop_left, hbuf, tail_cons, map_cons, length_cons]
      rw [ih (forall_mem_cons.1 h).2 (by omega), min_eq_right (by omega)]

lemma familiesAfter_textParse (carg : PushCarg)
    (h : ∀ l ∈ lines, 10 ∉ l ∧ 0 ∉ l ∧ l.length < 65535) (hbody : ∀ l ∈ lines, BodyLine l) :
    familiesAfter ns (multicollectorTextParse http (unlines lines) carg).2 =
      lines.foldl lineFamilies ns := by
  have hlines := charFgets_unlines h (le_refl _)
  have hfold : familiesAfter ns ((lines.map fun l => (l, l.length + 1)).foldl
      (fun st l => textLine http st l.1 l.2) ⟨false, [], carg, []⟩).ops = _ :=
    foldl_textLine rfl (by simpa using hbody)
  rw [List.map_map, show (Prod.fst ∘ fun l : Str => (l, l.length + 1)) = id from rfl, List.map_id]
    at hfold
  rw [multicollectorTextParse, hlines]
  split_ifs
  · rw [List.append_nil]
    exact hfold
  · rw [familiesAfter_append]
    exact hfold

end Lines

/-! ## What the two lines leave behind -/

section Left

variable {ns : Families} {f : Str}

lemma get_promHelp_plain (hplain : ¬ComponentName f) (hf : f ≠ []) (text : Str) :
    namespaceMetricFamilyGet (namespaceMetricFamilySetPromHelp ns f text) f =
      some ⟨((namespaceMetricFamilyGet ns f).getD ⟨.untyped, none⟩).type, some text⟩ := by
  rw [namespaceMetricFamilySetPromHelp, if_neg hf, promHelpName_of_plain hplain,
    get_familySet_self hf]
  rfl

lemma ne_component (suffix : Str) (hs : suffix ≠ []) (hlen : f.length < 255) :
    f ≠ strlcpy (f ++ suffix) 1024 := by
  intro h
  have hlength := congrArg List.length h
  have hpos : 0 < suffix.length := length_pos_iff.mpr hs
  rw [strlcpy, length_take, length_append] at hlength
  omega

lemma get_promType_plain (hplain : ¬ComponentName f) (hf : f ≠ []) (hlen : f.length < 255)
    (t : MetricType) : namespaceMetricFamilyGet (namespaceMetricFamilySetPromType ns f t) f =
      some ⟨t, ((namespaceMetricFamilyGet ns f).getD ⟨.untyped, none⟩).help⟩ := by
  have hself : ∀ t, namespaceMetricFamilyGet (namespaceMetricFamilySet ns f (some t) none) f =
      some ⟨t, ((namespaceMetricFamilyGet ns f).getD ⟨.untyped, none⟩).help⟩ :=
    fun t => get_familySet_self hf (some t) none
  have hsuffix : ∀ suffix : Str, suffix ∈ componentSuffixes → suffix ≠ [] := by decide
  cases t with
  | histogram | summary =>
    rw [namespaceMetricFamilySetPromType, if_neg hf]
    first | rw [stripHistogram_of_plain hplain] | rw [stripSummary_of_plain hplain]
    refine (get_familySetSuffixes_ne ?_).trans (hself _)
    intro suffix hs
    refine ne_component suffix (hsuffix suffix ?_) hlen
    simp only [componentSuffixes, mem_cons, not_mem_nil, or_false] at hs ⊢
    tauto
  | untyped | counter | gauge =>
    rw [namespaceMetricFamilySetPromType.eq_def, if_neg hf]
    exact hself _

/-- A push of a family: its lines are read as they are, among them the `# HELP` and the
`# TYPE` line of the family, and the others do not set its metadata. -/
structure FamilyPush (f : Str) (t : MetricType) (raw : Str) (lines : List Str) : Prop where
  fits : ∀ l ∈ lines, 10 ∉ l ∧ 0 ∉ l ∧ l.length < 65535
  body : ∀ l ∈ lines, BodyLine l
  help : helpLine f raw ∈ lines
  type : ∃ openmetrics, typeLine f t openmetrics ∈ lines
  others : ∀ l ∈ lines, l ≠ helpLine f raw → (∀ openmetrics, l ≠ typeLine f t openmetrics) →
    ∀ ns, namespaceMetricFamilyGet (lineFamilies ns l) f = namespaceMetricFamilyGet ns f

lemma helpLine_ne_typeLine (f raw : Str) (t : MetricType) (openmetrics : Bool) :
    helpLine f raw ≠ typeLine f t openmetrics := by
  intro h
  have := congrArg (fun l : Str => l[2]?) h
  simp [helpLine, typeLine, cstr] at this

lemma lineFamilies_helpLine (h : commentOp (helpLine f raw) = some (.help f text)) (ns : Families) :
    lineFamilies ns (helpLine f raw) = namespaceMetricFamilySetPromHelp ns f text := by
  rw [lineFamilies, h]
  rfl

lemma lineFamilies_typeLine {openmetrics : Bool}
    (h : commentOp (typeLine f t openmetrics) = some (.type f t)) (ns : Families) :
    lineFamilies ns (typeLine f t openmetrics) = namespaceMetricFamilySetPromType ns f t := by
  rw [lineFamilies, h]
  rfl

/-- The metadata after the lines, by the lines that were met. -/
lemma get_foldl_lineFamilies (hplain : ¬ComponentName f) (hf : f ≠ []) (hlen : f.length < 255)
    (hhelp : commentOp (helpLine f raw) = some (.help f text))
    (htype : ∀ openmetrics, commentOp (typeLine f t openmetrics) = some (.type f t))
    (others : ∀ l ∈ lines, l ≠ helpLine f raw → (∀ openmetrics, l ≠ typeLine f t openmetrics) →
      ∀ ns, namespaceMetricFamilyGet (lineFamilies ns l) f = namespaceMetricFamilyGet ns f) :
    (helpLine f raw ∈ lines → ∃ t', namespaceMetricFamilyGet (lines.foldl lineFamilies ns) f =
        some ⟨t', some text⟩) ∧ ((∃ openmetrics, typeLine f t openmetrics ∈ lines) →
        ∃ h', namespaceMetricFamilyGet (lines.foldl lineFamilies ns) f = some ⟨t, h'⟩) := by
  induction lines using List.reverseRecOn with
  | nil => simp
  | append_singleton lines l ih =>
    obtain ⟨ihHelp, ihType⟩ := ih fun l' hl' => others l' (mem_append_left _ hl')
    rw [foldl_append, foldl_cons, foldl_nil]
    simp only [mem_append, mem_singleton]
    generalize lines.foldl lineFamilies ns = ns' at ihHelp ihType
    by_cases hl : l = helpLine f raw
    · rw [hl, lineFamilies_helpLine hhelp, get_promHelp_plain hplain hf]
      refine ⟨fun _ => ⟨_, rfl⟩, ?_⟩
      rintro ⟨om, hmem | heq⟩
      · obtain ⟨h', e⟩ := ihType ⟨om, hmem⟩
        exact ⟨_, by rw [e]; rfl⟩
      · exact absurd heq.symm (helpLine_ne_typeLine f raw t om)
    · by_cases hl' : ∃ om, l = typeLine f t om
      · obtain ⟨om, rfl⟩ := hl'
        rw [lineFamilies_typeLine (htype om), get_promType_plain hplain hf hlen]
        refine ⟨?_, fun _ => ⟨_, rfl⟩⟩
        rintro (hmem | heq)
        · obtain ⟨t', e⟩ := ihHelp hmem
          exact ⟨_, by rw [e]; rfl⟩
        · exact absurd heq (helpLine_ne_typeLine f raw t om)
      · have hsame := others l (mem_append_right _ mem_cons_self) hl
          (fun om e => hl' ⟨om, e⟩) ns'
        rw [hsame]
        refine ⟨fun hmem => ihHelp (hmem.resolve_right fun e => hl e.symm), ?_⟩
        rintro ⟨om, hmem⟩
        exact ihType ⟨om, hmem.resolve_right fun e => hl' ⟨om, e.symm⟩⟩

lemma FamilyPush.meta (push : FamilyPush f t raw lines) (hplain : ¬ComponentName f)
    (hname : validMetricName f = true) (hlen : f.length < 255) (htext : HelpText raw text)
    (hraw : raw.length ≤ 2047) (hblank : ∀ c ∈ raw.head?, isBlank c = false) :
    namespaceMetricFamilyGet (lines.foldl lineFamilies ns) f = some ⟨t, some text⟩ := by
  have hf : f ≠ [] := by
    rintro rfl
    cases hname
  obtain ⟨hhelp, htype⟩ : (_ → ∃ t', namespaceMetricFamilyGet (lines.foldl lineFamilies ns) f =
      some ⟨t', some text⟩) ∧ _ :=
    get_foldl_lineFamilies hplain hf hlen (commentOp_helpLine hname hlen htext hraw hblank)
      (commentOp_typeLine hname hlen t) push.others
  obtain ⟨t', e⟩ := hhelp push.help
  obtain ⟨h', e'⟩ := htype push.type
  rw [e] at e'
  cases e'
  exact e

end Left

/-! ## Survival -/

/-- The page shows the metadata of a family with each of its samples. -/
def ShowsFamily (ns : Families) (f : Str) (t : MetricType) (text : Str) : Prop :=
  ∀ (s : Store) (L : List Record), Holds s L → ∀ (openmetrics : Bool) (page : Page),
    s.page ns openmetrics = some page →
    ∀ x, .sample x ∈ page.lines → metricName x ∈ memberNames t f →
      .help f (promHelpEscape text) ∈ page.lines ∧
        .type f (promTypeExpositionKeyword t openmetrics) ∈ page.lines

/-- A family whose metadata is set is shown. -/
lemma showsFamily_of_get {ns : Families} {f : Str} (hplain : ¬ComponentName f) (hf : f ≠ [])
    (hlen : f.length < 255) (hget : namespaceMetricFamilyGet ns f = some ⟨t, some text⟩) :
    ShowsFamily ns f t text := by
  intro s L h openmetrics page hpage x hx hname
  obtain ⟨page', hpage', hlines⟩ := h.page_eq ns openmetrics
  rw [hpage] at hpage'
  cases hpage'
  have hmem : x ∈ L.map Record.series := by
    have := mem_series.mpr hx
    rwa [hlines, series_pageLines (heads_headerOf ns openmetrics)] at this
  have hfam : familyOf ns x = f := resolve_member hplain hf (by omega) hget hname
  have hheader : ∀ y, familyOf ns y = f →
      headerOf ns openmetrics y = headerLines openmetrics f (some ⟨t, some text⟩) := by
    intro y hy
    rw [headerOf_eq, hy, hget]
  obtain hsub | ⟨-, hne⟩ : _ ⊆ pageLines (familyOf ns) (headerOf ns openmetrics) [] _ ∨ _ :=
    header_of_mem hlen hheader hmem hfam
  · rw [hlines]
    exact ⟨hsub (by simp [headerLines]), hsub (by simp [headerLines])⟩
  · exact absurd rfl hne

section Lost

variable {ns : Families} {f : Str} {help : Option Str}

/-- The family has the help text, whatever its type. -/
def HasHelp (ns : Families) (f : Str) (help : Option Str) : Prop :=
  ∃ t, namespaceMetricFamilyGet ns f = some ⟨t, help⟩

lemma HasHelp.set (h : HasHelp ns f help) (name : Str) (type : Option MetricType) :
    HasHelp (namespaceMetricFamilySet ns name type none) f help := by
  obtain ⟨t, e⟩ := h
  by_cases hname : f = name
  · subst hname
    by_cases hf : f = []
    · exact ⟨t, by rw [namespaceMetricFamilySet, if_pos hf, e]⟩
    · exact ⟨_, by rw [get_familySet_self hf, e]; rfl⟩
  · exact ⟨t, by rw [get_familySet_ne hname, e]⟩

lemma HasHelp.setSuffixes (name : Str) (metricType : MetricType) {suffixes : List Str}
    (h : HasHelp ns f help) :
    HasHelp (namespaceMetricFamilySetSuffixes ns name metricType suffixes) f help := by
  induction suffixes generalizing ns with
  | nil => exact h
  | cons suffix suffixes ih => exact ih (h.set _ _)

/-- Setting a type does not change a help text. -/
lemma HasHelp.promType (h : HasHelp ns f help) (name : Str) (metricType : MetricType) :
    HasHelp (namespaceMetricFamilySetPromType ns name metricType) f help := by
  rw [namespaceMetricFamilySetPromType.eq_def]
  by_cases hname : name = []
  · rw [if_pos hname]
    exact h
  · rw [if_neg hname]
    cases metricType with
    | histogram | summary =>
      dsimp only
      split
      · exact h.set _ _
      · exact (h.set _ _).setSuffixes _ _
    | untyped | counter | gauge => exact h.set _ _

/-- A help text for a name that ends like a component does not reach the family. -/
lemma HasHelp.promHelp (h : HasHelp ns f help) (hcomp : ComponentName f) (hlen : f.length < 255)
    (text : Str) : HasHelp (namespaceMetricFamilySetPromHelp ns f text) f help := by
  obtain ⟨t, e⟩ := h
  rw [namespaceMetricFamilySetPromHelp]
  split_ifs
  · exact ⟨t, e⟩
  · exact ⟨t, by rw [get_familySet_ne (promHelpName_ne hcomp (by omega)).symm, e]⟩

lemma promHelpEscape_append (a b : Str) :
    promHelpEscape (a ++ b) = promHelpEscape a ++ promHelpEscape b := flatMap_append

lemma exists_store_named (f : Str) : ∃ s x, Holds s [x] ∧ metricName x.series = f := by
  obtain ⟨s, p, L, y, -, hL, up, -⟩ := upsertSample_spec (holds_init 0) (fun a _ => a) ⟨10, 10⟩
    f .empty ⟨.int, 1, 100, false, false⟩
  obtain rfl := Upserted.of_nil up
  refine ⟨s, _, hL, ?_⟩
  have hchain : keyOf (chainOf (Store.init 0) f .empty) = some f := by
    rfl
  exact congrArg (fun k => Option.getD k []) hchain

/-- A family with another help text is not shown with this one. -/
lemma not_showsFamily (h : HasHelp ns f (some (text ++ [120]))) : ¬ShowsFamily ns f t text := by
  intro hshows
  obtain ⟨t', e⟩ := h
  obtain ⟨s, x, hL, hname⟩ := exists_store_named f
  obtain ⟨page, hpage, hlines⟩ := hL.page_eq ns false
  have hx : .sample x.series ∈ page.lines := by
    rw [hlines, ← mem_series]
    exact mem_cons_self
  have hmember : metricName x.series ∈ memberNames t f := by
    rw [hname]
    cases t <;> exact mem_cons_self
  obtain ⟨z, -, hz⟩ := mem_pageLines (hlines ▸ (hshows s [x] hL false page hpage x.series hx hmember).1)
  rw [headerOf_eq] at hz
  simp only [headerLines, mem_cons, not_mem_nil, or_false, Line.help.injEq, reduceCtorEq] at hz
  obtain ⟨hfam, htext⟩ := hz
  rw [← hfam, e] at htext
  have hlength : (promHelpEscape text).length = (promHelpEscape (text ++ [120])).length :=
    congrArg List.length htext
  rw [promHelpEscape_append, length_append] at hlength
  have hone : (promHelpEscape [120]).length = 1 := rfl
  omega

/-- A comment line of a family fits into the buffer. -/
lemma commentLine_fits {pre s : Str} (hpre : (∀ c ∈ pre, c ∉ [10, 0]) ∧ pre.length = 7)
    (hname : validMetricName f = true) (hlen : f.length < 255) (hs : ∀ c ∈ s, c ∉ [10, 0])
    (hslen : s.length ≤ 4094) : 10 ∉ pre ++ (f ++ 32 :: s) ∧ 0 ∉ pre ++ (f ++ 32 :: s) ∧
      (pre ++ (f ++ 32 :: s)).length < 65535 := by
  have hall : ∀ c ∈ pre ++ (f ++ 32 :: s), c ∉ [10, 0] := by
    intro c hc
    simp only [mem_append, mem_cons] at hc
    rcases hc with hc | hc | rfl | hc
    · exact hpre.1 c hc
    · have hchar := metricChar_of_validMetricName hname c hc
      intro hmem
      simp only [mem_cons, not_mem_nil, or_false] at hmem
      rcases hmem with rfl | rfl <;> exact absurd hchar (by decide)
    · decide
    · exact hs c hc
  refine ⟨fun h => hall 10 h (by decide), fun h => hall 0 h (by decide), ?_⟩
  have := hpre.2
  simp only [length_append, length_cons]
  omega

/-- The push that has nothing but the two lines. -/
lemma familyPush_lines (hname : validMetricName f = true) (hlen : f.length < 255)
    (htext : HelpText raw text) (hraw : raw.length ≤ 2047) :
    FamilyPush f t raw [helpLine f raw, typeLine f t false] := by
  have hkeyword : (∀ c ∈ promTypeExpositionKeyword t false, c ∉ [10, 0]) ∧
      (promTypeExpositionKeyword t false).length ≤ 2047 := by
    cases t <;> decide +kernel
  have hraw' : ∀ c ∈ raw, c ∉ [10, 0] := by
    intro c hc hmem
    refine htext.not_mem c hc ?_
    simp only [mem_cons] at hmem ⊢
    tauto
  refine ⟨?_, ?_, mem_cons_self, ⟨false, by simp⟩, ?_⟩
  · simp only [forall_mem_cons, not_mem_nil, false_implies, implies_true, and_true]
    exact ⟨commentLine_fits (by decide +kernel) hname hlen hraw' (hraw.trans (by decide)),
      commentLine_fits (by decide +kernel) hname hlen hkeyword.1 (hkeyword.2.trans (by decide))⟩
  · simp only [forall_mem_cons, not_mem_nil, false_implies, implies_true, and_true]
    exact ⟨rfl, rfl⟩
  · intro l hl hhelp htype
    simp only [mem_cons, not_mem_nil, or_false] at hl
    exact (hl.elim (fun e => hhelp e) (fun e => htype false e)).elim

end Lost

/-- For every family name of less than 255 bytes, every type and every help text of at most
2047 bytes on its line that does not start with a blank: after every push with a `# HELP` and
a `# TYPE` line of the family, whatever the namespace was before, every page that shows a
sample of the family shows its help text and its type, if and only if the name does not end
like a component. -/
theorem family_survives_iff {f raw text : Str} (hname : validMetricName f = true)
    (hlen : f.length < 255) (t : MetricType) (htext : HelpText raw text)
    (hraw : raw.length ≤ 2047) (hblank : ∀ c ∈ raw.head?, isBlank c = false) :
    (∀ lines, FamilyPush f t raw lines → ∀ (http : Option HttpReplyData) (carg : PushCarg)
        (ns : Families), ShowsFamily
          (familiesAfter ns (multicollectorTextParse http (unlines lines) carg).2) f t text) ↔
      ¬ComponentName f := by
  have hf : f ≠ [] := by
    rintro rfl
    cases hname
  constructor
  · intro hall hcomp
    have push : FamilyPush f t raw _ := familyPush_lines hname hlen htext hraw
    have hshows := hall _ push none ⟨[], false, false, 0, 0, false, 0⟩
      [(f, ⟨.untyped, some (text ++ [120])⟩)]
    rw [familiesAfter_textParse _ push.fits push.body] at hshows
    refine not_showsFamily ?_ hshows
    have h0 : HasHelp [(f, ⟨.untyped, some (text ++ [120])⟩)] f (some (text ++ [120])) :=
      ⟨.untyped, lookup_cons_self⟩
    rw [foldl_cons, foldl_cons,
      lineFamilies_helpLine (commentOp_helpLine hname hlen htext hraw hblank),
      lineFamilies_typeLine (commentOp_typeLine hname hlen t false)]
    exact (h0.promHelp hcomp hlen text).promType f t
  · intro hplain lines push http carg ns
    rw [familiesAfter_textParse _ push.fits push.body]
    exact showsFamily_of_get hplain hf hlen (push.meta hplain hname hlen htext hraw hblank)

/-- A counter with a help text. -/
theorem family_survives_counter : ShowsFamily
    (familiesAfter [] (multicollectorTextParse none (unlines
      [helpLine (cstr "a") (cstr "b"), typeLine (cstr "a") .counter false])
      ⟨[], false, true, 0, 0, false, 0⟩).2) (cstr "a") .counter (cstr "b") := by
  have htext : HelpText (cstr "b") (cstr "b") := .plain (by decide) .nil
  have hplain : ¬ComponentName (cstr "a") := by
    rintro ⟨base, suffix, -, hs, he⟩
    have hlen : ∀ suffix ∈ componentSuffixes, 1 < suffix.length := by decide
    have := congrArg List.length he
    rw [length_append, show (cstr "a").length = 1 from rfl] at this
    have := hlen suffix hs
    omega
  exact (family_survives_iff (by decide) (by decide) .counter htext (by decide)
    (by decide +kernel)).mpr hplain _ (familyPush_lines (by decide) (by decide) htext (by decide))
    _ _ _

/-- The help text of a counter whose name ends in `_count` is not on the page. -/
theorem family_lost_count :
    ∃ s p page, upsertSample (fun a _ => a) ⟨10, 10⟩ (.init 0) (cstr "http_request_count") .empty
        ⟨.double, Binary64.ofInt 1, 100, false, false⟩ = some (s, p) ∧
      s.page (familiesAfter [] (multicollectorTextParse none
        (cstr "# HELP http_request_count n\n# TYPE http_request_count counter\nhttp_request_count 1\n")
        ⟨[], false, true, 0, 0, false, 0⟩).2) false = some page ∧
      (page.lines.filterMap Line.series).map metricName = [cstr "http_request_count"] ∧
      .help (cstr "http_request_count") (cstr "n") ∉ page.lines := by
  have hfamilies : familiesAfter [] (multicollectorTextParse none
      (cstr "# HELP http_request_count n\n# TYPE http_request_count counter\nhttp_request_count 1\n")
      ⟨[], false, true, 0, 0, false, 0⟩).2 =
      [(cstr "http_request_count", ⟨.counter, none⟩),
        (cstr "http_request", ⟨.untyped, some (cstr "n")⟩)] := by
    decide
  have hrun : (do
      let r ← upsertSample (fun a _ => a) ⟨10, 10⟩ (.init 0) (cstr "http_request_count") .empty
        ⟨.double, Binary64.ofInt 1, 100, false, false⟩
      let page ← r.1.page [(cstr "http_request_count", ⟨.counter, none⟩),
        (cstr "http_request", ⟨.untyped, some (cstr "n")⟩)] false
      return ((page.lines.filterMap Line.series).map metricName,
        decide (.help (cstr "http_request_count") (cstr "n") ∈ page.lines))) =
      some ([cstr "http_request_count"], false) := by
    decide
  obtain ⟨⟨s, p⟩, e, hrun⟩ := bind_eq_some_iff.mp hrun
  obtain ⟨page, e', hrun⟩ := bind_eq_some_iff.mp hrun
  obtain ⟨hnames, hhelp⟩ := Prod.mk.inj (some.inj hrun)
  exact ⟨s, p, page, e, (congrArg (fun ns => s.page ns false) hfamilies).trans e', hnames,
    of_decide_eq_false hhelp⟩

/-! ## Help texts of a page -/

lemma promHelpEscape_cons (c : UInt8) (help : Str) : promHelpEscape (c :: help) =
    (if c = 92 ∨ c = 34 then [92] else []) ++ (if c = 10 then [92, 110] else [c]) ++
      promHelpEscape help := rfl

lemma helpText_escape {help : Str} (h0 : 0 ∉ help) (h13 : 13 ∉ help) :
    HelpText (promHelpEscape help) help := by
  induction help with
  | nil => exact .nil
  | cons c help ih =>
    have ih := ih (fun h => h0 (mem_cons_of_mem _ h)) fun h => h13 (mem_cons_of_mem _ h)
    by_cases hc : c ∈ [92, 34, 10]
    · simp only [mem_cons, not_mem_nil, or_false] at hc
      rcases hc with rfl | rfl | rfl
      · exact ih.backslash
      · exact ih.quote
      · exact ih.newline
    · simp only [mem_cons] at hc h0 h13
      rw [promHelpEscape_cons, if_neg (by tauto), if_neg (by tauto)]
      exact .plain (by simp; tauto) ih

lemma head_promHelpEscape {help : Str} (h : ∀ c ∈ help.head?, isBlank c = false) :
    ∀ c ∈ (promHelpEscape help).head?, isBlank c = false := by
  cases help with
  | nil => simp [promHelpEscape]
  | cons c help =>
    rw [promHelpEscape_cons]
    split_ifs <;> simp_all <;> decide

/-- The help line of a page gives the help text back when it is pushed, if the text has no NUL and
no carriage return, does not start with a blank and is not cut. -/
theorem help_text_roundTrip {f help : Str} (hname : validMetricName f = true)
    (hlen : f.length < 255) (h0 : 0 ∉ help) (h13 : 13 ∉ help)
    (hblank : ∀ c ∈ help.head?, isBlank c = false) (hshort : (promHelpEscape help).length < 2048)
    (http : Option HttpReplyData) (carg : PushCarg) :
    (multicollectorTextParse http (unlines [helpLine f (promHelpEscape help)]) carg).2 =
      .help f help :: if carg.noMetric then [] else [.statistics 1 carg.pushAcceptedLines] := by
  have htext := helpText_escape h0 h13
  have hop := commentOp_helpLine hname hlen htext (by omega) (head_promHelpEscape hblank)
  have push := familyPush_lines (t := .untyped) hname hlen htext (by omega)
  have hlines : charFgets _ (unlines [helpLine f (promHelpEscape help)]) = _ :=
    charFgets_unlines (fun l hl => push.fits l (by simp_all)) le_rfl
  have hline : ∀ n, textLine http ⟨false, [], carg, []⟩ (helpLine f (promHelpEscape help)) n =
      ⟨false, [], carg, [.help f help]⟩ := by
    intro n
    have hhash : (helpLine f (promHelpEscape help)).head? = some 35 := rfl
    rw [textLine, push.body _ mem_cons_self, hop]
    cases carg.metricAggregation <;> rfl
  rw [multicollectorTextParse, hlines]
  simp [hline]

/-- A text with all the bytes that are escaped. -/
theorem help_text_roundTrip_escapes :
    (multicollectorTextParse none
      (unlines [helpLine (cstr "a") (promHelpEscape (cstr "\\n\n\""))])
      ⟨[], false, true, 0, 0, false, 0⟩).2 = [.help (cstr "a") (cstr "\\n\n\"")] :=
  help_text_roundTrip (by decide) (by decide) (by decide) (by decide) (by decide +kernel)
    (by decide) none _

end Alligator
