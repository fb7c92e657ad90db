import Alligator.Lib.Double
import Alligator.Metric.Refinement

/-!
# The scrape page

`metrictree_str_build` prints the series of a tree in order.  Before a series whose
family is not the last one that was printed it writes two header lines.  The family
of a series is its name, or its name without a suffix when the table of families says
that this is a histogram or a summary.

The page is a list of lines here, and the string that the code builds is their text.

Series are in the order of their names and not of their families, and the last family
is kept in a buffer of 256 bytes.  So a family may get its header twice, or not at
all.  `one_header_iff` says when this happens.
-/

namespace Alligator

open Memory DList RedBlack Text List Option Record

/-! ## Families -/

/-- `METRIC_TYPE_*` -/
inductive MetricType where
  | untyped
  | counter
  | histogram
  | gauge
  | summary
deriving DecidableEq

/-- `metric_family_metadata` -/
structure FamilyMetadata where
  type : MetricType
  help : Option Str
deriving DecidableEq

/-- `metric_families` of a namespace. -/
abbrev Families := List (Str × FamilyMetadata)

def namespaceMetricFamilyGet (ns : Families) (metricName : Str) : Option FamilyMetadata :=
  ns.lookup metricName

/-- `strlcpy` into a buffer of `size` bytes. -/
def strlcpy (src : Str) (size : Nat) : Str := src.take (size - 1)

/-- `prom_family_ends_with`: the length of what is before the suffix. -/
def promFamilyEndsWith (name suffix : Str) : Option Nat :=
  if name.length ≤ suffix.length then none
  else if name.drop (name.length - suffix.length) ≠ suffix then none
  else some (name.length - suffix.length)

/-- Strip the first of the suffixes that fits, into a buffer. -/
def promFamilyStripSuffix (metricName : Str) (baseOutSize : Nat) : List Str → Option Str
  | [] => none
  | suffix :: suffixes =>
    match promFamilyEndsWith metricName suffix with
    | none => promFamilyStripSuffix metricName baseOutSize suffixes
    | some baseLen => if baseLen ≥ baseOutSize then none else some (metricName.take baseLen)

def promFamilyStripHistogramSuffix (metricName : Str) (baseOutSize : Nat) : Option Str :=
  promFamilyStripSuffix metricName baseOutSize [cstr "_bucket", cstr "_count", cstr "_sum"]

def promFamilyStripSummarySuffix (metricName : Str) (baseOutSize : Nat) : Option Str :=
  promFamilyStripSuffix metricName baseOutSize [cstr "_quantile", cstr "_count", cstr "_sum"]

/-- The family of a stripped name, if its type is the one that has such components. -/
def promFamilyOfBase (ns : Families) (type : MetricType) (bufSize : Nat) (base : Option Str) :
    Option (Str × FamilyMetadata) := do
  let base ← base
  let baseMeta ← namespaceMetricFamilyGet ns base
  if baseMeta.type = type then some (strlcpy base bufSize, baseMeta) else none

def promFamilyExpositionResolve (ns : Families) (metricName : Str) (bufSize : Nat) :
    Str × Option FamilyMetadata :=
  match promFamilyOfBase ns .histogram bufSize (promFamilyStripHistogramSuffix metricName 256) with
  | some (family, baseMeta) => (family, some baseMeta)
  | none =>
    match promFamilyOfBase ns .summary bufSize (promFamilyStripSummarySuffix metricName 256) with
    | some (family, baseMeta) => (family, some baseMeta)
    | none => (metricName, namespaceMetricFamilyGet ns metricName)

def promTypeExpositionKeyword (type : MetricType) (openmetrics : Bool) : Str :=
  match type with
  | .counter => cstr "counter"
  | .histogram => cstr "histogram"
  | .gauge => cstr "gauge"
  | .summary => cstr "summary"
  | .untyped => if openmetrics then cstr "unknown" else cstr "untyped"

/-- `prom_help_escape_and_cat` -/
def promHelpEscape (help : Str) : Str :=
  help.flatMap fun c =>
    (if c = 92 ∨ c = 34 then [92] else []) ++ if c = 10 then [92, 110] else [c]

/-! ## Lines -/

inductive Line where
  /-- `# HELP` with the family and the text. -/
  | help (family text : Str)
  /-- `# TYPE` with the family and the keyword. -/
  | type (family keyword : Str)
  | sample (x : Series)
deriving DecidableEq

/-- `string_int`: at most 19 bytes of the number. -/
def stringInt (i : Int) : Str := (printInt i).take 19

def stringUint (u : Nat) : Str := (decimal u).take 19

def stringDouble (d : BitVec 64) : Str := (Binary64.printLf d).take 19

def valueText (x : Series) : Str :=
  match x.type with
  | .none => []
  | .int => stringInt x.value.toInt
  | .uint => stringUint x.value.toNat
  | .double => stringDouble x.value

/-- The loop over the labels, `quotes_open` telling whether one was printed. -/
def labelsText : Bool → Labels → Str
  | quotesOpen, [] => if quotesOpen then cstr "\x7d" else []
  | quotesOpen, l :: labels =>
    match l.key with
    | none => labelsText quotesOpen labels
    | some key =>
      (if quotesOpen then cstr "," else cstr "\x7b") ++ l.name ++ cstr "=\"" ++ key ++
        cstr "\"" ++ labelsText true labels

def sampleText (x : Series) : Str :=
  (keyOf x.labels).getD [] ++ labelsText false x.labels.tail ++ cstr " " ++ valueText x

def Line.text : Line → Str
  | .help family text => cstr "# HELP " ++ family ++ cstr " " ++ text ++ cstr "\n"
  | .type family keyword => cstr "# TYPE " ++ family ++ cstr " " ++ keyword ++ cstr "\n"
  | .sample x => sampleText x ++ cstr "\n"

/-! ## The page -/

/-- What `metrictree_str_build` carries along: the lines and `last_family`. -/
structure Page where
  lines : List Line
  lastFamily : Str
deriving DecidableEq

def headerLines (openmetrics : Bool) (family : Str) (fam : Option FamilyMetadata) : List Line :=
  [.help family (match fam.bind FamilyMetadata.help with
      | some help => promHelpEscape help
      | none => family),
    .type family
      (promTypeExpositionKeyword (fam.elim .untyped FamilyMetadata.type) openmetrics)]

/-- What `metrictree_str_build` does at a node, between its two subtrees. -/
def strBuildNode (ns : Families) (openmetrics : Bool) (x : Series) (page : Page) :
    Option Page := do
  let key ← keyOf x.labels
  let (family, fam) := promFamilyExpositionResolve ns key 256
  let page := if page.lastFamily = [] ∨ page.lastFamily ≠ family then
      ⟨page.lines ++ headerLines openmetrics family fam, strlcpy family 256⟩
    else page
  return ⟨page.lines ++ [.sample x], page.lastFamily⟩

def metrictreeStrBuild (ns : Families) (openmetrics : Bool) (h : Nodes) :
    Nat → Ptr → Page → Option Page
  | _, none, page => some page
  | 0, some _, _ => none
  | fuel + 1, some x, page => do
    let n ← h.get x
    let page ← metrictreeStrBuild ns openmetrics h fuel n.left page
    let page ← strBuildNode ns openmetrics n.toSeries page
    metrictreeStrBuild ns openmetrics h fuel n.right page

def Store.page (s : Store) (ns : Families) (openmetrics : Bool) : Option Page :=
  metrictreeStrBuild ns openmetrics s.nodes s.nodes.next s.root ⟨[], []⟩

/-! ## Lines of a list of series -/

variable {x : Series}

section Lines

variable (fam : Series → Str) (header : Series → List Line)

/-- The lines of some series, after a series whose family is in the buffer. -/
def pageLines : Str → List Series → List Line
  | _, [] => []
  | last, x :: xs =>
    (if last = [] ∨ last ≠ fam x then header x else []) ++
      .sample x :: pageLines (strlcpy (fam x) 256) xs

def lastAfter (last : Str) (xs : List Series) : Str :=
  xs.foldl (fun _ x => strlcpy (fam x) 256) last

lemma pageLines_append (xs ys : List Series) (last) : pageLines fam header last (xs ++ ys) =
    pageLines fam header last xs ++ pageLines fam header (lastAfter fam last xs) ys := by
  induction xs generalizing last with
  | nil =>
    rfl
  | cons x xs ih =>
    rw [cons_append, pageLines, ih, pageLines, append_assoc]
    rfl

def Line.series : Line → Option Series
  | .sample x => some x
  | _ => none

lemma mem_series {lines : List Line} : x ∈ lines.filterMap Line.series ↔ .sample x ∈ lines := by
  rw [mem_filterMap]
  constructor
  · rintro ⟨line, hline, e⟩
    cases line with
    | help | type => cases e
    | sample y =>
      cases e
      exact hline
  · intro h
    exact ⟨_, h, rfl⟩

lemma filterMap_series_samples (xs : List Series) :
    (xs.map Line.sample).filterMap Line.series = xs := by
  rw [filterMap_map]
  exact filterMap_some

/-- A `# TYPE` line of the family. -/
def Line.isType (f : Str) : Line → Bool
  | .type family _ => family = f
  | _ => false

/-- A `# HELP` line of the family. -/
def Line.isHelp (f : Str) : Line → Bool
  | .help family _ => family = f
  | _ => false

/-- Each family has at most one header, and its samples are together, right after it. -/
structure OneHeader (lines : List Line) : Prop where
  type : ∀ f, (lines.filter (Line.isType f)).length ≤ 1
  help : ∀ f, (lines.filter (Line.isHelp f)).length ≤ 1
  grouped : ∀ x, .sample x ∈ lines → ∃ (l : List Line) (text keyword : Str) (xs : List Series)
      (r : List Line),
    lines = l ++ .help (fam x) text :: .type (fam x) keyword :: (xs.map .sample ++ r) ∧
      (∀ y ∈ xs, fam y = fam x) ∧ ∀ y, .sample y ∈ l ++ r → fam y ≠ fam x

end Lines

/-! ## When each family has one header -/

variable {xs : List Series} {fam : Series → Str}

section Headers

variable {name : Series → Str} {family : Str → Str} {header : Series → List Line}
  {L : List Series}

def Heads (fam : Series → Str) (header : Series → List Line) : Prop :=
  ∀ x, ∃ text keyword, header x = [.help (fam x) text, .type (fam x) keyword]

lemma series_pageLines (hh : Heads fam header) (xs : List Series) (last) :
    (pageLines fam header last xs).filterMap Line.series = xs := by
  induction xs generalizing last with
  | nil =>
    rfl
  | cons x xs ih =>
    obtain ⟨text, keyword, e⟩ := hh x
    have hhead : (if last = [] ∨ last ≠ fam x then header x else []).filterMap Line.series = [] := by
      rw [e]
      split_ifs <;> rfl
    rw [pageLines, filterMap_append, hhead, nil_append,
      filterMap_cons_some (f := Line.series) rfl, ih]

lemma mem_pageLines {line : Line} : ∀ {last}, line ∈ pageLines fam header last xs →
      ∃ x ∈ xs, line ∈ header x ∨ line = .sample x := by
  induction xs with
  | nil =>
    intro last h
    cases h
  | cons x xs ih =>
    intro last h
    rw [pageLines, mem_append, mem_cons] at h
    rcases h with h | rfl | h
    · split_ifs at h
      · exact ⟨x, mem_cons_self, .inl h⟩
      · cases h
    · exact ⟨x, mem_cons_self, .inr rfl⟩
    · obtain ⟨y, hy, e⟩ := ih h
      exact ⟨y, mem_cons_of_mem _ hy, e⟩

structure Counts (fam : Series → Str) (header : Series → List Line) (f : Str)
    (p : Line → Bool) : Prop where
  sample : ∀ x, p (.sample x) = false
  other : ∀ x, fam x ≠ f → ∀ line ∈ header x, p line = false
  own : ∀ x, fam x = f → ((header x).filter p).length = 1

lemma counts_header (hh : Heads fam header) {f : Str} {p : Line → Bool}
    (hp : p = Line.isType f ∨ p = Line.isHelp f) : Counts fam header f p := by
  refine ⟨fun _ => ?_, fun x hx line hline => ?_, fun x hx => ?_⟩
  · rcases hp with rfl | rfl <;> rfl
  · obtain ⟨text, keyword, e⟩ := hh x
    rw [e, mem_cons, mem_singleton] at hline
    rcases hp with rfl | rfl <;> rcases hline with rfl | rfl <;>
      simp [Line.isType, Line.isHelp, hx]
  · obtain ⟨text, keyword, e⟩ := hh x
    rw [e]
    rcases hp with rfl | rfl <;> simp [Line.isType, Line.isHelp, hx]

section Family

variable {fam : Series → Str} {f : Str} {p : Line → Bool}

lemma Counts.absent (hp : Counts fam header f p) (hxs : ∀ x ∈ xs, fam x ≠ f)
    (last : Str) : (pageLines fam header last xs).filter p = [] := by
  rw [filter_eq_nil_iff]
  intro line hline
  obtain ⟨x, hx, h | rfl⟩ := mem_pageLines hline
  · simp [hp.other x (hxs x hx) line h]
  · simp [hp.sample x]

/-- The buffer holds the family as it is. -/
def Buffered (f : Str) : Prop := f ≠ [] ∧ f.length < 256

lemma Buffered.strlcpy_eq (h : Buffered f) : strlcpy f 256 = f :=
  take_of_length_le (by have := h.2; omega)

lemma strlcpy_of_not_buffered (h : ¬Buffered f) : strlcpy f 256 = [] ∨ strlcpy f 256 ≠ f := by
  by_cases hf : f = []
  · exact .inl (by rw [hf]; rfl)
  · refine .inr fun e => h ⟨hf, ?_⟩
    have hlen := congrArg List.length e
    rw [strlcpy, length_take] at hlen
    omega

lemma pageLines_same (h : Buffered f) (hxs : ∀ x ∈ xs, fam x = f) :
    pageLines fam header f xs = xs.map .sample := by
  induction xs with
  | nil => rfl
  | cons x xs ih =>
    have hx := hxs x mem_cons_self
    rw [pageLines, if_neg, hx, h.strlcpy_eq, ih (forall_mem_cons.1 hxs).2]
    · rfl
    · rw [hx]
      exact fun hc => hc.elim h.1 fun hne => hne rfl

/-- The series of a family are together: those before, those of the family, those after. -/
structure Together (fam : Series → Str) (f : Str) (l : List Series) (x : Series)
    (xs r : List Series) : Prop where
  own : fam x = f
  same : ∀ y ∈ xs, fam y = f
  before : ∀ y ∈ l, fam y ≠ f
  after : ∀ y ∈ r, fam y ≠ f

/-- The buffer does not hold the family when its first series comes. -/
def Opens (fam : Series → Str) (f : Str) (l : List Series) : Prop :=
  lastAfter fam [] l = [] ∨ lastAfter fam [] l ≠ f

variable {l xs r : List Series} {x : Series}

lemma Together.lines (h : Together fam f l x xs r) (hopen : Opens fam f l)
    (hbuf : xs ≠ [] → Buffered f) : pageLines fam header [] (l ++ x :: (xs ++ r)) =
      pageLines fam header [] l ++ (header x ++ .sample x :: (xs.map .sample ++
        pageLines fam header (lastAfter fam (strlcpy f 256) xs) r)) := by
  have hxs : pageLines fam header (strlcpy f 256) xs = xs.map .sample := by
    cases xs with
    | nil => rfl
    | cons y ys =>
      have hf := hbuf (cons_ne_nil _ _)
      rw [hf.strlcpy_eq]
      exact pageLines_same hf h.same
  rw [Opens] at hopen
  rw [pageLines_append, pageLines, h.own, if_pos hopen, pageLines_append, hxs]

lemma Together.count (h : Together fam f l x xs r) (hp : Counts fam header f p)
    (hopen : Opens fam f l) (hbuf : xs ≠ [] → Buffered f) :
    ((pageLines fam header [] (l ++ x :: (xs ++ r))).filter p).length = 1 := by
  have hxs : (xs.map Line.sample).filter p = [] := by
    rw [filter_eq_nil_iff]
    intro line hline
    obtain ⟨y, -, rfl⟩ := mem_map.mp hline
    simp [hp.sample y]
  have hx : p (.sample x) ≠ true := by simp [hp.sample x]
  rw [h.lines hopen hbuf, filter_append, filter_append, filter_cons_of_neg hx,
    filter_append, hp.absent h.before, hp.absent h.after, hxs]
  simpa using hp.own x h.own

lemma Together.grouped (hh : Heads fam header) (h : Together fam f l x xs r)
    (hopen : Opens fam f l) (hbuf : xs ≠ [] → Buffered f) :
    ∃ (l' : List Line) (text keyword : Str) (r' : List Line),
      pageLines fam header [] (l ++ x :: (xs ++ r)) =
        l' ++ .help f text :: .type f keyword :: ((x :: xs).map .sample ++ r') ∧
      ∀ y, .sample y ∈ l' ++ r' → fam y ≠ f := by
  obtain ⟨text, keyword, e⟩ := hh x
  refine ⟨_, text, keyword, _, by rw [h.lines hopen hbuf, e, h.own]; rfl, fun y hy => ?_⟩
  rw [← mem_series, filterMap_append, series_pageLines hh, series_pageLines hh, mem_append] at hy
  exact hy.elim (h.before y) (h.after y)

end Family

section Names

variable {fam : Series → Str} (hfam : ∀ x y, name x = name y → fam x = fam y)

/-- No family has a name of another family between two of its names. -/
def Between (name : Series → Str) (fam : Series → Str) (L : List Series) : Prop :=
  ∀ x ∈ L, ∀ y ∈ L, ∀ z ∈ L, strcmp (name x) (name y) = .lt → strcmp (name y) (name z) = .lt →
    fam x = fam z → fam y = fam x

def ByName (name : Series → Str) (L : List Series) : Prop :=
  L.Pairwise fun x y => (strcmp (name x) (name y)).isLE

include hfam in
lemma strcmp_lt_of_ne {y : Series} (h : (strcmp (name x) (name y)).isLE)
    (hne : fam x ≠ fam y) : strcmp (name x) (name y) = .lt := by
  cases e : strcmp (name x) (name y) with
  | lt => rfl
  | eq =>
    have heq : compare (name x) (name y) = .eq := e
    exact absurd (hfam x y (Std.LawfulEqCmp.compare_eq_iff_eq.mp heq)) hne
  | gt =>
    rw [e] at h
    cases h

include hfam in
lemma Between.split (hb : Between name fam L) (hs : ByName name L) (f : Str) :
    ∃ l xs r, L = l ++ (xs ++ r) ∧ (∀ y ∈ xs, fam y = f) ∧ (∀ y ∈ l, fam y ≠ f) ∧
      ∀ y ∈ r, fam y ≠ f := by
  induction L with
  | nil => exact ⟨[], [], [], rfl, by simp⟩
  | cons x L ih =>
    obtain ⟨hx, hs⟩ := pairwise_cons.mp hs
    obtain ⟨l, xs, r, hL, hxs, hl, hr⟩ := ih (fun a ha b hb' c hc =>
      hb a (mem_cons_of_mem _ ha) b (mem_cons_of_mem _ hb') c
        (mem_cons_of_mem _ hc)) hs
    by_cases hf : fam x = f
    · cases xs with
      | nil =>
        refine ⟨[], [x], L, rfl, by simpa using hf, by simp, fun y hy => ?_⟩
        rw [hL, nil_append, mem_append] at hy
        exact hy.elim (hl y) (hr y)
      | cons z zs =>
        cases l with
        | nil =>
          refine ⟨[], x :: z :: zs, r, by rw [hL]; rfl, fun y hy => ?_, by simp, hr⟩
          rcases mem_cons.mp hy with rfl | hy
          · exact hf
          · exact hxs y hy
        | cons y ys =>
          -- the name of `y` is between those of `x` and `z`
          exfalso
          have hz := hxs z mem_cons_self
          have hy := hl y mem_cons_self
          have hymem : y ∈ L := by simp [hL]
          have hzmem : z ∈ L := by simp [hL]
          have hxy := strcmp_lt_of_ne hfam (hx y hymem) (by rw [hf]; exact Ne.symm hy)
          have hyz : (strcmp (name y) (name z)).isLE := by
            rw [hL, cons_append] at hs
            exact (pairwise_cons.mp hs).1 z (by simp)
          have hyz' := strcmp_lt_of_ne hfam hyz (by rw [hz]; exact hy)
          have := hb x mem_cons_self y (mem_cons_of_mem _ hymem) z
            (mem_cons_of_mem _ hzmem) hxy hyz' (by rw [hf, hz])
          exact hy (this.trans hf)
    · refine ⟨x :: l, xs, r, by rw [hL]; rfl, hxs, fun y hy => ?_, hr⟩
      rcases mem_cons.mp hy with rfl | hy
      · exact hf
      · exact hl y hy

/-- What a page needs for one header per family. -/
structure Separated (name : Series → Str) (fam : Series → Str) (L : List Series) : Prop where
  between : Between name fam L
  /-- A family of two series fits into the buffer. -/
  shared : ∀ f, 2 ≤ (L.filter fun x => fam x = f).length → f ≠ [] ∧ f.length < 256
  /-- What is left in the buffer of a longer family is not the next family. -/
  cut : ∀ l x y r, L = l ++ x :: y :: r → 256 ≤ (fam x).length → fam y ≠ (fam x).take 255

/-- A page of one family. -/
lemma separated_of_eq {name fam : Series → Str} {L : List Series} {f : Str}
    (h : ∀ x ∈ L, fam x = f) (hf : f ≠ [] ∧ f.length < 256) : Separated name fam L where
  between x hx y hy _ _ _ _ _ := (h y hy).trans (h x hx).symm
  shared g hg := by
    obtain ⟨x, hx⟩ := exists_mem_of_length_pos (Nat.lt_of_lt_of_le Nat.two_pos hg)
    obtain ⟨hx, e⟩ := mem_filter.1 hx
    rwa [← of_decide_eq_true e, h x hx]
  cut l x y r hL hlen := by
    rw [h x (by simp [hL])] at hlen
    omega

include hfam in
/-- Where the series of a family are. -/
lemma Separated.together (h : Separated name fam L) (hs : ByName name L)
    (hx : x ∈ L) : ∃ l x' xs r, L = l ++ x' :: (xs ++ r) ∧ Together fam (fam x) l x' xs r ∧
      Opens fam (fam x) l ∧ (xs ≠ [] → Buffered (fam x)) := by
  obtain ⟨l, xs, r, rfl, hxs, hl, hr⟩ := h.between.split hfam hs (fam x)
  have hmem : x ∈ xs := by
    rw [mem_append, mem_append] at hx
    exact hx.elim (fun hx => absurd rfl (hl x hx)) fun hx => hx.elim id fun hx => absurd rfl (hr x hx)
  cases xs with
  | nil => cases hmem
  | cons x' xs =>
    have hx' := hxs x' mem_cons_self
    refine ⟨l, x', xs, r, rfl, ⟨hx', (forall_mem_cons.1 hxs).2, hl, hr⟩,
      ?_, fun hne => h.shared _ ?_⟩
    · rcases eq_nil_or_concat l with rfl | ⟨l', y, rfl⟩
      · exact .inl rfl
      · rw [Opens, lastAfter, concat_eq_append, foldl_append, foldl_cons, foldl_nil]
        have hy := hl y (by simp)
        by_cases hlen : (fam y).length < 256
        · rw [strlcpy, take_of_length_le (by omega)]
          exact .inr hy
        · have := h.cut l' y x' (xs ++ r) (by simp) (by omega)
          rw [hx'] at this
          exact .inr (Ne.symm this)
    · have hall : (x' :: xs).filter (fun y => fam y = fam x) = x' :: xs :=
        filter_eq_self.mpr fun y hy => decide_eq_true (hxs y hy)
      rw [filter_append, filter_append, length_append, length_append, hall, length_cons]
      have := length_pos_iff.mpr hne
      omega

include hfam in
lemma Separated.oneHeader (hh : Heads fam header) (h : Separated name fam L)
    (hs : ByName name L) : OneHeader fam (pageLines fam header [] L) := by
  have hcount : ∀ f p, Counts fam header f p →
      ((pageLines fam header [] L).filter p).length ≤ 1 := by
    intro f p hp
    by_cases hf : ∃ x ∈ L, fam x = f
    · obtain ⟨x, hx, rfl⟩ := hf
      obtain ⟨l, x', xs, r, rfl, ht, hopen, hbuf⟩ := h.together hfam hs hx
      exact (ht.count hp hopen hbuf).le
    · rw [hp.absent (fun x hx e => hf ⟨x, hx, e⟩)]
      exact Nat.zero_le _
  refine ⟨fun f => hcount f _ (counts_header hh (.inl rfl)),
    fun f => hcount f _ (counts_header hh (.inr rfl)), fun x hx => ?_⟩
  rw [← mem_series, series_pageLines hh] at hx
  obtain ⟨l, x', xs, r, rfl, ht, hopen, hbuf⟩ := h.together hfam hs hx
  obtain ⟨l', text, keyword, r', e, hother⟩ := ht.grouped hh hopen hbuf
  refine ⟨l', text, keyword, x' :: xs, r', e, fun y hy => ?_, hother⟩
  rcases mem_cons.mp hy with rfl | hy
  · exact ht.own
  · exact ht.same y hy

/-- The lines before the first sample of a family. -/
def untilFamily (fam : Series → Str) (f : Str) (lines : List Line) : List Line :=
  lines.takeWhile fun line => line.series.all fun y => fam y ≠ f

lemma untilFamily_append {f : Str} {l : List Line} {r : List Line}
    (hl : ∀ y, .sample y ∈ l → fam y ≠ f) (hx : fam x = f) :
    untilFamily fam f (l ++ .sample x :: r) = l := by
  rw [untilFamily, takeWhile_append_of_pos, takeWhile_cons_of_neg, append_nil]
  · simp [Line.series, hx]
  · intro line hline
    cases line with
    | help | type => rfl
    | sample y => simpa [Line.series] using hl y hline

section

variable (hh : Heads fam header)
include hh

/-- The first series of a family has a header. -/
lemma OneHeader.opens {l r : List Series}
    (h : OneHeader fam (pageLines fam header [] (l ++ x :: r))) (hl : ∀ y ∈ l, fam y ≠ fam x) :
    Opens fam (fam x) l := by
  by_contra hclosed
  have hlines : pageLines fam header [] (l ++ x :: r) = pageLines fam header [] l ++
      .sample x :: pageLines fam header (strlcpy (fam x) 256) r := by
    rw [Opens] at hclosed
    rw [pageLines_append, pageLines, if_neg hclosed, nil_append]
  have hbefore : ∀ y, .sample y ∈ pageLines fam header [] l → fam y ≠ fam x := by
    intro y hy
    rw [← mem_series, series_pageLines hh] at hy
    exact hl y hy
  obtain ⟨l', text, keyword, xs, r', e, hxs, hother⟩ := h.grouped x (by rw [hlines]; simp)
  -- the header lines are before the first sample of the family, where there are none
  have hmem : .type (fam x) keyword ∈
      untilFamily fam (fam x) (pageLines fam header [] (l ++ x :: r)) := by
    cases xs with
    | nil =>
      exfalso
      have hx : Line.sample x ∈ l' ++ r' := by
        have : Line.sample x ∈ pageLines fam header [] (l ++ x :: r) := by
          rw [hlines]
          simp
        rw [e] at this
        simpa using this
      exact hother x hx rfl
    | cons y ys =>
      have e' : pageLines fam header [] (l ++ x :: r) =
          (l' ++ [.help (fam x) text, .type (fam x) keyword]) ++
            .sample y :: (ys.map .sample ++ r') := by
        rw [e]
        simp
      rw [e', untilFamily_append (fun z hz => hother z (by simpa using Or.inl hz))
        (hxs y mem_cons_self)]
      simp
  rw [hlines, untilFamily_append hbefore rfl] at hmem
  obtain ⟨y, hy, hline | hline⟩ := mem_pageLines hmem
  · obtain ⟨text', keyword', ey⟩ := hh y
    rw [ey] at hline
    have hxy : fam x = fam y ∧ keyword = keyword' := by simpa using hline
    exact hl y hy hxy.1.symm
  · cases hline

variable (h : OneHeader fam (pageLines fam header [] L))
include h

lemma OneHeader.split
    (hx : x ∈ L) : ∃ l x' xs r, L = l ++ x' :: (xs ++ r) ∧ Together fam (fam x) l x' xs r := by
  have hx' : Line.sample x ∈ pageLines fam header [] L := by
    rwa [← mem_series, series_pageLines hh]
  obtain ⟨l, text, keyword, xs, r, e, hxs, hother⟩ := h.grouped x hx'
  have hL : L = l.filterMap Line.series ++ (xs ++ r.filterMap Line.series) := by
    have hseries := congrArg (List.filterMap Line.series) e
    rw [series_pageLines hh, filterMap_append, filterMap_cons_none (f := Line.series) rfl,
      filterMap_cons_none (f := Line.series) rfl, filterMap_append,
      filterMap_series_samples] at hseries
    exact hseries
  have hl : ∀ y ∈ l.filterMap Line.series, fam y ≠ fam x := fun y hy =>
    hother y (mem_append_left _ (mem_series.mp hy))
  have hr : ∀ y ∈ r.filterMap Line.series, fam y ≠ fam x := fun y hy =>
    hother y (mem_append_right _ (mem_series.mp hy))
  cases xs with
  | nil =>
    rw [hL, mem_append] at hx
    exact (hx.elim (fun h => hl x h rfl) fun h => hr x h rfl).elim
  | cons x' xs =>
    exact ⟨_, x', xs, _, hL, hxs x' mem_cons_self, (forall_mem_cons.1 hxs).2, hl, hr⟩

lemma OneHeader.between (hs : ByName name L) : Between name fam L := by
  intro x hx y hy z hz hxy hyz hxz
  obtain ⟨l, x', xs, r, rfl, ht⟩ := h.split hh hx
  have hown : ∀ w ∈ l ++ x' :: (xs ++ r), fam w = fam x → w ∈ x' :: xs := by
    intro w hw hwx
    simp only [mem_append, mem_cons] at hw ⊢
    rcases hw with hw | rfl | hw | hw
    · exact absurd hwx (ht.before w hw)
    · exact .inl rfl
    · exact .inr hw
    · exact absurd hwx (ht.after w hw)
  -- neither before the name of `x` nor after that of `z`
  rw [ByName, ← cons_append, pairwise_append, pairwise_append] at hs
  obtain ⟨-, ⟨-, -, hafter⟩, hbefore⟩ := hs
  have hlt : ∀ a b : Series, strcmp (name a) (name b) = .lt →
      (strcmp (name b) (name a)).isLE = true → False := by
    intro a b hab hba
    have hgt : compare (name b) (name a) = .gt := Std.OrientedCmp.gt_of_lt hab
    rw [strcmp, hgt] at hba
    cases hba
  simp only [mem_append, mem_cons] at hy
  rcases hy with hy | rfl | hy | hy
  · exact (hlt x y hxy (hbefore y hy x (mem_append_left _ (hown x hx rfl)))).elim
  · exact ht.own
  · exact ht.same y hy
  · exact (hlt y z hyz (hafter z (hown z hz hxz.symm) y hy)).elim

lemma OneHeader.shared {f : Str} (hf : 2 ≤ (L.filter fun x => fam x = f).length) : Buffered f := by
  have hne : L.filter (fun x => fam x = f) ≠ [] := by
    intro e
    rw [e] at hf
    cases hf
  obtain ⟨x, hx⟩ := exists_mem_of_ne_nil _ hne
  rw [mem_filter, decide_eq_true_eq] at hx
  obtain ⟨hx, rfl⟩ := hx
  obtain ⟨l, x', xs, r, rfl, ht⟩ := h.split hh hx
  by_contra hbuf
  cases xs with
  | nil =>
    rw [filter_append, filter_eq_nil_iff.mpr (by simpa using ht.before),
      filter_cons_of_pos (by simpa using ht.own),
      filter_eq_nil_iff.mpr (by simpa using ht.after)] at hf
    simp at hf
  | cons y ys =>
    -- both the first and the second series of the family get a header
    have hopen := h.opens hh (x := x') (by rw [ht.own]; exact ht.before)
    have hcounts := counts_header (f := fam x) hh (.inl rfl)
    have htwo := h.type (fam x)
    have hy := ht.same y mem_cons_self
    have hopen' := strlcpy_of_not_buffered hbuf
    rw [Opens, ht.own] at hopen
    rw [pageLines_append, pageLines, ht.own, if_pos hopen, cons_append, pageLines, hy,
      if_pos hopen'] at htwo
    have hx1 := hcounts.own x' ht.own
    have hy1 := hcounts.own y hy
    simp only [filter_append, length_append, filter_cons_of_neg
      (show ¬Line.isType (fam x) (.sample x') = true by simp [Line.isType])] at htwo
    omega

end

lemma OneHeader.separated (hfam : ∀ x y, name x = name y → fam x = fam y)
    (hh : Heads fam header) (h : OneHeader fam (pageLines fam header [] L))
    (hs : ByName name L) : Separated name fam L := by
  have hb := h.between hh hs
  refine ⟨hb, fun f hf => h.shared hh hf, ?_⟩
  rintro l x y r rfl hlen hy
  have hxy : fam x ≠ fam y := by
    intro e
    have := congrArg List.length (e.trans hy)
    rw [length_take] at this
    omega
  rw [ByName, pairwise_append] at hs
  obtain ⟨-, hs, hbefore⟩ := hs
  have hl : ∀ z ∈ l ++ [x], fam z ≠ fam y := by
    intro z hz hzy
    rcases mem_append.mp hz with hz | hz
    · have hzx := strcmp_lt_of_ne hfam (hbefore z hz x mem_cons_self)
        (by rw [hzy]; exact Ne.symm hxy)
      have hxy' := strcmp_lt_of_ne hfam ((pairwise_cons.mp hs).1 y mem_cons_self) hxy
      exact hxy ((hb z (by simp [hz]) x (by simp) y (by simp) hzx hxy' hzy).trans hzy)
    · rw [mem_singleton.mp hz] at hzy
      exact hxy hzy
  have hopen := OneHeader.opens hh (l := l ++ [x]) (x := y) (r := r) (by simpa using h) hl
  rw [Opens, lastAfter, foldl_append, foldl_cons, foldl_nil, strlcpy] at hopen
  rcases hopen with hnil | hne
  · have := congrArg List.length hnil
    rw [length_take, length_nil] at this
    omega
  · exact hne hy.symm

end Names

end Headers

/-! ## The page of a tree -/

variable {L : List Record} {s : Store}

section Tree

variable {ns : Families} {openmetrics : Bool} {h : Nodes}

def metricName (x : Series) : Str := (keyOf x.labels).getD []

def familyOf (ns : Families) (x : Series) : Str :=
  (promFamilyExpositionResolve ns (metricName x) 256).1

def headerOf (ns : Families) (openmetrics : Bool) (x : Series) : List Line :=
  headerLines openmetrics (familyOf ns x) (promFamilyExpositionResolve ns (metricName x) 256).2

lemma heads_headerOf (ns : Families) (openmetrics : Bool) :
    Heads (familyOf ns) (headerOf ns openmetrics) :=
  fun _ => ⟨_, _, rfl⟩

lemma strBuildNode_eq (hx : (keyOf x.labels).isSome) {page : Page}
    (hlast : page.lastFamily.length < 256) : strBuildNode ns openmetrics x page =
      some ⟨page.lines ++ pageLines (familyOf ns) (headerOf ns openmetrics) page.lastFamily [x],
        strlcpy (familyOf ns x) 256⟩ := by
  obtain ⟨key, hkey⟩ := isSome_iff_exists.mp hx
  have hname : metricName x = key := by rw [metricName, hkey]; rfl
  simp only [strBuildNode, hkey, some_bind, pageLines, headerOf, familyOf, hname]
  split_ifs with hc
  · simp
  · -- the family is the one in the buffer
    obtain ⟨-, hsame⟩ := not_or.mp hc
    rw [← not_not.mp hsame, strlcpy, take_of_length_le (by omega)]
    simp

lemma foldlM_strBuildNode : (∀ x ∈ xs, (keyOf x.labels).isSome) →
    ∀ {page : Page}, page.lastFamily.length < 256 →
      xs.foldlM (fun page x => strBuildNode ns openmetrics x page) page =
        some ⟨page.lines ++ pageLines (familyOf ns) (headerOf ns openmetrics) page.lastFamily xs,
          lastAfter (familyOf ns) page.lastFamily xs⟩ := by
  induction xs with
  | nil =>
    intro _ page _
    simp [pageLines, lastAfter]
  | cons x xs ih =>
    intro hxs page hlast
    have hlast' : (strlcpy (familyOf ns x) 256).length < 256 := by
      rw [strlcpy, length_take]
      omega
    have hcons : pageLines (familyOf ns) (headerOf ns openmetrics) page.lastFamily (x :: xs) = _ :=
      pageLines_append (familyOf ns) (headerOf ns openmetrics) [x] xs page.lastFamily
    rw [foldlM_cons, strBuildNode_eq (hxs x mem_cons_self) hlast, bind_eq_bind,
      bind_some, ih (forall_mem_cons.1 hxs).2 hlast', hcons, ← append_assoc]
    rfl

/-- A walk that visits the nodes in order goes through the list of their series. -/
lemma walk_eq {σ : Type} (visit : Series → σ → Option σ) (walk : Nat → Ptr → σ → Option σ)
    (hnil : ∀ fuel st, walk fuel none st = some st)
    (hnode : ∀ {fuel a n} st, h.get a = some n → walk (fuel + 1) (some a) st =
      (walk fuel n.left st).bind fun st => (visit n.toSeries st).bind (walk fuel n.right))
    {t : CTree} {fuel : Nat} (ht : t.Within (links h) (fun _ => True) fuel) (st : σ) :
    walk fuel t.root st = (t.addrs.filterMap (seriesAt h)).foldlM (fun st x => visit x st) st := by
  refine ht.induct (P := fun fuel t => ∀ st, walk fuel t.root st =
    (t.addrs.filterMap (seriesAt h)).foldlM (fun st x => visit x st) st) hnil ?_ st
  intro fuel a c x y ht ihx ihy st
  obtain ⟨n, hget, hleft, hright⟩ := get_of_lies ht.lies
  have hseries : seriesAt h a = some n.toSeries := by
    rw [seriesAt, payload, Heap.view, hget]
    rfl
  rw [CTree.root, hnode st hget, hleft, hright, ihx, CTree.addrs, filterMap_append,
    filterMap_cons_some hseries]
  simp [← ihy]

variable {lists : Buckets} {T : CTree}

lemma Stored.series_eq
    (S : Stored s T lists L) : T.addrs.filterMap (seriesAt s.nodes) = L.map series := by
  have hrecords : T.addrs.map (seriesAt s.nodes) = (L.map series).map some := by
    have := congrArg (List.map (Option.map series)) S.records
    rw [List.map_map, List.map_map] at this
    rw [List.map_map]
    refine Eq.trans (map_congr_left fun a ha => ?_) this
    obtain ⟨x, -, hrec⟩ := S.record_of_mem ha
    obtain ⟨n, hp, -⟩ := S.node ha hrec
    rw [Function.comp, hrec, seriesAt, hp]
    rfl
  have := congrArg (List.filterMap id) hrecords
  rw [filterMap_map, filterMap_map] at this
  exact this.trans filterMap_some

lemma Stored.byName (S : Stored s T lists L) : ByName metricName (L.map series) := by
  rw [ByName, pairwise_map]
  refine List.Pairwise.imp_of_mem (fun {x y} hx hy hle => ?_) S.sorted
  obtain ⟨n, hn⟩ := (S.fits x hx).2
  obtain ⟨m, hm⟩ := (S.fits y hy).2
  rw [Record.sortKey, Record.sortKey, compare_sortKey, hn, hm] at hle
  rw [metricName, metricName, hn, hm]
  exact Ordering.isLE_left_of_isLE_then hle

end Tree

lemma Stored.keys (S : Stored s T lists L) : ∀ x ∈ L.map series, (keyOf x.labels).isSome := by
  intro x hx
  obtain ⟨y, hy, rfl⟩ := mem_map.mp hx
  exact isSome_iff_exists.mpr (S.fits y hy).2

lemma Holds.page_eq (h : Holds s L) (ns : Families)
    (openmetrics : Bool) : ∃ page, s.page ns openmetrics = some page ∧
      page.lines = pageLines (familyOf ns) (headerOf ns openmetrics) [] (L.map series) := by
  obtain ⟨T, lists, S, -⟩ := h
  have hpage := walk_eq (strBuildNode ns openmetrics) (metrictreeStrBuild ns openmetrics s.nodes)
    (fun fuel page => by cases fuel <;> rfl)
    (fun page hget => by rw [metrictreeStrBuild, hget]; rfl)
    ⟨S.tree.lies, fun _ _ => trivial, S.tree.length_le⟩ ⟨[], []⟩
  rw [S.series_eq, foldlM_strBuildNode S.keys (by decide), S.tree.root_eq] at hpage
  exact ⟨_, hpage, rfl⟩

/-- On the page of a tree each family has one header, with all its samples right after
it, if and only if no name of another family sorts between two names of a family, no
family of several series is empty or longer than the buffer, and no family is what the
buffer holds of the longer one before it. -/
theorem one_header_iff {s : Store} {L : List Record} (h : Holds s L) (ns : Families)
    (openmetrics : Bool) : ∃ page, s.page ns openmetrics = some page ∧
      (OneHeader (familyOf ns) page.lines ↔
        Separated metricName (familyOf ns) (L.map Record.series)) := by
  obtain ⟨page, hpage, hlines⟩ := h.page_eq ns openmetrics
  obtain ⟨T, lists, S, -⟩ := h
  have hfam : ∀ x y, metricName x = metricName y → familyOf ns x = familyOf ns y := by
    intro x y e
    rw [familyOf, familyOf, e]
  have hh := heads_headerOf ns openmetrics
  refine ⟨page, hpage, ?_⟩
  rw [hlines]
  exact ⟨fun ho => ho.separated hfam hh S.byName, fun hsep => hsep.oneHeader hfam hh S.byName⟩

/-- Two components of a histogram have one header. -/
theorem one_header_histogram :
    ∃ s outs page, (Store.init 0).mapRun (fun a _ => a)
        [.put (cstr "a_bucket") .empty 1, .put (cstr "a_count") .empty 3] = some (s, outs) ∧
      s.contents.length = 2 ∧ s.page [(cstr "a", ⟨.histogram, none⟩)] false = some page ∧
      OneHeader (familyOf [(cstr "a", ⟨.histogram, none⟩)]) page.lines := by
  obtain ⟨s, outs, e, hL, hlen, hfam⟩ := mapRun_init (fun a _ => a)
    [.put (cstr "a_bucket") .empty 1, .put (cstr "a_count") .empty 3]
    (fun L => L.length = 2 ∧ ∀ x ∈ L.map Record.series,
      familyOf [(cstr "a", ⟨.histogram, none⟩)] x = cstr "a") (by decide +kernel)
  obtain ⟨page, hpage, hiff⟩ := one_header_iff hL [(cstr "a", ⟨.histogram, none⟩)] false
  exact ⟨s, outs, page, e, hlen, hpage, hiff.mpr (separated_of_eq hfam (by decide))⟩

/-- The gauge `a_c` sorts between two components of the histogram `a`. -/
theorem one_header_between :
    ∃ s outs page, (Store.init 0).mapRun (fun a _ => a)
        [.put (cstr "a_bucket") .empty 1, .put (cstr "a_c") .empty 2,
          .put (cstr "a_count") .empty 3] = some (s, outs) ∧
      s.page [(cstr "a", ⟨.histogram, none⟩)] false = some page ∧
      (page.lines.filter (Line.isType (cstr "a"))).length = 2 ∧
      ¬OneHeader (familyOf [(cstr "a", ⟨.histogram, none⟩)]) page.lines := by
  have hrun : (((Store.init 0).mapRun (fun a _ => a)
      [.put (cstr "a_bucket") .empty 1, .put (cstr "a_c") .empty 2,
        .put (cstr "a_count") .empty 3]).bind fun r =>
          (r.1.page [(cstr "a", ⟨.histogram, none⟩)] false).map fun page =>
            (page.lines.filter (Line.isType (cstr "a"))).length) = some 2 := by
    decide +kernel
  obtain ⟨⟨s, outs⟩, e, hpage⟩ := bind_eq_some_iff.mp hrun
  obtain ⟨page, e', hcount⟩ := map_eq_some_iff.mp hpage
  refine ⟨s, outs, page, e, e', hcount, fun h => ?_⟩
  have := h.type (cstr "a")
  omega

end Alligator
