import Alligator.Parsers.Multicollector

/-!
# Sample lines of Prometheus

A sample line as a client writes it: a name, labels between braces with their values
escaped, a blank and an integer.  `multicollector_field_get` hands on the sample that was
written exactly when a name without labels has no colon, every label name is one of
Prometheus that fits into its buffer, and the integer is a double
(`fieldGet_promLine_iff`).  A colon in a name without labels is taken for the one of
statsd.
-/

namespace Alligator

open Text Binary64 List Option LabelText

variable {name : Str} {labels : List (Str × Str)}

/-! ## The line -/

def escapeLabelValue (v : Str) : Str :=
  v.flatMap fun c =>
    if c = 92 then [92, 92] else if c = 34 then [92, 34] else if c = 10 then [92, 110] else [c]

def labelEntry (c : Str × Str) : Str := c.1 ++ cstr "=\"" ++ escapeLabelValue c.2 ++ cstr "\""

/-- The labels of a sample line, without braces when there are none. -/
def labelBlock : List (Str × Str) → Str
  | [] => []
  | c :: ps => cstr "\x7b" ++ List.intercalate (cstr ",") ((c :: ps).map labelEntry) ++ cstr "\x7d"

/-- A sample line with an integer. -/
def promLine (name : Str) (labels : List (Str × Str)) (v : Int) : Str :=
  name ++ labelBlock labels ++ cstr " " ++ printInt v

/-- The double is the integer. -/
def Represents (d : BitVec 64) (v : Int) : Prop := exponent d ≠ 2047 ∧ toRat d = v

/-- The parser hands on a sample with the name, the labels and the integer. -/
def Understood (cn : CounterNames) (r : Option (Sample × Write)) (name : Str)
    (labels : List (Str × Str)) (v : Int) : Prop :=
  ∃ sample, r = some (sample, chooseWrite false (cn.dataType name)) ∧ sample.name = name ∧
    sample.labels.pairs = labels.map (fun c => (c.1, metricLabelValueValidatorNormalizer c.2)) ∧
    sample.increment = false ∧ Represents sample.value v

/-! ## Escaped values -/

lemma quotesLoop_escaped {e : UInt8} (he : e = 110 ∨ e = 92 ∨ e = 34) {s2 : Str}
    (hlen : s2.length < 254) (u : Str) (k : Nat) :
    quotesLoop (92 :: e :: u) ((92 :: e :: u).length + k) s2 =
      quotesLoop u (u.length + k) (s2 ++ [if e = 110 then 10 else e]) := by
  have hleft : (92 :: e :: u).length + k = u.length + k + 1 + 1 := by
    simp only [length_cons]
    omega
  rw [hleft, quotesLoop, if_neg (by decide), if_pos ⟨rfl, Nat.succ_pos _, he⟩, putByte_of_lt hlen,
    Nat.add_sub_cancel]

variable {k : Nat} {t v : Str}

lemma quotesLoop_escape (s2 : Str) (hlen : s2.length + v.length < 255) :
    quotesLoop (escapeLabelValue v ++ 34 :: t) ((escapeLabelValue v ++ 34 :: t).length + k) s2 =
      (true, s2 ++ v, .within k t) := by
  induction v generalizing s2 with
  | nil =>
    rw [append_nil]
    exact quotesLoop_close k t s2
  | cons c v ih =>
    rw [length_cons] at hlen
    have hs2 : s2.length < 254 := by omega
    have hrest := ih (s2 ++ [c]) (by simp; omega)
    rw [append_assoc] at hrest
    rw [escapeLabelValue, flatMap_cons]
    split_ifs with h92 h34 h10
    · subst h92
      exact (quotesLoop_escaped (.inr (.inl rfl)) hs2 _ k).trans hrest
    · subst h34
      exact (quotesLoop_escaped (.inr (.inr rfl)) hs2 _ k).trans hrest
    · subst h10
      exact (quotesLoop_escaped (.inl rfl) hs2 _ k).trans hrest
    · exact (quotesLoop_plain h34 h92 hs2 (escapeLabelValue v) t k).trans hrest

lemma quotes_escape (hlen : v.length < 255) : Quotes (escapeLabelValue v) v :=
  quotes_of_loop fun _ _ => quotesLoop_escape [] (by simpa using hlen)

def LabelText.escaped (c : Str × Str) : LabelText := ⟨c.1, c.2, escapeLabelValue c.2⟩

variable (ps : List (Str × Str))

lemma map_pair_escaped : (ps.map escaped).map pair = ps := by
  rw [List.map_map]
  exact List.map_id ps

lemma pairsText_escaped : pairsText ((ps.map escaped).map written) =
      (ps.flatMap fun c => 44 :: labelEntry c) ++ [125] := by
  induction ps with
  | nil => rfl
  | cons c ps ih =>
    rw [map_cons, map_cons, pairsText, ih]
    simp [labelEntry, escaped, written, cstr]

lemma intercalate_cons (sep x : Str) (l : List Str) :
    List.intercalate sep (x :: l) = x ++ l.flatMap fun y => sep ++ y := by
  induction l generalizing x with
  | nil => simp
  | cons y l ih =>
    rw [intercalate_cons_cons, ih y, flatMap_cons, append_assoc, append_assoc]

lemma labelBlock_eq : labelBlock ps = blockText (ps.map escaped) := by
  cases ps with
  | nil => rfl
  | cons c ps =>
    rw [labelBlock, map_cons, map_cons, intercalate_cons, blockText, pairsText_escaped, flatMap_map]
    simp [labelEntry, escaped, cstr]

lemma promLine_eq (name : Str) (labels : List (Str × Str)) (v : Int) : promLine name labels v =
      name ++ (blockText (labels.map escaped) ++ 32 :: printInt v) := by
  rw [promLine, labelBlock_eq]
  simp [cstr]

/-! ## Lines that are understood -/

lemma numeral_printInt (v : Int) : Numeral (printInt v) := by
  refine ⟨?_, by rw [strtod_printInt]; rfl⟩
  cases v with
  | negSucc n => exact ⟨45, _, rfl, .inl rfl⟩
  | ofNat n =>
    obtain ⟨c, t, e, hc⟩ := decimal_eq_cons n
    exact ⟨c, t, e, .inr (.inr (.inr hc))⟩

lemma mem_printInt {v : Int} {c : UInt8} (h : c ∈ printInt v) : c = 45 ∨ isDigit c = true := by
  cases v with
  | ofNat n => exact .inr (isDigit_of_mem_decimal h)
  | negSucc n =>
    rcases mem_cons.mp h with rfl | h
    · exact .inl rfl
    · exact .inr (isDigit_of_mem_decimal h)

lemma atof_printInt (v : Int) : atof (printInt v) = ofInt v := by
  rw [atof, strtod_printInt]
  rfl

def TakenName (n : Str) : Prop := validLabelName n = true ∧ n.length < 255

lemma multicollectorParse_promLine (valid : validMetricName name = true)
    (length : name.length < 255) (colon : labels = [] → 58 ∉ name)
    (hnames : ∀ c ∈ labels, TakenName c.1) (hvalues : ∀ c ∈ labels, c.2.length < 255) (v : Int)
    (k : Nat) :
    multicollectorParse [] .empty (promLine name labels v) ((promLine name labels v).length + k) =
      some ⟨name, insertLabels .empty labels, ofInt v, false⟩ := by
  have hreads : ∀ l ∈ labels.map escaped, l.Reads := by
    intro l hl
    obtain ⟨c, hc, rfl⟩ := mem_map.mp hl
    exact ⟨(hnames c hc).1, (hnames c hc).2, quotes_escape (hvalues c hc)⟩
  have hparse := multicollectorParse_texts (k := k) valid length
    (fun hnil => colon (map_eq_nil_iff.mp hnil)) hreads (numeral_printInt v).readable .empty
  rwa [map_pair_escaped, atof_printInt, ← promLine_eq] at hparse

/-! ## Lines that are not -/

/-- The check of a label name over the bytes of label names. -/
lemma metricNameValidator_take {n : Str} (hn : ∀ x ∈ n, labelChar x = true)
    (h : ¬TakenName n) : metricNameValidator (n.take 254) n.length = false := by
  rw [metricNameValidator, nameValidator]
  cases n with
  | nil => rfl
  | cons a t =>
    by_cases hlen : (a :: t).length < 255
    · have hstart : nameStart a = false := by
        rw [Bool.eq_false_iff]
        intro hstart
        refine h ⟨?_, hlen⟩
        have ha := hn a mem_cons_self
        have h58 : a ≠ 58 := by
          rintro rfl
          cases ha
        rw [nameStart, beq_false_of_ne h58, Bool.or_false] at hstart
        rw [validLabelName, hstart, Bool.true_and, List.all_eq_true]
        exact (forall_mem_cons.1 hn).2
      rw [take_succ_cons, headD_cons, hstart, Bool.false_and]
    · -- The buffer ends before the name does, and its last byte is no letter.
      rw [Bool.and_eq_false_iff]
      refine .inr (all_eq_false.mpr ⟨254, ?_, ?_⟩)
      · rw [mem_range'_1]
        omega
      · have hget : ((a :: t).take 254).getD 254 0 = 0 := by
          rw [getD_eq_getElem?_getD, List.getElem?_eq_none (length_take_le 254 (a :: t))]
          rfl
        rw [hget]
        decide

/-- A label that the parser reads, whatever its name. -/
structure LabelText.Scanned (c : LabelText) : Prop where
  name : ∀ x ∈ c.name, labelChar x = true
  quotes : Quotes c.raw c.value

/-- The loop stops at the first name it does not take. -/
lemma promLabelsLoop_rejects {ps : List LabelText} {c : LabelText}
    (fuel : Nat) (lbl : LabelHash) (hscan : ∀ d ∈ c :: ps, d.Scanned)
    (hbad : ∃ d ∈ c :: ps, ¬TakenName d.name) (hfuel : ps.length < fuel) :
    promLabelsLoop fuel (.within k (c.name ++ 61 :: 34 ::
        (c.raw ++ 34 :: (pairsText (ps.map written) ++ t)))) lbl = none := by
  induction ps generalizing c fuel lbl with
  | nil =>
    obtain ⟨fuel, rfl⟩ : ∃ f, fuel = f + 1 := ⟨fuel - 1, by simp at hfuel; omega⟩
    obtain ⟨d, hd, hbad⟩ := hbad
    rw [mem_singleton.mp hd] at hbad
    have hc := hscan c mem_cons_self
    rw [promLabelsLoop_read hc.name hc.quotes, metricNameValidator_take hc.name hbad]
    rfl
  | cons d ps ih =>
    rw [length_cons] at hfuel
    obtain ⟨fuel, rfl⟩ : ∃ f, fuel = f + 1 := ⟨fuel - 1, by omega⟩
    have hc := hscan c mem_cons_self
    have hd := hscan d (mem_cons_of_mem c mem_cons_self)
    by_cases htaken : TakenName c.name
    · have hrest : ∃ e ∈ d :: ps, ¬TakenName e.name := by
        obtain ⟨e, he, hbad⟩ := hbad
        rcases mem_cons.mp he with rfl | he
        · exact absurd htaken hbad
        · exact ⟨e, he, hbad⟩
      rw [promLabelsLoop_comma ⟨htaken.1, htaken.2, hc.quotes⟩ hd.name]
      exact ih fuel _ (forall_mem_cons.1 hscan).2 hrest (by omega)
    · rw [promLabelsLoop_read hc.name hc.quotes, metricNameValidator_take hc.name htaken]
      rfl

lemma multicollectorParse_rejects (valid : validMetricName name = true)
    (length : name.length < 255) (hnames : ∀ c ∈ labels, ∀ x ∈ c.1, labelChar x = true)
    (hvalues : ∀ c ∈ labels, c.2.length < 255) (hbad : ∃ c ∈ labels, ¬TakenName c.1) (v : Int)
    (k : Nat) :
    multicollectorParse [] .empty (promLine name labels v) ((promLine name labels v).length + k) =
      none := by
  cases labels with
  | nil =>
    obtain ⟨c, hc, -⟩ := hbad
    cases hc
  | cons c ps =>
    have hline : promLine name (c :: ps) v = name ++ 123 :: ((escaped c).name ++
        61 :: 34 :: ((escaped c).raw ++ 34 ::
          (pairsText ((ps.map escaped).map written) ++ 32 :: printInt v))) := by
      rw [promLine_eq, map_cons, blockText]
      simp
    have hscan : ∀ d ∈ escaped c :: ps.map escaped, d.Scanned := by
      intro d hd
      rw [← map_cons] at hd
      obtain ⟨d', hd', rfl⟩ := mem_map.mp hd
      exact ⟨hnames d' hd', quotes_escape (hvalues d' hd')⟩
    have hbad' : ∃ d ∈ escaped c :: ps.map escaped, ¬TakenName d.name := by
      obtain ⟨d, hd, hbad⟩ := hbad
      refine ⟨escaped d, ?_, hbad⟩
      exact mem_map_of_mem hd
    have hskip : ∀ u : Str,
        multicollectorSkipSpaces (.within k (123 :: u)) = .within k (123 :: u) :=
      fun _ => skipSpaces_within rfl
    have hchar : ∀ u : Str, (Cursor.within k (123 :: u)).char = 123 := fun _ => rfl
    rw [hline, multicollectorParse_line valid length (.inl rfl) (fun _ => by simp) .empty
      (by rw [hskip]; exact left_within_cons _ _), hskip, parseBody,
      advance_within_cons, promLabelsLoop_rejects _ .empty hscan hbad'
        (by
          have := length_le_pairsText ((ps.map escaped).map written)
          rw [length_map] at this
          simp only [Cursor.within, length_append, length_cons]
          omega)]
    rfl

lemma length_nameNormalizer (ok : UInt8 → Bool) (str : Str) (sz : Nat) :
    (nameNormalizer ok str sz).length = str.length := by
  rw [nameNormalizer, length_append, length_map, ← length_append, take_append_drop]

lemma length_name_of_parse {lbl : LabelHash} {str : Str} {size : Nat} {sample : Sample}
    (h : multicollectorParse [] lbl str size = some sample) : sample.name.length =
      (multicollectorGetMetricName (multicollectorSkipSpaces ⟨str, size⟩)).1.length := by
  rw [multicollectorParse] at h
  dsimp only [foldl_nil] at h
  split_ifs at h
  obtain ⟨body, -, hbody⟩ := bind_eq_some_iff.mp h
  cases hbody
  split_ifs <;> exact length_nameNormalizer _ _ _

/-- A name with a colon and without labels is not read to its end. -/
lemma length_name_colon (valid : validMetricName name = true) (colon : 58 ∈ name) (v : Int)
    (k : Nat) : (multicollectorGetMetricName (multicollectorSkipSpaces
      ⟨promLine name [] v, (promLine name [] v).length + k⟩)).1.length < name.length := by
  have hchars := metricChar_of_validMetricName valid
  have hline : promLine name [] v = name ++ 32 :: printInt v := promLine_eq name [] v
  obtain ⟨pre, post, hname, hpre⟩ := eq_append_cons_of_mem colon
  have hskip : multicollectorSkipSpaces ⟨promLine name [] v, (promLine name [] v).length + k⟩ =
      .within k (pre ++ 58 :: (post ++ 32 :: printInt v)) := by
    have htext : promLine name [] v = pre ++ 58 :: (post ++ 32 :: printInt v) := by
      rw [hline, hname, append_assoc]
      rfl
    rw [htext]
    cases pre with
    | nil => exact skipSpaces_within rfl
    | cons a pre =>
      exact skipSpaces_within (not_contains metricChar (hchars a (by rw [hname]; simp)) rfl)
  have hbrace : (pre ++ 58 :: (post ++ 32 :: printInt v)).contains 123 = false := by
    rw [Bool.eq_false_iff]
    intro h
    have hmem : (123 : UInt8) ∈ name ++ 32 :: printInt v := by
      rw [hname, append_assoc]
      exact contains_iff_mem.mp h
    rcases mem_append.mp hmem with h | h
    · exact absurd (hchars 123 h) (by decide)
    · rcases mem_cons.mp h with h | h
      · exact absurd h (by decide)
      · exact absurd (mem_printInt h) (by decide)
  have hrest : (Cursor.within k (pre ++ 58 :: (post ++ 32 :: printInt v))).rest =
      pre ++ 58 :: (post ++ 32 :: printInt v) := rfl
  have hword : ∀ x ∈ pre, [9, 13, 61, 58, 123, 125, 44, 35, (32 : UInt8)].contains x = false := by
    intro x hx
    refine not_contains labelChar ?_ rfl
    have := hchars x (by rw [hname]; exact mem_append_left _ hx)
    rw [metricChar, Bool.or_eq_true, beq_iff_eq] at this
    rcases this with h | rfl
    · exact h
    · exact absurd hx hpre
  rw [hskip, multicollectorGetMetricName, hrest, hbrace, if_neg (by decide),
    getUntil_append hword rfl, hname, length_append, length_cons]
  have := length_take_le' 254 pre
  dsimp only
  omega

lemma pairs_insertLabels (hnodup : (labels.map Prod.fst).Nodup) :
    (insertLabels .empty labels).pairs =
      labels.map fun c => (c.1, metricLabelValueValidatorNormalizer c.2) :=
  insertLabels_pairs hnodup

/-- A sample line is understood exactly when a name without labels has no colon, the label
names are names of Prometheus that fit into a buffer, and the integer is a double. -/
theorem fieldGet_promLine_iff (cn : CounterNames) {name : Str}
    (valid : validMetricName name = true) (length : name.length < 255)
    {labels : List (Str × Str)} (hnames : ∀ c ∈ labels, ∀ x ∈ c.1, labelChar x = true)
    (hnodup : (labels.map Prod.fst).Nodup) (hvalues : ∀ c ∈ labels, c.2.length < 255) (v : Int)
    {size : Nat} (hsize : (promLine name labels v).length ≤ size) :
    Understood cn (multicollectorFieldGet [] cn .empty (promLine name labels v) size) name labels v ↔
      (labels = [] → 58 ∉ name) ∧ (∀ c ∈ labels, TakenName c.1) ∧ Represents (ofInt v) v := by
  obtain ⟨k, rfl⟩ := Nat.exists_eq_add_of_le hsize
  rw [multicollectorFieldGet]
  constructor
  · rintro ⟨sample, hparse, hname, -, -, hvalue⟩
    obtain ⟨sample', hsample, hpair⟩ := map_eq_some_iff.mp hparse
    obtain rfl : sample' = sample := (Prod.mk.inj hpair).1
    have hcolon : labels = [] → 58 ∉ name := by
      rintro rfl hcolon
      have hlen := length_name_of_parse hsample
      rw [hname] at hlen
      exact absurd (length_name_colon valid hcolon v k) (by omega)
    have htaken : ∀ c ∈ labels, TakenName c.1 := by
      by_contra hbad
      simp only [not_forall, exists_prop] at hbad
      rw [multicollectorParse_rejects valid length hnames hvalues hbad v k] at hsample
      cases hsample
    rw [multicollectorParse_promLine valid length hcolon htaken hvalues v k] at hsample
    cases hsample
    exact ⟨hcolon, htaken, hvalue⟩
  · rintro ⟨hcolon, htaken, hvalue⟩
    rw [multicollectorParse_promLine valid length hcolon htaken hvalues v k]
    exact ⟨_, rfl, rfl, pairs_insertLabels hnodup, rfl, hvalue⟩

/-- A name with a colon, two labels and a value to escape. -/
theorem fieldGet_promLine_escaped :
    Understood ⟨false, []⟩ (multicollectorFieldGet [] ⟨false, []⟩ .empty
      (cstr "m:x\x7ba=\"b\\\"c\",_d=\"\"\x7d -5") 24) (cstr "m:x")
      [(cstr "a", cstr "b\"c"), (cstr "_d", [])] (-5) := by
  have hline : promLine (cstr "m:x") [(cstr "a", cstr "b\"c"), (cstr "_d", [])] (-5) =
      cstr "m:x\x7ba=\"b\\\"c\",_d=\"\"\x7d -5" := by decide
  have hrep : Represents (ofInt (-5)) (-5) := ⟨by decide, toRat_ofInt (by decide)⟩
  rw [← hline]
  refine (fieldGet_promLine_iff ⟨false, []⟩ (by decide) (by decide) ?_ (by decide) ?_ (-5)
    (by rw [hline]; decide)).mpr ⟨by simp, ?_, hrep⟩
  · decide +kernel
  · decide
  · intro c hc
    simp only [mem_cons, not_mem_nil, or_false] at hc
    rcases hc with rfl | rfl <;> exact ⟨by decide, by decide⟩

/-- A recording rule's name without labels is taken for a statsd sample of another metric. -/
theorem fieldGet_promLine_colon :
    promLine (cstr "job:up") [] 3 = cstr "job:up 3" ∧
      (multicollectorFieldGet [] ⟨false, []⟩ .empty (cstr "job:up 3") 9).map
        (fun r => (r.1.name, r.1.value)) = some (cstr "job", 0) ∧
      ¬Understood ⟨false, []⟩ (multicollectorFieldGet [] ⟨false, []⟩ .empty (cstr "job:up 3") 9)
        (cstr "job:up") [] 3 := by
  have hread : (multicollectorFieldGet [] ⟨false, []⟩ .empty (cstr "job:up 3") 9).map
      (fun r => (r.1.name, r.1.value)) = some (cstr "job", 0) := by decide
  refine ⟨by decide, hread, ?_⟩
  rintro ⟨sample, hsample, hname, -⟩
  rw [hsample, map_some, hname] at hread
  exact absurd (Prod.mk.inj (some.inj hread)).1 (by decide)

end Alligator
