import Alligator.Mapping.Template
import Alligator.Metric.Exposition

/-!
# The text parser

`multicollector_field_get` reads one line of text.  The line is a Prometheus sample
with or without labels, or a statsd sample.  The parser hands the sample to
`metric_update` or to `metric_add`.

A sample line of the scrape page, given back to the parser, is accepted and gives the
same series (`fieldGet_sampleText`).  The page writes label values as they are and the
parser takes `"` and `\` in them for its own, so this is about values without them.
-/

namespace Alligator

open Text Binary64 List

variable {n name s t reject : Str} {c : UInt8} {x : Series}

/-! ## Names -/

def isAlpha (c : UInt8) : Bool :=
  decide (65 ≤ c.toNat ∧ c.toNat ≤ 90) || decide (97 ≤ c.toNat ∧ c.toNat ≤ 122)

def nameStart (c : UInt8) : Bool := isAlpha c || c == 95 || c == 58

variable (ok : UInt8 → Bool) (str : Str) (sz : Nat)

/-- A name of `sz` bytes whose bytes from the second on are in order. -/
def nameValidator : Bool :=
  nameStart (str.headD 0) && (List.range' 1 (sz - 1)).all fun i => ok (str.getD i 0)

def metricNameValidator : Bool :=
  nameValidator (fun c => isAlpha c || c == 95 || isDigit c) str sz

def metricNameValidatorPromstatsd : Bool :=
  nameValidator (fun c => isAlpha c || c == 95 || c == 46 || c == 44 || c == 58 || c == 45 ||
    isDigit c) str sz

/-- Replace by `_` what is not in order in the first `sz` bytes. -/
def nameNormalizer : Str :=
  (str.take sz).map (fun c => if ok c then c else 95) ++ str.drop sz

def prometheusMetricNameNormalizer : Str :=
  nameNormalizer (fun c => isAlpha c || c == 95 || c == 58 || isDigit c) str sz

def metricNameNormalizer : Str :=
  nameNormalizer (fun c => isAlpha c || c == 95 || isDigit c) str sz

def metricLabelValueValidatorNormalizer : Str :=
  str.map fun c =>
    if c = 92 ∨ c = 34 ∨ c = 39 then 95 else if c = 9 ∨ c = 13 ∨ c = 10 then 32 else c

/-! ## The cursor -/

/-- The cursor of the parser: the text `str + i`, and `size - i`. -/
structure Cursor where
  rest : Str
  left : Nat
deriving DecidableEq

variable (cur : Cursor)

namespace Cursor

/-- `str[i]`, zero at the end of the text. -/
def char : UInt8 := cur.rest.headD 0

def advance (n : Nat) : Cursor := ⟨cur.rest.drop n, cur.left - n⟩

/-- `strcspn(str + i, reject)` -/
def strcspn (reject : Str) : Nat :=
  (cur.rest.takeWhile fun c => !reject.contains c).length

/-- `strspn(str + i, accept)` -/
def strspn (accept : Str) : Nat :=
  (cur.rest.takeWhile fun c => accept.contains c).length

end Cursor

def strstr (s w : Str) : Bool := s.tails.any fun t => w.isPrefixOf t

def metricNameSize : Nat := 255

def maxLabelCount : Nat := 10

def multicollectorSkipSpaces : Cursor := cur.advance (cur.strspn [9, 13, 32])

/-- Read up to one of the bytes: the text as far as its buffer holds it, its length, and
the cursor after it. -/
def getUntil (reject : Str) (cur : Cursor) : Str × Nat × Cursor :=
  if cur.left = 0 then ([], 0, cur)
  else
    let syms := cur.strcspn reject
    (cur.rest.take (min syms (metricNameSize - 1)), syms, cur.advance syms)

def multicollectorGetMetricName : Str × Nat × Cursor :=
  if cur.rest.contains 123 then getUntil [9, 13, 61, 123, 125, 44, 35, 32] cur
  else getUntil [9, 13, 61, 58, 123, 125, 44, 35, 32] cur

def multicollectorGetName : Str × Nat × Cursor :=
  getUntil [9, 13, 58, 61, 123, 125, 44, 35, 32] cur

def multicollectorGetValue : Str × Nat × Cursor :=
  getUntil [9, 13, 123, 125, 44, 35, 32] cur

/-- Put a byte into a buffer as long as there is room. -/
def putByte (s2 : Str) (c : UInt8) : Str :=
  if s2.length < metricNameSize - 1 then s2 ++ [c] else s2

/-- The loop of `multicollector_get_quotes`: whether the quote was closed, the text, and
the cursor after it. -/
def quotesLoop : Str → Nat → Str → Bool × Str × Cursor
  | [], left, s2 => (false, s2, ⟨[], left⟩)
  | c :: t, 0, s2 => (false, s2, ⟨c :: t, 0⟩)
  | [c], left + 1, s2 =>
    if c = 34 then (true, s2, ⟨[], left⟩) else (false, putByte s2 c, ⟨[], left⟩)
  | c :: next :: t, left + 1, s2 =>
    if c = 34 then (true, s2, ⟨next :: t, left⟩)
    else if c = 92 ∧ 0 < left ∧ (next = 110 ∨ next = 92 ∨ next = 34) then
      quotesLoop t (left - 1) (putByte s2 (if next = 110 then 10 else next))
    else quotesLoop (next :: t) left (putByte s2 c)

def multicollectorGetQuotes : Bool × Str × Cursor :=
  if cur.left = 0 ∨ cur.char ≠ 34 then (false, [], cur)
  else quotesLoop (cur.advance 1).rest (cur.advance 1).left []

/-! ## Labels -/

/-- The loop of `parse_statsd_labels`. -/
def statsdLabelsLoop : Nat → Cursor → LabelHash → Cursor × LabelHash
  | 0, cur, lbl => (cur, lbl)
  | n + 1, cur, lbl =>
    if cur.left = 0 ∨ cur.char = 58 ∨ cur.char = 0 then (cur, lbl)
    else
      let cur := if cur.char = 35 ∨ cur.char = 44 then cur.advance 1 else cur
      let (labelName, labelNameSize, cur) := multicollectorGetName cur
      let cur := multicollectorSkipSpaces cur
      if cur.left = 0 then (cur, lbl)
      else
        let (labelKey, _, cur) := multicollectorGetValue (cur.advance 1)
        let cur := multicollectorSkipSpaces cur
        let lbl := if metricNameValidatorPromstatsd labelName labelNameSize then
            lbl.insert (metricNameNormalizer labelName labelNameSize)
              (metricLabelValueValidatorNormalizer labelKey)
          else lbl
        statsdLabelsLoop n cur lbl

/-- `parse_statsd_labels`, which fails at the end of the text only. -/
def parseStatsdLabels (lbl : LabelHash) : Cursor × LabelHash :=
  if cur.left = 0 then (cur, lbl)
  else
    statsdLabelsLoop maxLabelCount
      (if cur.char = 35 ∨ cur.char = 44 then cur.advance 1 else cur) lbl

/-- The loop over the labels of a Prometheus sample.  It ends at the closing bracket, and
every round consumes something, so the length that is left is enough fuel. -/
def promLabelsLoop : Nat → Cursor → LabelHash → Option (Cursor × LabelHash)
  | 0, _, _ => none
  | fuel + 1, cur, lbl =>
    if cur.left = 0 then some (cur, lbl)
    else
      let cur := multicollectorSkipSpaces cur
      let (labelName, labelNameSize, cur) := multicollectorGetName cur
      let cur := multicollectorSkipSpaces cur
      if cur.left = 0 ∨ cur.char ≠ 61 then none
      else
        let cur := multicollectorSkipSpaces (cur.advance 1)
        let (rc, labelKey, cur) := multicollectorGetQuotes cur
        if !rc then none
        else if !metricNameValidator labelName labelNameSize then none
        else
          let lbl := lbl.insert (prometheusMetricNameNormalizer labelName labelNameSize)
            (metricLabelValueValidatorNormalizer labelKey)
          let cur := multicollectorSkipSpaces cur
          if cur.left = 0 then none
          else if cur.char = 44 then
            let cur := multicollectorSkipSpaces (cur.advance 1)
            if cur.left = 0 then none
            else if cur.char = 125 then some (cur, lbl)
            else promLabelsLoop fuel cur lbl
          else if cur.char = 125 then some (cur, lbl)
          else none

/-! ## Lines -/

variable (mm : List Mapping)

/-- The pass over the mappings, which renames the metric and adds labels. -/
def passMapping (metricName : Str) (lbl : LabelHash) : Str × LabelHash :=
  mm.foldl (fun r m =>
    match m.metricName with
    | none => r
    | some template =>
      match matchAndExtract m.template r.1 with
      | none => r
      | some fields =>
        (templateRender template fields metricNameSize,
          m.labels.foldl (fun lbl ml => lbl.insert (templateRender ml.1 fields metricNameSize)
            (templateRender ml.2 fields metricNameSize)) r.2)) (metricName, lbl)

/-- What the parser makes of the text after the name: the labels, the value, whether it is
an increment, and whether the line is a Prometheus sample with labels. -/
structure Body where
  labels : LabelHash
  value : BitVec 64
  increment : Bool
  isProm : Bool

def parseBody (lbl : LabelHash) : Option Body :=
  if cur.char = 123 then do
    let (cur, lbl) ← promLabelsLoop (cur.advance 1).left.succ (cur.advance 1) lbl
    let cur := cur.advance (cur.strcspn [32, 9])
    let cur := cur.advance (cur.strspn [32, 9])
    return ⟨lbl, atof cur.rest, false, true⟩
  else if cur.char = 58 ∨ cur.char = 35 ∨ cur.char = 44 then
    let (cur, lbl) := parseStatsdLabels cur lbl
    let cur := cur.advance 1
    if cur.left = 0 then none
    else
      let (value, increment) := if cur.char = 43 ∨ cur.char = 45 then (ofInt 1, true)
        else (atof cur.rest, strstr cur.rest (cstr "|c"))
      let (_, lbl) := parseStatsdLabels (cur.advance (cur.strcspn [35])) lbl
      some ⟨lbl, value, increment, false⟩
  else if isDigit cur.char then some ⟨lbl, atof cur.rest, false, false⟩
  else (strtod cur.rest).map fun r => ⟨lbl, r.1, false, false⟩

/-- A sample as the parser hands it on. -/
structure Sample where
  name : Str
  labels : LabelHash
  value : BitVec 64
  increment : Bool

/-- The part of `multicollector_field_get` that reads the line. -/
def multicollectorParse (lbl : LabelHash) (str : Str) (size : Nat) : Option Sample :=
  let cur := multicollectorSkipSpaces ⟨str, size⟩
  let (metricName, metricLen, cur) := multicollectorGetMetricName cur
  if !metricNameValidatorPromstatsd metricName metricLen then none
  else
    let (metricName, lbl) := passMapping mm metricName lbl
    if cur.left = 0 then none
    else
      let cur := multicollectorSkipSpaces cur
      if cur.left = 0 then none
      else do
        let body ← parseBody cur lbl
        let metricName := if body.isProm then prometheusMetricNameNormalizer metricName metricLen
          else metricNameNormalizer metricName metricLen
        return ⟨metricName, body.labels, body.value, body.increment⟩

/-- What the parser knows of the types of metrics: `counter_names`, which it looks at when
`metric_aggregation` is set. -/
structure CounterNames where
  metricAggregation : Bool
  names : List (Str × MetricType)

def CounterNames.dataType (cn : CounterNames) (metricName : Str) : MetricType :=
  if cn.metricAggregation then (cn.names.lookup metricName).getD .untyped else .untyped

inductive Write where
  /-- `metric_update`: accumulate. -/
  | update
  /-- `metric_add`: overwrite. -/
  | add
deriving DecidableEq

/-- The choice at the end of `multicollector_field_get`. -/
def chooseWrite (increment : Bool) (dataType : MetricType) : Write :=
  if increment then .update
  else if dataType = .counter ∨ dataType = .histogram then .update
  else .add

/-- `multicollector_field_get` without a cluster: the sample and how it is written, if the
line is accepted. -/
def multicollectorFieldGet (cn : CounterNames) (lbl : LabelHash) (str : Str)
    (size : Nat) : Option (Sample × Write) :=
  (multicollectorParse mm lbl str size).map fun x =>
    (x, chooseWrite x.increment (cn.dataType x.name))

/-! ## Reading what is printed -/

def labelChar (c : UInt8) : Bool := isAlpha c || c == 95 || isDigit c

def metricChar (c : UInt8) : Bool := labelChar c || c == 58

def validLabelName : Str → Bool
  | [] => false
  | c :: t => (isAlpha c || c == 95) && t.all labelChar

def validMetricName : Str → Bool
  | [] => false
  | c :: t => nameStart c && t.all metricChar

lemma labelChar_of_validLabelName (h : validLabelName n = true) : ∀ c ∈ n, labelChar c = true := by
  cases n with
  | nil => cases h
  | cons a t =>
    rw [validLabelName, Bool.and_eq_true, all_eq_true] at h
    intro c hc
    rcases mem_cons.mp hc with rfl | hc
    · rw [labelChar, h.1]
      rfl
    · exact h.2 c hc

lemma metricChar_of_validMetricName (h : validMetricName n = true) :
    ∀ c ∈ n, metricChar c = true := by
  cases n with
  | nil => cases h
  | cons a t =>
    rw [validMetricName, Bool.and_eq_true, all_eq_true] at h
    intro c hc
    rcases mem_cons.mp hc with rfl | hc
    · have hstart := h.1
      rw [nameStart, Bool.or_eq_true, Bool.or_eq_true] at hstart
      rw [metricChar, labelChar]
      rcases hstart with (h | h) | h <;> simp [h]
    · exact h.2 c hc

lemma validMetricName_of_validLabelName (h : validLabelName name = true) :
    validMetricName name = true := by
  cases name with
  | nil => cases h
  | cons c t =>
    rw [validLabelName, Bool.and_eq_true, all_eq_true] at h
    rw [validMetricName, Bool.and_eq_true, all_eq_true]
    refine ⟨by rw [nameStart, h.1, Bool.true_or], fun b hb => ?_⟩
    rw [metricChar, h.2 b hb, Bool.true_or]

lemma nameValidator_eq (c : UInt8) (t : Str) :
    nameValidator ok (c :: t) (c :: t).length = (nameStart c && t.all ok) := by
  have hall : ((List.range' 1 t.length).all fun i => ok ((c :: t).getD i 0)) = t.all ok := by
    rw [Bool.eq_iff_iff, all_eq_true, all_eq_true]
    constructor
    · intro h x hx
      obtain ⟨i, hi, rfl⟩ := getElem_of_mem hx
      have := h (i + 1) (mem_range'_1.mpr ⟨by omega, by omega⟩)
      rwa [getD_cons_succ, getD_eq_getElem?_getD, List.getElem?_eq_getElem hi] at this
    · intro h i hi
      obtain ⟨h1, h2⟩ := mem_range'_1.mp hi
      obtain ⟨j, rfl⟩ : ∃ j, i = j + 1 := ⟨i - 1, by omega⟩
      rw [getD_cons_succ, getD_eq_getElem?_getD, List.getElem?_eq_getElem (by omega)]
      exact h _ (getElem_mem _)
  rw [nameValidator, length_cons, Nat.add_sub_cancel, hall]
  rfl

lemma nameNormalizer_eq {ok : UInt8 → Bool} (h : ∀ c ∈ n, ok c = true) :
    nameNormalizer ok n n.length = n := by
  rw [nameNormalizer, take_length, drop_length, append_nil]
  conv_rhs => rw [← map_id n]
  exact map_congr_left fun c hc => by rw [if_pos (h c hc)]; rfl

lemma metricNameValidator_of_valid (h : validLabelName n = true) :
    metricNameValidator n n.length = true := by
  cases n with
  | nil => cases h
  | cons c t =>
    rw [validLabelName, Bool.and_eq_true] at h
    rw [metricNameValidator, nameValidator_eq, nameStart, h.1, Bool.true_or]
    exact h.2

lemma promstatsd_of_valid (h : validMetricName n = true) :
    metricNameValidatorPromstatsd n n.length = true := by
  cases n with
  | nil => cases h
  | cons c t =>
    rw [validMetricName, Bool.and_eq_true, all_eq_true] at h
    rw [metricNameValidatorPromstatsd, nameValidator_eq, h.1, Bool.true_and, all_eq_true]
    intro x hx
    have hchar := h.2 x hx
    rw [metricChar, labelChar, Bool.or_eq_true, Bool.or_eq_true, Bool.or_eq_true] at hchar
    rcases hchar with ((h | h) | h) | h <;> simp [h]

/-- The cursor at the end of a line, whose size may count more than the text: the line feed. -/
def Cursor.within (k : Nat) (s : Str) : Cursor := ⟨s, s.length + k⟩

section

variable {k : Nat}

lemma advance_within (a b : Str) : (Cursor.within k (a ++ b)).advance a.length = .within k b := by
  have hleft : (a ++ b).length + k - a.length = b.length + k := by
    rw [length_append]
    omega
  show Cursor.mk ((a ++ b).drop a.length) ((a ++ b).length + k - a.length) = _
  rw [drop_left, hleft]
  rfl

lemma advance_within_cons (c : UInt8) (t : Str) :
    (Cursor.within k (c :: t)).advance 1 = .within k t :=
  advance_within [c] t

lemma left_within (h : s ≠ []) : (Cursor.within k s).left ≠ 0 := by
  have := length_pos_iff.mpr h
  show s.length + k ≠ 0
  omega

lemma left_within_cons (c : UInt8) (t : Str) : (Cursor.within k (c :: t)).left ≠ 0 :=
  left_within (cons_ne_nil c t)

lemma left_within_append (w : Str) (c : UInt8) (t : Str) :
    (Cursor.within k (w ++ c :: t)).left ≠ 0 := left_within (by simp)

lemma skipSpaces_within (h : [9, 13, 32].contains c = false) :
    multicollectorSkipSpaces (.within k (c :: t)) = .within k (c :: t) := by
  have hspan : (Cursor.within k (c :: t)).strspn [9, 13, 32] = 0 := by
    show ((c :: t).takeWhile _).length = 0
    rw [takeWhile_cons_of_neg (by rw [h]; decide)]
    rfl
  rw [multicollectorSkipSpaces, hspan]
  rfl

variable {w : Str}

/-- What `getUntil` makes of a word and a byte that ends it. -/
lemma getUntil_append (hw : ∀ x ∈ w, reject.contains x = false) (hc : reject.contains c = true) :
    getUntil reject (.within k (w ++ c :: t)) = (w.take 254, w.length, .within k (c :: t)) := by
  have htake : (w ++ c :: t).takeWhile (fun x => !reject.contains x) = w := by
    rw [takeWhile_append_of_pos (by simpa using hw), takeWhile_cons_of_neg (by simpa using hc),
      append_nil]
  have hspan : (Cursor.within k (w ++ c :: t)).strcspn reject = w.length :=
    congrArg List.length htake
  have hrest : (Cursor.within k (w ++ c :: t)).rest.take (min w.length 254) = w.take 254 := by
    show (w ++ c :: t).take (min w.length 254) = _
    rw [take_append_of_le_length (min_le_left _ _), min_comm, ← take_take, take_length]
  rw [getUntil, if_neg (left_within_append w c t)]
  simp [hspan, advance_within, metricNameSize, hrest]

lemma getUntil_within (hw : ∀ x ∈ w, reject.contains x = false)
    (hc : reject.contains c = true) (hlen : w.length < 255) :
    getUntil reject (.within k (w ++ c :: t)) = (w, w.length, .within k (c :: t)) := by
  rw [getUntil_append hw hc, take_of_length_le (by omega)]

end

/-- The parser reads a text between quotes as a value. -/
def Quotes (raw value : Str) : Prop := ∀ (k : Nat) (t : Str),
  multicollectorGetQuotes (.within k (34 :: (raw ++ 34 :: t))) = (true, value, .within k t)

variable {raw value s2 v : Str}

lemma quotes_of_loop (h : ∀ (k : Nat) (t : Str),
    quotesLoop (raw ++ 34 :: t) ((raw ++ 34 :: t).length + k) [] = (true, value, .within k t)) :
    Quotes raw value := by
  intro k t
  rw [multicollectorGetQuotes, if_neg, advance_within_cons]
  · exact h k t
  · rintro (h | h)
    · exact left_within_cons _ _ h
    · exact h rfl

lemma quotesLoop_close (k : Nat) (t s2 : Str) :
    quotesLoop (34 :: t) ((34 :: t).length + k) s2 = (true, s2, .within k t) := by
  cases t with
  | nil => simp [quotesLoop, Cursor.within, add_comm 1 k]
  | cons a t =>
    rw [show (34 :: a :: t).length + k = (a :: t).length + k + 1 by simp; omega, quotesLoop]
    rfl

lemma putByte_of_lt (h : s2.length < 254) (c : UInt8) : putByte s2 c = s2 ++ [c] :=
  if_pos h

/-- A byte between quotes that is none of the parser's own. -/
lemma quotesLoop_plain (h34 : c ≠ 34) (h92 : c ≠ 92) (hlen : s2.length < 254)
    (raw t : Str) (k : Nat) :
    quotesLoop (c :: (raw ++ 34 :: t)) ((c :: (raw ++ 34 :: t)).length + k) s2 =
      quotesLoop (raw ++ 34 :: t) ((raw ++ 34 :: t).length + k) (s2 ++ [c]) := by
  obtain ⟨next, u, hu⟩ : ∃ next u, raw ++ 34 :: t = next :: u := by
    cases raw with
    | nil | cons a raw => exact ⟨_, _, rfl⟩
  have hleft : (c :: next :: u).length + k = (next :: u).length + k + 1 := by
    simp only [length_cons]
    omega
  rw [hu, hleft, quotesLoop, if_neg h34, if_neg fun h => h92 h.1, putByte_of_lt hlen]

variable {k : Nat}

lemma quotesLoop_value (s2 : Str) (h34 : 34 ∉ v) (h92 : 92 ∉ v)
    (hlen : s2.length + v.length < 255) :
    quotesLoop (v ++ 34 :: t) ((v ++ 34 :: t).length + k) s2 = (true, s2 ++ v, .within k t) := by
  induction v generalizing s2 with
  | nil =>
    rw [append_nil]
    exact quotesLoop_close k t s2
  | cons c v ih =>
    rw [mem_cons, not_or] at h34 h92
    rw [length_cons] at hlen
    rw [cons_append, quotesLoop_plain (Ne.symm h34.1) (Ne.symm h92.1) (by omega),
      ih (s2 ++ [c]) h34.2 h92.2 (by simp; omega), append_assoc]
    rfl

lemma quotes_self (h34 : 34 ∉ v) (h92 : 92 ∉ v) (hlen : v.length < 255) : Quotes v v :=
  quotes_of_loop fun _ _ => quotesLoop_value [] h34 h92 (by simpa using hlen)

/-- A label whose line the parser reads back: the page does not escape its value. -/
structure PlainLabel (c : Str × Str) : Prop where
  name : validLabelName c.1 = true
  nameLength : c.1.length < 255
  quote : 34 ∉ c.2
  backslash : 92 ∉ c.2
  length : c.2.length < 255

structure LabelText where
  name : Str
  value : Str
  raw : Str

open LabelText

def LabelText.written (c : LabelText) : Str × Str := (c.name, c.raw)

def LabelText.pair (c : LabelText) : Str × Str := (c.name, c.value)

structure LabelText.Reads (c : LabelText) : Prop where
  name : validLabelName c.name = true
  nameLength : c.name.length < 255
  quotes : Quotes c.raw c.value

def LabelText.plain (c : Str × Str) : LabelText := ⟨c.1, c.2, c.2⟩

lemma PlainLabel.reads {c : Str × Str} (h : PlainLabel c) : (plain c).Reads :=
  ⟨h.name, h.nameLength, quotes_self h.quote h.backslash h.length⟩

/-- Put labels into a hash the way the parser does. -/
def insertLabels (lbl : LabelHash) (ls : List (Str × Str)) : LabelHash :=
  ls.foldl (fun lbl c => lbl.insert c.1 (metricLabelValueValidatorNormalizer c.2)) lbl

lemma not_contains (h : ok c = true) (hr : reject.all (fun x => !ok x) = true) :
    reject.contains c = false := by
  rw [Bool.eq_false_iff]
  intro hc
  have := all_eq_true.mp hr c (contains_iff_mem.mp hc)
  rw [h] at this
  cases this

lemma skipSpaces_name (hn : ∀ x ∈ n, labelChar x = true) (k : Nat) (t : Str) :
    multicollectorSkipSpaces (.within k (n ++ 61 :: t)) = .within k (n ++ 61 :: t) := by
  cases n with
  | nil => exact skipSpaces_within rfl
  | cons a n => exact skipSpaces_within (not_contains labelChar (hn a mem_cons_self) rfl)

/-- One round of the loop, up to the check of the name. -/
lemma promLabelsLoop_read (hn : ∀ x ∈ n, labelChar x = true)
    (hquotes : Quotes raw value) (t : Str) (fuel : Nat) (lbl : LabelHash) :
    promLabelsLoop (fuel + 1) (.within k (n ++ 61 :: 34 :: (raw ++ 34 :: t))) lbl =
      if !metricNameValidator (n.take 254) n.length then none
      else
        let lbl := lbl.insert (prometheusMetricNameNormalizer (n.take 254) n.length)
          (metricLabelValueValidatorNormalizer value)
        let cur := multicollectorSkipSpaces (.within k t)
        if cur.left = 0 then none
        else if cur.char = 44 then
          let cur := multicollectorSkipSpaces (cur.advance 1)
          if cur.left = 0 then none
          else if cur.char = 125 then some (cur, lbl)
          else promLabelsLoop fuel cur lbl
        else if cur.char = 125 then some (cur, lbl)
        else none := by
  have hname : multicollectorGetName (.within k (n ++ 61 :: 34 :: (raw ++ 34 :: t))) =
      (n.take 254, n.length, .within k (61 :: 34 :: (raw ++ 34 :: t))) :=
    getUntil_append (fun x hx => not_contains labelChar (hn x hx) rfl) rfl
  have heq : multicollectorSkipSpaces (.within k (61 :: 34 :: (raw ++ 34 :: t))) =
      .within k (61 :: 34 :: (raw ++ 34 :: t)) := skipSpaces_within rfl
  have hquote : multicollectorSkipSpaces (.within k (34 :: (raw ++ 34 :: t))) =
      .within k (34 :: (raw ++ 34 :: t)) := skipSpaces_within rfl
  have hcharEq : (Cursor.within k (61 :: 34 :: (raw ++ 34 :: t))).char = 61 := rfl
  rw [promLabelsLoop, if_neg (left_within_append _ _ _)]
  simp [skipSpaces_name hn, hname, heq, left_within_cons, hcharEq, advance_within_cons, hquote,
    hquotes k t]

/-- One round of the loop, up to the byte after the value. -/
lemma promLabelsLoop_round {c : LabelText} (hc : c.Reads) (next : UInt8)
    (hnext : [9, 13, 32].contains next = false) (fuel : Nat) (lbl : LabelHash) :
    promLabelsLoop (fuel + 1) (.within k (c.name ++ 61 :: 34 :: (c.raw ++ 34 :: next :: t))) lbl =
      if next = 44 then if (multicollectorSkipSpaces (.within k t)).left = 0 then none
        else if (multicollectorSkipSpaces (.within k t)).char = 125 then
          some (multicollectorSkipSpaces (.within k t), insertLabels lbl [c.pair])
        else promLabelsLoop fuel (multicollectorSkipSpaces (.within k t)) (insertLabels lbl [c.pair])
      else if next = 125 then some (.within k (next :: t), insertLabels lbl [c.pair])
      else none := by
  have hchars := labelChar_of_validLabelName hc.name
  have htake : c.name.take 254 = c.name := take_of_length_le (by have := hc.nameLength; omega)
  have hafter : multicollectorSkipSpaces (.within k (next :: t)) = .within k (next :: t) :=
    skipSpaces_within hnext
  have hnorm : prometheusMetricNameNormalizer c.name c.name.length = c.name := by
    refine nameNormalizer_eq fun x hx => ?_
    have hx := hchars x hx
    rw [labelChar, Bool.or_eq_true, Bool.or_eq_true] at hx
    rcases hx with (h | h) | h <;> simp [h]
  have hcharNext : (Cursor.within k (next :: t)).char = next := rfl
  rw [promLabelsLoop_read hchars hc.quotes, htake, metricNameValidator_of_valid hc.name]
  simp only [Bool.not_true, hnorm, hafter, left_within_cons, advance_within_cons]
  rfl

/-- Labels that follow another one, and the closing bracket. -/
def pairsText : List (Str × Str) → Str
  | [] => [125]
  | c :: ps => 44 :: (c.1 ++ 61 :: 34 :: (c.2 ++ 34 :: pairsText ps))

variable (labels : Labels)

def keyed : List (Str × Str) :=
  labels.filterMap fun l => l.key.map fun k => (l.name, k)

lemma keyed_cons (l : Label) (labels : Labels) :
    keyed (l :: labels) = (l.key.map fun k => (l.name, k)).toList ++ keyed labels := by
  cases hk : l.key with
  | none => exact filterMap_cons_none (by rw [hk]; rfl)
  | some k => exact filterMap_cons_some (by rw [hk]; rfl)

lemma labelsText_true : labelsText true labels = pairsText (keyed labels) := by
  induction labels with
  | nil => rfl
  | cons l labels ih =>
    cases hk : l.key with
    | none => simp [labelsText, keyed_cons, hk, ih]
    | some k => simp [labelsText, keyed_cons, hk, pairsText, ih, cstr]

lemma labelsText_false : labelsText false labels =
    match keyed labels with
    | [] => []
    | c :: ps => 123 :: (c.1 ++ 61 :: 34 :: (c.2 ++ 34 :: pairsText ps)) := by
  induction labels with
  | nil => rfl
  | cons l labels ih =>
    cases hk : l.key with
    | none => simp [labelsText, keyed_cons, hk, ih]
    | some k => simp [labelsText, keyed_cons, hk, labelsText_true, cstr]

lemma length_le_pairsText (ps : List (Str × Str)) : ps.length ≤ (pairsText ps).length := by
  induction ps with
  | nil => simp
  | cons c ps ih =>
    rw [pairsText]
    simp only [length_cons, length_append]
    omega

/-- One round of the loop, with another label to come. -/
lemma promLabelsLoop_comma {c d : LabelText} (hc : c.Reads) (hd : ∀ x ∈ d.name, labelChar x = true)
    (ps : List LabelText) (fuel : Nat) (lbl : LabelHash) :
    promLabelsLoop (fuel + 1) (.within k (c.name ++ 61 :: 34 ::
        (c.raw ++ 34 :: (pairsText ((d :: ps).map written) ++ t)))) lbl =
      promLabelsLoop fuel (.within k (d.name ++ 61 :: 34 ::
        (d.raw ++ 34 :: (pairsText (ps.map written) ++ t)))) (insertLabels lbl [c.pair]) := by
  have htext : pairsText ((d :: ps).map written) ++ t = 44 :: (d.name ++ 61 :: 34 ::
      (d.raw ++ 34 :: (pairsText (ps.map written) ++ t))) := by
    simp [pairsText, written]
  generalize pairsText (ps.map written) ++ t = rest at htext ⊢
  have hbracket : (Cursor.within k (d.name ++ 61 :: 34 :: (d.raw ++ 34 :: rest))).char ≠ 125 := by
    cases hn : d.name with
    | nil =>
      show (61 : UInt8) ≠ 125
      decide
    | cons a n =>
      have ha := hd a (by rw [hn]; exact mem_cons_self)
      rintro rfl
      cases ha
  rw [htext, promLabelsLoop_round hc 44 rfl, if_pos rfl, skipSpaces_name hd,
    if_neg (left_within_append _ _ _), if_neg hbracket]

variable {ps : List LabelText}

lemma promLabelsLoop_pairs {c : LabelText} (fuel : Nat)
    (lbl : LabelHash) (hc : c.Reads) (hps : ∀ c ∈ ps, c.Reads) (hfuel : ps.length < fuel) :
    promLabelsLoop fuel (.within k (c.name ++ 61 :: 34 ::
        (c.raw ++ 34 :: (pairsText (ps.map written) ++ t)))) lbl =
      some (.within k (125 :: t), insertLabels lbl ((c :: ps).map pair)) := by
  induction ps generalizing c fuel lbl with
  | nil =>
    obtain ⟨fuel, rfl⟩ : ∃ f, fuel = f + 1 := ⟨fuel - 1, by simp at hfuel; omega⟩
    exact promLabelsLoop_round hc 125 rfl fuel lbl
  | cons d ps ih =>
    rw [length_cons] at hfuel
    obtain ⟨fuel, rfl⟩ : ∃ f, fuel = f + 1 := ⟨fuel - 1, by omega⟩
    have hd := hps d mem_cons_self
    rw [promLabelsLoop_comma hc (labelChar_of_validLabelName hd.name),
      ih fuel _ hd (forall_mem_cons.1 hps).2 (by omega)]
    rfl

/-! ## Lines of the page -/

/-- What is printed for a value is a number for the parser. -/
structure Numeral (s : Str) : Prop where
  start : ∃ c t, s = c :: t ∧ NumberStart c
  number : (strtod s).isSome = true

lemma numeral_valueText (h : x.type ≠ .none) : Numeral (valueText x) := by
  have hof : ∀ {s : Str}, (∃ c t, s = c :: t ∧ NumberStart c ∧ (strtod (c :: t)).isSome = true) →
      Numeral s := by
    rintro _ ⟨c, t, rfl, hc, hs⟩
    exact ⟨⟨c, t, rfl, hc⟩, hs⟩
  rw [valueText]
  cases htype : x.type with
  | none => exact absurd htype h
  | int => exact hof (printInt_take x.value.toInt 17)
  | uint => exact hof (printInt_take (x.value.toNat : Int) 17)
  | double => exact hof (printLf_take x.value 15)

/-- A text that the parser takes for a number. -/
structure Readable (s : Str) : Prop where
  start : ∃ c t, s = c :: t ∧ [9, 13, 32, 123, 58, 35, 44].contains c = false
  number : (strtod s).isSome = true

lemma Numeral.readable (h : Numeral s) : Readable s := by
  obtain ⟨c, t, rfl, hc⟩ := h.start
  refine ⟨⟨c, t, rfl, ?_⟩, h.number⟩
  rcases hc with rfl | rfl | rfl | hc
  · decide
  · decide
  · decide
  · exact not_contains isDigit hc rfl

lemma Readable.not_mem (h : Readable s) (e : s = c :: t) :
    [9, 13, 32].contains c = false ∧ c ≠ 32 ∧ c ≠ 9 ∧ c ≠ 123 ∧ c ≠ 58 ∧ c ≠ 35 ∧ c ≠ 44 := by
  obtain ⟨c', t', rfl, hc⟩ := h.start
  cases e
  refine ⟨?_, ?_, ?_, ?_, ?_, ?_, ?_⟩
  · rw [Bool.eq_false_iff] at hc ⊢
    intro hmem
    refine hc (contains_iff_mem.mpr ?_)
    have hsub : [9, 13, (32 : UInt8)] ⊆ [9, 13, 32, 123, 58, 35, 44] := by decide
    exact hsub (contains_iff_mem.mp hmem)
  all_goals
    rintro rfl
    cases hc

lemma parseBody_value (h : Readable s) (lbl : LabelHash) :
    parseBody (.within k s) lbl = some ⟨lbl, atof s, false, false⟩ := by
  obtain ⟨c, t, e, -⟩ := h.start
  obtain ⟨-, -, -, h123, h58, h35, h44⟩ := h.not_mem e
  have hchar : (Cursor.within k s).char = c := by rw [e]; rfl
  obtain ⟨r, hr⟩ := Option.isSome_iff_exists.mp h.number
  have hrest : (Cursor.within k s).rest = s := rfl
  have hatof : atof s = r.1 := by
    rw [atof, hr]
    rfl
  rw [parseBody, hchar, if_neg h123, if_neg (by rintro (h | h | h) <;> contradiction), hrest]
  split_ifs
  · rfl
  · rw [hr, hatof]
    rfl

lemma parseBody_labels (h : Readable s) {c : LabelText}
    (hc : c.Reads) (hps : ∀ c ∈ ps, c.Reads) (lbl : LabelHash) :
    parseBody (.within k (123 :: (c.name ++ 61 :: 34 ::
        (c.raw ++ 34 :: (pairsText (ps.map written) ++ 32 :: s))))) lbl =
      some ⟨insertLabels lbl ((c :: ps).map pair), atof s, false, true⟩ := by
  obtain ⟨a, t, e, -⟩ := h.start
  obtain ⟨-, h32, h9, -⟩ := h.not_mem e
  have hlen := length_le_pairsText (ps.map written)
  rw [length_map] at hlen
  have hloop := promLabelsLoop_pairs (k := k) (t := 32 :: s)
    (Cursor.within k (c.name ++ 61 :: 34 ::
      (c.raw ++ 34 :: (pairsText (ps.map written) ++ 32 :: s)))).left.succ lbl
    hc hps (by simp only [Cursor.within, length_append, length_cons]; omega)
  have hspan : (Cursor.within k (125 :: 32 :: s)).strcspn [32, 9] = 1 := rfl
  have hspan' : (Cursor.within k (32 :: s)).strspn [32, 9] = 1 := by
    show ((32 :: s).takeWhile _).length = 1
    rw [e, takeWhile_cons_of_pos rfl, takeWhile_cons_of_neg (by simp [h32, h9])]
    rfl
  have hchar : (Cursor.within k (123 :: (c.name ++ 61 :: 34 ::
      (c.raw ++ 34 :: (pairsText (ps.map written) ++ 32 :: s))))).char = 123 := rfl
  rw [parseBody]
  simp only [advance_within_cons, hloop, Option.bind_eq_bind, Option.bind_some, hspan, hspan']
  rfl

lemma insertLabels_pairs {ps : List (Str × Str)} {lbl : LabelHash}
    (hnd : (lbl.pairs.map Prod.fst ++ ps.map Prod.fst).Nodup) : (insertLabels lbl ps).pairs =
      lbl.pairs ++ ps.map fun c => (c.1, metricLabelValueValidatorNormalizer c.2) := by
  have hnames : (ps.map fun c => (c.1, metricLabelValueValidatorNormalizer c.2)).map Prod.fst =
      ps.map Prod.fst := by
    rw [map_map]
    rfl
  rw [insertLabels, ← LabelHash.foldl_insert (by rwa [hnames]), foldl_map]

/-- A series whose sample line can be read back. -/
structure Scrapable (x : Series) (name : Str) : Prop where
  key : keyOf x.labels = some name
  valid : validMetricName name = true
  length : name.length < 255
  /-- A colon in a name without labels is the one of statsd. -/
  colon : labelPairs x.labels = [] → 58 ∉ name
  labels : ∀ c ∈ labelPairs x.labels, PlainLabel c
  type : x.type ≠ .none

section

variable (valid : validMetricName name = true)
include valid

lemma labelChar_of_not_colon (hcolon : 58 ∉ name)
    {x : UInt8} (hx : x ∈ name) : labelChar x = true := by
  have hchar := metricChar_of_validMetricName valid x hx
  rw [metricChar, Bool.or_eq_true, beq_iff_eq] at hchar
  refine hchar.resolve_right ?_
  rintro rfl
  exact hcolon hx

lemma getMetricName_line
    (length : name.length < 255) (hc : [9, 13, 61, 123, 125, 44, 35, 32].contains c = true ∨
      c = 58 ∧ ¬(name ++ c :: t).contains 123 = true)
    (colon : 58 ∈ name → (name ++ c :: t).contains 123 = true) :
    multicollectorGetMetricName (.within k (name ++ c :: t)) =
      (name, name.length, .within k (c :: t)) := by
  have hchars := metricChar_of_validMetricName valid
  have hrest : (Cursor.within k (name ++ c :: t)).rest = name ++ c :: t := rfl
  rw [multicollectorGetMetricName]
  split_ifs with hbracket
  · exact getUntil_within (fun x hx => not_contains metricChar (hchars x hx) rfl)
      (hc.resolve_right fun h => h.2 hbracket) length
  · have hcolon : 58 ∉ name := fun h => hbracket (colon h)
    refine getUntil_within
      (fun x hx => not_contains labelChar (labelChar_of_not_colon valid hcolon hx) rfl) ?_ length
    rcases hc with hc | ⟨rfl, -⟩
    · have hsub : [9, 13, 61, 123, 125, 44, 35, 32] ⊆
          [9, 13, 61, 58, 123, 125, 44, 35, (32 : UInt8)] := by decide
      exact contains_iff_mem.mpr (hsub (contains_iff_mem.mp hc))
    · rfl

/-- Normalising a valid name changes nothing, but a colon outside of a labelled sample. -/
lemma normalizers_of_valid : prometheusMetricNameNormalizer name name.length = name ∧
      (58 ∉ name → metricNameNormalizer name name.length = name) := by
  have hchars := metricChar_of_validMetricName valid
  refine ⟨nameNormalizer_eq fun x hx => ?_, fun hcolon => nameNormalizer_eq fun x hx => ?_⟩
  · have hx := hchars x hx
    rw [metricChar, labelChar, Bool.or_eq_true, Bool.or_eq_true, Bool.or_eq_true] at hx
    rcases hx with ((h | h) | h) | h <;> simp [h]
  · exact labelChar_of_not_colon valid hcolon hx

/-- A line with a valid name, up to the text after it. -/
lemma multicollectorParse_line
    (length : name.length < 255) (hc : [9, 13, 61, 123, 125, 44, 35, 32].contains c = true ∨
      c = 58 ∧ ¬(name ++ c :: t).contains 123 = true)
    (colon : 58 ∈ name → (name ++ c :: t).contains 123 = true) (lbl : LabelHash)
    (hleft : (multicollectorSkipSpaces (.within k (c :: t))).left ≠ 0) :
    multicollectorParse [] lbl (name ++ c :: t) ((name ++ c :: t).length + k) =
      (parseBody (multicollectorSkipSpaces (.within k (c :: t))) lbl).map fun body =>
        ⟨if body.isProm then prometheusMetricNameNormalizer name name.length
          else metricNameNormalizer name name.length, body.labels, body.value, body.increment⟩ := by
  have hchars := metricChar_of_validMetricName valid
  obtain ⟨a, n, hn⟩ : ∃ a n, name = a :: n := by
    cases name with
    | nil => cases valid
    | cons a n => exact ⟨a, n, rfl⟩
  have hline : multicollectorSkipSpaces ⟨name ++ c :: t, (name ++ c :: t).length + k⟩ =
      .within k (name ++ c :: t) := by
    rw [hn]
    exact skipSpaces_within (not_contains metricChar (hchars a (by rw [hn]; simp)) rfl)
  rw [multicollectorParse, hline]
  simp only [getMetricName_line valid length hc colon, promstatsd_of_valid valid, passMapping,
    foldl_nil, left_within_cons, hleft]
  cases parseBody (multicollectorSkipSpaces (.within k (c :: t))) lbl with
  | none | some body => rfl

end

lemma skipSpaces_value (h : Readable s) :
    multicollectorSkipSpaces (.within k (32 :: s)) = .within k s := by
  obtain ⟨a, t, e, -⟩ := h.start
  obtain ⟨hspace, -⟩ := h.not_mem e
  have hspan : (Cursor.within k (32 :: s)).strspn [9, 13, 32] = 1 := by
    show ((32 :: s).takeWhile _).length = 1
    rw [e, takeWhile_cons_of_pos rfl, takeWhile_cons_of_neg (by rw [hspace]; decide)]
    rfl
  rw [multicollectorSkipSpaces, hspan, advance_within_cons]

/-- The labels of a line, with the texts of their values. -/
def blockText : List LabelText → Str
  | [] => []
  | c :: ps => 123 :: (c.name ++ 61 :: 34 :: (c.raw ++ 34 :: pairsText (ps.map LabelText.written)))

/-- A sample line.  A colon in a name without labels is the one of statsd. -/
lemma multicollectorParse_texts {ls : List LabelText}
    (valid : validMetricName name = true) (length : name.length < 255) (colon : ls = [] → 58 ∉ name)
    (hreads : ∀ l ∈ ls, l.Reads) (hs : Readable s) (lbl : LabelHash) :
    multicollectorParse [] lbl (name ++ (blockText ls ++ 32 :: s))
        ((name ++ (blockText ls ++ 32 :: s)).length + k) =
      some ⟨name, insertLabels lbl (ls.map pair), atof s, false⟩ := by
  cases ls with
  | nil =>
    have hleft : (multicollectorSkipSpaces (.within k (32 :: s))).left ≠ 0 := by
      obtain ⟨a, t, rfl, -⟩ := hs.start
      rw [skipSpaces_value hs]
      exact left_within_cons a t
    show multicollectorParse [] lbl (name ++ 32 :: s) ((name ++ 32 :: s).length + k) = _
    rw [multicollectorParse_line valid length (.inl rfl) (fun h => absurd h (colon rfl)) lbl hleft,
      skipSpaces_value hs, parseBody_value hs lbl]
    simp only [Option.map_some, (normalizers_of_valid valid).2 (colon rfl)]
    rfl
  | cons c ps =>
    have htext : blockText (c :: ps) ++ 32 :: s = 123 :: (c.name ++ 61 :: 34 ::
        (c.raw ++ 34 :: (pairsText (ps.map written) ++ 32 :: s))) := by
      simp [blockText]
    have hskip : ∀ t : Str,
        multicollectorSkipSpaces (.within k (123 :: t)) = .within k (123 :: t) :=
      fun _ => skipSpaces_within rfl
    rw [htext, multicollectorParse_line valid length (.inl rfl) (fun _ => by simp) lbl
      (by rw [hskip]; exact left_within_cons _ _), hskip,
      parseBody_labels hs (hreads c mem_cons_self)
        (forall_mem_cons.1 hreads).2 lbl]
    simp [(normalizers_of_valid valid).1]

lemma map_pair_plain (ps : List (Str × Str)) : (ps.map plain).map pair = ps := by
  rw [map_map]
  exact map_id ps

lemma map_written_plain (ps : List (Str × Str)) : (ps.map plain).map written = ps := by
  rw [map_map]
  exact map_id ps

lemma labelsText_eq_blockText : labelsText false labels = blockText ((keyed labels).map plain) := by
  rw [labelsText_false]
  cases keyed labels with
  | nil => rfl
  | cons c ps =>
    rw [map_cons, blockText, map_written_plain]
    rfl

lemma multicollectorParse_sampleText (h : Scrapable x name) :
    multicollectorParse [] .empty (sampleText x) ((sampleText x).length + 1) =
      some ⟨name, insertLabels .empty (labelPairs x.labels), atof (valueText x), false⟩ := by
  have hpairs : keyed x.labels.tail = labelPairs x.labels := rfl
  have htext : sampleText x =
      name ++ (blockText ((labelPairs x.labels).map plain) ++ 32 :: valueText x) := by
    rw [sampleText, h.key, labelsText_eq_blockText, hpairs]
    simp [cstr]
  have hreads : ∀ l ∈ (labelPairs x.labels).map plain, l.Reads := by
    intro l hl
    obtain ⟨c, hc, rfl⟩ := mem_map.mp hl
    exact (h.labels c hc).reads
  have hparse := multicollectorParse_texts (k := 1) h.valid h.length
    (fun hnil => h.colon (map_eq_nil_iff.mp hnil)) hreads (numeral_valueText h.type).readable
    .empty
  rwa [map_pair_plain, ← htext] at hparse

lemma stringInt_eq {i : Int} (hlow : -1000000000000000000 < i) (hhigh : i < 9223372036854775808) :
    stringInt i = printInt i := by
  refine take_of_length_le ?_
  cases i with
  | ofNat n =>
    have hn : (n : Int) < 9223372036854775808 := hhigh
    exact length_decimal_le (k := 18) (by norm_num; omega)
  | negSucc n =>
    have hn : n + 1 < 10 ^ (17 + 1) := by norm_num; omega
    have hlen := length_decimal_le hn
    show (45 :: decimal (n + 1)).length ≤ 19
    rw [length_cons]
    omega

lemma atof_valueText (htype : x.type = .int) (hlow : -1000000000000000000 < x.value.toInt) :
    atof (valueText x) = ofInt x.value.toInt := by
  have hhigh : x.value.toInt < 9223372036854775808 := by
    have := BitVec.toInt_lt (x := x.value)
    simpa using this
  rw [valueText, htype]
  rw [stringInt_eq hlow hhigh, atof, strtod_printInt]
  rfl

/-- The sample line of a stored series, read by the parser, gives the series back, with
its label values normalised, and its value as a double. -/
theorem fieldGet_sampleText {p : SortPlan} {x : Series} {name : Str} (hf : Fits p x.labels)
    (h : Scrapable x name) (cn : CounterNames) :
    ∃ sample write, multicollectorFieldGet [] cn .empty (sampleText x)
        ((sampleText x).length + 1) = some (sample, write) ∧ sample.name = name ∧
      sample.labels.pairs = (labelPairs x.labels).map
        (fun c => (c.1, metricLabelValueValidatorNormalizer c.2)) ∧
      (x.type = .int → -1000000000000000000 < x.value.toInt → sample.value = ofInt x.value.toInt) ∧
      (x.type = .int → x.value.toInt.natAbs < 2 ^ 53 → toRat sample.value = x.value.toInt) := by
  refine ⟨_, _, by rw [multicollectorFieldGet, multicollectorParse_sampleText h]; rfl, rfl, ?_,
    atof_valueText, fun htype hsmall => ?_⟩
  · rw [insertLabels_pairs]
    · rfl
    · exact hf.nodup_labelPairs
  · have hvalue : atof (valueText x) = _ := atof_valueText htype (by omega)
    rw [hvalue, toRat_ofInt hsmall]

/-- A series with a colon in its name and a label. -/
theorem fieldGet_sampleText_colon :
    ∃ sample write, multicollectorFieldGet [] ⟨false, []⟩ .empty
        (cstr "m:x\x7ba=\"b c\"\x7d -5") 16 = some (sample, write) ∧
      sample.name = cstr "m:x" ∧ sample.labels.pairs = [(cstr "a", cstr "b c")] ∧
      toRat sample.value = -5 := by
  have hpairs : labelPairs (labelsInitiate .init
      (LabelHash.empty.insert (cstr "a") (cstr "b c")) (cstr "m:x")).1 =
      [(cstr "a", cstr "b c")] := by decide
  have hscrape : Scrapable ⟨(labelsInitiate .init
      (LabelHash.empty.insert (cstr "a") (cstr "b c")) (cstr "m:x")).1, .int, -5, none⟩
      (cstr "m:x") := by
    refine ⟨by decide, by decide, by decide, fun h => ?_, fun c hc => ?_, by decide⟩
    · cases h
    · rw [hpairs, mem_singleton] at hc
      rw [hc]
      exact ⟨by decide, by decide, by decide, by decide, by decide⟩
  have htext : sampleText ⟨(labelsInitiate .init
      (LabelHash.empty.insert (cstr "a") (cstr "b c")) (cstr "m:x")).1, .int, -5, none⟩ =
      cstr "m:x\x7ba=\"b c\"\x7d -5" := by decide
  have hsize : (cstr "m:x\x7ba=\"b c\"\x7d -5").length + 1 = 16 := by decide
  have hfive : ((-5 : BitVec 64).toInt : ℚ) = -5 := by
    rw [show (-5 : BitVec 64).toInt = -5 by decide]
    norm_num
  obtain ⟨sample, write, e, hname, hlabels, -, hvalue⟩ :=
    fieldGet_sampleText (labelsInitiate_fits _ _ _) hscrape ⟨false, []⟩
  refine ⟨sample, write, e, hname, hlabels.trans (by decide), ?_⟩
  rw [hvalue rfl (by decide), hfive]

/-- An integer that is no double is not read as itself. -/
theorem fieldGet_sampleText_rounds :
    ∃ sample write, multicollectorFieldGet [] ⟨false, []⟩ .empty (cstr "m 9007199254740993") 19 =
        some (sample, write) ∧
      sampleText ⟨(labelsInitiate .init .empty (cstr "m")).1, .int, 9007199254740993, none⟩ =
        cstr "m 9007199254740993" ∧ toRat sample.value ≠ 9007199254740993 := by
  have htext : sampleText ⟨(labelsInitiate .init .empty (cstr "m")).1, .int, 9007199254740993,
      none⟩ = cstr "m 9007199254740993" := by decide
  have hbits : (multicollectorFieldGet [] ⟨false, []⟩ .empty (cstr "m 9007199254740993") 19).map
      (fun r => r.1.value) = some 0x4340000000000000#64 := by decide
  obtain ⟨⟨sample, write⟩, e, hvalue⟩ := Option.map_eq_some_iff.mp hbits
  have hratio : ratio 0x4340000000000000#64 = (9007199254740992, 1) := by decide
  have hsign : negative 0x4340000000000000#64 = false := by decide
  refine ⟨sample, write, e, htext, ?_⟩
  rw [show sample.value = _ from hvalue, toRat, hratio, hsign]
  intro h
  simp at h

/-! ## Statsd lines without tags -/

/-- The lines of statsd that have no tags. -/
inductive StatsdForm where
  | count
  | gauge
  | plus
  | minus

/-- What stands behind the colon of a line. -/
def StatsdForm.text (n : Nat) : StatsdForm → Str
  | .count => decimal n ++ cstr "|c"
  | .gauge => decimal n ++ cstr "|g"
  | .plus => 43 :: (decimal n ++ cstr "|g")
  | .minus => 45 :: (decimal n ++ cstr "|g")

end Alligator
