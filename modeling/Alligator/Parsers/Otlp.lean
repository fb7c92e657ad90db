import Alligator.Parsers.StorePush

/-!
# OTLP metrics

An export request has metrics of resources in scopes, and a metric has data points.  Each data
point becomes a sample of the store: its labels are the attributes of its resource and its own,
and its family gets the type of the metric.

This is the reader of requests in protocol buffers.  It is a loop over the fields of a message
on every level.  A loop ends where a field cannot be read and keeps what it has; only the outer
one, and that of an attribute, report it.
-/

namespace Alligator

open Text Binary64 Protobuf List

/-! ## Samples -/

def otlpKeyMax : Nat := 256

def otlpValMax : Nat := 1024

def otlpNameMax : Nat := 1024

/-- The text in a buffer ends at the first zero. -/
def untilNul (buf : Str) : Str := buf.takeWhile (· != 0)

/-- The bytes of an attribute key that are left as they are. -/
def attrKeyChar (c : UInt8) : Bool :=
  isAlpha c || isDigit c || c == 95 || c == 58 || c == 46 || c == 45

def otlpSanitizeAttrKey (k : Str) : Str := k.map fun c => if attrKeyChar c then c else 95

def metricLabelValidator (str : Str) : Bool := str.all attrKeyChar

/-- What samples are added with: the times to live of the configuration and of the connection. -/
structure OtlpEnv extends RestoreEnv where
  ttl : Int
  currTtl : Int

/-- What an ingest works on: the namespace of the connection, the counters of data points, and
`push_accepted_lines` and `parser_status` of the connection. -/
structure OtlpState where
  ns : EntryNamespace
  ok : Nat
  bad : Nat
  pushAcceptedLines : Nat
  parserStatus : Nat

def otlpLabels (resourceLbl dpLbl : Option LabelHash) : Option LabelHash :=
  match resourceLbl, dpLbl with
  | some r, some d => some (labelsMerge (labelsDup r) d)
  | some r, none => some (labelsDup r)
  | none, some d => some (labelsDup d)
  | none, none => none

/-- `otlp_ingest_value_labels`, without a cluster. -/
def otlpIngestValueLabels (e : OtlpEnv) (metricName : Str) (value : BitVec 64)
    (resourceLbl dpLbl : Option LabelHash) (metricType : MetricType) (ns : EntryNamespace) :
    EntryNamespace :=
  let lbl := otlpLabels resourceLbl dpLbl
  let metricType := if metricType = .untyped then .gauge else metricType
  { families := namespaceMetricFamilySet ns.families metricName (some metricType)
      (some (cstr "OTLP exported metric value."))
    store := (metricAdd e.toRestoreEnv ns.store metricName (lbl.getD .empty) .double value
      (getTtl e.acTtl e.ttl e.currTtl)).getD ns.store }

def OtlpState.accepted (st : OtlpState) (ns : EntryNamespace) : OtlpState :=
  { st with
    ns := ns
    ok := st.ok + 1
    pushAcceptedLines := st.pushAcceptedLines + 1
    parserStatus := 1 }

def OtlpState.refused (st : OtlpState) (n : Nat) : OtlpState := { st with bad := st.bad + n }

/-! ## Protocol buffers -/

/-- The loop of `otlp_pb_anyvalue_to_buf`. -/
def anyvalueLoop (bufsz : Nat) : List Field → Option Str
  | [] => none
  | f :: fs =>
    match f.num, f.value with
    | 1, .len s => if bufsz ≤ s.length then none else some s
    | 2, .varint v => some (strlcpy (if v ≠ 0 then cstr "true" else cstr "false") bufsz)
    | 3, .varint v => some (strlcpy (printInt (BitVec.ofNat 64 v).toInt) bufsz)
    | 4, .fixed64 u => some (strlcpy (printG 17 u) bufsz)
    | _, _ => anyvalueLoop bufsz fs

def otlpPbAnyvalueToBuf (p : Str) (bufsz : Nat) : Option Str := anyvalueLoop bufsz (readFields p).1

/-- The loop of `otlp_pb_kv_to_label` over the fields: the key and the value so far. -/
def kvLoop (key val : Option Str) : List Field → Option (Option Str × Option Str)
  | [] => some (key, val)
  | f :: fs =>
    match f.num, f.value with
    | 1, .len s => if otlpKeyMax ≤ s.length then none else kvLoop (some s) val fs
    | 2, .len s => kvLoop key (otlpPbAnyvalueToBuf s otlpValMax) fs
    | _, _ => kvLoop key val fs

/-- Put an attribute into a table, if its key can be a label name. -/
def otlpInsertLabel (key val : Str) (dst : LabelHash) : Option LabelHash :=
  let key := otlpSanitizeAttrKey key
  if metricLabelValidator key then
    some (dst.insert key (metricLabelValueValidatorNormalizer val))
  else none

/-- `otlp_pb_kv_to_label`: the table with the label, or nothing if there is none. -/
def otlpPbKvToLabel (p : Str) (dst : LabelHash) : Option LabelHash :=
  let r := readFields p
  match kvLoop none none r.1 with
  | some (some key, some val) =>
    if r.2 then otlpInsertLabel (untilNul key) (untilNul val) dst else none
  | _ => none

def otlpPbCountNumberDatapoints (p : Str) : Nat :=
  (readFields p).1.countP fun f =>
    match f.num, f.value with
    | 1, .len _ => true
    | _, _ => false

variable (r : LabelHash × Nat)

def addAttribute (p : Str) : LabelHash × Nat :=
  match otlpPbKvToLabel p r.1 with
  | some lbl => (lbl, r.2 + 1)
  | none => r

def addedLabels : Option LabelHash := if r.2 = 0 then none else some r.1

/-- The variables of `otlp_pb_parse_number_datapoint`: `lbl` with `added`, and the value. -/
structure PbPoint where
  lbl : LabelHash × Nat
  value : Option (BitVec 64)

def pbPointField (r : PbPoint) (f : Field) : PbPoint :=
  match f.num, f.value with
  | 7, .len s => { r with lbl := addAttribute r.lbl s }
  | 4, .fixed64 u => { r with value := some u }
  | 6, .fixed64 u => { r with value := some (ofInt u.toInt) }
  | _, _ => r

/-- `otlp_pb_parse_number_datapoint`: the labels and the value. -/
def otlpPbParseNumberDatapoint (p : Str) : Option (Option LabelHash × BitVec 64) :=
  let r := (readFields p).1.foldl pbPointField ⟨(.empty, 0), none⟩
  r.value.map fun value => (addedLabels r.lbl, value)

/-- The loop of `otlp_pb_sum_is_monotonic`. -/
def monotonicLoop : List Field → MetricType
  | [] => .counter
  | f :: fs =>
    match f.num, f.value with
    | 3, .varint mono => if mono ≠ 0 then .counter else .gauge
    | _, _ => monotonicLoop fs

def otlpPbSumIsMonotonic (p : Str) : MetricType := monotonicLoop (readFields p).1

section Reader

variable (e : OtlpEnv)

def numberDataField (metricName : Str) (metricOk : Bool) (resourceLbl : Option LabelHash)
    (metricType : MetricType) (st : OtlpState) (f : Field) : OtlpState :=
  match f.num, f.value with
  | 1, .len s =>
    if metricOk then
      match otlpPbParseNumberDatapoint s with
      | some (dpLbl, value) =>
        st.accepted (otlpIngestValueLabels e metricName value resourceLbl dpLbl metricType st.ns)
      | none => st.refused 1
    else st.refused 1
  | _, _ => st

def otlpPbParseNumberData (p : Str) (metricName : Str) (metricOk : Bool)
    (resourceLbl : Option LabelHash) (metricType : MetricType) (st : OtlpState) : OtlpState :=
  (readFields p).1.foldl (numberDataField e metricName metricOk resourceLbl metricType) st

/-- The loop of `otlp_pb_metric_name`. -/
def metricNameLoop (metricNameSz : Nat) : List Field → Option Str
  | [] => none
  | f :: fs =>
    match f.num, f.value with
    | 1, .len s => if metricNameSz ≤ s.length then none else some s
    | _, _ => metricNameLoop metricNameSz fs

def otlpPbMetricName (p : Str) (metricNameSz : Nat) : Option Str :=
  metricNameLoop metricNameSz (readFields p).1

def otlpMetricName (name : Str) : Option Str :=
  if metricNameValidatorPromstatsd name name.length then
    some (metricNameNormalizer name name.length)
  else none

def otlpPbParseMetricData (p : Str) (metricName : Option Str) (resourceLbl : Option LabelHash)
    (metricType : MetricType) (st : OtlpState) : OtlpState :=
  match metricName with
  | some name => otlpPbParseNumberData e p name true resourceLbl metricType st
  | none => st.refused (otlpPbCountNumberDatapoints p)

def metricField (metricName : Option Str) (resourceLbl : Option LabelHash) (st : OtlpState)
    (f : Field) : OtlpState :=
  match f.num, f.value with
  | 5, .len s => otlpPbParseMetricData e s metricName resourceLbl .gauge st
  | 7, .len s => otlpPbParseMetricData e s metricName resourceLbl (otlpPbSumIsMonotonic s) st
  | _, _ => st

def otlpPbParseMetric (p : Str) (resourceLbl : Option LabelHash) (st : OtlpState) : OtlpState :=
  let metricName := (otlpPbMetricName p otlpNameMax).bind fun name => otlpMetricName (untilNul name)
  (readFields p).1.foldl (metricField e metricName resourceLbl) st

def scopeMetricsField (resourceLbl : Option LabelHash) (st : OtlpState) (f : Field) : OtlpState :=
  match f.num, f.value with
  | 2, .len s => otlpPbParseMetric e s resourceLbl st
  | _, _ => st

def otlpPbParseScopeMetrics (p : Str) (resourceLbl : Option LabelHash) (st : OtlpState) :
    OtlpState :=
  (readFields p).1.foldl (scopeMetricsField e resourceLbl) st

/-- A field of a resource: the table and how many labels were added. -/
def resourceField (f : Field) : LabelHash × Nat :=
  match f.num, f.value with
  | 1, .len s => addAttribute r s
  | _, _ => r

def otlpPbParseResourceLabels (p : Str) : Option LabelHash :=
  addedLabels ((readFields p).1.foldl resourceField (.empty, 0))

def resourceMetricsField (r : Option LabelHash × OtlpState) (f : Field) :
    Option LabelHash × OtlpState :=
  match f.num, f.value with
  | 1, .len s => (otlpPbParseResourceLabels s, r.2)
  | 2, .len s => (r.1, otlpPbParseScopeMetrics e s r.1 r.2)
  | _, _ => r

/-- The inner loop of `otlp_ingest_resource_metrics_protobuf`. -/
def otlpPbParseResourceMetrics (p : Str) (st : OtlpState) : OtlpState :=
  ((readFields p).1.foldl (resourceMetricsField e) (none, st)).2

/-- A field of a request, and whether there was a resource. -/
def requestField (r : OtlpState × Bool) (f : Field) : OtlpState × Bool :=
  match f.num, f.value with
  | 1, .len s => (otlpPbParseResourceMetrics e s r.1, true)
  | _, _ => r

/-- `otlp_ingest_resource_metrics_protobuf`: what it leaves and what it returns. -/
def otlpIngestResourceMetricsProtobuf (body : Str) (st : OtlpState) : OtlpState × Bool :=
  let fields := readFields body
  let r := fields.1.foldl (requestField e) (st, false)
  (r.1, fields.2 && r.2)

end Reader

lemma foldl_requestField (e : OtlpEnv) (msgs : List Str) (r : OtlpState × Bool) :
    (msgs.map fun m => (⟨1, .len m⟩ : Field)).foldl (requestField e) r =
      (msgs.foldl (fun st m => otlpPbParseResourceMetrics e m st) r.1,
        r.2 || decide (msgs ≠ [])) := by
  induction msgs generalizing r with
  | nil =>
    simp
  | cons m msgs ih =>
    rw [map_cons, foldl_cons, ih]
    simp [requestField]

/-- A request that is written as its resources. -/
lemma ingest_encode (e : OtlpEnv) {msgs : List Str} (h : ∀ m ∈ msgs, m.length < 2 ^ 64)
    (st : OtlpState) :
    otlpIngestResourceMetricsProtobuf e (encode (msgs.map fun m => ⟨1, .len m⟩)) st =
      (msgs.foldl (fun st m => otlpPbParseResourceMetrics e m st) st, decide (msgs ≠ [])) := by
  have hread : readFields (encode (msgs.map fun m => (⟨1, .len m⟩ : Field))) =
      (msgs.map fun m => ⟨1, .len m⟩, true) := by
    refine readFields_encode fun f hf => ?_
    obtain ⟨m, hm, rfl⟩ := mem_map.mp hf
    exact Field.fits_len (by decide) (h m hm)
  rw [otlpIngestResourceMetricsProtobuf, hread, foldl_requestField]
  simp

/-! ## Labels -/

lemma metricLabelValidator_sanitize (k : Str) :
    metricLabelValidator (otlpSanitizeAttrKey k) = true := by
  rw [metricLabelValidator, otlpSanitizeAttrKey, all_map, all_eq_true]
  intro c _
  dsimp only [Function.comp_apply]
  split
  · assumption
  · rfl

lemma otlpInsertLabel_eq (key val : Str) (dst : LabelHash) : otlpInsertLabel key val dst =
      some (dst.insert (otlpSanitizeAttrKey key) (metricLabelValueValidatorNormalizer val)) := by
  simp [otlpInsertLabel, metricLabelValidator_sanitize]

lemma untilNul_eq {s : Str} (h : 0 ∉ s) : untilNul s = s := by
  rw [untilNul, takeWhile_eq_self_iff]
  intro c hc
  have hne : c ≠ 0 := fun h0 => h (h0 ▸ hc)
  simpa using hne

def insertAll (ls : List (Str × Str)) (dst : LabelHash) : LabelHash :=
  ls.foldl (fun dst c => dst.insert c.1 c.2) dst

def labelTable (ls : List (Str × Str)) : Option LabelHash :=
  addedLabels (insertAll ls .empty, ls.length)

lemma labelsDup_eq (labels : LabelHash) : labelsDup labels = labels := by
  have hpairs : (labelsDup labels).pairs = labels.pairs := by
    rw [labelsDup, labelsMerge, LabelHash.foldl_insert]
    · rfl
    · exact labels.nodup
  obtain ⟨pairs, nodup⟩ := labels
  exact LabelHash.mk.injEq .. ▸ hpairs

/-- A label is put into a table and counted, if there is one. -/
def countLabel (label : Option (Str × Str)) : LabelHash × Nat :=
  match label with
  | some c => (r.1.insert c.1 c.2, r.2 + 1)
  | none => r

lemma foldl_countLabel {α : Type} (label : α → Option (Str × Str)) (as : List α)
    (r : LabelHash × Nat) : as.foldl (fun r a => countLabel r (label a)) r =
      (insertAll (as.filterMap label) r.1, r.2 + (as.filterMap label).length) := by
  induction as generalizing r with
  | nil => exact rfl
  | cons a as ih =>
    rw [foldl_cons, ih]
    cases hlabel : label a with
    | none => rw [filterMap_cons_none hlabel, countLabel]
    | some c =>
      rw [filterMap_cons_some hlabel]
      simp [countLabel, insertAll, add_comm, add_left_comm]

/-- A message that is an attribute with some label, or with none. -/
def IsLabel (p : Str) (label : Option (Str × Str)) : Prop :=
  ∀ dst, otlpPbKvToLabel p dst = label.map fun c => dst.insert c.1 c.2

lemma IsLabel.addAttribute {p : Str} {label : Option (Str × Str)} (h : IsLabel p label)
    (r : LabelHash × Nat) : addAttribute r p = countLabel r label := by
  rw [Alligator.addAttribute, h r.1]
  cases label with
  | none | some c => rfl

section Attributes

variable {α : Type} {msg : α → Str} {label : α → Option (Str × Str)} {as : List α}

variable (h : ∀ a ∈ as, IsLabel (msg a) (label a))
include h

lemma foldl_addAttribute (r : LabelHash × Nat) : (as.map msg).foldl addAttribute r =
      (insertAll (as.filterMap label) r.1, r.2 + (as.filterMap label).length) := by
  rw [foldl_map, ← foldl_countLabel]
  exact foldl_ext _ _ r fun r a ha => (h a ha).addAttribute r

lemma foldl_pbPointField (r : PbPoint) :
    (as.map fun a => (⟨7, .len (msg a)⟩ : Field)).foldl pbPointField r =
      ⟨(insertAll (as.filterMap label) r.lbl.1, r.lbl.2 + (as.filterMap label).length),
        r.value⟩ := by
  have hfold (ps : List Str) : ∀ r : PbPoint,
      (ps.map fun p => (⟨7, .len p⟩ : Field)).foldl pbPointField r =
        ⟨ps.foldl addAttribute r.lbl, r.value⟩ := by
    induction ps with
    | nil => exact fun r => rfl
    | cons p ps ih => exact fun r => ih _
  rw [← foldl_addAttribute h, ← hfold, map_map]
  rfl

end Attributes

/-! ## A first request -/

/-- A connection to an empty namespace. -/
def freshOtlp : OtlpState := ⟨⟨.init 0, []⟩, 0, 0, 0, 0⟩

/-- Samples that never expire. -/
def plainOtlp : OtlpEnv := ⟨⟨fun a _ => a, id, ⟨10, 10⟩, 0⟩, 0, 0⟩

end Alligator
