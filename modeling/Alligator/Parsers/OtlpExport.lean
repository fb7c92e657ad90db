import Alligator.Parsers.Otlp
import Mathlib.Algebra.Order.BigOperators.Group.List

/-!
# OTLP export

`otlp_protobuf_serialize` writes one series as an export request of its own: a resource without
attributes, a scope, a metric and a data point, each as a message in the one above.  Requests
that stand one after the other are one request, since a message is the list of its fields.

The reader of requests gets back what was written (`otlp_export_ingest`): every series, its
labels and its value.
-/

namespace Alligator

open Text Binary64 Protobuf List Option OtlpState Field

variable {name dp : Str} {c : Str × Str}

/-! ## Writing -/

variable (dst : Str)

/-- A tag is appended to what has been written. -/
def pbwireWriteTag (field wire : Nat) : Str := dst ++ writeVarint (8 * field + wire)

/-- Bytes are appended behind their length. -/
def pbwireWriteLen (dst data : Str) : Str := dst ++ writeVarint data.length ++ data

variable (field : Nat)

/-- A field with a message in it. -/
def pbwireWriteFieldLenmsg (msg : Str) : Str :=
  pbwireWriteLen (pbwireWriteTag dst field 2) msg

/-- A field of eight bytes. -/
def pbwireWriteFieldFixed64 (raw : BitVec 64) : Str :=
  pbwireWriteTag dst field 1 ++ writeFixed64 raw

/-- A field with a varint. -/
def otlpPbwFieldVarint (field v : Nat) : Str :=
  pbwireWriteTag dst field 0 ++ writeVarint v

/-- An `AnyValue` with a string. -/
def otlpPbwAnyString (s : Str) : Str := pbwireWriteLen (pbwireWriteTag [] 1 2) s

/-- A `KeyValue`: the key, and the string as its value. -/
def otlpPbwKeyValueString (k v : Str) : Str :=
  pbwireWriteFieldLenmsg (pbwireWriteLen (pbwireWriteTag [] 1 2) k) 2 (otlpPbwAnyString v)

/-- The type of the family that a metric is shown in. -/
def promResolveType (ns : Families) (metricKey : Str) : MetricType :=
  match (promFamilyExpositionResolve ns metricKey 256).2 with
  | some metadata => metadata.type
  | none => .untyped

/-- `prom_metric_name_is_count_component` and `prom_metric_name_is_sum_component` -/
def promMetricNameIsComponent (suffix metricKey : Str) : Bool :=
  decide (suffix.length ≤ metricKey.length) &&
    metricKey.drop (metricKey.length - suffix.length) == suffix

/-- Counters are sums, and so are integers of no family and the totals of a distribution. -/
def promMetricSerializesAsOtlpSum (ns : Families) (metricKey : Str) (valueType : DataType) : Bool :=
  match promResolveType ns metricKey with
  | .counter => true
  | .histogram | .summary =>
    promMetricNameIsComponent (cstr "_count") metricKey ||
      promMetricNameIsComponent (cstr "_sum") metricKey
  | .untyped => valueType == .int || valueType == .uint
  | .gauge => false

/-- `otlp_metric_to_pb_value`: the number of the field and its value. -/
def otlpMetricToPbValue (x : Series) : Nat × BitVec 64 :=
  match x.type with
  | .int => (6, x.value)
  | .uint => if x.value.toNat ≤ 2 ^ 63 - 1 then (6, x.value) else (4, ofInt x.value.toNat)
  | .double => (4, x.value)
  | .none => (4, 0)

/-- The label of a node is written as an attribute of the data point. -/
def otlpWriteLabel (dp : Str) (l : Label) : Str :=
  match l.key with
  | some key =>
    if l.name ≠ [] ∧ key ≠ [] then
      pbwireWriteFieldLenmsg dp 7 (otlpPbwKeyValueString l.name key)
    else dp
  | none => dp

/-- `otlp_protobuf_serialize` without transforms and added labels, at some time. -/
def otlpProtobufSerialize (ns : Families) (x : Series) (timeUnixNano : BitVec 64) : Str :=
  match keyOf x.labels with
  | none | some [] => []
  | some name =>
    let value := otlpMetricToPbValue x
    let asSum := promMetricSerializesAsOtlpSum ns name x.type
    let dp := x.labels.tail.foldl otlpWriteLabel []
    let dp := pbwireWriteFieldFixed64 dp 3 timeUnixNano
    let dp := pbwireWriteFieldFixed64 dp value.1 value.2
    let wrap := pbwireWriteFieldLenmsg [] 1 dp
    let wrap := if asSum then otlpPbwFieldVarint (otlpPbwFieldVarint wrap 2 2) 3 1 else wrap
    let metric := pbwireWriteLen (pbwireWriteTag [] 1 2) name
    let metric := pbwireWriteFieldLenmsg metric (if asSum then 7 else 5) wrap
    let sm := pbwireWriteFieldLenmsg [] 2 metric
    let rm := pbwireWriteFieldLenmsg [] 2 sm
    pbwireWriteFieldLenmsg [] 1 rm

/-! ## The fields that are written -/

lemma writeFieldLenmsg_eq (msg : Str) :
    pbwireWriteFieldLenmsg dst field msg = dst ++ encode [⟨field, .len msg⟩] := by
  simp [pbwireWriteFieldLenmsg, pbwireWriteLen, pbwireWriteTag, encode, writeField, writeValue,
    Value.wire]

lemma writeFieldFixed64_eq (raw : BitVec 64) :
    pbwireWriteFieldFixed64 dst field raw = dst ++ encode [⟨field, .fixed64 raw⟩] := by
  simp [pbwireWriteFieldFixed64, pbwireWriteTag, encode, writeField, writeValue, Value.wire]

lemma pbwFieldVarint_eq (field v : Nat) :
    otlpPbwFieldVarint dst field v = dst ++ encode [⟨field, .varint v⟩] := by
  simp [otlpPbwFieldVarint, pbwireWriteTag, encode, writeField, writeValue, Value.wire]

/-- An attribute as fields. -/
def kvMessage (c : Str × Str) : Str :=
  encode [⟨1, .len c.1⟩, ⟨2, .len (encode [⟨1, .len c.2⟩])⟩]

lemma pbwKeyValueString_eq (k v : Str) : otlpPbwKeyValueString k v = kvMessage (k, v) := by
  have hany : otlpPbwAnyString v = encode [⟨1, .len v⟩] := writeFieldLenmsg_eq [] 1 v
  have hkey : pbwireWriteLen (pbwireWriteTag [] 1 2) k = encode [⟨1, .len k⟩] :=
    writeFieldLenmsg_eq [] 1 k
  rw [otlpPbwKeyValueString, hany, hkey, writeFieldLenmsg_eq, ← encode_append]
  rfl

/-- A data point as fields: its attributes, its time and its value. -/
def dpMessage (labels : List (Str × Str)) (time : BitVec 64) (value : Nat × BitVec 64) : Str :=
  encode (labels.map (fun c => ⟨7, .len (kvMessage c)⟩) ++
    [⟨3, .fixed64 time⟩, ⟨value.1, .fixed64 value.2⟩])

/-- A `Gauge` with its data point, or a `Sum`, which is cumulative and monotonic. -/
def wrapMessage (asSum : Bool) (dp : Str) : Str :=
  encode (⟨1, .len dp⟩ :: if asSum then [⟨2, .varint 2⟩, ⟨3, .varint 1⟩] else [])

/-- A metric as fields. -/
def metricMessage (name : Str) (asSum : Bool) (wrap : Str) : Str :=
  encode [⟨1, .len name⟩, ⟨if asSum then 7 else 5, .len wrap⟩]

/-- The message of a resource with one scope and one metric. -/
def resourceMessage (metric : Str) : Str := encode [⟨2, .len (encode [⟨2, .len metric⟩])⟩]

/-- The labels of a chain are written in its order. -/
lemma foldl_writeLabel {ls : Labels}
    (h : ∀ c ∈ ls.filterMap (fun l => l.key.map fun k => (l.name, k)), c.1 ≠ [] ∧ c.2 ≠ []) (dp) :
    ls.foldl otlpWriteLabel dp =
      dp ++ encode ((ls.filterMap fun l => l.key.map fun k => (l.name, k)).map fun c =>
        ⟨7, .len (kvMessage c)⟩) := by
  induction ls generalizing dp with
  | nil =>
    simp [encode]
  | cons l ls ih =>
    cases hkey : l.key with
    | none =>
      have hskip : otlpWriteLabel dp l = dp := by rw [otlpWriteLabel, hkey]
      simp only [filterMap_cons, hkey, map_none] at h ⊢
      rw [foldl_cons, hskip, ih h]
    | some key =>
      simp only [filterMap_cons, hkey] at h ⊢
      have hwrite : otlpWriteLabel dp l = dp ++ encode [⟨7, .len (kvMessage (l.name, key))⟩] := by
        rw [otlpWriteLabel, hkey]
        dsimp only
        rw [if_pos (h _ mem_cons_self), pbwKeyValueString_eq, writeFieldLenmsg_eq]
      rw [foldl_cons, hwrite, ih (forall_mem_cons.1 h).2, append_assoc, ← encode_append]
      rfl

variable {x : Series}

lemma serialize_eq (hname : keyOf x.labels = some name) (hne : name ≠ [])
    (hlabels : ∀ c ∈ labelPairs x.labels, c.1 ≠ [] ∧ c.2 ≠ []) (ns : Families) (time : BitVec 64) :
    otlpProtobufSerialize ns x time = encode [⟨1, .len (resourceMessage (metricMessage name
        (promMetricSerializesAsOtlpSum ns name x.type)
        (wrapMessage (promMetricSerializesAsOtlpSum ns name x.type)
          (dpMessage (labelPairs x.labels) time (otlpMetricToPbValue x)))))⟩] := by
  obtain ⟨c, rest, rfl⟩ := exists_cons_of_ne_nil hne
  rw [otlpProtobufSerialize, hname]
  dsimp only
  generalize promMetricSerializesAsOtlpSum ns (c :: rest) x.type = asSum
  have hdp : pbwireWriteFieldFixed64 (pbwireWriteFieldFixed64
      (x.labels.tail.foldl otlpWriteLabel []) 3 time) (otlpMetricToPbValue x).1
      (otlpMetricToPbValue x).2 = dpMessage (labelPairs x.labels) time (otlpMetricToPbValue x) := by
    rw [foldl_writeLabel hlabels, writeFieldFixed64_eq, writeFieldFixed64_eq, dpMessage,
      encode_append, append_assoc, ← encode_append]
    rfl
  have hmetric : pbwireWriteLen (pbwireWriteTag [] 1 2) (c :: rest) =
      encode [⟨1, .len (c :: rest)⟩] := writeFieldLenmsg_eq [] 1 (c :: rest)
  rw [hdp, hmetric]
  generalize dpMessage (labelPairs x.labels) time (otlpMetricToPbValue x) = dp
  have hwrap : (if asSum then otlpPbwFieldVarint (otlpPbwFieldVarint
      (pbwireWriteFieldLenmsg [] 1 dp) 2 2) 3 1 else pbwireWriteFieldLenmsg [] 1 dp) =
      wrapMessage asSum dp := by
    cases asSum with
    | false => exact writeFieldLenmsg_eq [] 1 dp
    | true =>
      simp only [pbwFieldVarint_eq, writeFieldLenmsg_eq, nil_append, ← encode_append]
      rfl
  rw [hwrap]
  simp only [writeFieldLenmsg_eq, ← encode_append]
  rfl

/-! ## Reading it back -/

/-- A series that can be sent and read back: its name and its labels are made of letters, digits
and underscores, and its value is an integer that is a double. -/
structure Exportable (x : Series) : Prop where
  name : ∀ name, keyOf x.labels = some name → validLabelName name = true ∧ name.length < otlpNameMax
  label : ∀ c ∈ labelPairs x.labels,
    c.1 ≠ [] ∧ (∀ b ∈ c.1, labelChar b = true) ∧ c.1.length < otlpKeyMax
  key : ∀ c ∈ labelPairs x.labels, c.2 ≠ [] ∧ 0 ∉ c.2 ∧ c.2.length < otlpValMax ∧
    metricLabelValueValidatorNormalizer c.2 = c.2
  value : (x.type = .int ∧ x.value.toInt.natAbs ≤ 2 ^ 53) ∨
    (x.type = .uint ∧ x.value.toNat ≤ 2 ^ 53)

/-- The integer that the bits of a series stand for. -/
def Series.integer (x : Series) : Int := if x.type = .uint then x.value.toNat else x.value.toInt

lemma attrKeyChar_of_labelChar {c : UInt8} (h : labelChar c = true) : attrKeyChar c = true := by
  rw [labelChar] at h
  rw [attrKeyChar]
  cases h1 : isAlpha c with
  | true => rfl
  | false => cases h2 : isDigit c <;> simp_all

lemma ne_zero_of_labelChar {c : UInt8} (h : labelChar c = true) : c ≠ 0 := by
  rintro rfl
  exact absurd h (by decide)

lemma sanitize_eq {k : Str} (h : ∀ c ∈ k, labelChar c = true) : otlpSanitizeAttrKey k = k := by
  conv_rhs => rw [← map_id k]
  refine map_congr_left fun c hc => ?_
  rw [if_pos (attrKeyChar_of_labelChar (h c hc))]
  rfl

lemma otlpMetricName_eq (h : validLabelName name = true) : otlpMetricName name = some name := by
  have hnormal : metricNameNormalizer name name.length = name :=
    nameNormalizer_eq (labelChar_of_validLabelName h)
  rw [otlpMetricName, if_pos (promstatsd_of_valid (validMetricName_of_validLabelName h)), hnormal]

lemma kvMessage_length (hname : c.1.length < otlpKeyMax) (hkey : c.2.length < otlpValMax) :
    (kvMessage c).length ≤ 1340 := by
  have houter := length_encode [⟨1, .len c.1⟩, ⟨2, .len (encode [⟨1, .len c.2⟩])⟩]
  have hinner := length_encode [⟨1, .len c.2⟩]
  rw [otlpKeyMax] at hname
  rw [otlpValMax] at hkey
  simp only [map_cons, map_nil, sum_cons, sum_nil, Value.payload]
    at houter hinner
  rw [kvMessage]
  omega

lemma isLabel_kvMessage (hname : ∀ b ∈ c.1, labelChar b = true) (hlen : c.1.length < otlpKeyMax)
    (hkey : 0 ∉ c.2) (hlen' : c.2.length < otlpValMax)
    (hnormal : metricLabelValueValidatorNormalizer c.2 = c.2) : IsLabel (kvMessage c) (some c) := by
  intro dst
  have hinner : (encode [⟨1, .len c.2⟩]).length ≤ 1044 := by
    have h := length_encode [⟨1, .len c.2⟩]
    rw [otlpValMax] at hlen'
    simp only [map_cons, map_nil, sum_cons, sum_nil, Value.payload] at h
    omega
  have hany : otlpPbAnyvalueToBuf (encode [⟨1, .len c.2⟩]) otlpValMax = some c.2 := by
    rw [otlpPbAnyvalueToBuf, readFields_encode]
    · simp [anyvalueLoop, hlen']
    · rw [otlpValMax] at hlen'
      simp only [mem_singleton, forall_eq]
      exact fits_len (by decide) (by omega)
  have hread : readFields (kvMessage c) =
      ([⟨1, .len c.1⟩, ⟨2, .len (encode [⟨1, .len c.2⟩])⟩], true) := by
    refine readFields_encode ?_
    rw [otlpKeyMax] at hlen
    simp only [mem_cons, not_mem_nil, or_false, forall_eq_or_imp, forall_eq]
    exact ⟨fits_len (by decide) (by omega),
      fits_len (by decide) (by omega)⟩
  have hnul : 0 ∉ c.1 := fun h0 => ne_zero_of_labelChar (hname 0 h0) rfl
  have hkv : kvLoop none none [⟨1, .len c.1⟩, ⟨2, .len (encode [⟨1, .len c.2⟩])⟩] =
      some (some c.1, some c.2) := by
    simp [kvLoop, hlen, hany]
  rw [otlpPbKvToLabel, hread]
  simp [hkv, untilNul_eq hnul, untilNul_eq hkey, otlpInsertLabel_eq, sanitize_eq hname, hnormal]

section Ingest

variable {labels : List (Str × Str)} (hlabels : ∀ c ∈ labels, IsLabel (kvMessage c) (some c))
  (hsize : ∀ c ∈ labels, (kvMessage c).length ≤ 1340) (hcount : labels.length ≤ sortplanMax)

include hsize hcount in
lemma dpMessage_length (time : BitVec 64) (value : Nat × BitVec 64) :
    (dpMessage labels time value).length < 2 ^ 28 := by
  have h := length_encode (labels.map (fun c => (⟨7, .len (kvMessage c)⟩ : Field)) ++
    [⟨3, .fixed64 time⟩, ⟨value.1, .fixed64 value.2⟩])
  have hsum : ((labels.map (fun c => (⟨7, .len (kvMessage c)⟩ : Field))).map
      fun f => 20 + f.value.payload).sum ≤ labels.length * 1360 := by
    rw [List.map_map]
    refine (sum_le_card_nsmul _ 1360 ?_).trans (by simp)
    intro n hn
    obtain ⟨c, hc, rfl⟩ := mem_map.mp hn
    have := hsize c hc
    simp only [Function.comp_apply, Value.payload]
    omega
  have hrest : (([⟨3, .fixed64 time⟩, ⟨value.1, .fixed64 value.2⟩] : List Field).map
      fun f => 20 + f.value.payload).sum = 56 := rfl
  rw [map_append, sum_append, hrest] at h
  rw [sortplanMax] at hcount
  rw [dpMessage]
  omega

include hlabels hsize in
/-- The data point of an integer. -/
lemma parseNumberDatapoint_dpMessage (time raw : BitVec 64) :
    otlpPbParseNumberDatapoint (dpMessage labels time (6, raw)) =
      some (labelTable labels, ofInt raw.toInt) := by
  have hread : readFields (dpMessage labels time (6, raw)) =
      (labels.map (fun c => ⟨7, .len (kvMessage c)⟩) ++ [⟨3, .fixed64 time⟩, ⟨6, .fixed64 raw⟩],
        true) := by
    refine readFields_encode fun f hf => ?_
    rcases mem_append.mp hf with hf | hf
    · obtain ⟨c, hc, rfl⟩ := mem_map.mp hf
      have := hsize c hc
      exact fits_len (by decide) (by omega)
    · simp only [mem_cons, not_mem_nil, or_false] at hf
      rcases hf with rfl | rfl
      · exact fits_fixed64 (by decide) time
      · exact fits_fixed64 (by decide) raw
  rw [otlpPbParseNumberDatapoint, hread]
  dsimp only
  rw [foldl_append, foldl_pbPointField hlabels]
  simp [pbPointField, labelTable]

section

variable (hdp : dp.length < 2 ^ 28)
include hdp

/-- What the reader finds in a gauge or a sum with one data point. -/
lemma readFields_wrapMessage (asSum : Bool) : readFields (wrapMessage asSum dp) =
      (⟨1, .len dp⟩ :: if asSum then [⟨2, .varint 2⟩, ⟨3, .varint 1⟩] else [], true) := by
  have hfits : Field.Fits ⟨1, .len dp⟩ := fits_len (by decide) (by omega)
  refine readFields_encode ?_
  cases asSum with
  | false => simpa using hfits
  | true =>
    simp only [if_true, mem_cons, not_mem_nil, or_false, forall_eq_or_imp, forall_eq]
    exact ⟨hfits, fits_varint (by decide) (by decide),
      fits_varint (by decide) (by decide)⟩

lemma wrapMessage_length (asSum : Bool) : (wrapMessage asSum dp).length < 2 ^ 29 := by
  have h := length_encode (⟨1, .len dp⟩ :: if asSum then [⟨2, .varint 2⟩, ⟨3, .varint 1⟩] else [])
  rw [wrapMessage]
  cases asSum with
  | false | true =>
    simp [Value.payload] at h ⊢
    omega

lemma sumIsMonotonic_wrapMessage : otlpPbSumIsMonotonic (wrapMessage true dp) = .counter := by
  rw [otlpPbSumIsMonotonic, readFields_wrapMessage hdp]
  rfl

end

variable (e : OtlpEnv) {value : BitVec 64} {dpLbl : Option LabelHash} {metric : Str}

/-- The data of a metric with one data point that is read. -/
lemma parseMetricData_wrapMessage (hdp : dp.length < 2 ^ 28)
    (hread : otlpPbParseNumberDatapoint dp = some (dpLbl, value)) (asSum : Bool)
    (name : Str) (resourceLbl : Option LabelHash) (type : MetricType) (st : OtlpState) :
    otlpPbParseMetricData e (wrapMessage asSum dp) (some name) resourceLbl type st =
      st.accepted (otlpIngestValueLabels e name value resourceLbl dpLbl type st.ns) := by
  rw [otlpPbParseMetricData, otlpPbParseNumberData, readFields_wrapMessage hdp]
  cases asSum with
  | false | true => simp [numberDataField, hread]

/-- The type that a reader takes an exported metric for. -/
def exportedType (asSum : Bool) : MetricType := if asSum then .counter else .gauge

lemma parseMetric_metricMessage (hdp : dp.length < 2 ^ 28)
    (hread : otlpPbParseNumberDatapoint dp = some (dpLbl, value))
    (hname : validLabelName name = true) (hlen : name.length < otlpNameMax) (asSum : Bool)
    (resourceLbl : Option LabelHash) (st : OtlpState) :
    otlpPbParseMetric e (metricMessage name asSum (wrapMessage asSum dp)) resourceLbl st =
      st.accepted (otlpIngestValueLabels e name value resourceLbl dpLbl (exportedType asSum)
        st.ns) := by
  have hwrap := wrapMessage_length hdp asSum
  have hfields : readFields (metricMessage name asSum (wrapMessage asSum dp)) =
      ([⟨1, .len name⟩, ⟨if asSum then 7 else 5, .len (wrapMessage asSum dp)⟩], true) := by
    refine readFields_encode ?_
    rw [otlpNameMax] at hlen
    simp only [mem_cons, not_mem_nil, or_false, forall_eq_or_imp, forall_eq]
    refine ⟨fits_len (by decide) (by omega), ?_⟩
    cases asSum with
    | false | true => exact fits_len (by decide) (by omega)
  have hnul : 0 ∉ name := fun h0 =>
    ne_zero_of_labelChar (labelChar_of_validLabelName hname 0 h0) rfl
  have hmetricName : otlpPbMetricName (metricMessage name asSum (wrapMessage asSum dp))
      otlpNameMax = some name := by
    rw [otlpPbMetricName, hfields]
    simp [metricNameLoop, hlen]
  have hdata := parseMetricData_wrapMessage e hdp hread asSum name resourceLbl
    (exportedType asSum) st
  rw [otlpPbParseMetric, hmetricName, hfields]
  simp only [bind_some, untilNul_eq hnul, otlpMetricName_eq hname]
  cases asSum with
  | false => exact hdata
  | true =>
    simpa [metricField, exportedType, sumIsMonotonic_wrapMessage hdp] using hdata

lemma metricMessage_length {wrap : Str} (hname : name.length < otlpNameMax)
    (hwrap : wrap.length < 2 ^ 29) (asSum : Bool) :
    (metricMessage name asSum wrap).length < 2 ^ 30 := by
  have h := length_encode [⟨1, .len name⟩, ⟨if asSum then 7 else 5, .len wrap⟩]
  rw [otlpNameMax] at hname
  simp only [map_cons, map_nil, sum_cons, sum_nil, Value.payload] at h
  rw [metricMessage]
  omega

/-- The metric of a resource without attributes. -/
lemma parseResourceMetrics_resourceMessage (hmetric : metric.length < 2 ^ 30)
    (st : OtlpState) : otlpPbParseResourceMetrics e (resourceMessage metric) st =
      otlpPbParseMetric e metric none st := by
  have hscope : readFields (encode [⟨2, .len metric⟩]) = ([⟨2, .len metric⟩], true) := by
    refine readFields_encode ?_
    simp only [mem_singleton, forall_eq]
    exact fits_len (by decide) (by omega)
  have hlen := length_encode [⟨2, .len metric⟩]
  simp only [map_cons, map_nil, sum_cons, sum_nil, Value.payload] at hlen
  have hresource : readFields (resourceMessage metric) =
      ([⟨2, .len (encode [⟨2, .len metric⟩])⟩], true) := by
    refine readFields_encode ?_
    simp only [mem_singleton, forall_eq]
    exact fits_len (by decide) (by omega)
  rw [otlpPbParseResourceMetrics, hresource]
  simp [resourceMetricsField, otlpPbParseScopeMetrics, hscope, scopeMetricsField]

lemma resourceMessage_length (hmetric : metric.length < 2 ^ 30) :
    (resourceMessage metric).length < 2 ^ 31 := by
  have hinner := length_encode [⟨2, .len metric⟩]
  have houter := length_encode [⟨2, .len (encode [⟨2, .len metric⟩])⟩]
  simp only [map_cons, map_nil, sum_cons, sum_nil, Value.payload]
    at hinner houter
  rw [resourceMessage]
  omega

end Ingest

/-! ## Series -/

/-- What reading a series does: it is added with its labels, in a family of its type. -/
def OtlpState.addSeries (e : OtlpEnv) (ns : Families) (st : OtlpState) (x : Series) : OtlpState :=
  let name := (keyOf x.labels).getD []
  st.accepted (otlpIngestValueLabels e name (ofInt x.integer) none
    (labelTable (labelPairs x.labels))
    (exportedType (promMetricSerializesAsOtlpSum ns name x.type)) st.ns)

lemma Exportable.pbValue (h : Exportable x) :
    otlpMetricToPbValue x = (6, x.value) ∧ x.value.toInt = x.integer ∧
      x.integer.natAbs ≤ 2 ^ 53 := by
  rcases h.value with ⟨htype, hvalue⟩ | ⟨htype, hvalue⟩
  · simp [otlpMetricToPbValue, Series.integer, htype]
    exact hvalue
  · have hint : x.value.toInt = x.value.toNat := by
      rw [BitVec.toInt_eq_toNat_of_lt]
      omega
    simp [otlpMetricToPbValue, Series.integer, htype, hint]
    omega

section Series

variable {p : SortPlan} {x : Series}

lemma Exportable.isLabel (h : Exportable x) (hc : c ∈ labelPairs x.labels) :
    IsLabel (kvMessage c) (some c) := by
  obtain ⟨-, hname, hlen⟩ := h.label c hc
  obtain ⟨-, hnul, hlen', hnormal⟩ := h.key c hc
  exact isLabel_kvMessage hname hlen hnul hlen' hnormal

lemma Fits.length_labelPairs (h : Fits p x.labels) :
    (labelPairs x.labels).length ≤ sortplanMax := by
  have hsize := h.length_le
  have hbound := p.bounded
  have hpairs : (labelPairs x.labels).length ≤ x.labels.tail.length := length_filterMap_le _ _
  rw [length_tail] at hpairs
  rw [SortPlan.size, SortPlan.plan, length_cons] at hsize
  omega

/-- The message of a series: what it is, what it is read as and how long it can be. -/
lemma Exportable.message (h : Exportable x) (hfits : Fits p x.labels) (ns : Families)
    (time : BitVec 64) :
    ∃ msg, otlpProtobufSerialize ns x time = encode [⟨1, .len msg⟩] ∧ msg.length < 2 ^ 31 ∧
      ∀ e st, otlpPbParseResourceMetrics e msg st = st.addSeries e ns x := by
  obtain ⟨name, hname⟩ := hfits.2
  obtain ⟨hvalid, hlen⟩ := h.name name hname
  obtain ⟨hvalue, hint, -⟩ := h.pbValue
  have hne : name ≠ [] := by
    rintro rfl
    cases hvalid
  have hsize : ∀ c ∈ labelPairs x.labels, (kvMessage c).length ≤ 1340 := fun c hc =>
    kvMessage_length (h.label c hc).2.2 (h.key c hc).2.2.1
  have hdp := dpMessage_length hsize hfits.length_labelPairs time (6, x.value)
  have hread := parseNumberDatapoint_dpMessage (fun c hc => h.isLabel hc) hsize time x.value
  have hserialize := serialize_eq hname hne
    (fun c hc => ⟨(h.label c hc).1, (h.key c hc).1⟩) ns time
  rw [hvalue] at hserialize
  generalize hsum : promMetricSerializesAsOtlpSum ns name x.type = asSum at hserialize
  have hmetric := metricMessage_length hlen (wrapMessage_length hdp asSum) asSum
  refine ⟨_, hserialize, resourceMessage_length hmetric, fun e st => ?_⟩
  rw [parseResourceMetrics_resourceMessage e hmetric,
    parseMetric_metricMessage e hdp hread hvalid hlen, addSeries, hname, getD_some, hsum, hint]

end Series

variable {p : SortPlan}

/-- The series are read one after the other. -/
lemma ingest_serialized {xs : List (Series × BitVec 64)}
    (hfits : ∀ x ∈ xs, Fits p x.1.labels) (hexport : ∀ x ∈ xs, Exportable x.1) (ns : Families)
    (e : OtlpEnv) (st : OtlpState) : otlpIngestResourceMetricsProtobuf e
        (xs.flatMap fun x => otlpProtobufSerialize ns x.1 x.2) st =
      ((xs.map Prod.fst).foldl (addSeries e ns) st, decide (xs ≠ [])) := by
  choose! msg hmsg hlen hread using fun x hx => (hexport x hx).message (hfits x hx) ns x.2
  have hbody : xs.flatMap (fun x => otlpProtobufSerialize ns x.1 x.2) =
      encode ((xs.map msg).map fun m => ⟨1, .len m⟩) := by
    rw [flatMap_congr hmsg]
    simp [encode, flatMap_map]
  rw [hbody, ingest_encode]
  · rw [foldl_map, foldl_map, foldl_ext _ _ st fun st x hx => hread x hx e st]
    simp
  · intro m hm
    obtain ⟨x, hx, rfl⟩ := mem_map.mp hm
    exact (hlen x hx).trans (by decide)

/-! ## The store -/

lemma notFinite_eq (v : BitVec 64) : notFinite v = decide (exponent v = 2047) := by
  have hnat : ((v >>> 52) &&& 0x7ff#64).toNat = exponent v := by
    rw [BitVec.toNat_and, BitVec.toNat_ushiftRight, Nat.shiftRight_eq_div_pow]
    exact Nat.and_two_pow_sub_one_eq_mod _ 11
  rw [notFinite, Bool.eq_iff_iff, beq_iff_eq, decide_eq_true_iff, ← hnat, ← BitVec.toNat_inj]
  rfl

lemma numbercheck_of_valid (h : validLabelName name = true) : numbercheck name = false := by
  cases name with
  | nil => cases h
  | cons c t =>
    rw [validLabelName, Bool.and_eq_true] at h
    have hdigit : isDigit c = false := by
      by_contra hd
      obtain ⟨hlo, hhi⟩ := toNat_of_isDigit (Bool.eq_true_of_not_eq_false hd)
      have hstart := h.1
      simp only [isAlpha, Bool.or_eq_true, decide_eq_true_eq, beq_iff_eq] at hstart
      rcases hstart with (hupper | hlower) | rfl
      · omega
      · omega
      · exact absurd hhi (by decide)
    rw [numbercheck, all_cons, hdigit, Bool.false_and]

/-- The value that the last of some series gives to a key. -/
def lastSample (xs : List Series) (k : SeriesKey) : Option (DataType × BitVec 64) :=
  (xs.reverse.find? fun x => decide (seriesKey x.labels = k)).map fun x =>
    (.double, ofInt x.integer)

lemma lastSample_cons (x : Series) (xs : List Series) (k : SeriesKey) :
    lastSample (x :: xs) k = (lastSample xs k).or
      (if seriesKey x.labels = k then some (.double, ofInt x.integer) else none) := by
  cases hfind : xs.reverse.find? (fun x => decide (seriesKey x.labels = k)) with
  | some y => simp [lastSample, hfind]
  | none =>
    by_cases hx : seriesKey x.labels = k <;> simp [lastSample, hx]

lemma pairs_labelTable (h : Fits p x.labels) :
    ((otlpLabels none (labelTable (labelPairs x.labels))).getD .empty).pairs =
      labelPairs x.labels := by
  have hpairs : (insertAll (labelPairs x.labels) .empty).pairs = labelPairs x.labels :=
    LabelHash.foldl_insert h.nodup_labelPairs
  cases hlabels : labelPairs x.labels with
  | nil => rfl
  | cons c cs =>
    rw [hlabels] at hpairs
    simpa [labelTable, addedLabels, otlpLabels, labelsDup_eq] using hpairs

variable {L : List Record} {st : OtlpState}

/-- One series is added to a store. -/
lemma Exportable.addSeries (h : Exportable x)
    (hfits : Fits p x.labels) (e : OtlpEnv) (ns : Families)
    (hL : Holds st.ns.store L) (hmax : st.ns.store.maxSeries = 0)
    (hplan : st.ns.store.plan.labels ⊆ p.labels) : ∃ L', Holds (st.addSeries e ns x).ns.store L' ∧
      (st.addSeries e ns x).ns.store.maxSeries = 0 ∧
      (st.addSeries e ns x).ns.store.plan.labels ⊆ p.labels ∧
      ∀ k, (st.addSeries e ns x).ns.store.sampleAt k =
        if seriesKey x.labels = k then some (.double, ofInt x.integer)
        else st.ns.store.sampleAt k := by
  obtain ⟨name, hname⟩ := hfits.2
  have hvalid := (h.name name hname).1
  have hpairs := pairs_labelTable hfits
  generalize hhash : (otlpLabels none (labelTable (labelPairs x.labels))).getD .empty = hash
    at hpairs
  have hkey : sampleKey name hash = seriesKey x.labels := by
    rw [sampleKey, seriesKey, hpairs, hname]
    rfl
  have hnames : ∀ c ∈ hash.pairs, c.1 ∈ p.labels := by
    intro c hc
    rw [hpairs] at hc
    exact hfits.names_prefix.subset ((map_fst_labelPairs _).subset (mem_map_of_mem hc))
  have hfinite : notFinite (ofInt x.integer) = false := by
    rw [notFinite_eq]
    exact decide_eq_false (ofInt_exact h.pbValue.2.2).2
  obtain ⟨s', L', hs', hL', hmax', hplan', hsample⟩ := metricAdd_sampleAt hL hmax hplan
    e.toRestoreEnv hnames (numbercheck_of_valid hvalid) hfinite (getTtl e.acTtl e.ttl e.currTtl)
  have hstore : (st.addSeries e ns x).ns.store = s' := by
    rw [OtlpState.addSeries, OtlpState.accepted, otlpIngestValueLabels, hname]
    dsimp only [getD_some]
    rw [hhash, hs']
    rfl
  rw [hstore]
  refine ⟨L', hL', hmax', hplan', fun k => ?_⟩
  rw [hsample, hkey]
  simp only [eq_comm]

section Fold

variable (e : OtlpEnv) (ns : Families)

lemma foldl_addSeries_counts (xs : List Series) (st : OtlpState) :
    (xs.foldl (addSeries e ns) st).ok = st.ok + xs.length ∧
      (xs.foldl (addSeries e ns) st).bad = st.bad := by
  induction xs generalizing st with
  | nil => exact ⟨rfl, rfl⟩
  | cons x xs ih =>
    obtain ⟨hok, hbad⟩ := ih (st.addSeries e ns x)
    rw [foldl_cons, hok, hbad, length_cons]
    exact ⟨by simp only [addSeries, accepted]; omega, rfl⟩

lemma foldl_addSeries_store {xs : List Series}
    (hfits : ∀ x ∈ xs, Fits p x.labels) (hexport : ∀ x ∈ xs, Exportable x)
    (hL : Holds st.ns.store L) (hmax : st.ns.store.maxSeries = 0)
    (hplan : st.ns.store.plan.labels ⊆ p.labels) :
    ∀ k, (xs.foldl (addSeries e ns) st).ns.store.sampleAt k =
      (lastSample xs k).or (st.ns.store.sampleAt k) := by
  induction xs generalizing st L with
  | nil => exact fun k => rfl
  | cons x xs ih =>
    intro k
    obtain ⟨L', hL', hmax', hplan', hsample⟩ := (hexport x mem_cons_self).addSeries
      (hfits x mem_cons_self) e ns hL hmax hplan
    rw [foldl_cons, ih (forall_mem_cons.1 hfits).2
      (forall_mem_cons.1 hexport).2 hL' hmax' hplan', lastSample_cons, hsample, Option.or_assoc]
    congr 1
    split <;> rfl

end Fold

/-- Export and ingest are inverse.  The request of some series of a namespace is accepted, if
there are any; each of them is counted; and a store with room for their labels has their values
then, the last one of each series, and is otherwise as it was. -/
theorem otlp_export_ingest {p : SortPlan} {xs : List (Series × BitVec 64)}
    (hfits : ∀ x ∈ xs, Fits p x.1.labels) (hexport : ∀ x ∈ xs, Exportable x.1) (ns : Families)
    (e : OtlpEnv) (st : OtlpState) : ∃ st', otlpIngestResourceMetricsProtobuf e
        (xs.flatMap fun x => otlpProtobufSerialize ns x.1 x.2) st = (st', decide (xs ≠ [])) ∧
      st'.ok = st.ok + xs.length ∧ st'.bad = st.bad ∧
      (∀ x ∈ xs, toRat (ofInt x.1.integer) = x.1.integer) ∧
      ∀ L, Holds st.ns.store L → st.ns.store.maxSeries = 0 → st.ns.store.plan.labels ⊆ p.labels →
        ∀ k, st'.ns.store.sampleAt k =
          (lastSample (xs.map Prod.fst) k).or (st.ns.store.sampleAt k) := by
  refine ⟨_, ingest_serialized hfits hexport ns e st, ?_, ?_, ?_, ?_⟩
  · rw [(foldl_addSeries_counts e ns _ st).1, length_map]
  · exact (foldl_addSeries_counts e ns _ st).2
  · exact fun x hx => (ofInt_exact (hexport x hx).pbValue.2.2).1
  · intro L hL hmax hplan
    refine foldl_addSeries_store e ns ?_ ?_ hL hmax hplan
    · intro x hx
      obtain ⟨y, hy, rfl⟩ := mem_map.mp hx
      exact hfits y hy
    · intro x hx
      obtain ⟨y, hy, rfl⟩ := mem_map.mp hx
      exact hexport y hy

/-- A series of the metric `m`. -/
def exported (key : Str) (value : BitVec 64) : Series :=
  ⟨[⟨mainMetricName, some (cstr "m")⟩, ⟨cstr "a", some key⟩], .int, value, none⟩

/-- Two series are sent and read into an empty namespace. -/
theorem otlp_export_ingest_two :
    ∃ st', otlpIngestResourceMetricsProtobuf plainOtlp
        ([(exported (cstr "b") 5, 7), (exported (cstr "c") 6, 8)].flatMap fun x =>
          otlpProtobufSerialize [] x.1 x.2) freshOtlp = (st', true) ∧ st'.ok = 2 ∧ st'.bad = 0 ∧
      st'.ns.store.sampleAt (cstr "m", {(cstr "a", cstr "b")}) = some (.double, ofInt 5) ∧
      st'.ns.store.sampleAt (cstr "m", {(cstr "a", cstr "c")}) = some (.double, ofInt 6) := by
  let p : SortPlan := ⟨[cstr "a"], by decide, by decide⟩
  have hfits : ∀ key value, Fits p (exported key value).labels := fun _ _ =>
    ⟨⟨[], rfl⟩, cstr "m", rfl⟩
  have hexport : ∀ key ∈ [cstr "b", cstr "c"], ∀ value ∈ [5, 6], Exportable (exported key value) := by
    intro key hkey value hvalue
    simp only [mem_cons, not_mem_nil, or_false] at hkey hvalue
    have hname : ∀ name, some (cstr "m") = some name →
        validLabelName name = true ∧ name.length < otlpNameMax := by
      rintro name ⟨⟩
      decide
    rcases hkey with rfl | rfl <;> rcases hvalue with rfl | rfl <;>
      exact ⟨hname, by decide +kernel, by decide, .inl ⟨rfl, by decide⟩⟩
  obtain ⟨st', hst', hok, hbad, -, hsample⟩ := @otlp_export_ingest p
    [(exported (cstr "b") 5, 7), (exported (cstr "c") 6, 8)]
    (by simp [hfits]) (by simp [hexport]) [] plainOtlp freshOtlp
  refine ⟨st', hst', hok, hbad, ?_⟩
  rw [hsample [] (holds_init 0) rfl (nil_subset _), hsample [] (holds_init 0) rfl (nil_subset _)]
  decide

/-- The request of no series is empty, and is not accepted. -/
theorem otlp_export_none :
    otlpIngestResourceMetricsProtobuf plainOtlp
      (([] : List (Series × BitVec 64)).flatMap fun x => otlpProtobufSerialize [] x.1 x.2)
      freshOtlp = (freshOtlp, false) := rfl

end Alligator
