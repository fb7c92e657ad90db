import Alligator.Parsers.Otlp

/-!
# OTLP metrics in JSON

The reader of export requests in JSON.  It walks the tree that the JSON library makes of the
body, and passes over what is not of the kind it expects.
-/

namespace Alligator

open Text Binary64 Json

/-- The text of the first value of a kind that is known, if it fits into the buffer. -/
def otlpAnyvalueToBuf (wrap : Option Tree) (bufsz : Nat) : Option Str :=
  match wrap with
  | some (.object members) =>
    match members.lookup (cstr "stringValue") with
    | some (.string s) => if bufsz ≤ s.length then none else some s
    | _ =>
      match members.lookup (cstr "boolValue") with
      | some (.bool b) => some (strlcpy (if b then cstr "true" else cstr "false") bufsz)
      | _ =>
        match members.lookup (cstr "intValue") with
        | some (.integer n) => some (strlcpy (printInt n.toInt) bufsz)
        | _ =>
          match members.lookup (cstr "doubleValue") with
          | some (.real d) => some (strlcpy (printG 17 d) bufsz)
          | _ => none
  | _ => none

/-- An item of an array of attributes is put into a table, and counted. -/
def otlpKvToLabel (r : LabelHash × Nat) (kv : Tree) : LabelHash × Nat :=
  match kv with
  | .object members =>
    match members.lookup (cstr "key") with
    | some (.string ks) =>
      if otlpKeyMax ≤ ks.length then r
      else
        match otlpAnyvalueToBuf (members.lookup (cstr "value")) otlpValMax with
        | some val =>
          match otlpInsertLabel ks val r.1 with
          | some lbl => (lbl, r.2 + 1)
          | none => r
        | none => r
    | _ => r
  | _ => r

/-- The labels of an array of attributes, if there are any. -/
def otlpKvArrayToLabels (attrs : Option Tree) : Option LabelHash :=
  match attrs with
  | some (.array items) => addedLabels (items.foldl otlpKvToLabel (.empty, 0))
  | _ => none

/-- A number may be sent as a string, of which all bytes must be read. -/
def otlpJsonScalarToDouble (j : Option Tree) : Option (BitVec 64) :=
  match j with
  | some (.real d) => some d
  | some (.integer n) => some (ofInt n.toInt)
  | some (.string s) =>
    if s = [] then none
    else
      match strtod s with
      | some (d, []) => some d
      | _ => none
  | _ => none

/-- The value of a data point, under the first of its names that holds a number. -/
def otlpNumberDatapointValue (dp : Tree) : Option (BitVec 64) :=
  [cstr "asDouble", cstr "asInt", cstr "doubleValue", cstr "intValue"].findSome? fun key =>
    otlpJsonScalarToDouble (dp.get key)

/-- A sum is a counter unless it says that it is not monotonic. -/
def otlpJsonMetricType (metric : Tree) : MetricType :=
  if (metric.get (cstr "gauge")).isSome then .gauge
  else
    match metric.get (cstr "sum") with
    | some (.object members) =>
      match members.lookup (cstr "isMonotonic") with
      | none | some (.bool true) => .counter
      | _ => .gauge
    | _ => .gauge

section Reader

variable (e : OtlpEnv)

/-- `otlp_ingest_one_datapoint`, and what is counted for it. -/
def otlpIngestOneDatapoint (metricName : Str) (resourceLbl : Option LabelHash)
    (metricType : MetricType) (st : OtlpState) (dp : Tree) : OtlpState :=
  match otlpNumberDatapointValue dp with
  | none => st.refused 1
  | some value =>
    let dpLbl := otlpKvArrayToLabels (dp.get (cstr "attributes"))
    st.accepted (otlpIngestValueLabels e metricName value resourceLbl dpLbl metricType st.ns)

/-- A metric: its points are refused as a whole if its name is. -/
def otlpIngestMetricObject (resourceLbl : Option LabelHash) (st : OtlpState) (metric : Tree) :
    OtlpState :=
  match metric.get (cstr "name") with
  | some (.string nameRaw) =>
    if otlpNameMax ≤ nameRaw.length then st.refused 1
    else if nameRaw = [] then st
    else
      match (metric.get (cstr "gauge")).or (metric.get (cstr "sum")) with
      | some (.object members) =>
        match members.lookup (cstr "dataPoints") with
        | some (.array dps) =>
          match otlpMetricName nameRaw with
          | none => st.refused dps.length
          | some name =>
            dps.foldl
              (otlpIngestOneDatapoint e name resourceLbl (otlpJsonMetricType metric)) st
        | _ => st
      | _ => st
  | _ => st

/-- The items of an array, and none of anything else. -/
def arrayItems (m : Option Tree) : List Tree :=
  match m with
  | some (.array items) => items
  | _ => []

/-- The labels of the attributes of a resource. -/
def otlpResourceLabels (rm : Tree) : Option LabelHash :=
  match rm.get (cstr "resource") with
  | some (.object members) => otlpKvArrayToLabels (members.lookup (cstr "attributes"))
  | _ => none

/-- The loops of the reader over the scopes of a resource and their metrics. -/
def otlpIngestResource (st : OtlpState) (rm : Tree) : OtlpState :=
  (arrayItems (rm.get (cstr "scopeMetrics"))).foldl (fun st sm =>
    (arrayItems (sm.get (cstr "metrics"))).foldl
      (otlpIngestMetricObject e (otlpResourceLabels rm)) st) st

/-- `otlp_ingest_resource_metrics_json`, behind the parse of the body. -/
def otlpIngestResourceMetricsJson (root : Tree) (st : OtlpState) : OtlpState :=
  (arrayItems (root.get (cstr "resourceMetrics"))).foldl (otlpIngestResource e) st

end Reader

end Alligator
