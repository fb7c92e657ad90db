import Alligator.Metric.Family
import Alligator.Parsers.Pushgateway

/-!
# Pushes of text

`multicollector_text_parse` goes through the lines of a body.  Comment lines set the metadata
of families, and every other line is a sample.  The head of an HTTP response is left out, and
so are the lines of a request that look like its headers.

A push is the list of what it does to its namespace, in order.
-/

namespace Alligator

open Text

/-- The fields of `context_arg` that a push reads and writes. -/
structure PushCarg where
  mm : List Mapping
  metricAggregation : Bool
  noMetric : Bool
  currTtl : Int
  pushAcceptedLines : Nat
  parserStatus : Bool
  pgHttpStatus : Nat

inductive PushOp where
  /-- `namespace_metric_family_set_prom_type` -/
  | type (name : Str) (metricType : MetricType)
  /-- `namespace_metric_family_set_prom_help` -/
  | help (name text : Str)
  /-- `metric_update` or `metric_add`, with the time to live of the connection. -/
  | sample (sample : Sample) (write : Write) (currTtl : Int)
  /-- The metrics `alligator_push_parsed_lines_count` and `alligator_push_accepted_lines_count`,
  which stand for the durations written beside them too. -/
  | statistics (parsed accepted : Nat)

/-! ## Lines -/

/-- The calls of `char_fgets`: what each puts into a buffer of 65535 bytes, as a string, and the
number of bytes that it reads. -/
def charFgets : Nat → Str → List (Str × Nat)
  | 0, _ => []
  | _, [] => []
  | fuel + 1, c :: s =>
    let line := (c :: s).takeWhile (· != 10)
    let rest := (c :: s).drop line.length
    ((line.take 65534).takeWhile (· != 0), line.length + min rest.length 1) ::
      charFgets fuel rest.tail

def multicollectorIsHttpHeaderLine (line : Str) : Bool :=
  let p := line.dropWhile isBlank
  let key := p.takeWhile (· != 58)
  match p.drop key.length with
  | [] => false
  | _ :: value =>
    let value := value.dropWhile isBlank
    !key.isEmpty && key.all (fun c => isAlpha c || isDigit c || c == 45) &&
      (value.isEmpty || (!value.contains 124 &&
        value.head?.all fun c => !(isDigit c || c == 43 || c == 45 || c == 46)))

/-! ## Comments -/

def multicollectorTypeKeyword (s kw : Str) : Bool :=
  kw.isPrefixOf s && (s.drop kw.length).head?.all fun c => [32, 9, 13, 10, 35].contains c

def metricTypeFromString (s : Str) : MetricType :=
  if multicollectorTypeKeyword s (cstr "counter") then .counter
  else if multicollectorTypeKeyword s (cstr "histogram") then .histogram
  else if multicollectorTypeKeyword s (cstr "gauge") then .gauge
  else if multicollectorTypeKeyword s (cstr "summary") then .summary
  else .untyped

/-- The loop that takes the escapes out of a help text. -/
def helpUnescape : Str → Str
  | [] => []
  | [c] => [c]
  | c :: d :: s =>
    if c = 92 ∧ (d = 110 ∨ d = 92 ∨ d = 34) then
      (if d = 110 then 10 else d) :: helpUnescape s
    else c :: helpUnescape (d :: s)

/-- The name in a comment behind its keyword, and the text behind the name.  A name that does
not fit into its buffer ends the line. -/
def commentName (s : Str) : Option (Str × Str) :=
  let s := (s.dropWhile fun c => !isBlank c).dropWhile isBlank
  let name := s.takeWhile fun c => !isBlank c
  if 255 ≤ name.length then none
  else some (prometheusMetricNameNormalizer name name.length,
    (s.drop name.length).dropWhile isBlank)

/-- What a line that starts with `#` does. -/
def commentOp (line : Str) : Option PushOp :=
  let s := line.tail.dropWhile isBlank
  if (cstr "TYPE").isPrefixOf s then
    (commentName s).map fun r => .type r.1 (metricTypeFromString r.2)
  else if (cstr "HELP").isPrefixOf s then
    (commentName s).map fun r =>
      .help r.1 (helpUnescape ((r.2.takeWhile fun c => c != 13 && c != 10).take 2047))
  else none

/-- Add a name to `counter_names` if it is new. -/
def registerName (names : List (Str × MetricType)) (name : Str) (type : MetricType) :
    List (Str × MetricType) :=
  if (names.lookup name).isSome then names else names ++ [(name, type)]

/-- The names that a `# TYPE` line registers for `metric_aggregation`. -/
def registerType (names : List (Str × MetricType)) : PushOp → List (Str × MetricType)
  | .type name .counter => registerName names name .counter
  | .type name .histogram =>
    if (promFamilyStripHistogramSuffix name 1024).isSome then registerName names name .histogram
    else [cstr "_bucket", cstr "_sum", cstr "_count"].foldl
      (fun names suffix => registerName names (strlcpy (name ++ suffix) 1024) .histogram) names
  | _ => names

/-! ## The push -/

/-- What `multicollector_text_parse` carries from line to line. -/
structure TextState where
  skipHttpHeaders : Bool
  counterNames : List (Str × MetricType)
  carg : PushCarg
  ops : List PushOp

variable (http : Option HttpReplyData)

def textSample (st : TextState) (tmp : Str) (tmpLen : Nat) : TextState :=
  let lbl := (http.bind fun hr => getLabelsFromUrlPushgatewayFormat hr.uri).getD .empty
  let currTtl := (http.filter fun hr => hr.expire ≠ -1).elim st.carg.currTtl HttpReplyData.expire
  let carg := { st.carg with currTtl := currTtl }
  match multicollectorFieldGet carg.mm ⟨carg.metricAggregation, st.counterNames⟩ lbl tmp tmpLen with
  | none => { st with carg := { carg with parserStatus := false } }
  | some (sample, write) =>
    { st with
      carg := { carg with parserStatus := true, pushAcceptedLines := carg.pushAcceptedLines + 1 }
      ops := st.ops ++ [.sample sample write currTtl] }

/-- One round of `multicollector_text_parse`. -/
def textLine (st : TextState) (tmp : Str) (tmpLen : Nat) : TextState :=
  if st.skipHttpHeaders then
    { st with skipHttpHeaders := !(tmp.dropWhile fun c => isBlank c || c == 13).isEmpty }
  else if startsCase (cstr "HTTP/") (tmp.dropWhile isBlank) then { st with skipHttpHeaders := true }
  else if tmp.head? = some 35 then
    match commentOp tmp with
    | none => st
    | some op =>
      { st with
        counterNames :=
          if st.carg.metricAggregation then registerType st.counterNames op else st.counterNames
        ops := st.ops ++ [op] }
  else if tmp = [] then st
  else if http.isSome && multicollectorIsHttpHeaderLine tmp then st
  else textSample http st tmp tmpLen

def multicollectorTextParse (str : Str) (carg : PushCarg) : PushCarg × List PushOp :=
  let lines := charFgets str.length str
  let st := lines.foldl (fun st l => textLine http st l.1 l.2) ⟨false, [], carg, []⟩
  (st.carg, st.ops ++
    if st.carg.noMetric then [] else [.statistics lines.length st.carg.pushAcceptedLines])

/-- What is done to the families of the namespace. -/
def PushOp.families (ns : Families) : PushOp → Families
  | .type name metricType => namespaceMetricFamilySetPromType ns name metricType
  | .help name text => namespaceMetricFamilySetPromHelp ns name text
  | _ => ns

def familiesAfter (ns : Families) (ops : List PushOp) : Families := ops.foldl PushOp.families ns

end Alligator
