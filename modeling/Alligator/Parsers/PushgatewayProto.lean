import Alligator.Lib.Decimal
import Alligator.Lib.Protobuf
import Alligator.Parsers.TextPush

/-!
# Pushes of protobuf

The body of a push may be a sequence of delimited `MetricFamily` messages.
`pushgateway_proto_delimited_to_text` writes the text of the same families, which is parsed
like the body of a push of text.

The readers of the messages are loops over fields: each names the fields it knows, and skips
those it does not.
-/

namespace Alligator

open Text Binary64 Protobuf

/-! ## Numbers -/

/-- The first text of `%.*e` that `strtod` reads back, and the one with 17 digits if there is
none. -/
def pgShortestE (value : BitVec 64) : Str :=
  printE (((List.range 17).find? fun precision => atof (printE precision value) == value).getD 16)
    value

/-- The digits and the exponent of a text of `%.*e`. -/
def pgDigits (e : Str) : Str × Int :=
  let s := if e.head? = some 45 then e.tail else e
  let digits := ((s.takeWhile (· != 101)).filter isDigit).take 19
  (digits.take 1 ++ (digits.drop 1).rdropWhile (· == 48), atoll ((s.dropWhile (· != 101)).drop 1))

/-- The layout of digits: an exponent only where the number is small or large. -/
def pgLayout (digits : Str) (exp : Int) : Str :=
  if exp < -4 ∨ 6 ≤ exp then
    digits.take 1 ++ (if 1 < digits.length then 46 :: digits.drop 1 else []) ++ printExponent exp
  else if 0 ≤ exp then
    (List.range (exp.toNat + 1)).map (fun i => digits.getD i 48) ++
      if exp.toNat + 1 < digits.length then 46 :: digits.drop (exp.toNat + 1) else []
  else 48 :: 46 :: (List.replicate (-exp - 1).toNat 48 ++ digits)

/-- The shortest text of a double that is read back as it. -/
def pgShortestDouble (value : BitVec 64) : Str :=
  if isNan value then cstr "NaN"
  else if exponent value = 2047 then if negative value then cstr "-Inf" else cstr "+Inf"
  else if (ratio value).1 = 0 then if negative value then cstr "-0" else cstr "0"
  else
    let r := pgDigits (pgShortestE value)
    (if negative value then [45] else []) ++ pgLayout r.1 r.2

/-! ## Messages -/

/-- `MetricType` -/
inductive PgType where
  | counter
  | gauge
  | summary
  | untyped
  | histogram
  | gaugeHistogram
  | unknown (n : Nat)
deriving DecidableEq

/-- A type by its number in the message. -/
def PgType.ofNat : Nat → PgType
  | 0 => .counter
  | 1 => .gauge
  | 2 => .summary
  | 3 => .untyped
  | 4 => .histogram
  | 5 => .gaugeHistogram
  | n + 6 => .unknown (n + 6)

/-- The word for a type in the text, if it has one. -/
def pgTypeKeyword : PgType → Option Str
  | .counter => some (cstr "counter")
  | .gauge => some (cstr "gauge")
  | .summary => some (cstr "summary")
  | .untyped => some (cstr "untyped")
  | .histogram => some (cstr "histogram")
  | _ => none

/-- A quantile of a summary. -/
structure PgQuantile where
  quantile : BitVec 64
  value : BitVec 64
deriving DecidableEq

/-- A bucket of a histogram. -/
structure PgBucket where
  count : Nat
  upperBound : BitVec 64
deriving DecidableEq

/-- `pg_metric`.  A number is there when the source's flag for it is set. -/
structure PgMetric where
  labels : List (Str × Str) := []
  tooMany : Bool := false
  value : Option (BitVec 64) := none
  count : Option Nat := none
  sum : Option (BitVec 64) := none
  quantiles : List PgQuantile := []
  buckets : List PgBucket := []
deriving DecidableEq

/-- The room for labels in `pg_metric`. -/
def pgMaxLabels : Nat := 64

/-- The room for quantiles. -/
def pgMaxQuantiles : Nat := 128

/-- The room for buckets. -/
def pgMaxBuckets : Nat := 128

/-- What is read of a family before its metrics. -/
structure PgFamilyMeta where
  name : Str := []
  help : Str := []
  type : PgType := .counter
deriving DecidableEq

variable (s : Str)

/-- The name, the help and the type, wherever they stand in the family. -/
def pgParseFamilyMeta : Option PgFamilyMeta :=
  foldFields (fun m f => some (match f with
    | ⟨1, .len b⟩ => { m with name := b }
    | ⟨2, .len b⟩ => { m with help := b }
    | ⟨3, .varint n⟩ => { m with type := .ofNat (n % 2 ^ 32) }
    | _ => m)) {} s

/-- The last name and the last value of a label. -/
def pgDecodeLabelPair : Option (Str × Str) :=
  foldFields (fun p f => some (match f with
    | ⟨1, .len b⟩ => (b, p.2)
    | ⟨2, .len b⟩ => (p.1, b)
    | _ => p)) ([], []) s

/-- The value of a gauge, counter or untyped metric, or the one from before. -/
def pgDecodeSingleValue (value : Option (BitVec 64)) : Option (Option (BitVec 64)) :=
  foldFields (fun v f => some (match f with
    | ⟨1, .fixed64 raw⟩ => some raw
    | _ => v)) value s

/-- `pg_decode_quantile`: the quantile, if it is present. -/
def pgDecodeQuantile : Option (Option PgQuantile) :=
  (foldFields (fun p f => some (match f with
    | ⟨1, .fixed64 raw⟩ => (some raw, p.2)
    | ⟨2, .fixed64 raw⟩ => (p.1, some raw)
    | _ => p)) ((none, none) : Option (BitVec 64) × Option (BitVec 64)) s).map fun p =>
      do return ⟨← p.1, ← p.2⟩

/-- `pg_decode_bucket`: the bucket, if it is present. -/
def pgDecodeBucket : Option (Option PgBucket) :=
  (foldFields (fun p f => some (match f with
    | ⟨1, .varint n⟩ => (some n, p.2)
    | ⟨2, .fixed64 raw⟩ => (p.1, some raw)
    | _ => p)) ((none, none) : Option Nat × Option (BitVec 64)) s).map fun p =>
      do return ⟨← p.1, ← p.2⟩

variable (m : PgMetric)

/-- A summary is read into a metric. -/
def pgDecodeSummary : Option PgMetric :=
  foldFields (fun m f => match f with
    | ⟨1, .varint n⟩ => some { m with count := some n }
    | ⟨2, .fixed64 raw⟩ => some { m with sum := some raw }
    | ⟨3, .len b⟩ => (pgDecodeQuantile b).map fun
        | none => m
        | some q =>
          if pgMaxQuantiles ≤ m.quantiles.length then { m with tooMany := true }
          else { m with quantiles := m.quantiles ++ [q] }
    | _ => some m) m s

/-- A histogram is read into a metric. -/
def pgDecodeHistogram : Option PgMetric :=
  foldFields (fun m f => match f with
    | ⟨1, .varint n⟩ => some { m with count := some n }
    | ⟨2, .fixed64 raw⟩ => some { m with sum := some raw }
    | ⟨3, .len b⟩ => (pgDecodeBucket b).map fun
        | none => m
        | some q =>
          if pgMaxBuckets ≤ m.buckets.length then { m with tooMany := true }
          else { m with buckets := m.buckets ++ [q] }
    | _ => some m) m s

/-- One field of `pg_decode_metric`. -/
def pgMetricField (type : PgType) (m : PgMetric) (f : Field) : Option PgMetric :=
  match f.value with
  | .len b =>
    if f.num = 1 then
      (pgDecodeLabelPair b).map fun pair =>
        if pgMaxLabels ≤ m.labels.length then { m with tooMany := true }
        else { m with labels := m.labels ++ [pair] }
    else if f.num = 2 ∧ type = .gauge ∨ f.num = 3 ∧ type = .counter ∨
        f.num = 5 ∧ type = .untyped then
      (pgDecodeSingleValue b m.value).map fun value => { m with value := value }
    else if f.num = 4 ∧ type = .summary then pgDecodeSummary b m
    else if f.num = 7 ∧ type = .histogram then pgDecodeHistogram b m
    else some m
  | _ => some m

/-- Read a metric of a family of some type. -/
def pgDecodeMetric (type : PgType) (s : Str) : Option PgMetric :=
  foldFields (pgMetricField type) {} s

/-- The number of metrics of a family. -/
def pgCountMetrics : Option Nat :=
  foldFields (fun n f => some (match f with
    | ⟨4, .len _⟩ => n + 1
    | _ => n)) 0 s

/-! ## Checks -/

variable (name : Str)

/-- A name of a label that can be written. -/
def pgLabelNameOk : Bool :=
  !name.isEmpty && decide (name.length < 255) &&
    name.all (fun c => !(decide (c.toNat < 32) || c == 127)) &&
    metricNameValidator name name.length

/-- A value that fits and has no control bytes but newlines. -/
def pgLabelValueOk (value : Str) : Bool :=
  decide (value.length < 255) &&
    value.all fun c => !(c == 127 || (decide (c.toNat < 32) && c != 10))

/-- The name of a family after normalisation, if it is accepted. -/
def pgFamilyName : Option Str :=
  if name.isEmpty ∨ 255 ≤ name.length ∨ name.contains 0 then none
  else if !metricNameValidatorPromstatsd name name.length then none
  else some (prometheusMetricNameNormalizer name name.length)

/-- The help text up to its end or the end of the buffer, without control bytes. -/
def pgHelpCopy (help : Str) : Str :=
  ((help.take 2047).takeWhile (· != 0)).map fun c => if c.toNat < 32 ∧ c ≠ 10 then 32 else c

/-- A metric that is written: its labels are in order and it has what its type needs. -/
def pgMetricValid (type : PgType) : Bool :=
  !m.tooMany && m.labels.all (fun l => pgLabelNameOk l.1 && pgLabelValueOk l.2) &&
    match type with
    | .counter | .gauge | .untyped => m.value.isSome
    | .summary => m.count.isSome || m.sum.isSome || !m.quantiles.isEmpty
    | .histogram => m.count.isSome || m.sum.isSome || !m.buckets.isEmpty
    | _ => false

/-! ## Text -/

/-- A text with backslashes before quotes, backslashes and newlines. -/
def pgCatEscaped : Str :=
  s.flatMap fun c => if c = 92 ∨ c = 34 then [92, c] else if c = 10 then cstr "\\n" else [c]

/-- The comments of a family. -/
def pgEmitMeta (name help keyword : Str) : Str :=
  (if help.isEmpty then []
    else cstr "# HELP " ++ name ++ cstr " " ++ pgCatEscaped help ++ cstr "\n") ++
  (cstr "# TYPE " ++ name ++ cstr " " ++ keyword ++ cstr "\n")

/-- The labels of a line, the one that its type adds last. -/
def pgLineLabels (extra : Option (Str × Str)) : List (Str × Str) :=
  m.labels.map (fun l => (prometheusMetricNameNormalizer l.1 l.1.length, pgCatEscaped l.2)) ++
    extra.toList

/-- A line of text: name, labels and number. -/
def pgEmitLine (m : PgMetric) (extra : Option (Str × Str)) (number : Str) : Str :=
  let labels := pgLineLabels m extra
  name ++ (if labels.isEmpty then []
    else cstr "\x7b" ++ List.intercalate (cstr ",")
      (labels.map fun l => l.1 ++ cstr "=\"" ++ l.2 ++ cstr "\"") ++ cstr "\x7d") ++
    cstr " " ++ number ++ cstr "\n"

/-- The lines of the sum and of the count. -/
def pgEmitTotals (m : PgMetric) : Str :=
  (m.sum.elim [] fun sum => pgEmitLine (name ++ cstr "_sum") m none (pgShortestDouble sum)) ++
    m.count.elim [] fun count => pgEmitLine (name ++ cstr "_count") m none (decimal count)

/-- The count of the bucket without a bound, if the text has to have one. -/
def pgInfCount : Option Nat :=
  if m.buckets.any fun b => b.upperBound == infinity false then none
  else m.count.or (m.buckets.getLast?.map PgBucket.count)

/-- The lines of a metric. -/
def pgEmitMetric (type : PgType) (m : PgMetric) : Str :=
  match type with
  | .counter | .gauge | .untyped =>
    m.value.elim [] fun value => pgEmitLine name m none (pgShortestDouble value)
  | .summary =>
    (m.quantiles.flatMap fun q =>
      pgEmitLine name m (some (cstr "quantile", pgShortestDouble q.quantile))
        (pgShortestDouble q.value)) ++ pgEmitTotals name m
  | .histogram =>
    (m.buckets.flatMap fun b =>
      pgEmitLine (name ++ cstr "_bucket") m (some (cstr "le", pgShortestDouble b.upperBound))
        (decimal b.count)) ++
    ((pgInfCount m).elim [] fun count =>
      pgEmitLine (name ++ cstr "_bucket") m (some (cstr "le", cstr "+Inf")) (decimal count)) ++
    pgEmitTotals name m
  | _ => []

/-! ## Families -/

/-- What the conversion has written and counted. -/
structure PgText where
  out : Str := []
  families : Nat := 0
  series : Nat := 0
  rejected : Nat := 0
deriving DecidableEq

/-- What the loop of `pg_decode_family` carries. -/
structure PgFamilyState where
  text : PgText
  metaEmitted : Bool

/-- One field of `pg_decode_family`. -/
def pgFamilyField (name help keyword : Str) (type : PgType) (st : PgFamilyState) (f : Field) :
    Option PgFamilyState :=
  match f with
  | ⟨4, .len b⟩ =>
    (pgDecodeMetric type b).map fun m =>
      if !pgMetricValid m type then
        { st with text := { st.text with rejected := st.text.rejected + 1 } }
      else
        let head := if st.metaEmitted then [] else pgEmitMeta name help keyword
        let out := st.text.out ++ head ++ pgEmitMetric name type m
        ⟨{ st.text with out := out, series := st.text.series + 1 }, true⟩
  | _ => some st

/-- The metrics of a refused family are counted only. -/
def pgDecodeFamily (text : PgText) (family : Str) : Option PgText := do
  let fm ← pgParseFamilyMeta family
  match pgFamilyName fm.name, pgTypeKeyword fm.type with
  | some name, some keyword =>
    let st ← foldFields (pgFamilyField name (pgHelpCopy fm.help) keyword fm.type)
      ⟨text, false⟩ family
    return if st.metaEmitted then { st.text with families := st.text.families + 1 } else st.text
  | _, _ => (pgCountMetrics family).map fun n => { text with rejected := text.rejected + n }

/-- The loop over the families behind their lengths. -/
def pgDelimitedLoop : Nat → PgText → Str → Option PgText
  | _, text, [] => some text
  | 0, _, _ :: _ => none
  | fuel + 1, text, s => do
    let (family, rest) ← readLen s
    pgDelimitedLoop fuel (← pgDecodeFamily text family) rest

/-- The text of all families of a body, if all can be read. -/
def pushgatewayProtoDelimitedToText (body : Str) : Option PgText :=
  pgDelimitedLoop body.length {} body

/-! ## The entry of a push -/

/-- `multicollector` without a parser handler, for the text `str` or else the body of the
request. -/
def multicollector (http : Option HttpReplyData) (str : Option Str) (carg : PushCarg) :
    PushCarg × List PushOp :=
  let str := str.getD ((http.bind HttpReplyData.body).getD [])
  let carg := { carg with pgHttpStatus := 0 }
  match http with
  | none => multicollectorTextParse none str carg
  | some hr =>
    match pushgatewayBodyFormat hr.headers with
    | .protoUnsupported => ({ carg with parserStatus := false, pgHttpStatus := 415 }, [])
    | .protoDelim =>
      match (pushgatewayProtoDelimitedToText str).filter fun t =>
          str.isEmpty || decide (t.series ≠ 0) with
      | none => ({ carg with parserStatus := false, pgHttpStatus := 400 }, [])
      | some t =>
        let r := multicollectorTextParse http t.out carg
        ({ r.1 with pgHttpStatus := 202 }, r.2)
    | .text => multicollectorTextParse http str carg

end Alligator
