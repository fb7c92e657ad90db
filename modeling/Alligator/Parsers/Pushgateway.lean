import Alligator.Http.Request
import Alligator.Parsers.Multicollector

/-!
# The pushgateway protocol

A push to `/metrics/job/a/instance/b` carries the labels `job="a"` and `instance="b"` in its
address, and its body is text or a delimited protobuf message, as the `Content-Type` says.
-/

namespace Alligator

/-! ## The format of a body -/

inductive PgBodyFormat where
  | text
  | protoDelim
  | protoUnsupported
  deriving DecidableEq

def pushgatewayTokenEqual (s cmp : Str) : Bool := s.map tolower == cmp.map tolower

def pushgatewayParamTrim (s : Str) : Str := (s.dropWhile isBlank).rdropWhile isBlank

def pushgatewayParamUnquote (s : Str) : Str :=
  if 2 ≤ s.length ∧ s.head? = some 34 ∧ s.getLast? = some 34 then s.tail.dropLast else s

/-- What the parameters of a media type have said so far: whether `proto` is the family
message, and the encoding. -/
structure PgMediaParams where
  proto : Option Bool
  encoding : Option PgBodyFormat

def pushgatewayParam (ps : PgMediaParams) (seg : Str) : PgMediaParams :=
  let seg := pushgatewayParamTrim seg
  match seg.dropWhile (· != 61) with
  | [] => ps
  | _ :: val =>
    let key := pushgatewayParamTrim (seg.takeWhile (· != 61))
    let val := pushgatewayParamUnquote (pushgatewayParamTrim val)
    if pushgatewayTokenEqual key (cstr "proto") then
      let ok := pushgatewayTokenEqual val (cstr "io.prometheus.client.MetricFamily")
      { ps with proto := some ok }
    else if pushgatewayTokenEqual key (cstr "encoding") then
      let delimited := pushgatewayTokenEqual val (cstr "delimited")
      { ps with encoding := some (if delimited then .protoDelim else .protoUnsupported) }
    else ps

def pushgatewayBodyFormat (headers : Option Str) : PgBodyFormat :=
  match (lineStarts (headers.getD [])).find? (startsCase (cstr "content-type:")) with
  | none => .text
  | some ct =>
    let value := ((ct.drop 13).dropWhile isBlank).takeWhile fun c => c != 13 && c != 10
    let media := pushgatewayParamTrim (value.takeWhile (· != 59))
    if pushgatewayTokenEqual media (cstr "application/vnd.google.protobuf") ||
        pushgatewayTokenEqual media (cstr "application/x-protobuf") then
      let params := (((value.dropWhile (· != 59)).drop 1).splitOn 59).foldl pushgatewayParam
        ⟨none, none⟩
      if params.proto = some false then .text else params.encoding.getD .protoDelim
    else .text

/-! ## The labels of an address -/

def metricLabelMaxSize : Nat := 255

/-- The loop of `get_labels_from_url_pushgateway_format`, over the text behind `/metrics/`.  A
round reads a name and a value; a name without a value is dropped. -/
def urlLabelsLoop : Nat → Str → LabelHash → LabelHash
  | 0, _, lbl => lbl
  | fuel + 1, t, lbl =>
    let t := t.dropWhile (· == 47)
    let mname := t.takeWhile (· != 47)
    let mnameLen := min (mname.length + 1) metricLabelMaxSize
    let t := (t.drop mname.length).dropWhile (· == 47)
    if t = [] then lbl
    else
      let key := t.takeWhile (· != 47)
      let keyLen := min (key.length + 1) metricLabelMaxSize
      let lbl := lbl.insert (metricNameNormalizer (mname.take (mnameLen - 1)) mnameLen)
        (metricLabelValueValidatorNormalizer (key.take (keyLen - 1)))
      let t := t.drop (key.length + 1)
      if t = [] then lbl else urlLabelsLoop fuel t lbl

/-- The text of an address behind `/metrics/`. -/
def urlGrouping (uri : Str) : Option Str := (memmem (cstr "/metrics/") uri).map Prod.snd

def getLabelsFromUrlPushgatewayFormat (uri : Option Str) : Option LabelHash := do
  let t ← urlGrouping (← uri)
  return urlLabelsLoop t.length t .empty

end Alligator
