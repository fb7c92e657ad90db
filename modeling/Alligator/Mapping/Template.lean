import Alligator.Metric.Labels
import Alligator.Lib.Text

/-!
# Mapping templates

A mapping has a template, a glob whose parts are separated by dots.  A metric name
that matches it gives one field for each `*`, and the fields are put into the names
and keys that the mapping renders.
-/

namespace Alligator

open Text

def mappingMaxExtractFields : Nat := 64

/-- `mapping_metric`.  `percentile`, `le` and `bucket` are the arrays of the quantiles
and of the bounds, if there are any.  A setting of the quantiles that is negative is
not set. -/
structure Mapping where
  template : Str
  metricName : Option Str
  labels : List (Str × Str)
  percentile : Option (List Int)
  percentileBufferMin : Int
  percentileCalcEvery : Int
  quantileWindow : Int
  le : Option (List (BitVec 64))
  bucket : Option (List (BitVec 64))

/-- The parts that `strtok_r` finds between dots. -/
def dotTokens (s : Str) : List Str := (s.splitOn 46).filter fun t => !t.isEmpty

/-- The loop of `match_and_extract`. -/
def matchTokens : List Str → List Str → List Str → Option (List Str)
  | p :: ps, s :: ss, fields =>
    if p = cstr "*" then
      if fields.length ≥ mappingMaxExtractFields then none else matchTokens ps ss (fields ++ [s])
    else if p ≠ s then none
    else matchTokens ps ss fields
  | [], [], fields => some fields
  | _, _, _ => none

/-- `match_and_extract`, whose buffers have 1024 bytes. -/
def matchAndExtract (pattern str : Str) : Option (List Str) :=
  matchTokens (dotTokens (pattern.take 1023)) (dotTokens (str.take 1023)) []

/-- The number after a `$`, and what comes after it. -/
def fieldIndex (t : Str) : Option Nat × Str :=
  match t with
  | 123 :: t =>
    let r := readDigits 0 t
    (some r.1, match r.2 with
      | 125 :: u => u
      | u => u)
  | c :: t => if isDigit c then (some (c.toNat - 48), t) else (none, c :: t)
  | [] => (none, [])

/-- The loop of `template_render`, with the length of the template as fuel. -/
def renderLoop (fields : List Str) : Nat → Str → Str
  | 0, _ => []
  | _, [] => []
  | fuel + 1, c :: t =>
    if c = 36 then
      let r := fieldIndex t
      let field := match r.1 with
        | some (index + 1) => (fields[index]?).getD []
        | _ => []
      field ++ renderLoop fields fuel r.2
    else c :: renderLoop fields fuel t

/-- `template_render` into a buffer. -/
def templateRender (template : Str) (fields : List Str) (outputSize : Nat) : Str :=
  (renderLoop fields template.length template).take (outputSize - 1)

end Alligator
