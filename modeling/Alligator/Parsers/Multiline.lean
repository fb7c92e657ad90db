import Alligator.Metric.Labels
import Alligator.Lib.Lines

/-!
# Lines and records

A parser that works on lines gets its input in pieces that end anywhere.  `alligator_linebuf`
keeps the open line until the rest of it comes, and gives each complete line, without a carriage
return at its end, to the callback, or to the assembler that makes one record of several lines.

Without the assembler, what the callback gets is the complete lines of all that was fed
(`linebufFeed_lines`).  Where the input is cut does not matter (`linebuf_cut`).  The assembler
loses a line feed where it appends to a record that is empty, and nothing else
(`multiline_lossless_iff`).
-/

namespace Alligator

open Text List

/-! ## `alligator_multiline` -/

/-- `alligator_ml_mode` -/
inductive MlMode where
  | continueThrough
  | continuePast
  | haltBefore
  | haltWith
  deriving DecidableEq

/-- `alligator_multiline`.  The regular expressions are given by what they match, and `held` is
the field `have`. -/
structure Multiline where
  startRe : Str → Bool
  condRe : Str → Bool
  mode : MlMode
  buf : Str := []
  held : Bool := false

def mlAppend (ml : Multiline) (line : Str) : Multiline :=
  { ml with
    buf := (if ml.held ∧ ml.buf ≠ [] then ml.buf ++ [10] else ml.buf) ++ line
    held := true }

/-- `ml_emit`: the assembler and the records. -/
def mlEmit (ml : Multiline) : Multiline × List Str :=
  if ml.held then ({ ml with buf := [], held := false }, [ml.buf]) else (ml, [])

/-- `alligator_multiline_feed`: the assembler and the records. -/
def alligatorMultilineFeed (ml : Multiline) (line : Str) : Multiline × List Str :=
  let isStart := ml.startRe line
  let isCond := ml.condRe line
  if !ml.held then
    if isStart then
      let ml := mlAppend ml line
      if ml.mode = .haltWith ∧ isCond then mlEmit ml else (ml, [])
    else (ml, [line])
  else
    match ml.mode with
    | .continueThrough =>
      if isCond then (mlAppend ml line, [])
      else
        let r := mlEmit ml
        if isStart then (mlAppend r.1 line, r.2) else (r.1, r.2 ++ [line])
    | .continuePast =>
      if isCond then (mlAppend ml line, []) else mlEmit (mlAppend ml line)
    | .haltBefore =>
      if isCond then
        let r := mlEmit ml
        (mlAppend r.1 line, r.2)
      else (mlAppend ml line, [])
    | .haltWith =>
      let ml := mlAppend ml line
      if isCond then mlEmit ml else (ml, [])

def alligatorMultilineFlush (ml : Multiline) : Multiline × List Str := mlEmit ml

/-! ## `alligator_linebuf` -/

/-- `alligator_linebuf` -/
structure Linebuf where
  tail : Str := []
  ml : Option Multiline := none

/-- `linebuf_feed_physical`: the buffer and the records. -/
def linebufFeedPhysical (lb : Linebuf) (line : Str) : Linebuf × List Str :=
  match lb.ml with
  | some ml =>
    let r := alligatorMultilineFeed ml line
    ({ lb with ml := some r.1 }, r.2)
  | none => (lb, [line])

/-- A line without the carriage return at its end. -/
def chomp (line : Str) : Str := if line.getLast? = some 13 then line.dropLast else line

/-- The loop of `alligator_linebuf_feed` over the bytes: the line so far, and the buffer, the
open line and the records at the end. -/
def linebufLoop (lb : Linebuf) (line : Str) : Str → Linebuf × Str × List Str
  | [] => (lb, line, [])
  | c :: rest =>
    if c ≠ 10 then linebufLoop lb (line ++ [c]) rest
    else
      let r := linebufFeedPhysical lb (chomp line)
      let t := linebufLoop r.1 [] rest
      (t.1, t.2.1, r.2 ++ t.2.2)

/-- `alligator_linebuf_feed`: the buffer and the records. -/
def alligatorLinebufFeed (lb : Linebuf) (data : Str) : Linebuf × List Str :=
  if data = [] then (lb, [])
  else
    let t := linebufLoop lb [] (lb.tail ++ data)
    ({ t.1 with tail := t.2.1 }, t.2.2)

def alligatorLinebufFlush (lb : Linebuf) : Linebuf × List Str :=
  let r := if lb.tail ≠ [] then linebufFeedPhysical lb lb.tail else (lb, [])
  let lb := { r.1 with tail := [] }
  match lb.ml with
  | some ml =>
    let t := alligatorMultilineFlush ml
    ({ lb with ml := some t.1 }, r.2 ++ t.2)
  | none => (lb, r.2)

/-! ## The parsers -/

/-- The fields of a `context_arg` for lines: the assembler that the configuration asks for, and
`ml_lb` once it is ready. -/
structure LineCarg where
  ml : Option Multiline := none
  mlLb : Option Linebuf := none

def cargLinebufEnsure (carg : LineCarg) : Linebuf :=
  match carg.mlLb with
  | some lb => lb
  | none => { ml := carg.ml }

/-- What `grok_handler` and `amtail_handler` do with their input: the records that are given to
`grok_record_cb` and `amtail_record_cb`. -/
def recordHandler (carg : LineCarg) (metrics : Str) : LineCarg × List Str :=
  let r := alligatorLinebufFeed (cargLinebufEnsure carg) metrics
  ({ carg with mlLb := some r.1 }, r.2)

/-! ## Without the assembler -/

/-- The records of a text: its complete lines, without a carriage return. -/
def recordsOf (text : Str) : List Str := (completeLines text).map chomp

/-- What `linebuf_feed_physical` makes of complete lines, one after the other. -/
def feedLines (ml : Option Multiline) : List Str → Option Multiline × List Str
  | [] => (ml, [])
  | line :: lines =>
    let r := linebufFeedPhysical ⟨[], ml⟩ line
    let t := feedLines r.1.ml lines
    (t.1, r.2 ++ t.2)

lemma feedLines_append (ml : Option Multiline) (a b : List Str) : feedLines ml (a ++ b) =
    ((feedLines (feedLines ml a).1 b).1, (feedLines ml a).2 ++ (feedLines (feedLines ml a).1 b).2) := by
  induction a generalizing ml with
  | nil => rfl
  | cons line a ih => simp [feedLines, ih]

lemma feedLines_none (lines : List Str) : feedLines none lines = (none, lines) := by
  induction lines with
  | nil => rfl
  | cons line lines ih => simp [feedLines, linebufFeedPhysical, ih]

lemma feedPhysical_eq (lb : Linebuf) (line : Str) : linebufFeedPhysical lb line =
    ({ lb with ml := (linebufFeedPhysical ⟨[], lb.ml⟩ line).1.ml },
      (linebufFeedPhysical ⟨[], lb.ml⟩ line).2) := by
  obtain ⟨tail, _ | ml⟩ := lb <;> rfl

lemma linebufLoop_eq {lb : Linebuf} {line rest : Str} (hline : 10 ∉ line) :
    linebufLoop lb line rest = ({ lb with ml := (feedLines lb.ml (recordsOf (line ++ rest))).1 },
      openLine (line ++ rest), (feedLines lb.ml (recordsOf (line ++ rest))).2) := by
  induction rest generalizing lb line with
  | nil =>
    obtain ⟨h1, h2⟩ := completeLines_of_not_mem hline
    rw [append_nil, recordsOf, h1, h2]
    rfl
  | cons c rest ih =>
    rw [linebufLoop]
    by_cases hc : c = 10
    · have hsplit : splitLines (line ++ c :: rest) =
          (line :: completeLines rest) ++ [openLine rest] := by
        rw [hc, splitLines_cons hline, splitLines_eq rest]
        rfl
      obtain ⟨h1, h2⟩ := completeLines_of_eq hsplit
      rw [if_neg (not_not.mpr hc), feedPhysical_eq, recordsOf, h1, h2]
      dsimp only
      rw [ih not_mem_nil]
      rfl
    · have hline' : 10 ∉ line ++ [c] := by
        rw [mem_append, not_or]
        exact ⟨hline, fun h => hc (mem_singleton.mp h).symm⟩
      rw [if_pos hc, ih hline', append_assoc]
      rfl

lemma linebufFeed_eq {lb : Linebuf} (htail : 10 ∉ lb.tail) (data : Str) :
    alligatorLinebufFeed lb data = (⟨openLine (lb.tail ++ data),
      (feedLines lb.ml (recordsOf (lb.tail ++ data))).1⟩,
      (feedLines lb.ml (recordsOf (lb.tail ++ data))).2) := by
  rw [alligatorLinebufFeed]
  split
  · rename_i hdata
    obtain ⟨h1, h2⟩ := completeLines_of_not_mem htail
    rw [hdata, append_nil, recordsOf, h1, h2]
    rfl
  · rw [linebufLoop_eq not_mem_nil]
    rfl

lemma linebufFeed_lines {lb : Linebuf} (hml : lb.ml = none) (htail : 10 ∉ lb.tail) (data : Str) :
    alligatorLinebufFeed lb data =
      ({ lb with tail := openLine (lb.tail ++ data) }, recordsOf (lb.tail ++ data)) := by
  rw [linebufFeed_eq htail, hml, feedLines_none]

lemma recordsOf_append (a b : Str) :
    recordsOf (a ++ b) = recordsOf a ++ recordsOf (openLine a ++ b) := by
  rw [recordsOf, (completeLines_append a b).1, map_append]
  rfl

lemma recordsOf_of_not_mem {text : Str} (h : 10 ∉ text) : recordsOf text = [] := by
  rw [recordsOf, (completeLines_of_not_mem h).1]
  rfl

/-- The parser has no assembler, and has got the text. -/
structure HasRead (carg : LineCarg) (text : Str) : Prop where
  ml : carg.ml = none
  buffer : cargLinebufEnsure carg = ⟨openLine text, none⟩

lemma hasRead_nil : HasRead {} [] := ⟨rfl, rfl⟩

lemma HasRead.recordHandler {carg : LineCarg} {text : Str} (h : HasRead carg text) (data : Str) :
    HasRead (recordHandler carg data).1 (text ++ data) ∧
      (Alligator.recordHandler carg data).2 = recordsOf (openLine text ++ data) := by
  have hfeed := @linebufFeed_lines ⟨openLine text, none⟩ rfl (not_mem_openLine text) data
  rw [Alligator.recordHandler, h.buffer, hfeed]
  refine ⟨⟨h.ml, ?_⟩, rfl⟩
  rw [(completeLines_append text data).2]
  rfl

/-! ## Where the input is cut -/

/-- The records of a text that comes in pieces, and then ends. -/
def linebufRecords (lb : Linebuf) : List Str → List Str
  | [] => (alligatorLinebufFlush lb).2
  | data :: pieces =>
    let r := alligatorLinebufFeed lb data
    r.2 ++ linebufRecords r.1 pieces

lemma linebufRecords_eq {lb : Linebuf} (htail : 10 ∉ lb.tail) (pieces : List Str) :
    let r := feedLines lb.ml (recordsOf (lb.tail ++ pieces.flatten))
    linebufRecords lb pieces =
      r.2 ++ (alligatorLinebufFlush ⟨openLine (lb.tail ++ pieces.flatten), r.1⟩).2 := by
  induction pieces generalizing lb with
  | nil =>
    rw [flatten_nil, append_nil, recordsOf_of_not_mem htail, (completeLines_of_not_mem htail).2]
    rfl
  | cons data pieces ih =>
    rw [linebufRecords, linebufFeed_eq htail]
    dsimp only
    rw [ih (not_mem_openLine _), flatten_cons, ← append_assoc lb.tail,
      recordsOf_append (lb.tail ++ data), feedLines_append,
      (completeLines_append (lb.tail ++ data) _).2, append_assoc]

/-- Where a text is cut does not matter, with and without an assembler; without one, its records
are its lines, of which those that are complete lose a carriage return. -/
theorem linebuf_cut (ml : Option Multiline) (pieces : List Str) :
    linebufRecords ⟨[], ml⟩ pieces = linebufRecords ⟨[], ml⟩ [pieces.flatten] ∧
      linebufRecords ⟨[], none⟩ pieces = recordsOf pieces.flatten ++
        if openLine pieces.flatten = [] then [] else [openLine pieces.flatten] := by
  have h := fun ml ps => @linebufRecords_eq ⟨[], ml⟩ not_mem_nil ps
  rw [h, h, h, flatten_singleton, feedLines_none]
  refine ⟨rfl, ?_⟩
  rw [alligatorLinebufFlush]
  split_ifs <;> simp_all [linebufFeedPhysical]

/-! ## What the assembler leaves out -/

namespace Multiline

/-- The assembler with the lines of a record. -/
def holding (ml : Multiline) (lines : List Str) : Multiline :=
  { ml with buf := [10].intercalate lines, held := decide (lines ≠ []) }

/-- A line is appended to the record that is held. -/
def Appends (ml : Multiline) (line : Str) : Bool :=
  match ml.mode with
  | .continueThrough => ml.condRe line
  | .haltBefore => !ml.condRe line
  | .continuePast | .haltWith => true

/-- A line is appended to a held record that is empty. -/
def Swallows (ml : Multiline) (line : Str) : Prop :=
  ml.held = true ∧ ml.buf = [] ∧ ml.Appends line = true

/-- No line of a list is appended to a held record that is empty. -/
def NeverSwallows (ml : Multiline) : List Str → Prop
  | [] => True
  | line :: lines => ¬ml.Swallows line ∧ (alligatorMultilineFeed ml line).1.NeverSwallows lines

/-- The records of a list of lines. -/
def records (ml : Multiline) : List Str → List Str
  | [] => (alligatorMultilineFlush ml).2
  | line :: lines =>
    let r := alligatorMultilineFeed ml line
    r.2 ++ records r.1 lines

variable {ml : Multiline} {g : List Str} {line : Str}

@[simp]
lemma held_holding : (ml.holding g).held = decide (g ≠ []) := rfl

@[simp]
lemma holding_config : (ml.holding g).startRe = ml.startRe ∧
    (ml.holding g).condRe = ml.condRe ∧ (ml.holding g).mode = ml.mode := ⟨rfl, rfl, rfl⟩

lemma mlEmit_holding (hg : g ≠ []) :
    mlEmit (ml.holding g) = (ml.holding [], [[10].intercalate g]) := by
  simp [mlEmit, holding, hg]

lemma mlAppend_holding (hg : g.head? ≠ some []) :
    mlAppend (ml.holding g) line = ml.holding (g ++ [line]) := by
  cases g with
  | nil => simp [mlAppend, holding]
  | cons x g =>
    have hne : [10].intercalate (x :: g) ≠ [] := by
      cases g <;> simp_all [intercalate_cons_cons]
    have happend := intercalate_append (cons_ne_nil x g) (cons_ne_nil line [])
    simp_all [mlAppend, holding]

/-- The records that are passed on and the one that is held are made of the lines. -/
structure Joins (ml : Multiline) (r : Multiline × List Str) (lines : List Str)
    (done : List (List Str)) (g : List Str) : Prop where
  eq : r = (ml.holding g, done.map [10].intercalate)
  lines_eq : done.flatten ++ g = lines
  ne_nil : ∀ d ∈ done, d ≠ []
  head : g.head? = some [] → g = [[]]

lemma feed_joins (hg : g.head? = some [] → g = [[]]) (h : ¬(ml.holding g).Swallows line) :
    ∃ done g', Joins ml (alligatorMultilineFeed (ml.holding g) line) (g ++ [line]) done g' := by
  have hall := @mlEmit_holding ml (g ++ [line]) (by simp)
  have hnew : mlAppend (ml.holding []) line = ml.holding [line] := mlAppend_holding (by simp)
  rw [alligatorMultilineFeed]
  by_cases hnil : g = []
  · subst hnil
    rw [hnew]
    simp at hall ⊢
    split_ifs
    · exact ⟨[[line]], [], by simp [hall], by simp, by simp, by simp⟩
    · exact ⟨[], [line], rfl, rfl, by simp, by simp⟩
    · exact ⟨[[line]], [], by simp, by simp, by simp, by simp⟩
  · -- where the line is appended, the record is not empty
    have happ : ml.Appends line = true →
        mlAppend (ml.holding g) line = ml.holding (g ++ [line]) := fun ha =>
      mlAppend_holding fun hhead => h ⟨by simp [hnil], by simp [holding, hg hhead], ha⟩
    have keep : ml.Appends line = true →
        ∃ done g', Joins ml (mlAppend (ml.holding g) line, []) (g ++ [line]) done g' := fun ha =>
      ⟨[], g ++ [line], by rw [happ ha]; rfl, rfl, by simp, fun hhead => absurd
        ⟨by simp [hnil], by cases g <;> simp_all [holding], ha⟩ h⟩
    have pass : ml.Appends line = true →
        ∃ done g', Joins ml (mlEmit (mlAppend (ml.holding g) line)) (g ++ [line]) done g' :=
      fun ha => ⟨[g ++ [line]], [], by rw [happ ha, hall]; rfl, by simp, by simp, by simp⟩
    have next : ∃ done g', Joins ml (ml.holding [line], [[10].intercalate g]) (g ++ [line]) done g' :=
      ⟨[g], [line], rfl, by simp, by simp [hnil], by simp⟩
    rw [mlEmit_holding hnil]
    simp [hnil, hnew]
    unfold Appends at keep pass
    split <;> rename_i hmode <;> rw [hmode] at keep pass
    · split_ifs with hc hs
      · exact keep hc
      · exact next
      · exact ⟨[g, [line]], [], by simp, by simp, by simp [hnil], by simp⟩
    · split_ifs
      · exact keep rfl
      · exact pass rfl
    · split_ifs with hc
      · exact next
      · exact keep (by simp [hc])
    · split_ifs
      · exact pass rfl
      · exact keep rfl

lemma records_joins (ml : Multiline) {lines : List Str} (hg : g.head? = some [] → g = [[]])
    (hlines : (ml.holding g).NeverSwallows lines) : ∃ groups : List (List Str),
      (ml.holding g).records lines = groups.map [10].intercalate ∧
        groups.flatten = g ++ lines ∧ ∀ d ∈ groups, d ≠ [] := by
  induction lines generalizing g with
  | nil =>
    by_cases h : g = []
    · exact ⟨[], by simp [records, alligatorMultilineFlush, mlEmit, h], by simp [h], by simp⟩
    · exact ⟨[g], by simp [records, alligatorMultilineFlush, mlEmit_holding h], by simp, by simp [h]⟩
  | cons line lines ih =>
    obtain ⟨done, g', h⟩ := feed_joins hg hlines.1
    obtain ⟨groups, hrec, hflat, hne⟩ := ih h.head (by simpa [h.eq] using hlines.2)
    refine ⟨done ++ groups, by simp [records, h.eq, hrec], ?_, ?_⟩
    · rw [flatten_append, hflat, ← append_assoc, h.lines_eq, append_assoc]
      rfl
    · exact forall_mem_append.2 ⟨h.ne_nil, hne⟩

/-- The bytes of texts, each with a line feed. -/
def bytes (texts : List Str) : Nat := (texts.map (·.length + 1)).sum

lemma length_intercalate {texts : List Str} (h : texts ≠ []) :
    ([10].intercalate texts).length + 1 = bytes texts := by
  induction texts with
  | nil => contradiction
  | cons t texts ih =>
    cases texts with
    | nil => simp [bytes]
    | cons u texts =>
      have hrest := ih (by simp)
      simp only [bytes, intercalate_cons_cons, map_cons, sum_cons, length_append,
        length_singleton] at hrest ⊢
      omega

/-- The bytes that are held. -/
def weight (ml : Multiline) : Nat := if ml.held then ml.buf.length + 1 else 0

/-- A feed loses a byte where a line is appended to an empty record. -/
lemma feed_bytes (line : Str) (hbuf : ml.held = false → ml.buf = []) :
    let r := alligatorMultilineFeed ml line
    (r.1.held = false → r.1.buf = []) ∧
      bytes r.2 + r.1.weight ≤ ml.weight + (line.length + 1) ∧
      (bytes r.2 + r.1.weight = ml.weight + (line.length + 1) → ¬ml.Swallows line) := by
  obtain ⟨startRe, condRe, mode, buf, held⟩ := ml
  cases held <;> cases mode <;>
    simp [alligatorMultilineFeed, mlAppend, mlEmit, bytes, weight, Swallows, Appends] at hbuf ⊢ <;>
    split_ifs <;> grind

lemma records_bytes {lines : List Str} (hbuf : ml.held = false → ml.buf = []) :
    bytes (ml.records lines) ≤ ml.weight + bytes lines ∧
      (bytes (ml.records lines) = ml.weight + bytes lines → ml.NeverSwallows lines) := by
  induction lines generalizing ml with
  | nil =>
    refine ⟨?_, fun _ => trivial⟩
    rw [records, alligatorMultilineFlush, mlEmit, weight]
    split_ifs <;> simp [bytes]
  | cons line lines ih =>
    obtain ⟨hbuf', hle, hlt⟩ := feed_bytes line hbuf
    obtain ⟨hle', hlt'⟩ := ih hbuf'
    simp only [records, NeverSwallows, bytes, map_append, sum_append, map_cons, sum_cons] at *
    exact ⟨by omega, fun h => ⟨hlt (by omega), hlt' (by omega)⟩⟩

end Multiline

/-- Each record is made of lines that follow each other, and the records are the lines, if and
only if no line is appended to a record that is empty. -/
theorem multiline_lossless_iff (startRe condRe : Str → Bool) (mode : MlMode) (lines : List Str) :
    let ml : Multiline := { startRe, condRe, mode }
    ((∃ groups : List (List Str), ml.records lines = groups.map [10].intercalate ∧
      groups.flatten = lines ∧ ∀ g ∈ groups, g ≠ []) ∧
        [10].intercalate (ml.records lines) = [10].intercalate lines) ↔ ml.NeverSwallows lines := by
  intro ml
  refine ⟨fun ⟨_, hjoin⟩ => ?_, fun h => ?_⟩
  · cases lines with
    | nil => trivial
    | cons line rest =>
      by_cases hrec : ml.records (line :: rest) = []
      · -- nothing but one empty line joins to nothing
        rw [hrec] at hjoin
        cases rest with
        | nil => exact ⟨fun h => Bool.false_ne_true h.1, trivial⟩
        | cons => simp [intercalate_cons_cons] at hjoin
      · refine (Multiline.records_bytes fun _ => rfl).2 ?_
        rw [← Multiline.length_intercalate hrec, hjoin, Multiline.length_intercalate (by simp)]
        exact (Nat.zero_add _).symm
  · obtain ⟨groups, hrec, hflat, hne⟩ := Multiline.records_joins ml (g := []) (by simp) h
    have hjoin := (congrArg [10].intercalate hrec).trans (intercalate_map hne)
    exact ⟨⟨groups, hrec, hflat, hne⟩, hjoin.trans (congrArg _ hflat)⟩

/-- An empty line that begins a record is lost. -/
theorem multiline_loses_empty :
    Multiline.records ⟨(· == []), fun _ => false, .haltWith, [], false⟩ [[], cstr "x"] =
        [cstr "x"] ∧ [10].intercalate [cstr "x"] ≠ [10].intercalate [[], cstr "x"] := by
  decide

end Alligator
