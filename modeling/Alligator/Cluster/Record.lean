import Alligator.Parsers.Multicollector

/-!
# Replication records

A sample for another member of a cluster travels as a line of fields between tabs: who it is
for, the name of the metric, the labels, an empty field, the value and the type.
`cluster_sync_handler` takes a batch of such lines apart and writes the samples.

A sample that the text parser hands on comes back as itself (`syncHandler_batch`).
-/

namespace Alligator

open Text Binary64 List Option LabelHash

variable {f n : Str} {lbl : LabelHash}

/-! ## The namespace of a primary -/

/-- The name `cluster:server` in a buffer of 255 bytes, where `cur` is taken for the length of
the name of the cluster. -/
def namespaceName (cur : Nat) (cluster server : Str) : Str :=
  if cur < 255 then
    let base := (cluster.take 254).take cur ++ [58].take (254 - cur)
    base ++ server.take (254 - base.length)
  else cluster.take 254

lemma namespaceName_eq (cluster server : Str) :
    namespaceName cluster.length cluster server = (cluster ++ 58 :: server).take 254 := by
  rw [namespaceName]
  split
  · have hbase : (cluster.take 254).take cluster.length ++ [58].take (254 - cluster.length) =
        (cluster ++ [58]).take 254 := by
      rw [take_append, take_of_length_le (by simp)]
    have hall : cluster ++ 58 :: server = cluster ++ [58] ++ server := by simp
    have hsplit : (cluster ++ [58] ++ server).take 254 =
        (cluster ++ [58]).take 254 ++ server.take (254 - (cluster ++ [58]).length) :=
      take_append
    simp only [hbase]
    rw [hall, hsplit, length_take]
    congr 2
    omega
  · case isFalse h =>
    rw [take_append, Nat.sub_eq_zero_of_le (by omega), take_zero, append_nil]

/-- The namespaces that `cluster_push_json` makes for the servers of a cluster. -/
def clusterNamespaces (cluster : Str) (servers : List Str) : List Str :=
  servers.map (namespaceName cluster.length cluster)

/-- `get_namespace_by_carg`: no name, or a name that is not known, means the default
namespace. -/
def namespaceOfCarg (namespaces : List Str) : Option Str → Option Str
  | none => none
  | some key => if key ∈ namespaces then some key else none

/-! ## Writing a record -/

def MetricType.code : MetricType → Nat
  | .untyped => 0
  | .counter => 1
  | .histogram => 2
  | .gauge => 3
  | .summary => 4

/-- What `cluster_pass` sends: a sample for its primary, or for a replica of the primary that is
named. -/
structure ReplicationRecord where
  replicaOf : Option Str
  name : Str
  labels : LabelHash
  value : BitVec 64
  dataType : MetricType

open ReplicationRecord

variable {r : ReplicationRecord}

/-- `alligator_labels_serialize_to_replication` -/
def serializeToReplication (labels : List (Str × Str)) : Str :=
  labels.flatMap fun c => c.1 ++ 61 :: (c.2 ++ [9])

def ReplicationRecord.line (r : ReplicationRecord) : Str :=
  (match r.replicaOf with
    | some primary => cstr "replica" ++ 9 :: (primary ++ [9])
    | none => cstr "primary" ++ [9]) ++
  (r.name ++ 9 :: (serializeToReplication r.labels.pairs ++
    9 :: (stringDouble r.value ++ 9 :: stringUint r.dataType.code)))

def ReplicationRecord.text (r : ReplicationRecord) : Str := r.line ++ [10]

/-! ## Reading a batch -/

/-- `cluster_type` -/
inductive HandlerState where
  | replicaType
  | server
  | data

structure LineState where
  clusterType : HandlerState
  isPrimary : Bool
  namespaceOf : Option Str
  metricName : Str
  labels : LabelHash
  nextIsValue : Bool
  value : Option (BitVec 64)

structure AppliedWrite where
  namespaceOf : Option Str
  name : Str
  labels : LabelHash
  value : BitVec 64
  dataType : Nat
  write : Write

def AppliedWrite.resolve (namespaces : List Str) (w : AppliedWrite) : AppliedWrite :=
  { w with namespaceOf := namespaceOfCarg namespaces w.namespaceOf }

/-- `atoi` of digits, as a byte. -/
def atoiByte (data : Str) : Nat :=
  let s := data.dropWhile isSpace
  match s with
  | 45 :: t => (256 - (readDigits 0 t).1 % 256) % 256
  | 43 :: t => (readDigits 0 t).1 % 256
  | _ => (readDigits 0 s).1 % 256

/-- A field with a label.  The bytes after a field without `=` are taken for none. -/
def insertLabelField (labels : LabelHash) (data : Str) : LabelHash :=
  let sep := min (data.takeWhile (· ≠ 61)).length 1023
  labels.insert (data.take sep) ((data.drop (sep + 1)).take 1023)

/-- One field of a line: the line goes on, or it ends with or without a write.  `last` tells
that the cursor has reached the end of the line. -/
def fieldStep (cluster : Str) (st : LineState) (data : Str) (last : Bool) :
    LineState ⊕ Option AppliedWrite :=
  match st.clusterType with
  | .replicaType =>
    if data = cstr "replica" then .inl { st with clusterType := .server }
    else .inl { st with clusterType := .data, isPrimary := true }
  | .server =>
    .inl { st with
      clusterType := .data
      namespaceOf := if st.isPrimary then st.namespaceOf
        else some (namespaceName (cluster.length % 65536) cluster data) }
  | .data =>
    if st.metricName = [] then .inl { st with metricName := data.take 1023 }
    else if !st.nextIsValue && !last then
      if data = [] then .inl { st with nextIsValue := true }
      else .inl { st with labels := insertLabelField st.labels data }
    else if st.nextIsValue then .inl { st with nextIsValue := false, value := some (atof data) }
    else
      match st.value with
      | none => .inr none
      | some value =>
        let dtType := atoiByte data
        let write := if dtType = MetricType.counter.code ∨ dtType = MetricType.histogram.code
          then Write.update else Write.add
        .inr (some ⟨st.namespaceOf, st.metricName, st.labels, value, dtType, write⟩)

def fieldLoop (cluster : Str) : Nat → Str → LineState → Option AppliedWrite
  | 0, _, _ => none
  | fuel + 1, rest, st =>
    if rest = [] then none
    else
      let data := (rest.takeWhile (· ≠ 9)).take 4095
      let after := rest.dropWhile (· ≠ 9)
      match fieldStep cluster st data after.isEmpty with
      | .inl st => fieldLoop cluster fuel (after.drop 1) st
      | .inr result => result

def LineState.start : LineState := ⟨.replicaType, false, none, [], .empty, false, none⟩

/-- A line of `cluster_sync_handler`.  A line that does not fit its buffer is skipped. -/
def syncLine (cluster : Str) (line : Str) : Option AppliedWrite :=
  if 4095 ≤ line.length then none else fieldLoop cluster line.length line .start

/-- `cluster_sync_handler`: the writes, in their order. -/
def clusterSyncHandler (cluster metrics : Str) : List AppliedWrite :=
  (splitLines metrics).filterMap (syncLine cluster)

/-! ## One field at a time -/

variable {labels : LabelHash} {i : Int}

section Fields

variable {cluster : Str} {st : LineState} {fuel : Nat}

lemma takeWhile_tab (h : 9 ∉ f) (rest : Str) :
    (f ++ 9 :: rest).takeWhile (· ≠ 9) = f ∧ (f ++ 9 :: rest).dropWhile (· ≠ 9) = 9 :: rest := by
  have hall : ∀ c ∈ f, decide (c ≠ 9) = true := fun c hc => by
    rw [decide_eq_true_eq]
    rintro rfl
    exact h hc
  rw [takeWhile_append_of_pos hall, dropWhile_append_of_pos hall]
  simp

lemma fieldLoop_field (h : 9 ∉ f) (hlen : f.length ≤ 4095) (rest : Str) :
    fieldLoop cluster (fuel + 1) (f ++ 9 :: rest) st =
      match fieldStep cluster st f false with
      | .inl st => fieldLoop cluster fuel rest st
      | .inr result => result := by
  rw [fieldLoop, if_neg (by simp), (takeWhile_tab h rest).1, (takeWhile_tab h rest).2,
    take_of_length_le hlen]
  rfl

lemma fieldLoop_empty (rest : Str) :
    fieldLoop cluster (fuel + 1) (9 :: rest) st =
      match fieldStep cluster st [] false with
      | .inl st => fieldLoop cluster fuel rest st
      | .inr result => result :=
  fieldLoop_field (f := []) not_mem_nil (by simp) rest

lemma fieldLoop_last (hne : f ≠ []) (h : 9 ∉ f) (hlen : f.length ≤ 4095) :
    fieldLoop cluster (fuel + 1) f st =
      match fieldStep cluster st f true with
      | .inl st => fieldLoop cluster fuel [] st
      | .inr result => result := by
  have hall : ∀ c ∈ f, decide (c ≠ 9) = true := fun c hc => by
    rw [decide_eq_true_eq]
    rintro rfl
    exact h hc
  have htake : f.takeWhile (· ≠ 9) = f := takeWhile_eq_self_iff.2 hall
  have hdrop : f.dropWhile (· ≠ 9) = [] := dropWhile_eq_nil_iff.2 hall
  rw [fieldLoop, if_neg hne, htake, hdrop, take_of_length_le hlen]
  rfl

lemma insertLabelField_eq {v : Str} (h : 61 ∉ n) (hn : n.length < 255)
    (hv : v.length < 255) : insertLabelField labels (n ++ 61 :: v) = labels.insert n v := by
  have hall : ∀ c ∈ n, decide (c ≠ 61) = true := fun c hc => by
    rw [decide_eq_true_eq]
    rintro rfl
    exact h hc
  have hname : (n ++ 61 :: v).takeWhile (· ≠ 61) = n := by
    rw [takeWhile_append_of_pos hall]
    simp
  rw [insertLabelField, hname, Nat.min_eq_left (by omega), take_left, drop_append,
    drop_of_length_le (by omega), nil_append, Nat.add_sub_cancel_left, drop_one, tail_cons,
      take_of_length_le (by omega)]

/-- In the middle of the labels. -/
structure LineState.InLabels (st : LineState) : Prop where
  data : st.clusterType = .data
  named : st.metricName ≠ []
  noValue : st.nextIsValue = false

/-- The labels of a record are read back one after the other. -/
lemma fieldLoop_labels {rest : Str} {ps : List (Str × Str)}
    (hps : ∀ p ∈ ps, (9 ∉ p.1 ∧ 61 ∉ p.1 ∧ p.1.length < 255) ∧ 9 ∉ p.2 ∧ p.2.length < 255)
    (hst : st.InLabels) :
    fieldLoop cluster (fuel + ps.length) (serializeToReplication ps ++ rest) st =
      fieldLoop cluster fuel rest
        { st with labels := ps.foldl (fun labels p => labels.insert p.1 p.2) st.labels } := by
  induction ps generalizing st with
  | nil => rfl
  | cons p ps ih =>
    obtain ⟨⟨htab, heq, hn⟩, hvtab, hv⟩ := hps p mem_cons_self
    have htext : serializeToReplication (p :: ps) ++ rest =
        (p.1 ++ 61 :: p.2) ++ 9 :: (serializeToReplication ps ++ rest) := by
      simp [serializeToReplication]
    have hfield : 9 ∉ p.1 ++ 61 :: p.2 := by simp [htab, hvtab]
    have hstep : fieldStep cluster st (p.1 ++ 61 :: p.2) false =
        .inl { st with labels := st.labels.insert p.1 p.2 } := by
      rw [fieldStep, hst.data]
      rw [if_neg hst.named, hst.noValue, insertLabelField_eq heq hn hv]
      simp
    rw [htext, length_cons, ← add_assoc, fieldLoop_field hfield (by simp; omega), hstep]
    exact ih (forall_mem_cons.1 hps).2 ⟨hst.data, hst.named, hst.noValue⟩

end Fields

/-! ## Records of the text parser -/

/-- A name and labels as the text parser hands them on: names of the bytes that it accepts, and
values that went through its normalizer, all of them in its buffers. -/
structure Handed (name : Str) (labels : LabelHash) : Prop where
  name_ne : name ≠ []
  name_char : ∀ c ∈ name, metricChar c = true
  name_length : name.length < metricNameSize
  label : ∀ p ∈ labels.pairs, (∀ c ∈ p.1, metricChar c = true) ∧ p.1.length < metricNameSize
  value : ∀ p ∈ labels.pairs, p.2.length < metricNameSize ∧
    ∃ raw, p.2 = metricLabelValueValidatorNormalizer raw

lemma not_mem_of_metricChar (h : ∀ c ∈ n, metricChar c = true) : 9 ∉ n ∧ 10 ∉ n ∧ 61 ∉ n := by
  refine ⟨fun hc => ?_, fun hc => ?_, fun hc => ?_⟩ <;> exact absurd (h _ hc) (by decide)

lemma not_mem_normalizer (raw : Str) :
    9 ∉ metricLabelValueValidatorNormalizer raw ∧ 10 ∉ metricLabelValueValidatorNormalizer raw := by
  constructor <;>
  · intro h
    obtain ⟨c, -, hc⟩ := mem_map.1 h
    split_ifs at hc with h1 h2
    · cases hc
    · cases hc
    · simp [hc] at h2

/-! ### What the parser hands on -/

/-- Labels as the parser makes them. -/
def LabelsHanded (labels : LabelHash) : Prop :=
  ∀ p ∈ labels.pairs, ((∀ c ∈ p.1, metricChar c = true) ∧ p.1.length < metricNameSize) ∧
    p.2.length < metricNameSize ∧ ∃ raw, p.2 = metricLabelValueValidatorNormalizer raw

lemma labelsHanded_empty : LabelsHanded .empty := fun _ hp => absurd hp not_mem_nil

lemma LabelsHanded.insert (h : LabelsHanded labels) {raw : Str}
    (hchar : ∀ c ∈ n, metricChar c = true) (hn : n.length < metricNameSize)
    (hraw : raw.length < metricNameSize) :
    LabelsHanded (labels.insert n (metricLabelValueValidatorNormalizer raw)) := by
  intro p hp
  rw [LabelHash.insert] at hp
  split_ifs at hp with hmem
  · exact h p hp
  · rcases mem_append.1 hp with hp | hp
    · exact h p hp
    · obtain rfl := mem_singleton.1 hp
      exact ⟨⟨hchar, hn⟩, by rwa [metricLabelValueValidatorNormalizer, length_map], raw, rfl⟩

lemma getUntil_length (reject : Str) (cur : Cursor) :
    (getUntil reject cur).1.length < metricNameSize ∧
      (getUntil reject cur).1.length ≤ (getUntil reject cur).2.1 := by
  rw [getUntil]
  split_ifs
  · exact ⟨Nat.zero_lt_succ _, le_rfl⟩
  · have hlen : (cur.rest.take (min (cur.strcspn reject) (metricNameSize - 1))).length ≤
        min (cur.strcspn reject) (metricNameSize - 1) := length_take_le _ _
    have hsize : 0 < metricNameSize := by decide
    constructor <;> dsimp only <;> omega

lemma getName_length (cur : Cursor) :
    (multicollectorGetName cur).1.length < metricNameSize ∧
      (multicollectorGetName cur).1.length ≤ (multicollectorGetName cur).2.1 := getUntil_length _ cur

lemma metricChar_normalizer {ok : UInt8 → Bool} (hok : ∀ c, ok c = true → metricChar c = true)
    {sz : Nat} (h : n.length ≤ sz) : (∀ c ∈ nameNormalizer ok n sz, metricChar c = true) ∧
      (nameNormalizer ok n sz).length = n.length := by
  rw [nameNormalizer, take_of_length_le h, drop_of_length_le h, append_nil]
  refine ⟨fun c hc => ?_, length_map _⟩
  obtain ⟨d, -, rfl⟩ := mem_map.1 hc
  split_ifs with hd
  · exact hok d hd
  · decide

lemma metricChar_prometheus (c : UInt8)
    (h : (isAlpha c || c == 95 || c == 58 || isDigit c) = true) : metricChar c = true := by
  rw [metricChar, labelChar]
  revert h
  cases isAlpha c <;> cases c == 95 <;> cases c == 58 <;> cases isDigit c <;> decide

lemma metricChar_statsd (c : UInt8) (h : (isAlpha c || c == 95 || isDigit c) = true) :
    metricChar c = true := by
  rw [metricChar, labelChar, h]
  rfl

lemma length_putByte {s : Str} (h : s.length < metricNameSize) (c : UInt8) :
    (putByte s c).length < metricNameSize := by
  rw [putByte]
  split_ifs with hlt
  · rw [length_append, length_singleton]
    omega
  · exact h

lemma length_quotesLoop : ∀ (s : Str) (left : Nat) {s2 : Str}, s2.length < metricNameSize →
    (quotesLoop s left s2).2.1.length < metricNameSize := by
  intro s left s2
  fun_induction quotesLoop s left s2 with
  | case1 | case2 | case3 | case5 => exact id
  | case4 => exact fun h => length_putByte h _
  | case6 left s2 c next t _ _ ih => exact fun h => ih (length_putByte h _)
  | case7 left s2 c next t _ _ ih => exact fun h => ih (length_putByte h _)

lemma length_getQuotes (cur : Cursor) :
    (multicollectorGetQuotes cur).2.1.length < metricNameSize := by
  rw [multicollectorGetQuotes]
  split_ifs
  · exact Nat.zero_lt_succ _
  · exact length_quotesLoop _ _ (Nat.zero_lt_succ _)

variable {cur : Cursor}

section

variable (h : LabelsHanded lbl)
include h

lemma LabelsHanded.statsdLoop {n : Nat} : LabelsHanded (statsdLabelsLoop n cur lbl).2 := by
  induction n generalizing cur lbl with
  | zero => exact h
  | succ n ih =>
    rw [statsdLabelsLoop]
    by_cases hend : cur.left = 0 ∨ cur.char = 58 ∨ cur.char = 0
    · rw [if_pos hend]
      exact h
    generalize (if cur.char = 35 ∨ cur.char = 44 then cur.advance 1 else cur) = cur
    dsimp only
    have hname := getName_length cur
    generalize multicollectorGetName cur = name at hname ⊢
    obtain ⟨labelName, labelNameSize, cur⟩ := name
    generalize multicollectorSkipSpaces cur = cur
    split_ifs with hleft hvalid
    · exact h
    · have hvalue : (multicollectorGetValue (cur.advance 1)).1.length < metricNameSize :=
        (getUntil_length _ _).1
      obtain ⟨hchar, hlen⟩ := metricChar_normalizer metricChar_statsd hname.2
      exact ih (h.insert hchar (hlen ▸ hname.1) hvalue)
    · exact ih h

lemma LabelsHanded.statsd : LabelsHanded (parseStatsdLabels cur lbl).2 := by
  rw [parseStatsdLabels]
  split_ifs
  · exact h
  · exact h.statsdLoop
  · exact h.statsdLoop

lemma LabelsHanded.promLoop {fuel : Nat}
    {r : Cursor × LabelHash} (hr : promLabelsLoop fuel cur lbl = some r) : LabelsHanded r.2 := by
  induction fuel generalizing cur lbl r with
  | zero => exact nomatch hr
  | succ fuel ih =>
    rw [promLabelsLoop] at hr
    by_cases hleft : cur.left = 0
    · rw [if_pos hleft] at hr
      exact some.inj hr ▸ h
    rw [if_neg hleft] at hr
    dsimp only at hr
    generalize multicollectorSkipSpaces cur = cur at hr
    have hname := getName_length cur
    generalize multicollectorGetName cur = name at hname hr
    obtain ⟨labelName, labelNameSize, cur⟩ := name
    dsimp only at hname hr
    generalize multicollectorSkipSpaces cur = cur at hr
    have hquotes := length_getQuotes (multicollectorSkipSpaces (cur.advance 1))
    generalize multicollectorGetQuotes (multicollectorSkipSpaces (cur.advance 1)) = quotes
      at hquotes hr
    obtain ⟨rc, labelKey, cur⟩ := quotes
    dsimp only at hquotes hr
    obtain ⟨hchar, hlen⟩ := metricChar_normalizer metricChar_prometheus hname.2
    have hnext := h.insert hchar (hlen ▸ hname.1) hquotes
    split_ifs at hr
    · exact some.inj hr ▸ hnext
    · exact ih hnext hr
    · exact some.inj hr ▸ hnext

lemma LabelsHanded.parseBody {body : Body}
    (hbody : parseBody cur lbl = some body) : LabelsHanded body.labels := by
  rw [Alligator.parseBody] at hbody
  split_ifs at hbody
  · simp only [bind_eq_bind, bind_eq_some_iff, Option.pure_def] at hbody
    obtain ⟨r, hr, hbody⟩ := hbody
    exact some.inj hbody ▸ h.promLoop hr
  · dsimp only at hbody
    split_ifs at hbody
    all_goals exact some.inj hbody ▸ h.statsd.statsd
  · exact some.inj hbody ▸ h
  · obtain ⟨r, -, rfl⟩ := map_eq_some_iff.1 hbody
    exact h

end

/-- Without mappings, every sample of the parser is handed on in order. -/
lemma handed_of_parse (hlbl : LabelsHanded lbl) {str : Str} {size : Nat} {x : Sample}
    (h : multicollectorParse [] lbl str size = some x) : Handed x.name x.labels := by
  rw [multicollectorParse] at h
  generalize multicollectorSkipSpaces ⟨str, size⟩ = cur at h
  have hname : (multicollectorGetMetricName cur).1.length < metricNameSize ∧
      (multicollectorGetMetricName cur).1.length ≤ (multicollectorGetMetricName cur).2.1 := by
    rw [multicollectorGetMetricName]
    split_ifs <;> exact getUntil_length _ cur
  generalize multicollectorGetMetricName cur = name at hname h
  obtain ⟨metricName, metricLen, cur⟩ := name
  dsimp only [foldl_nil] at hname h
  split_ifs at h with hvalid
  have hne : metricName ≠ [] := by
    rintro rfl
    exact hvalid rfl
  simp only [bind_eq_bind, bind_eq_some_iff] at h
  obtain ⟨body, hbody, hx⟩ := h
  obtain rfl := some.inj hx
  have hlabels := hlbl.parseBody hbody
  have hnormal : (∀ c ∈ (if body.isProm then prometheusMetricNameNormalizer metricName metricLen
        else metricNameNormalizer metricName metricLen), metricChar c = true) ∧
      (if body.isProm then prometheusMetricNameNormalizer metricName metricLen
        else metricNameNormalizer metricName metricLen).length = metricName.length := by
    split_ifs
    · exact metricChar_normalizer metricChar_prometheus hname.2
    · exact metricChar_normalizer metricChar_statsd hname.2
  refine ⟨?_, hnormal.1, hnormal.2 ▸ hname.1, fun p hp => (hlabels p hp).1,
    fun p hp => (hlabels p hp).2⟩
  rw [← length_pos_iff] at hne ⊢
  exact hnormal.2 ▸ hne

lemma foldl_insert_pairs (labels : LabelHash) :
    labels.pairs.foldl (fun hash p => insert hash p.1 p.2) .empty = labels := by
  have hpairs : (labels.pairs.foldl (fun hash p => hash.insert p.1 p.2) empty).pairs =
      labels.pairs := foldl_insert labels.nodup
  generalize labels.pairs.foldl (fun hash p => insert hash p.1 p.2) .empty = l at *
  cases l
  cases labels
  congr

/-! ## The round trip -/

section

variable (h : i.natAbs < 10 ^ 12)
include h

lemma length_printInt : (printInt i).length ≤ 13 := by
  cases i with
  | ofNat n => exact (length_decimal_le (k := 11) h).trans (by omega)
  | negSucc n =>
    have hle := length_decimal_le (k := 11) (n := n + 1) h
    rw [printInt, length_cons]
    omega

lemma stringDouble_ofInt :
    ∃ k, stringDouble (ofInt i) = printInt i ++ 46 :: List.replicate k 48 := by
  have hlen := length_printInt h
  have hsub : 19 - (printInt i).length = (18 - (printInt i).length) + 1 := by omega
  refine ⟨min (18 - (printInt i).length) 6, ?_⟩
  rw [stringDouble, printLf_ofInt (h.trans (by decide)), take_append,
    take_of_length_le (by omega), hsub, take_succ_cons, take_replicate]

lemma atof_stringDouble : atof (stringDouble (ofInt i)) = ofInt i := by
  obtain ⟨k, hk⟩ := stringDouble_ofInt h
  rw [hk, atof, strtod_zeros (h.trans (by decide))]
  rfl

end

lemma not_mem_stringDouble (d : BitVec 64) : 9 ∉ stringDouble d ∧ 10 ∉ stringDouble d := by
  constructor <;> exact fun h => absurd (lt_of_mem_printLf (mem_of_mem_take h)) (by decide)

lemma stringUint_code (t : MetricType) : stringUint t.code ≠ [] ∧ 9 ∉ stringUint t.code ∧
    10 ∉ stringUint t.code ∧ (stringUint t.code).length ≤ 4095 ∧
    atoiByte (stringUint t.code) = t.code := by
  cases t <;> decide

/-- A record of a sample of the text parser that keeps to its line. -/
structure Carried (r : ReplicationRecord) : Prop where
  handed : Handed r.name r.labels
  length : r.line.length < 4095
  primary : ∀ p ∈ r.replicaOf, 9 ∉ p ∧ 10 ∉ p

/-- A record that `cluster_pass` makes of a sample with a whole number. -/
structure Replicable (r : ReplicationRecord) : Prop where
  handed : Handed r.name r.labels
  value : ∃ i : Int, r.value = ofInt i ∧ i.natAbs < 10 ^ 12
  length : r.line.length < 4095
  primary : ∀ p ∈ r.replicaOf, 9 ∉ p ∧ 10 ∉ p

def ReplicationRecord.applied (cluster : Str) (r : ReplicationRecord) : AppliedWrite :=
  ⟨r.replicaOf.map (namespaceName (cluster.length % 65536) cluster), r.name, r.labels, r.value,
    r.dataType.code, if r.dataType = .counter ∨ r.dataType = .histogram then .update else .add⟩

/-- The same with the number that is read from the text. -/
def ReplicationRecord.read (cluster : Str) (r : ReplicationRecord) : AppliedWrite :=
  { r.applied cluster with value := atof (stringDouble r.value) }

lemma Replicable.carried (h : Replicable r) : Carried r :=
  ⟨h.handed, h.length, h.primary⟩

lemma Replicable.read_eq (h : Replicable r) (cluster : Str) :
    r.read cluster = r.applied cluster := by
  obtain ⟨i, hi, hi12⟩ := h.value
  rw [ReplicationRecord.read, ReplicationRecord.applied, hi, atof_stringDouble hi12]

def ReplicationRecord.body (r : ReplicationRecord) : Str :=
  r.name ++ 9 :: (serializeToReplication r.labels.pairs ++
    9 :: (stringDouble r.value ++ 9 :: stringUint r.dataType.code))

lemma ReplicationRecord.line_eq (r : ReplicationRecord) : r.line =
    match r.replicaOf with
    | some primary => cstr "replica" ++ 9 :: (primary ++ 9 :: r.body)
    | none => cstr "primary" ++ 9 :: r.body := by
  rw [line, body]
  cases r.replicaOf <;> simp

lemma length_le_serialize (ps : List (Str × Str)) :
    ps.length ≤ (serializeToReplication ps).length := by
  induction ps with
  | nil => exact le_rfl
  | cons p ps ih =>
    rw [serializeToReplication, flatMap_cons, ← serializeToReplication]
    simp only [length_cons, length_append]
    omega

lemma ReplicationRecord.length_body (r : ReplicationRecord) :
    r.labels.pairs.length + 4 ≤ r.body.length := by
  have htype := length_pos_iff.2 (stringUint_code r.dataType).1
  have hle := length_le_serialize r.labels.pairs
  rw [body]
  simp only [length_append, length_cons]
  omega

lemma fieldLoop_body (h : Carried r) (hlen : r.body.length ≤ 4095) (cluster : Str)
    {isPrimary : Bool} {ns : Option Str} {fuel : Nat} (hfuel : r.labels.pairs.length + 4 ≤ fuel) :
    fieldLoop cluster fuel r.body ⟨.data, isPrimary, ns, [], .empty, false, none⟩ =
      some { r.read cluster with namespaceOf := ns } := by
  obtain ⟨fuel, rfl⟩ : ∃ k, fuel = k + 3 + r.labels.pairs.length + 1 :=
    ⟨fuel - 4 - r.labels.pairs.length, by omega⟩
  have hname := not_mem_of_metricChar h.handed.name_char
  have hname1023 : r.name.length ≤ 1023 := h.handed.name_length.le.trans (by decide)
  have hvalue := (not_mem_stringDouble r.value).1
  obtain ⟨htype, htab, -, htlen, hatoi⟩ := stringUint_code r.dataType
  have hlabels : ∀ p ∈ r.labels.pairs,
      (9 ∉ p.1 ∧ 61 ∉ p.1 ∧ p.1.length < 255) ∧ 9 ∉ p.2 ∧ p.2.length < 255 := by
    intro p hp
    have hpn := not_mem_of_metricChar (h.handed.label p hp).1
    obtain ⟨hlen, raw, hraw⟩ := h.handed.value p hp
    exact ⟨⟨hpn.1, hpn.2.2, (h.handed.label p hp).2⟩, hraw ▸ (not_mem_normalizer raw).1, hlen⟩
  rw [body] at hlen ⊢
  simp only [length_append, length_cons] at hlen
  rw [fieldLoop_field hname.1 (by omega)]
  simp only [fieldStep, ↓reduceIte, take_of_length_le hname1023]
  rw [fieldLoop_labels hlabels ⟨rfl, h.handed.name_ne, rfl⟩, foldl_insert_pairs]
  rw [fieldLoop_empty]
  simp only [fieldStep, if_neg h.handed.name_ne, Bool.not_false, Bool.and_self, ↓reduceIte]
  rw [fieldLoop_field hvalue (by omega)]
  simp only [fieldStep, if_neg h.handed.name_ne, Bool.not_true, Bool.false_and, Bool.false_eq_true,
    ↓reduceIte]
  rw [fieldLoop_last htype htab htlen]
  simp only [fieldStep, if_neg h.handed.name_ne]
  rw [ReplicationRecord.read, ReplicationRecord.applied]
  cases r.dataType <;> rfl

lemma syncLine_record (h : Carried r) (cluster : Str) :
    syncLine cluster r.line = some (r.read cluster) := by
  have hlength := h.length
  have hbody := r.length_body
  rw [syncLine, if_neg (by omega)]
  cases hr : r.replicaOf with
  | none =>
    have hline : r.line = cstr "primary" ++ 9 :: r.body := by rw [r.line_eq, hr]
    have hcount : r.line.length = r.body.length + 7 + 1 := by
      rw [hline, length_append]
      simp [cstr]
      omega
    have hstep : fieldStep cluster .start (cstr "primary") false =
        .inl ⟨.data, true, none, [], .empty, false, none⟩ := rfl
    rw [hcount, hline, fieldLoop_field (by decide) (by decide), hstep]
    dsimp only
    rw [fieldLoop_body h (by omega) cluster (by omega), ReplicationRecord.read,
      applied, hr]
    rfl
  | some primary =>
    obtain ⟨htab, -⟩ := h.primary primary hr
    have hline : r.line = cstr "replica" ++ 9 :: (primary ++ 9 :: r.body) := by rw [r.line_eq, hr]
    have hcount : r.line.length = primary.length + r.body.length + 7 + 1 + 1 := by
      rw [hline]
      simp [cstr]
      omega
    have hstep : fieldStep cluster .start (cstr "replica") false =
        .inl { LineState.start with clusterType := .server } := rfl
    rw [hcount, hline, fieldLoop_field (by decide) (by decide), hstep]
    dsimp only
    rw [fieldLoop_field htab (by omega)]
    simp only [fieldStep, LineState.start]
    rw [fieldLoop_body h (by omega) cluster (by omega), ReplicationRecord.read,
      applied, hr]
    rfl

lemma not_mem_line (h : Handed r.name r.labels) (hprimary : ∀ p ∈ r.replicaOf, 9 ∉ p ∧ 10 ∉ p) :
    10 ∉ r.line := by
  have hname := (not_mem_of_metricChar h.name_char).2.1
  have hvalue := (not_mem_stringDouble r.value).2
  have htype := (stringUint_code r.dataType).2.2.1
  have hlabels : 10 ∉ serializeToReplication r.labels.pairs := by
    intro hmem
    obtain ⟨p, hp, hc⟩ := mem_flatMap.1 hmem
    obtain ⟨-, raw, hraw⟩ := h.value p hp
    have hn := (not_mem_of_metricChar (h.label p hp).1).2.1
    have hv := (not_mem_normalizer raw).2
    rw [← hraw] at hv
    simp [hn, hv] at hc
  have hbody : 10 ∉ r.body := by
    rw [body]
    simp [hname, hvalue, htype, hlabels]
  rw [r.line_eq]
  cases hr : r.replicaOf with
  | none => simpa [cstr] using hbody
  | some primary => simpa [cstr, (hprimary primary hr).2] using hbody

variable {rs : List ReplicationRecord}

/-- The records of a batch are applied once each, in their order. -/
lemma syncHandler_carried (h : ∀ r ∈ rs, Carried r)
    (cluster : Str) : clusterSyncHandler cluster (rs.flatMap text) = rs.map (read cluster) := by
  have htext : rs.flatMap text = unlines (rs.map line) := by
    rw [unlines, flatMap_map]
    rfl
  have hlines : ∀ l ∈ rs.map line, 10 ∉ l := by
    intro l hl
    obtain ⟨r, hr, rfl⟩ := mem_map.1 hl
    exact not_mem_line (h r hr).handed (h r hr).primary
  rw [clusterSyncHandler, htext, splitLines_unlines hlines, filterMap_append, filterMap_map]
  have hempty : [[]].filterMap (syncLine cluster) = [] := rfl
  rw [hempty, append_nil]
  have hrs : rs.filterMap (syncLine cluster ∘ line) = rs.filterMap fun r => some (r.read cluster) :=
    filterMap_congr fun r hr => syncLine_record (h r hr) cluster
  rw [hrs, filterMap_eq_map']

/-- A record that does not fit the buffer of a line is lost. -/
lemma syncHandler_long (h : Handed r.name r.labels) (hprimary : ∀ p ∈ r.replicaOf, 9 ∉ p ∧ 10 ∉ p)
    (hlong : 4095 ≤ r.line.length) (cluster : Str) : clusterSyncHandler cluster r.text = [] := by
  have htext : r.text = unlines [r.line] := by simp [text, unlines]
  have hline : ∀ l ∈ [r.line], 10 ∉ l := fun l hl =>
    mem_singleton.1 hl ▸ not_mem_line h hprimary
  have hskip : syncLine cluster r.line = none := if_pos hlong
  rw [clusterSyncHandler, htext, splitLines_unlines hline]
  simp [hskip]
  rfl

lemma syncHandler_batch (h : ∀ r ∈ rs, Replicable r)
    (cluster : Str) : clusterSyncHandler cluster (rs.flatMap text) = rs.map (applied cluster) := by
  rw [syncHandler_carried fun r hr => (h r hr).carried]
  exact map_congr_left fun r hr => (h r hr).read_eq cluster

/-- The write that a record asks for: a replica goes into the namespace of its primary. -/
def ReplicationRecord.asked (cluster : Str) (r : ReplicationRecord) : AppliedWrite :=
  ⟨r.replicaOf.map fun primary => cluster ++ 58 :: primary, r.name, r.labels, r.value,
    r.dataType.code, if r.dataType = .counter ∨ r.dataType = .histogram then .update else .add⟩

/-- In a cluster whose names fit, a known primary has its namespace. -/
lemma resolve_applied {cluster : Str} {servers : List Str}
    (hknown : ∀ p ∈ r.replicaOf, p ∈ servers)
    (hfit : ∀ p ∈ r.replicaOf, cluster.length + 1 + p.length ≤ 254) :
    (r.applied cluster).resolve (clusterNamespaces cluster servers) = r.asked cluster := by
  rw [AppliedWrite.resolve, applied, asked]
  cases hr : r.replicaOf with
  | none => rfl
  | some primary =>
    have hlen := hfit primary hr
    have hname : namespaceName (cluster.length % 65536) cluster primary =
        cluster ++ 58 :: primary := by
      rw [Nat.mod_eq_of_lt (by omega), namespaceName_eq, take_of_length_le]
      rw [length_append, length_cons]
      omega
    have hmem : cluster ++ 58 :: primary ∈ clusterNamespaces cluster servers := by
      rw [← hname, Nat.mod_eq_of_lt (by omega)]
      exact mem_map_of_mem (hknown primary hr)
    simp [hname, namespaceOfCarg, if_pos hmem]

/-- A batch is applied record by record, each once and as it was made, provided that the names
of the primaries have neither tab nor newline and fit their namespace. -/
theorem replication_round_trip {cluster : Str} {servers : List Str} {rs : List ReplicationRecord}
    (h : ∀ r ∈ rs, Replicable r) (hknown : ∀ r ∈ rs, ∀ p ∈ r.replicaOf, p ∈ servers)
    (hfit : ∀ r ∈ rs, ∀ p ∈ r.replicaOf, cluster.length + 1 + p.length ≤ 254) :
    (clusterSyncHandler cluster (rs.flatMap ReplicationRecord.text)).map
        (AppliedWrite.resolve (clusterNamespaces cluster servers)) =
      rs.map (ReplicationRecord.asked cluster) := by
  rw [syncHandler_batch h, List.map_map]
  exact List.map_congr_left fun r hr => resolve_applied (hknown r hr) (hfit r hr)

/-- The gauge `up` with a label, for a replica of `b`. -/
def upRecord : ReplicationRecord :=
  ⟨some (cstr "b"), cstr "up", LabelHash.empty.insert (cstr "job") (cstr "a=b"), ofInt 3, .gauge⟩

lemma replicable_upRecord : Replicable upRecord where
  handed := by
    refine ⟨by decide, by decide +kernel, by decide, fun p hp => ?_, fun p hp => ?_⟩ <;>
      obtain rfl : p = (cstr "job", cstr "a=b") := mem_singleton.1 hp
    · decide +kernel
    · exact ⟨by decide, cstr "a=b", by decide⟩
  value := ⟨3, rfl, by decide⟩
  length := by decide
  primary := by
    rintro p hp
    obtain rfl : cstr "b" = p := some.inj hp
    decide

/-- A counter for the owner itself. -/
def hitsRecord : ReplicationRecord := ⟨none, cstr "hits", .empty, ofInt 4, .counter⟩

lemma replicable_hitsRecord : Replicable hitsRecord where
  handed := ⟨by decide, by decide +kernel, by decide, by simp [hitsRecord, LabelHash.empty],
    by simp [hitsRecord, LabelHash.empty]⟩
  value := ⟨4, rfl, by decide⟩
  length := by decide
  primary := by simp [hitsRecord]

theorem replication_round_trip_two :
    (clusterSyncHandler (cstr "c") ([upRecord, hitsRecord].flatMap ReplicationRecord.text)).map
        (AppliedWrite.resolve (clusterNamespaces (cstr "c") [cstr "a", cstr "b"])) =
      [upRecord, hitsRecord].map (ReplicationRecord.asked (cstr "c")) := by
  refine replication_round_trip ?_ ?_ ?_ <;>
    simp only [forall_mem_cons, not_mem_nil, false_imp_iff, implies_true, and_true]
  · exact ⟨replicable_upRecord, replicable_hitsRecord⟩
  · simp [upRecord, hitsRecord]
  · exact ⟨by rintro p ⟨⟩; decide, by rintro p ⟨⟩⟩

/-- The name of the cluster takes the whole buffer, and all primaries share the namespace. -/
theorem replication_round_trip_long :
    Replicable upRecord ∧
    (clusterSyncHandler (List.replicate 254 99) ([upRecord].flatMap ReplicationRecord.text)).map
        (AppliedWrite.resolve (clusterNamespaces (List.replicate 254 99) [cstr "a", cstr "b"])) ≠
      [upRecord].map (ReplicationRecord.asked (List.replicate 254 99)) := by
  refine ⟨replicable_upRecord, fun heq => ?_⟩
  have hns := congrArg (List.map AppliedWrite.namespaceOf) heq
  revert hns
  decide +kernel

end Alligator
