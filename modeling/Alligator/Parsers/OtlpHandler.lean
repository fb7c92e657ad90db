import Alligator.Parsers.OtlpJson

/-!
# The handler of export requests

`otlp_metrics_ingest_handler` takes the body of a request for protocol buffers or for JSON, by
its headers or its first byte, and answers for it as a whole.  The reader of protocol buffers
stores as it reads, so a body that is refused for a torn field has stored the data points in
front of it (`CarriesPoint`).
-/

namespace Alligator

open Text Binary64 Protobuf Json List Option Field

variable {f : Field}

/-! ## The handler -/

/-- The answers of `otlp_metrics_ingest_handler`: 405, a status with `linesOk` and
`linesInvalid`, and 400 with 0 and 1 for a body that cannot be parsed. -/
inductive OtlpAnswer where
  | methodNotAllowed
  | counts (code linesOk linesInvalid : Nat)
  | unparsed
  deriving DecidableEq

def otlpHeadersHaveProtobuf (http : HttpReplyData) : Bool :=
  match http.headers with
  | none => false
  | some h =>
    (strcasestr h (cstr "content-type:")).isSome &&
      ((strcasestr h (cstr "application/x-protobuf")).isSome ||
        (strcasestr h (cstr "application/protobuf")).isSome ||
        (strcasestr h (cstr "application/octet-stream")).isSome)

def otlpBodyLooksJson (body : Str) : Bool :=
  match body.dropWhile isSpace with
  | [] => false
  | c :: _ => c == 123 || c == 91

def OtlpState.answer (st : OtlpState) : OtlpState × OtlpAnswer :=
  (st, .counts (if st.bad ≠ 0 then 400 else 202) st.ok st.bad)

section Handler

variable (e : OtlpEnv) (loadb : Str → Option Tree) (http : HttpReplyData) (st : OtlpState)

/-- `otlp_metrics_ingest_handler`, where `loadb` is what `json_loadb` makes of a body. -/
def otlpMetricsIngestHandler : OtlpState × OtlpAnswer :=
  if http.method ≠ .post then (st, .methodNotAllowed)
  else
    let st := { st with ok := 0, bad := 0, pushAcceptedLines := 0, parserStatus := 0 }
    let body := http.body.getD []
    if body = [] then (st, .counts 202 0 0)
    else
      let pb := otlpIngestResourceMetricsProtobuf e body st
      if otlpHeadersHaveProtobuf http then
        if pb.2 then pb.1.answer
        else
          match loadb body with
          | some root => (otlpIngestResourceMetricsJson e root pb.1).answer
          | none => (pb.1, .unparsed)
      else
        match if otlpBodyLooksJson body then loadb body else none with
        | some root => (otlpIngestResourceMetricsJson e root st).answer
        | none => if pb.2 then pb.1.answer else (pb.1, .unparsed)

end Handler

/-! ## What a refused body stores -/

/-- The message in a field with one of the numbers. -/
def fieldMessage (nums : List Nat) (f : Field) : Option Str :=
  match f.value with
  | .len s => if f.num ∈ nums then some s else none
  | _ => none

/-- The messages in the complete fields with one of the numbers. -/
def messages (nums : List Nat) (p : Str) : List Str := (readFields p).1.filterMap (fieldMessage nums)

/-- A data point has a double or an integer. -/
def hasValue (point : Str) : Bool :=
  (readFields point).1.any fun f =>
    match f.num, f.value with
    | 4, .fixed64 _ | 6, .fixed64 _ => true
    | _, _ => false

/-- The metric has a name that is accepted and is no number, and a data point with a value. -/
def MetricCarries (metric : Str) : Prop :=
  ((otlpPbMetricName metric otlpNameMax).bind fun name => otlpMetricName (untilNul name)).any
      (!numbercheck ·) = true ∧
    ∃ data ∈ messages [5, 7] metric, ∃ point ∈ messages [1] data, hasValue point

/-- Some metric of the complete fields of a body carries a data point. -/
def CarriesPoint (body : Str) : Prop :=
  ∃ resource ∈ messages [1] body, ∃ scope ∈ messages [2] resource,
    ∃ metric ∈ messages [2] scope, MetricCarries metric

instance : DecidablePred MetricCarries := fun _ => by unfold MetricCarries; infer_instance

instance : DecidablePred CarriesPoint := fun _ => by unfold CarriesPoint; infer_instance

lemma isSome_parseNumberDatapoint (p : Str) :
    (otlpPbParseNumberDatapoint p).isSome = hasValue p := by
  have hfold : ∀ (fs : List Field) (r : PbPoint), (fs.foldl pbPointField r).value.isSome =
      (r.value.isSome || fs.any fun f =>
        match f.num, f.value with
        | 4, .fixed64 _ | 6, .fixed64 _ => true
        | _, _ => false) := by
    intro fs
    induction fs with
    | nil => simp
    | cons f fs ih =>
      intro r
      rw [foldl_cons, ih, any_cons, ← Bool.or_assoc]
      congr 1
      unfold pbPointField
      grind
  rw [otlpPbParseNumberDatapoint, Option.isSome_map, hfold]
  rfl

/-- A namespace in order and without a cap. -/
def Store.Uncapped (s : Store) : Prop := (∃ L, Holds s L) ∧ s.maxSeries = 0

/-- A store is left alone, or has a series afterwards if it has no cap. -/
structure Stores (P : Prop) (s s' : Store) : Prop where
  same : ¬P → s' = s
  uncapped : s.Uncapped → s'.Uncapped
  filled : s.Uncapped → P ∨ s.contents ≠ [] → s'.contents ≠ []

variable {P Q : Prop} {s s' s'' : Store}

lemma Stores.refl (hP : ¬P) (s : Store) : Stores P s s :=
  ⟨fun _ => rfl, id, fun _ h => h.resolve_left hP⟩

lemma Stores.trans (h : Stores P s s') (h' : Stores Q s' s'') : Stores (P ∨ Q) s s'' where
  same hPQ := (h'.same fun hQ => hPQ (.inr hQ)).trans (h.same fun hP => hPQ (.inl hP))
  uncapped hs := h'.uncapped (h.uncapped hs)
  filled hs hor := by
    refine h'.filled (h.uncapped hs) ?_
    obtain (hP | hQ) | hfull := hor
    · exact .inr (h.filled hs (.inl hP))
    · exact .inl hQ
    · exact .inr (h.filled hs (.inr hfull))

lemma stores_metricAdd (e : RestoreEnv) (s : Store) (name : Str) (hash : LabelHash)
    (type : DataType) (value : BitVec 64) (ttl : Int) :
    Stores (numbercheck name = false) s
      ((metricAdd e s name hash type value ttl).getD s) := by
  rw [metricAdd]
  split_ifs with hname
  · exact .refl (by simp [hname]) s
  suffices h : s.Uncapped → ∃ s' L', upsertSample e.addDouble e.clock s name hash
      ⟨type, value, ttl, false, false⟩ = some (s', L') ∧ s'.Uncapped ∧ s'.contents ≠ [] by
    refine ⟨fun hne => absurd (by simpa using hname) hne, fun hs => ?_, fun hs _ => ?_⟩ <;>
    · obtain ⟨s', _, hup, hs', hfull⟩ := h hs
      rw [hup]
      first | exact hs' | exact hfull
  rintro ⟨⟨L, hL⟩, hmax⟩
  obtain ⟨s', p, L', y, hup, hL', up, -, -, -, hmax'⟩ := upsertSample_spec hL e.addDouble e.clock
    name hash ⟨type, value, ttl, false, false⟩
  refine ⟨s', p, hup, ⟨⟨L', hL'⟩, hmax'.trans hmax⟩, ?_⟩
  rw [hL'.contents_eq]
  cases up with
  | written | inserted => simp
  | dropped _ hfull => simp [capped, hmax] at hfull

/-- A loop over the fields of a message stores if one of its steps does. -/
lemma Stores.messages {nums : List Nat} {step : σ → Field → σ} (view : σ → Store)
    {Q : Str → Prop} (hskip : ∀ r f, fieldMessage nums f = none → view (step r f) = view r)
    (hstep : ∀ r, ∀ n ∈ nums, ∀ m, Stores (Q m) (view r) (view (step r ⟨n, .len m⟩)))
    (p : Str) (r : σ) :
    Stores (∃ m ∈ messages nums p, Q m) (view r) (view ((readFields p).1.foldl step r)) := by
  rw [Alligator.messages]
  induction (readFields p).1 generalizing r with
  | nil => exact .refl (by simp) _
  | cons f fs ih =>
    rw [foldl_cons]
    cases hf : fieldMessage nums f with
    | none =>
      have htail := ih (step r f)
      rwa [hskip r f hf, ← filterMap_cons_none hf] at htail
    | some m =>
      have hfm : ∃ n ∈ nums, f = ⟨n, .len m⟩ := by
        obtain ⟨num, value⟩ := f
        cases value <;> grind [fieldMessage]
      obtain ⟨n, hn, rfl⟩ := hfm
      rw [filterMap_cons_some hf, exists_mem_cons_iff]
      exact (hstep r n hn m).trans (ih _)

section Reader

variable (e : OtlpEnv) (st : OtlpState)

lemma stores_parseMetricData (p : Str) (name : Option Str) (res : Option LabelHash)
    (type : MetricType) :
    Stores (name.any (!numbercheck ·) = true ∧ ∃ point ∈ messages [1] p, hasValue point) st.ns.store
      (otlpPbParseMetricData e p name res type st).ns.store := by
  cases name with
  | none => exact .refl (by simp) _
  | some name =>
    have hiff : ((some name).any (!numbercheck ·) = true ∧
        ∃ point ∈ messages [1] p, hasValue point) ↔
        ∃ point ∈ messages [1] p, hasValue point ∧ numbercheck name = false := by
      simp only [Option.any_some, Bool.not_eq_true']
      grind
    rw [hiff]
    refine Stores.messages (fun st : OtlpState => st.ns.store) ?_ ?_ p st
    · intro st f hf
      unfold numberDataField
      grind [fieldMessage]
    · rintro st n hn m
      obtain rfl : n = 1 := by simpa using hn
      rw [← isSome_parseNumberDatapoint]
      simp only [numberDataField, if_true]
      cases hpoint : otlpPbParseNumberDatapoint m with
      | none => exact .refl (by simp) _
      | some point =>
        simp only [Option.isSome_some, true_and]
        exact stores_metricAdd ..

lemma stores_parseMetric (p : Str) (res : Option LabelHash) :
    Stores (MetricCarries p) st.ns.store (otlpPbParseMetric e p res st).ns.store := by
  have hiff : MetricCarries p ↔ ∃ data ∈ messages [5, 7] p,
      ((otlpPbMetricName p otlpNameMax).bind fun name => otlpMetricName (untilNul name)).any
        (!numbercheck ·) = true ∧ ∃ point ∈ messages [1] data, hasValue point := by
    rw [MetricCarries]
    grind
  rw [hiff]
  refine Stores.messages (fun st : OtlpState => st.ns.store) ?_ ?_ p st
  · intro st f hf
    unfold metricField
    grind [fieldMessage]
  · rintro st n hn m
    obtain rfl | rfl : n = 5 ∨ n = 7 := by simpa using hn
    · exact stores_parseMetricData ..
    · exact stores_parseMetricData ..

lemma stores_ingestProtobuf (body : Str) :
    Stores (CarriesPoint body) st.ns.store
      (otlpIngestResourceMetricsProtobuf e body st).1.ns.store := by
  refine Stores.messages (fun r : OtlpState × Bool => r.1.ns.store) ?_ ?_ body (st, false)
  · intro r f hf
    unfold requestField
    grind [fieldMessage]
  rintro r n hn resource
  obtain rfl : n = 1 := by simpa using hn
  refine Stores.messages (fun r : Option LabelHash × OtlpState => r.2.ns.store) ?_ ?_ resource
    (none, r.1)
  · intro r f hf
    unfold resourceMetricsField
    grind [fieldMessage]
  rintro r n hn scope
  obtain rfl : n = 2 := by simpa using hn
  refine Stores.messages (fun st : OtlpState => st.ns.store) ?_ ?_ scope r.2
  · intro st f hf
    unfold scopeMetricsField
    grind [fieldMessage]
  rintro st n hn metric
  obtain rfl : n = 2 := by simpa using hn
  exact stores_parseMetric ..

/-- What is parsed does not depend on the namespace. -/
lemma ingestProtobuf_parsed (body : Str) (st' : OtlpState) :
    (otlpIngestResourceMetricsProtobuf e body st).2 =
      (otlpIngestResourceMetricsProtobuf e body st').2 := by
  have hfold : ∀ (fs : List Field) (r r' : OtlpState × Bool), r.2 = r'.2 →
      (fs.foldl (requestField e) r).2 = (fs.foldl (requestField e) r').2 := by
    intro fs
    induction fs with
    | nil => exact fun r r' h => h
    | cons f fs ih =>
      intro r r' h
      refine ih _ _ ?_
      unfold requestField
      split
      · rfl
      · exact h
  exact congrArg ((readFields body).2 && ·) (hfold _ _ _ rfl)

variable (loadb : Str → Option Tree) (http : HttpReplyData)

/-- A body is refused with what the reader of protocol buffers stored in front of the fault. -/
lemma handler_unparsed (h : (otlpMetricsIngestHandler e loadb http st).2 = .unparsed) :
    (otlpMetricsIngestHandler e loadb http st).1 =
      (otlpIngestResourceMetricsProtobuf e (http.body.getD [])
        { st with ok := 0, bad := 0, pushAcceptedLines := 0, parserStatus := 0 }).1 := by
  unfold otlpMetricsIngestHandler at h ⊢
  grind [OtlpState.answer]

lemma handler_unparsed_any (h : (otlpMetricsIngestHandler e loadb http st).2 = .unparsed)
    (st' : OtlpState) : (otlpMetricsIngestHandler e loadb http st').2 = .unparsed := by
  have hparsed := ingestProtobuf_parsed e
    { st with ok := 0, bad := 0, pushAcceptedLines := 0, parserStatus := 0 } (http.body.getD [])
    { st' with ok := 0, bad := 0, pushAcceptedLines := 0, parserStatus := 0 }
  unfold otlpMetricsIngestHandler at h ⊢
  grind [OtlpState.answer]

/-- A body that cannot be parsed leaves the series of every namespace alone, unless its complete
fields carry a data point. -/
theorem unparsed_stores_nothing_iff
    (h : (otlpMetricsIngestHandler e loadb http st).2 = .unparsed) :
    (∀ (st' : OtlpState) (k : SeriesKey),
        (otlpMetricsIngestHandler e loadb http st').1.ns.store.sampleAt k =
          st'.ns.store.sampleAt k) ↔
      ¬CarriesPoint (http.body.getD []) := by
  have hstores (st' : OtlpState) : Stores (CarriesPoint (http.body.getD [])) st'.ns.store
      (otlpMetricsIngestHandler e loadb http st').1.ns.store := by
    rw [handler_unparsed e st' loadb http (handler_unparsed_any e st loadb http h st')]
    exact stores_ingestProtobuf e
      { st' with ok := 0, bad := 0, pushAcceptedLines := 0, parserStatus := 0 } _
  constructor
  · intro hsame hpoint
    -- in a namespace without series a stored point shows
    have hinit : (Store.init 0).Uncapped := ⟨⟨[], holds_init 0⟩, rfl⟩
    specialize hsame { st with ns := ⟨.init 0, st.ns.families⟩ }
    have hst := hstores { st with ns := ⟨.init 0, st.ns.families⟩ }
    obtain ⟨⟨L, hL⟩, -⟩ := hst.uncapped hinit
    have hfull := hst.filled hinit (.inl hpoint)
    rw [hL.contents_eq] at hfull
    obtain ⟨x, hx⟩ := exists_mem_of_ne_nil L hfull
    have hkey := hL.sampleAt_eq_some.mpr ⟨x, hx, rfl, rfl⟩
    rw [hsame] at hkey
    cases hkey
  · intro hnone st' k
    rw [(hstores st').same hnone]

end Reader

def otlpPost (body : Str) : HttpReplyData := { HttpReplyData.zero .post with body := some body }

/-- A request with one gauge, whose data point is one and has an attribute. -/
def gaugeRequest (name : Str) : Str :=
  let pair := encode [⟨1, .len (cstr "k")⟩, ⟨2, .len (encode [⟨1, .len (cstr "v")⟩])⟩]
  let point := encode [⟨6, .fixed64 1⟩, ⟨7, .len pair⟩]
  let metric := encode [⟨1, .len name⟩, ⟨5, .len (encode [⟨1, .len point⟩])⟩]
  encode [⟨1, .len (encode [⟨2, .len (encode [⟨2, .len metric⟩])⟩])⟩]

/-- The data point in front of the torn field has no metric name. -/
theorem unparsed_stores_nothing_nameless :
    let http := otlpPost (gaugeRequest [] ++ [0x80])
    (otlpMetricsIngestHandler plainOtlp (fun _ => none) http freshOtlp).2 = .unparsed ∧
      ∀ st k, (otlpMetricsIngestHandler plainOtlp (fun _ => none) http st).1.ns.store.sampleAt k =
        st.ns.store.sampleAt k :=
  ⟨by decide, (unparsed_stores_nothing_iff _ freshOtlp _ _ (by decide)).mpr (by decide)⟩

/-- A request with a torn field behind it is refused as a whole, and its data point is stored. -/
theorem unparsed_stores_point :
    let http := otlpPost (gaugeRequest (cstr "m") ++ [0x80])
    let r := otlpMetricsIngestHandler plainOtlp (fun _ => none) http freshOtlp
    r.2 = .unparsed ∧ freshOtlp.ns.store.sampleAt (cstr "m", {(cstr "k", cstr "v")}) = none ∧
      r.1.ns.store.sampleAt (cstr "m", {(cstr "k", cstr "v")}) = some (.double, ofInt 1) := by
  decide

end Alligator
