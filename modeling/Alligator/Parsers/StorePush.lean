import Alligator.Metric.Dump
import Alligator.Parsers.PushgatewayDelete
import Alligator.Parsers.PushgatewayProto

/-!
# Pushes and the store

What the operations of a push do to the namespace of an entrypoint that has no mappings and
no filters.  A sample is put into the store with the time to live of its connection, and
comments change the metadata of families.  No push brings the store out of order
(`PushOp.store_holds`).
-/

namespace Alligator

open Text Binary64

/-- What a push writes with: the times to live of the configuration, the key of the
entrypoint and the durations that its statistics report. -/
structure PushEnv extends RestoreEnv where
  ttl : Int
  key : Option Str
  parsing : BitVec 64
  metrictree : BitVec 64
  split : BitVec 64
  /-- The time to live of the connection when the statistics are written. -/
  statisticsTtl : Int

def metricUpdate (e : RestoreEnv) (s : Store) (name : Str) (labels : LabelHash) (type : DataType)
    (value : BitVec 64) (ttl : Int) : Option Store :=
  (upsertSample e.addDouble e.clock s name labels ⟨type, value, ttl, true, false⟩).map Prod.fst

/-- `get_ttl` of a connection. -/
def PushEnv.getTtl (e : PushEnv) (currTtl : Int) : Int := Alligator.getTtl e.acTtl e.ttl currTtl

variable (e : PushEnv)

def pushStatistics (parsed accepted : Nat) : List (Str × DataType × BitVec 64) :=
  [(cstr "alligator_push_parsing_duration_seconds", .double, e.parsing),
    (cstr "alligator_push_metrictree_duration_seconds", .double, e.metrictree),
    (cstr "alligator_push_split_duration_seconds", .double, e.split),
    (cstr "alligator_push_parsed_lines_count", .uint, BitVec.ofNat 64 parsed),
    (cstr "alligator_push_accepted_lines_count", .uint, BitVec.ofNat 64 accepted)]

def PushOp.store (s : Store) : PushOp → Option Store
  | .sample x .add currTtl =>
    metricAdd e.toRestoreEnv s x.name x.labels .double x.value (e.getTtl currTtl)
  | .sample x .update currTtl =>
    metricUpdate e.toRestoreEnv s x.name x.labels .double x.value (e.getTtl currTtl)
  | .statistics parsed accepted =>
    let labels := e.key.elim LabelHash.empty fun key => LabelHash.empty.insert (cstr "key") key
    (pushStatistics e parsed accepted).foldlM
      (fun s m => metricAdd e.toRestoreEnv s m.1 labels m.2.1 m.2.2 (e.getTtl e.statisticsTtl)) s
  | .type .. | .help .. => some s

structure EntryNamespace where
  store : Store
  families : Families

def EntryNamespace.act (ns : EntryNamespace) (op : PushOp) : EntryNamespace :=
  ⟨(op.store e ns.store).getD ns.store, op.families ns.families⟩

/-! ## The store stays in order -/

variable {s s' : Store} {L L' : List Record}

lemma upsert_holds (h : Holds s L) (e : RestoreEnv) (name labels u) :
    ∃ s' L', (upsertSample e.addDouble e.clock s name labels u).map Prod.fst = some s' ∧
      Holds s' L' := by
  obtain ⟨s', p, L', x, hs', h', -⟩ := upsertSample_spec h e.addDouble e.clock name labels u
  exact ⟨s', L', by rw [hs', Option.map_some], h'⟩

lemma metricAdds_hold (h : Holds s L) (e labels ttl)
    (ms : List (Str × DataType × BitVec 64)) :
    ∃ s' L', ms.foldlM (fun s m => metricAdd e s m.1 labels m.2.1 m.2.2 ttl) s = some s' ∧
      Holds s' L' := by
  induction ms generalizing s L with
  | nil => exact ⟨_, _, rfl, h⟩
  | cons m ms ih =>
    rw [List.foldlM_cons, metricAdd]
    split_ifs
    · exact ih h
    · obtain ⟨s1, L1, h1, hs1⟩ := upsert_holds h e m.1 labels ⟨m.2.1, m.2.2, ttl, false, false⟩
      rw [h1]
      exact ih hs1

lemma PushOp.store_holds (h : Holds s L) (e : PushEnv) (op : PushOp) :
    ∃ s' L', op.store e s = some s' ∧ Holds s' L' := by
  cases op with
  | type _ _ | help _ _ => exact ⟨s, L, rfl, h⟩
  | statistics parsed accepted => exact metricAdds_hold h ..
  | sample x write currTtl =>
    cases write with
    | add =>
      simpa [store] using metricAdds_hold h e.toRestoreEnv x.labels _ [(x.name, .double, x.value)]
    | update => exact upsert_holds h ..

/-- Whatever is pushed, and at whatever times, a series is stored once, with one node on one list
of the wheel. -/
theorem pushes_keep_store (maxSeries : Nat) (families : Families)
    (ops : List (PushEnv × PushOp)) :
    let s := (ops.foldl (fun (ns : EntryNamespace) op => ns.act op.1 op.2)
      ⟨.init maxSeries, families⟩).store
    ExpiryOwned s ∧ (s.contents.map Record.seriesKey).Nodup := by
  intro s
  obtain ⟨L, h⟩ : ∃ L, Holds s L := by
    refine ops.foldlRecOn (motive := fun ns : EntryNamespace => ∃ L, Holds ns.store L) _
      ⟨[], holds_init maxSeries⟩ ?_
    rintro ns ⟨L, h⟩ ⟨e, op⟩ -
    obtain ⟨s', L', hop, h'⟩ := op.store_holds h e
    rw [EntryNamespace.act, hop]
    exact ⟨L', h'⟩
  have hkeys := h.contents_eq ▸ h.nodup_seriesKey
  obtain ⟨T, lists, S, -⟩ := h
  exact ⟨S.expiryOwned, hkeys⟩

/-! ## What an added sample changes -/

def Store.sampleAt (s : Store) (k : SeriesKey) : Option (DataType × BitVec 64) :=
  (s.contents.find? fun x => decide (x.seriesKey = k)).map fun x => (x.series.type, x.series.value)

lemma Holds.sampleAt_eq_some (h : Holds s L) {k : SeriesKey} {v : DataType × BitVec 64} :
    s.sampleAt k = some v ↔ ∃ x ∈ L, x.seriesKey = k ∧ (x.series.type, x.series.value) = v := by
  rw [Store.sampleAt, h.contents_eq, Option.map_eq_some_iff]
  constructor
  · rintro ⟨x, hx, hv⟩
    exact ⟨x, List.mem_of_find?_eq_some hx, of_decide_eq_true (List.find?_some hx :), hv⟩
  · rintro ⟨x, hx, hk, hv⟩
    cases hfind : L.find? (fun y => decide (y.seriesKey = k)) with
    | none => exact absurd (decide_eq_true hk) (List.find?_eq_none.mp hfind x hx)
    | some y =>
      have hy : y.seriesKey = k := of_decide_eq_true (List.find?_some hfind :)
      have hyx : y = x := h.seriesKey_inj (List.mem_of_find?_eq_some hfind) hx (hy.trans hk.symm)
      exact ⟨y, rfl, hyx ▸ hv⟩

lemma Holds.sampleAt_update (h : Holds s L) (h' : Holds s' L') {x : Record} (hx : x ∈ L')
    (hother : ∀ y : Record, y.seriesKey ≠ x.seriesKey → (y ∈ L' ↔ y ∈ L)) (k : SeriesKey) :
    s'.sampleAt k =
      if k = x.seriesKey then some (x.series.type, x.series.value) else s.sampleAt k := by
  split
  · rename_i hk
    exact h'.sampleAt_eq_some.mpr ⟨x, hx, hk.symm, rfl⟩
  · rename_i hk
    ext v
    rw [h'.sampleAt_eq_some, h.sampleAt_eq_some]
    refine exists_congr fun y => ?_
    by_cases hy : y.seriesKey = k
    · rw [hother y (hy ▸ hk)]
    · simp [hy]

/-- A number is added to a namespace without a cap, whose plan has room for its labels. -/
lemma metricAdd_sampleAt (h : Holds s L) (hmax : s.maxSeries = 0) {p : SortPlan}
    (hplan : s.plan.labels ⊆ p.labels) (e : RestoreEnv) {name : Str} {hash : LabelHash}
    (hhash : ∀ c ∈ hash.pairs, c.1 ∈ p.labels) (hname : numbercheck name = false)
    {value : BitVec 64} (hvalue : notFinite value = false) (ttl : Int) :
    ∃ s' L', metricAdd e s name hash .double value ttl = some s' ∧ Holds s' L' ∧
      s'.maxSeries = 0 ∧ s'.plan.labels ⊆ p.labels ∧ ∀ k, s'.sampleAt k =
        if k = sampleKey name hash then some (.double, value) else s.sampleAt k := by
  have hkey : seriesKey (chainOf s name hash) = sampleKey name hash :=
    seriesKey_labelsInitiate_of_subset hplan hhash
  obtain ⟨s', q, L', y, hs', h', up, -, -, hplan', hmax'⟩ := upsertSample_spec h e.addDouble
    e.clock name hash ⟨.double, value, ttl, false, false⟩
  refine ⟨s', L', ?_, h', hmax'.trans hmax, ?_, ?_⟩
  · rw [metricAdd, hname, hs']
    rfl
  · rw [hplan']
    exact labelsInitiate_subset hplan hhash
  · cases up with
    | @written L1 L2 x found =>
      have hx : x.seriesKey = sampleKey name hash := by
        rw [← hkey]
        exact (h.sortKey_iff (by simp)).mp found
      generalize hw : writtenRecord e.clock ttl (Upsert.sample e.addDouble
        ⟨.double, value, ttl, false, false⟩) x = w at *
      have hwx : w.seriesKey = x.seriesKey := by
        rw [← hw, Record.seriesKey, writtenRecord, Upsert.sample_labels]
        rfl
      have hentry : w.series.type = .double ∧ w.series.value = value := by
        have hwritten := Upsert.entry_written e.addDouble e.clock
          ⟨.double, value, ttl, false, false⟩ x
        rw [show writtenRecord _ _ _ x = w from hw] at hwritten
        have hval := congrArg Entry.value hwritten
        simp only [Upsert.write, hvalue] at hval
        exact ⟨congrArg Entry.type hwritten, hval⟩
      intro k
      rw [h.sampleAt_update h' (x := w) (by simp), hwx, hx, hentry.1, hentry.2]
      intro z hz
      have hzw : z ≠ w := fun e => hz (e ▸ rfl)
      have hzx : z ≠ x := fun e => hz (e ▸ hwx.symm)
      simp [hzw, hzx]
    | dropped _ hfull =>
      rw [capped, hmax] at hfull
      simp at hfull
    | @inserted l r =>
      have hn : (newRecord e.clock (chainOf s name hash) .double value ttl).seriesKey =
          sampleKey name hash := hkey
      intro k
      rw [h.sampleAt_update h' (x := newRecord e.clock (chainOf s name hash) .double value ttl)
        (by simp), hn]
      · simp [newRecord, makeNode, initialValue, hvalue]
      · intro z hz
        have hzn : z ≠ newRecord e.clock (chainOf s name hash) .double value ttl :=
          fun e => hz (e ▸ rfl)
        simp [hzn]

end Alligator
