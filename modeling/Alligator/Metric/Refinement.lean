import Alligator.Metric.Namespace
import Mathlib.Data.Finmap

/-!
# The store as a finite map

What the series store is for: a finite map from series to samples.  A series is a
metric name with a set of label pairs, and a sample is a type, a value and an
expire key.  Label chains, the sort plan, the tree and the wheel do not appear in
it.

`run_refines` says that the store does what the map does, operation by operation,
as long as the sort plan does not fill up.  The simulation relation `Refines`
relates the records of the store to the entries of the map.
-/

namespace Alligator

open Memory DList RedBlack List Option

variable {x : Record} {k : SeriesKey}

/-! ## The map -/

structure Entry where
  type : DataType
  value : BitVec 64
  key : Int
deriving DecidableEq

/-- The abstract store. -/
abbrev SeriesMap := Finmap fun _ : SeriesKey => Entry

inductive MapOp where
  | upsert (clock : Clock) (name : Str) (hash : LabelHash) (u : Upsert)
  | delete (base : Int) (name : Str) (hash : LabelHash)
  | find (name : Str) (hash : LabelHash)

/-- What a client sees of an operation: whether the sample was stored, whether a
series was deleted, and what was found. -/
inductive Out where
  | stored (b : Bool)
  | deleted (b : Bool)
  | found (e : Option Entry)
deriving DecidableEq

def sampleKey (name : Str) (hash : LabelHash) : SeriesKey := (name, hash.pairs.toFinset)

variable (addDouble : AddDouble)

/-- What an upsert makes of an entry that is there. -/
def Upsert.write (clock : Clock) (u : Upsert) (e : Entry) : Entry where
  type := if u.add then e.type else u.type
  value := match u.type with
    | .int | .uint => if u.add then e.value + u.value else u.value
    | .double =>
      if notFinite u.value then if u.add then e.value else 0
      else if u.add then addDouble e.value u.value else u.value
    | .none => e.value
  key := refreshedKey clock u.ttl e.key

def Upsert.new (clock : Clock) (u : Upsert) : Entry :=
  ⟨u.type, initialValue u.type u.value, clock.sec + u.ttl⟩

/-- The map has as many series as the cap allows. -/
def SeriesMap.full (maxSeries : Nat) (m : SeriesMap) (bypass : Bool) : Bool :=
  !bypass && decide (0 < maxSeries) && decide (maxSeries ≤ m.keys.card)

def SeriesMap.step (maxSeries : Nat) (m : SeriesMap) : MapOp → SeriesMap × Out
  | .upsert clock name hash u =>
    match m.lookup (sampleKey name hash) with
    | some e => (m.insert (sampleKey name hash) (u.write addDouble clock e), .stored true)
    | none =>
      if m.full maxSeries u.bypass then (m, .stored false)
      else (m.insert (sampleKey name hash) (u.new clock), .stored true)
  | .delete _ name hash =>
    (m.erase (sampleKey name hash), .deleted (m.lookup (sampleKey name hash)).isSome)
  | .find name hash => (m, .found (m.lookup (sampleKey name hash)))

def SeriesMap.run (addDouble : AddDouble) (maxSeries : Nat) :
    SeriesMap → List MapOp → SeriesMap × List Out
  | m, [] => (m, [])
  | m, op :: ops =>
    let (m, out) := m.step addDouble maxSeries op
    let (m, outs) := SeriesMap.run addDouble maxSeries m ops
    (m, out :: outs)

/-! ## The store under the same operations -/

def Record.entry (x : Record) : Entry := ⟨x.series.type, x.series.value, x.key⟩

def Record.seriesKey (x : Record) : SeriesKey := Alligator.seriesKey x.series.labels

def Store.mapStep (s : Store) : MapOp → Option (Store × Out)
  | .upsert clock name hash u => do
    let (s, p) ← upsertSample addDouble clock s name hash u
    return (s, .stored p.isSome)
  | .delete base name hash => do
    let (s, ret) ← deleteSample base s name hash
    return (s, .deleted ret)
  | .find name hash => do
    let (s, p) ← findSample s name hash
    return (s, .found ((p.bind (recordAt s)).map Record.entry))

def Store.mapRun (addDouble : AddDouble) :
    Store → List MapOp → Option (Store × List Out)
  | s, [] => some (s, [])
  | s, op :: ops => do
    let (s, out) ← s.mapStep addDouble op
    let (s, outs) ← Store.mapRun addDouble s ops
    return (s, out :: outs)

/-! ## The simulation relation -/

def Refines (L : List Record) (m : SeriesMap) : Prop :=
  ∀ k e, m.lookup k = some e ↔ ∃ x ∈ L, x.seriesKey = k ∧ x.entry = e

variable {L' : List Record}

section Refines

variable {s : Store} {L : List Record} {m : SeriesMap} {name : Str} {hash : LabelHash}

lemma Holds.seriesKey_inj (h : Holds s L) {y : Record} (hx : x ∈ L) (hy : y ∈ L)
    (hkey : x.seriesKey = y.seriesKey) : x = y := by
  obtain ⟨T, lists, S, hs⟩ := h
  exact hs.inj hx hy ((sortKey_eq_iff (S.fits x hx) (S.fits y hy)).mpr hkey)

lemma Holds.nodup_seriesKey (h : Holds s L) : (L.map Record.seriesKey).Nodup := by
  refine List.Nodup.map_on (fun x hx y hy e => h.seriesKey_inj hx hy e) ?_
  obtain ⟨T, lists, S, hs⟩ := h
  exact List.Nodup.of_map _ hs.nodup

lemma Refines.card (r : Refines L m) (h : Holds s L) : m.keys.card = L.length := by
  have hkeys : m.keys = (L.map Record.seriesKey).toFinset := by
    ext k
    rw [Finmap.mem_keys, ← Finmap.lookup_isSome, isSome_iff_exists, List.mem_toFinset, List.mem_map]
    constructor
    · rintro ⟨e, he⟩
      obtain ⟨x, hx, hk, -⟩ := (r k e).mp he
      exact ⟨x, hx, hk⟩
    · rintro ⟨x, hx, hk⟩
      exact ⟨x.entry, (r k x.entry).mpr ⟨x, hx, hk, rfl⟩⟩
  rw [hkeys, toFinset_card_of_nodup h.nodup_seriesKey, length_map]

lemma Holds.sortKey_iff (h : Holds s L) (hx : x ∈ L) : x.sortKey = sortKey (chainOf s name hash) ↔
      x.seriesKey = seriesKey (chainOf s name hash) := by
  obtain ⟨T, lists, S, -⟩ := h
  have hfits := (S.fits x hx).grows (labelsInitiate_grows s.plan hash name)
  exact sortKey_eq_iff hfits (labelsInitiate_fits s.plan hash name)

lemma Holds.sortKey_chainOf (h : Holds s L) (room : (planAfter s name hash).size < sortplanMax)
    (hx : x ∈ L) :
    x.sortKey = sortKey (chainOf s name hash) ↔ x.seriesKey = sampleKey name hash := by
  have hkey : seriesKey (chainOf s name hash) = sampleKey name hash := seriesKey_labelsInitiate room
  rw [← hkey]
  exact h.sortKey_iff hx

lemma Refines.lookup_eq_none (r : Refines L m) : m.lookup k = none ↔ ∀ x ∈ L, x.seriesKey ≠ k := by
  rw [eq_none_iff_forall_not_mem]
  constructor
  · intro h x hx e
    exact h x.entry ((r k x.entry).mpr ⟨x, hx, e, rfl⟩)
  · intro h e he
    obtain ⟨x, hx, hk, -⟩ := (r k e).mp he
    exact h x hx hk

lemma Refines.update (r : Refines L m) {m' : SeriesMap}
    (hL : ∀ y : Record, y.seriesKey ≠ k → (y ∈ L' ↔ y ∈ L))
    (hm : ∀ k', k' ≠ k → m'.lookup k' = m.lookup k')
    (hk : ∀ e, m'.lookup k = some e ↔ ∃ x ∈ L', x.seriesKey = k ∧ x.entry = e) : Refines L' m' := by
  intro k' e
  by_cases h : k' = k
  · subst h
    exact hk e
  · rw [hm k' h, r k' e]
    refine exists_congr fun x => ?_
    by_cases hx : x.seriesKey = k'
    · rw [hL x (hx ▸ h)]
    · simp [hx]

lemma Holds.entry_iff (h : Holds s L) (hx : x ∈ L) (e : Entry) :
    (∃ y ∈ L, y.seriesKey = x.seriesKey ∧ y.entry = e) ↔ x.entry = e := by
  constructor
  · rintro ⟨y, hy, hkey, rfl⟩
    rw [h.seriesKey_inj hy hx hkey]
  · rintro rfl
    exact ⟨x, hx, rfl, rfl⟩

variable {L1 L2 : List Record}

lemma Refines.insert (r : Refines L m)
    (hL : ∀ y : Record, y.seriesKey ≠ x.seriesKey → (y ∈ L1 ++ L2 ↔ y ∈ L))
    (h : Holds s (L1 ++ x :: L2)) : Refines (L1 ++ x :: L2) (m.insert x.seriesKey x.entry) := by
  refine r.update (fun y hy => ?_) (fun k' h' => m.lookup_insert_of_ne h') fun e => ?_
  · rw [← hL y hy, mem_append, mem_append, mem_cons, or_iff_right (a := y = x)]
    rintro rfl
    exact hy rfl
  · rw [m.lookup_insert, some.injEq]
    exact (h.entry_iff (mem_append_right _ mem_cons_self) e).symm

/-- A record taken out is an entry erased. -/
lemma Refines.erase (r : Refines (L1 ++ x :: L2) m)
    (h : Holds s (L1 ++ x :: L2)) : Refines (L1 ++ L2) (m.erase x.seriesKey) := by
  have hnot : ∀ y ∈ L1 ++ L2, y.seriesKey ≠ x.seriesKey := by
    have nd := h.nodup_seriesKey
    rw [map_append, map_cons, nodup_middle, nodup_cons, ← map_append] at nd
    exact fun y hy e => nd.1 (mem_map.mpr ⟨y, hy, e⟩)
  refine r.update (fun y hy => ?_) (fun k' h' => m.lookup_erase_ne h') fun e => ?_
  · rw [mem_append, mem_append, mem_cons, or_iff_right (a := y = x)]
    rintro rfl
    exact hy rfl
  · rw [m.lookup_erase]
    constructor
    · intro hnone
      cases hnone
    · rintro ⟨y, hy, hkey, -⟩
      exact absurd hkey (hnot y hy)

lemma Refines.erase_missing (r : Refines L m) (h : ∀ x ∈ L, x.seriesKey ≠ k) :
    Refines L (m.erase k) := by
  refine r.update (fun _ _ => Iff.rfl) (fun k' h' => m.lookup_erase_ne h') fun e => ?_
  rw [m.lookup_erase, ← r k e, r.lookup_eq_none.mpr h]

end Refines

/-! ## One operation -/

section Step

variable {s : Store} {L : List Record} {m : SeriesMap}

lemma Upsert.entry_written (clock : Clock)
    (u : Upsert) (x : Record) : (writtenRecord clock u.ttl (u.sample addDouble) x).entry =
      u.write addDouble clock x.entry := by
  obtain ⟨type, value, ttl, add, bypass⟩ := u
  cases add <;> cases type <;>
    simp [writtenRecord, Upsert.sample, Upsert.write, Record.entry, gsetSample, setSampleTo]
  -- what is left is the sum with a number that is not finite
  split <;> simp

lemma findSample_spec (h : Holds s L) (name : Str) (hash : LabelHash) :
    ∃ p, findSample s name hash = some ({ s with plan := planAfter s name hash }, p) ∧
      Holds { s with plan := planAfter s name hash } L ∧ (∀ a, p = some a → a ∈ s.addrs ∧
        ∃ x ∈ L, recordAt s a = some x ∧ x.sortKey = sortKey (chainOf s name hash)) ∧
      (p = none → ∀ x ∈ L, x.sortKey ≠ sortKey (chainOf s name hash)) := by
  obtain ⟨T, lists, S, hs⟩ := h
  have S1 := S.grow (labelsInitiate_grows s.plan hash name)
  obtain ⟨p, e, found, missing⟩ := metricFind_spec S1 (labelsInitiate_fits s.plan hash name)
  refine ⟨p, by rw [findSample, e]; rfl, ⟨T, lists, S1, hs⟩, fun a ha => ?_, missing⟩
  obtain ⟨hmem, x, hx, hsort⟩ := found a ha
  obtain ⟨y, hy, e'⟩ := S1.record_of_mem hmem
  rw [hx] at e'
  cases e'
  exact ⟨S.addrs_eq ▸ hmem, x, hy, hx, hsort⟩

lemma Refines.capped_eq (r : Refines L m) (h : Holds s L) (bypass : Bool) :
    capped s bypass = m.full s.maxSeries bypass := by
  have hcount : s.count = m.keys.card := by
    rw [r.card h]
    obtain ⟨T, lists, S, -⟩ := h
    exact S.count
  rw [capped, SeriesMap.full, hcount]
  simp

/-- What an upsert does to the records, it does to the map. -/
lemma Upserted.refines {addDouble : AddDouble} {clock : Clock}
    {u : Upsert} {name : Str} {hash : LabelHash} {y : Option Record} {s' : Store}
    (up : Upserted addDouble clock u (chainOf s name hash) (capped s u.bypass) L L' y)
    (h : Holds s L) (h' : Holds s' L') (r : Refines L m)
    (room : (planAfter s name hash).size < sortplanMax) :
    Refines L' (m.step addDouble s.maxSeries (.upsert clock name hash u)).1 ∧
      (m.step addDouble s.maxSeries (.upsert clock name hash u)).2 = .stored y.isSome := by
  have hkey := fun x hx => h.sortKey_chainOf room (x := x) hx
  rw [r.capped_eq h u.bypass] at up
  cases up with
  | @written L1 L2 x found =>
    have hx : x.seriesKey = sampleKey name hash := (hkey x (by simp)).mp found
    have hlook : m.lookup (sampleKey name hash) = some x.entry := (r _ _).mpr ⟨x, by simp, hx, rfl⟩
    have hw : (writtenRecord clock u.ttl (u.sample addDouble) x).seriesKey =
        sampleKey name hash := by
      rw [Record.seriesKey, writtenRecord, u.sample_labels]
      exact hx
    simp only [SeriesMap.step, hlook, isSome_some, and_true]
    rw [← u.entry_written, ← hw]
    refine r.insert (fun y hy => ?_) h'
    rw [mem_append, mem_append, mem_cons, or_iff_right (a := y = x)]
    rintro rfl
    exact hy (hx.trans hw.symm)
  | dropped missing hfull =>
    have hlook := r.lookup_eq_none.mpr fun x hx => mt (hkey x hx).mpr (missing x hx)
    simp only [SeriesMap.step, hlook, hfull, if_true, isSome_none, and_true]
    exact r
  | @inserted l r' missing hfull _ _ =>
    have hlook := r.lookup_eq_none.mpr fun x hx => mt (hkey x hx).mpr (missing x hx)
    have hn : (newRecord clock (chainOf s name hash) u.type u.value u.ttl).seriesKey =
        sampleKey name hash := seriesKey_labelsInitiate room
    simp only [SeriesMap.step, hlook, hfull, Bool.false_eq_true, if_false, isSome_some, and_true]
    rw [← hn]
    exact r.insert (fun _ _ => Iff.rfl) h'

/-- The store after one operation: it is in order, the plan has grown at its end,
and unless the plan is full the operation was the one on the map. -/
lemma mapStep_spec (h : Holds s L) (addDouble : AddDouble) (op : MapOp) :
    ∃ s' out L', s.mapStep addDouble op = some (s', out) ∧ Holds s' L' ∧ s.plan.Grows s'.plan ∧
      s'.maxSeries = s.maxSeries ∧ (s'.plan.size < sortplanMax → ∀ m, Refines L m →
        Refines L' (m.step addDouble s.maxSeries op).1 ∧
          (m.step addDouble s.maxSeries op).2 = out) := by
  cases op with
  | upsert clock name hash u =>
    obtain ⟨s', p, L', y, e, h', up, hp, -, hplan, hmax⟩ :=
      upsertSample_spec h addDouble clock name hash u
    have hsome : p.isSome = y.isSome := by
      cases p <;> cases y <;> simp_all
    refine ⟨s', .stored y.isSome, L', ?_, h', ?_, hmax, fun room m r => ?_⟩
    · simp [Store.mapStep, e, hsome]
    · rw [hplan]
      exact labelsInitiate_grows s.plan hash name
    · exact up.refines h h' r (hplan ▸ room)
  | delete base name hash =>
    obtain ⟨s', hplan, hmax, hcases⟩ := deleteSample_spec h base name hash
    have hgrows : s.plan.Grows s'.plan := hplan ▸ labelsInitiate_grows s.plan hash name
    rcases hcases with ⟨e, h', missing⟩ | ⟨L1, x, L2, e, rfl, found, h'⟩
    · refine ⟨s', .deleted false, L, ?_, h', hgrows, hmax, fun room m r => ?_⟩
      · simp [Store.mapStep, e]
      · have hne : ∀ x ∈ L, x.seriesKey ≠ sampleKey name hash := fun x hx =>
          mt (h.sortKey_chainOf (hplan ▸ room) hx).mpr (missing x hx)
        refine ⟨r.erase_missing hne, ?_⟩
        rw [SeriesMap.step, r.lookup_eq_none.mpr hne]
        rfl
    · refine ⟨s', .deleted true, L1 ++ L2, ?_, h', hgrows, hmax, fun room m r => ?_⟩
      · simp [Store.mapStep, e]
      · have hx : x.seriesKey = sampleKey name hash :=
          (h.sortKey_chainOf (hplan ▸ room) (by simp)).mp found
        have hlook : m.lookup (sampleKey name hash) = some x.entry :=
          (r _ _).mpr ⟨x, by simp, hx, rfl⟩
        refine ⟨?_, ?_⟩
        · rw [SeriesMap.step, ← hx]
          exact r.erase h
        · rw [SeriesMap.step, hlook]
          rfl
  | find name hash =>
    obtain ⟨p, e, h', found, missing⟩ := findSample_spec h name hash
    refine ⟨{ s with plan := planAfter s name hash }, .found ((p.bind (recordAt s)).map Record.entry),
      L, ?_, h', labelsInitiate_grows s.plan hash name, rfl, fun room m r => ⟨r, ?_⟩⟩
    · simp only [Store.mapStep, e]
      rfl
    · show Out.found (m.lookup _) = _
      cases p with
      | none =>
        rw [r.lookup_eq_none.mpr fun x hx => mt (h.sortKey_chainOf room hx).mpr
          (missing rfl x hx)]
        rfl
      | some a =>
        obtain ⟨-, x, hx, hrec, hsort⟩ := found a rfl
        rw [(r _ x.entry).mpr ⟨x, hx, (h.sortKey_chainOf room hx).mp hsort, rfl⟩, bind_some, hrec]
        rfl

/-! ## Runs -/

lemma mapRun_spec (ops : List MapOp) (h : Holds s L) : ∃ s' outs L',
      s.mapRun addDouble ops = some (s', outs) ∧ Holds s' L' ∧ s.plan.Grows s'.plan ∧
      (s'.plan.size < sortplanMax → ∀ m, Refines L m →
        Refines L' (m.run addDouble s.maxSeries ops).1 ∧
          (m.run addDouble s.maxSeries ops).2 = outs) := by
  induction ops generalizing s L with
  | nil =>
    exact ⟨s, [], L, rfl, h, .refl _, fun _ m r => ⟨r, rfl⟩⟩
  | cons op ops ih =>
    obtain ⟨s1, out, L1, e1, h1, g1, hmax, ref1⟩ := mapStep_spec h addDouble op
    obtain ⟨s', outs, L', e', h', g', ref'⟩ := ih h1
    refine ⟨s', out :: outs, L', ?_, h', g1.trans g', fun room m r => ?_⟩
    · simp [Store.mapRun, e1, e']
    · have room1 : s1.plan.size < sortplanMax :=
        Nat.lt_of_le_of_lt (Nat.succ_le_succ g'.length_le) room
      obtain ⟨r1, ho⟩ := ref1 room1 m r
      obtain ⟨r', hos⟩ := ref' room _ r1
      rw [hmax] at r' hos
      exact ⟨r', by rw [SeriesMap.run]; simp only [ho, hos]⟩

/-- What a run on a new store leaves, if it can be decided. -/
lemma mapRun_init (ops : List MapOp) (P : List Record → Prop) [DecidablePred P]
    (h : ((Store.init 0).mapRun addDouble ops).map (fun r => decide (P r.1.contents)) =
      some true) :
    ∃ s outs, (Store.init 0).mapRun addDouble ops = some (s, outs) ∧ Holds s s.contents ∧
      P s.contents := by
  obtain ⟨s, outs, L, e, hL, -⟩ := mapRun_spec addDouble ops (holds_init 0)
  rw [e] at h
  exact ⟨s, outs, e, hL.contents_eq.symm ▸ hL, of_decide_eq_true (some.inj h)⟩

/-- Set a series to an integer. -/
def MapOp.put (name : Str) (hash : LabelHash) (value : BitVec 64) : MapOp :=
  .upsert ⟨10, 10⟩ name hash ⟨.int, value, 100, false, false⟩

/-- Two samples that both have a node have the same one exactly if they are of the
same series. -/
lemma Holds.same_node (h : Holds s L) {name name' : Str} {hash hash' : LabelHash} {s1 s2 : Store}
    {a b : Addr} (e1 : findSample s name hash = some (s1, some a))
    (e2 : findSample s1 name' hash' = some (s2, some b)) (room : s2.plan.size < sortplanMax) :
    a = b ↔ sampleKey name hash = sampleKey name' hash' := by
  obtain ⟨p1, e1', h1, found1, -⟩ := findSample_spec h name hash
  rw [e1] at e1'
  cases e1'
  obtain ⟨p2, e2', -, found2, -⟩ := findSample_spec h1 name' hash'
  rw [e2] at e2'
  cases e2'
  obtain ⟨ha, x, hx, hxa, kx⟩ := found1 a rfl
  obtain ⟨hb, y, hy, hyb, ky⟩ := found2 b rfl
  have hgrows := labelsInitiate_grows (planAfter s name hash) hash' name'
  have room1 : (planAfter s name hash).size < sortplanMax :=
    Nat.lt_of_le_of_lt (Nat.succ_le_succ hgrows.length_le) room
  rw [← (h.sortKey_chainOf room1 hx).mp kx, ← (h1.sortKey_chainOf room hy).mp ky]
  constructor
  · rintro rfl
    cases hxa.symm.trans hyb
    rfl
  · intro hkey
    cases h.seriesKey_inj hx hy hkey
    obtain ⟨T, lists, S, hs⟩ := h
    rw [S.addrs_eq] at ha
    exact S.node_inj hs ha ((S.grow (labelsInitiate_grows _ _ _)).addrs_eq ▸ hb) hxa hyb

end Step

/-- In every run of upserts, deletions and lookups that does not fill the sort
plan, the store does what the map does: every operation has the result it has on
the map, the records are the entries of the map, one for each series, and the
count is their number.  Samples share a node exactly if they are of one series. -/
theorem run_refines (addDouble : AddDouble) (maxSeries : Nat)
    (ops : List MapOp) : ∃ s outs, (Store.init maxSeries).mapRun addDouble ops = some (s, outs) ∧
      (s.plan.size < sortplanMax → outs = (SeriesMap.run addDouble maxSeries ∅ ops).2 ∧
        Refines s.contents (SeriesMap.run addDouble maxSeries ∅ ops).1 ∧
        (s.contents.map Record.seriesKey).Nodup ∧
        s.count = (SeriesMap.run addDouble maxSeries ∅ ops).1.keys.card ∧
        ∀ name hash name' hash' s₁ a s₂ b, findSample s name hash = some (s₁, some a) →
          findSample s₁ name' hash' = some (s₂, some b) → s₂.plan.size < sortplanMax →
          (a = b ↔ sampleKey name hash = sampleKey name' hash')) := by
  obtain ⟨s, outs, L, e, h, -, ref⟩ := mapRun_spec addDouble ops (holds_init maxSeries)
  refine ⟨s, outs, e, fun room => ?_⟩
  have hempty : Refines [] (∅ : SeriesMap) := by
    intro k e
    simp
  obtain ⟨r, houts⟩ := ref room ∅ hempty
  refine ⟨houts.symm, ?_, ?_, ?_, fun _ _ _ _ _ _ _ _ e1 e2 room' => h.same_node e1 e2 room'⟩
  · rw [h.contents_eq]
    exact r
  · rw [h.contents_eq]
    exact h.nodup_seriesKey
  · rw [show (SeriesMap.run addDouble maxSeries ∅ ops).1.keys.card = L.length from r.card h]
    obtain ⟨T, lists, S, -⟩ := h
    exact S.count

/-- The second sample brings a new label into the plan, and the lookup of the first
one, whose chain is shorter, finds it. -/
theorem run_refines_growing :
    ∃ s outs, (Store.init 0).mapRun (fun a _ => a)
        [.upsert ⟨10, 10⟩ (cstr "m") (LabelHash.empty.insert (cstr "a") (cstr "1"))
            ⟨.int, 1, 5, false, false⟩,
          .upsert ⟨10, 10⟩ (cstr "m") (LabelHash.empty.insert (cstr "b") (cstr "1"))
            ⟨.int, 2, 5, false, false⟩,
          .find (cstr "m") (LabelHash.empty.insert (cstr "a") (cstr "1"))] = some (s, outs) ∧
      s.plan.size = 3 ∧ outs = [.stored true, .stored true, .found (some ⟨.int, 1, 15⟩)] := by
  obtain ⟨s, outs, e, h⟩ := run_refines (fun a _ => a) 0
    [.upsert ⟨10, 10⟩ (cstr "m") (LabelHash.empty.insert (cstr "a") (cstr "1"))
        ⟨.int, 1, 5, false, false⟩,
      .upsert ⟨10, 10⟩ (cstr "m") (LabelHash.empty.insert (cstr "b") (cstr "1"))
        ⟨.int, 2, 5, false, false⟩,
      .find (cstr "m") (LabelHash.empty.insert (cstr "a") (cstr "1"))]
  have hsize : s.plan.size = 3 := by
    have : (some (s, outs)).map (fun r => r.1.plan.size) = some 3 := by
      rw [← e]
      decide
    exact some.inj this
  refine ⟨s, outs, e, hsize, (h (by rw [hsize]; decide)).1.trans ?_⟩
  decide

end Alligator
