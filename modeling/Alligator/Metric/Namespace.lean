import Alligator.Metric.Purge
import Mathlib.Data.Finset.Empty

/-!
# Namespaces and their runs

The operations of a namespace as the rest of the program calls them: with a
metric name and a hash of labels, which `labels_initiate` makes into a chain.
Two namespaces are enough to see everything: the default one, into which every
purge writes how long it took, and another one.

A run is any sequence of operations.  In every state of a run both stores are in
order (`run_good`), so every operation has a result.
-/

namespace Alligator

open Memory DList RedBlack List Option Heap

variable {T : CTree} {lists : Buckets}

/-! ## What a store contains -/

def inorder (h : Nodes) : Nat → Ptr → List Addr
  | _, none => []
  | 0, some _ => []
  | fuel + 1, some a =>
    match h.get a with
    | none => []
    | some n => inorder h fuel n.left ++ a :: inorder h fuel n.right

def Store.addrs (s : Store) : List Addr := inorder s.nodes s.nodes.next s.root

def Store.contents (s : Store) : List Record := s.addrs.filterMap (recordAt s)

variable {fuel : Nat} {t : ExpireTree} {free : List Addr}

lemma inorder_eq {h : Nodes} {t : CTree}
    (ht : t.Within (links h) (fun _ => True) fuel) : inorder h fuel t.root = t.addrs := by
  refine ht.induct (P := fun fuel t => inorder h fuel t.root = t.addrs) (fun fuel => ?_) ?_
  · cases fuel <;> rfl
  · intro fuel a c x y ht ihx ihy
    obtain ⟨n, hget, hleft, hright⟩ := get_of_lies ht.lies
    show inorder h (fuel + 1) (some a) = _
    simp only [inorder, hget, hleft, hright]
    rw [ihx, ihy]
    rfl

variable {L : List Record} {s : Store}

lemma Stored.addrs_eq (S : Stored s T lists L) : s.addrs = T.addrs := by
  rw [Store.addrs, ← S.tree.root_eq]
  exact inorder_eq ⟨S.tree.lies, fun _ _ => trivial, S.tree.length_le⟩

lemma Stored.contents_eq (S : Stored s T lists L) : s.contents = L := by
  have : (T.addrs.map (recordAt s)).filterMap id = (L.map some).filterMap id := congrArg _ S.records
  rw [filterMap_map, filterMap_map] at this
  rw [Store.contents, S.addrs_eq]
  exact this.trans filterMap_some

/-! ## Operations on samples -/

variable (addDouble : AddDouble)

/-- `metric_upsert` of a sample. -/
def upsertSample (clock : Clock) (s : Store)
    (name : Str) (hash : LabelHash) (u : Upsert) : Option (Store × Ptr) :=
  let r := labelsInitiate s.plan hash name
  metricUpsert addDouble clock { s with plan := r.2 } r.1 u

/-- `metric_delete` of a sample. -/
def deleteSample (base : Int) (s : Store) (name : Str) (hash : LabelHash) : Option (Store × Bool) :=
  let r := labelsInitiate s.plan hash name
  metricDelete base { s with plan := r.2 } r.1

/-- `metric_find` of a sample. -/
def findSample (s : Store) (name : Str) (hash : LabelHash) : Option (Store × Ptr) :=
  let r := labelsInitiate s.plan hash name
  (metricFind { s with plan := r.2 } r.1).map fun p => ({ s with plan := r.2 }, p)

/-- What a purge reports: how long it took, the time to live of that series, and
the name of the namespace. -/
structure Report where
  duration : BitVec 64
  ttl : Int
  nsKey : Str

/-- The series that every purge adds its duration to. -/
def gcName : Str := cstr "alligator_gc_duration_seconds"

/-- The end of `expire_purge`: the duration goes into the default namespace,
unless that is empty, and so does the number of orphans, if there are any. -/
def reportPurge (clock : Clock) (report : Report) (orphans : Nat) (s : Store) : Option Store:= do
  let s ←
    if s.count = 0 then some s
    else (upsertSample addDouble clock s gcName .empty
      ⟨.double, report.duration, report.ttl, true, false⟩).map Prod.fst
  if orphans = 0 then some s
  else (upsertSample addDouble clock s (cstr "alligator_expire_orphan_entries")
    (LabelHash.empty.insert (cstr "namespace") report.nsKey)
    ⟨.uint, BitVec.ofNat 64 orphans, report.ttl, false, false⟩).map Prod.fst

/-- The namespaces: the default one and another one. -/
inductive Space where
  | main
  | other
deriving DecidableEq

structure Spaces where
  main : Store
  other : Store

open Spaces

variable {sp : Spaces}

namespace Spaces

def init (maxMain maxOther : Nat) : Spaces := ⟨.init maxMain, .init maxOther⟩

def get (sp : Spaces) : Space → Store
  | .main => sp.main
  | .other => sp.other

def set (sp : Spaces) (w : Space) (s : Store) : Spaces :=
  match w with
  | .main => { sp with main := s }
  | .other => { sp with other := s }

@[simp] lemma get_set_self (sp : Spaces) (w : Space) (s : Store) : (sp.set w s).get w = s := by
  cases w <;> rfl

lemma get_set_ne (sp : Spaces) {w w' : Space} (h : w' ≠ w) (s : Store) :
    (sp.set w s).get w' = sp.get w' := by
  cases w <;> cases w' <;> first | rfl | exact absurd rfl h

end Spaces

def expirePurge (clock : Clock) (report : Report)
    (sp : Spaces) (w : Space) (key : BitVec 64) : Option Spaces := do
  let (s, orphans) ← purgeTree clock.base (sp.get w) key
  let sp := sp.set w s
  let main ← reportPurge addDouble clock report orphans sp.main
  return { sp with main := main }

inductive Op where
  | upsert (w : Space) (clock : Clock) (name : Str) (hash : LabelHash) (u : Upsert)
  | delete (w : Space) (base : Int) (name : Str) (hash : LabelHash)
  | purge (w : Space) (clock : Clock) (key : BitVec 64) (report : Report)

def Spaces.step (sp : Spaces) : Op → Option Spaces
  | .upsert w clock name hash u => do
    let (s, _) ← upsertSample addDouble clock (sp.get w) name hash u
    return sp.set w s
  | .delete w base name hash => do
    let (s, _) ← deleteSample base (sp.get w) name hash
    return sp.set w s
  | .purge w clock key report => expirePurge addDouble clock report sp w key

def Spaces.run (addDouble : AddDouble) :
    Spaces → List Op → Option Spaces
  | sp, [] => some sp
  | sp, op :: ops => do
    let sp ← sp.step addDouble op
    Spaces.run addDouble sp ops

/-! ## Operations keep the stores in order -/

/-- The store is in order and holds the records `L`, all with different labels. -/
def Holds (s : Store) (L : List Record) : Prop :=
  ∃ T lists, Stored s T lists L ∧ StrictlySorted L

lemma Holds.contents_eq (h : Holds s L) : s.contents = L := by
  obtain ⟨T, lists, S, -⟩ := h
  exact S.contents_eq

lemma holds_init (maxSeries : Nat) : Holds (.init maxSeries) [] :=
  ⟨_, _, stored_init maxSeries, List.Pairwise.nil⟩

lemma Stored.grow (S : Stored s T lists L) {p : SortPlan}
    (hp : s.plan.Grows p) : Stored { s with plan := p } T lists L :=
  ⟨S.tree, ⟨S.guarded.timed, S.guarded.owned⟩, S.records, fun x hx => (S.fits x hx).grows hp, S.sorted,
    S.count, S.armed, S.words⟩

section Holds

variable {s : Store} {L : List Record} {name : Str} {hash : LabelHash}

def chainOf (s : Store) (name : Str) (hash : LabelHash) : Labels := (labelsInitiate s.plan hash name).1

def planAfter (s : Store) (name : Str) (hash : LabelHash) : SortPlan :=
  (labelsInitiate s.plan hash name).2

lemma upsertSample_spec (h : Holds s L) (addDouble : AddDouble)
    (clock : Clock) (name : Str) (hash : LabelHash) (u : Upsert) :
    ∃ s' p L' x, upsertSample addDouble clock s name hash u = some (s', p) ∧ Holds s' L' ∧
      Upserted addDouble clock u (chainOf s name hash) (capped s u.bypass) L L' x ∧
      (p = none ↔ x = none) ∧ (∀ m, p = some m → recordAt s' m = x) ∧
      s'.plan = planAfter s name hash ∧ s'.maxSeries = s.maxSeries := by
  obtain ⟨T, lists, S, hs⟩ := h
  have S1 := S.grow (labelsInitiate_grows s.plan hash name)
  obtain ⟨s', T', lists', L', p, x, e, S', same, up, hp, hrec⟩ :=
    metricUpsert_spec S1 (labelsInitiate_fits s.plan hash name) addDouble clock u
  exact ⟨s', p, L', x, e, ⟨T', lists', S', up.strict hs⟩, up, hp, fun m hm => (hrec m hm).2,
    same.plan, same.maxSeries⟩

lemma deleteSample_spec (h : Holds s L) (base : Int) (name : Str) (hash : LabelHash) :
    ∃ s', s'.plan = planAfter s name hash ∧ s'.maxSeries = s.maxSeries ∧
      ((deleteSample base s name hash = some (s', false) ∧ Holds s' L ∧
          ∀ x ∈ L, x.sortKey ≠ sortKey (chainOf s name hash)) ∨
        ∃ L1 x L2, deleteSample base s name hash = some (s', true) ∧ L = L1 ++ x :: L2 ∧
          x.sortKey = sortKey (chainOf s name hash) ∧ Holds s' (L1 ++ L2)) := by
  obtain ⟨T, lists, S, hs⟩ := h
  have S1 := S.grow (labelsInitiate_grows s.plan hash name)
  obtain ⟨s', T', lists', same, hcases⟩ :=
    metricDelete_spec S1 (labelsInitiate_fits s.plan hash name) base
  refine ⟨s', same.plan, same.maxSeries, ?_⟩
  rcases hcases with ⟨e, S', hmiss⟩ | ⟨-, L1, x, L2, e, -, -, rfl, hkey, S', -⟩
  · exact .inl ⟨e, ⟨T', lists', S', hs⟩, hmiss⟩
  · exact .inr ⟨L1, x, L2, e, rfl, hkey,
      ⟨T', lists', S', hs.sublist ((sublist_cons_self _ _).append_left _)⟩⟩

def isGc (x : Record) : Bool := decide (seriesKey x.series.labels = (gcName, ∅))

lemma seriesKey_labelsInitiate_empty (p : SortPlan) (name : Str) :
    seriesKey (labelsInitiate p .empty name).1 = (name, ∅) := by
  have hnew : newLabels p .empty = [] := rfl
  refine Prod.ext ?_ ?_
  · rw [labelsInitiate_chain]
    rfl
  · ext ⟨n, k⟩
    rw [seriesKey, List.mem_toFinset, mem_labelPairs, labelsInitiate_chain, hnew]
    simp [LabelHash.empty]

/-- What the report of a purge changes is the series of the durations only. -/
lemma reportPurge_spec (h : Holds s L) (addDouble : AddDouble)
    (clock : Clock) (report : Report) :
    ∃ s' L', reportPurge addDouble clock report 0 s = some s' ∧ Holds s' L' ∧
      L'.filter (fun x => !isGc x) = L.filter (fun x => !isGc x) ∧
      (L ≠ [] → capped s false = false → ∃ x ∈ L', isGc x) := by
  have hcount : s.count = L.length := by
    obtain ⟨T, lists, S, -⟩ := h
    exact S.count
  by_cases hL : L = []
  · subst hL
    refine ⟨s, [], ?_, h, rfl, fun h => absurd rfl h⟩
    simp [reportPurge, hcount]
  · obtain ⟨s', p, L', x, e, h', up, -, -, hplan, -⟩ := upsertSample_spec h addDouble clock gcName .empty
      ⟨.double, report.duration, report.ttl, true, false⟩
    have hne : ¬s.count = 0 := by
      have := length_pos_iff.mpr hL
      omega
    have hchain : Fits s'.plan (chainOf s gcName .empty) := by
      rw [hplan]
      exact labelsInitiate_fits s.plan .empty gcName
    have hfits : ∀ y, y ∈ L ∨ y ∈ L' → Fits s'.plan y.series.labels := by
      obtain ⟨T, lists, S, -⟩ := h
      obtain ⟨T', lists', S', -⟩ := h'
      rintro y (hy | hy)
      · rw [hplan]
        exact (S.fits y hy).grows (labelsInitiate_grows s.plan .empty gcName)
      · exact S'.fits y hy
    have hgc : ∀ y, y ∈ L ∨ y ∈ L' → y.sortKey = sortKey (chainOf s gcName .empty) →
        isGc y = true := by
      intro y hy hkey
      rw [isGc, decide_eq_true_eq, ← seriesKey_labelsInitiate_empty s.plan gcName]
      exact (sortKey_eq_iff (hfits y hy) hchain).mp hkey
    refine ⟨s', L', ?_, h', ?_, fun _ hcap => ?_⟩
    · simp [reportPurge, if_neg hne, e]
    · exact up.filter_eq fun y hy hkey => by rw [hgc y hy hkey]; rfl
    · rw [hcap] at up
      obtain ⟨y, hy, hkey⟩ := up.exists_mem
      exact ⟨y, hy, hgc y (.inr hy) hkey⟩

end Holds

/-! ## Runs -/

def Spaces.Good (sp : Spaces) : Prop := ∀ w, ∃ L, Holds (sp.get w) L

lemma Spaces.Good.set (h : sp.Good) {w : Space} (hs : Holds s L) : (sp.set w s).Good := by
  intro w'
  by_cases e : w' = w
  · subst e
    exact ⟨L, by rwa [get_set_self]⟩
  · rw [get_set_ne sp e]
    exact h w'

/-- A purge: what it leaves in its namespace, and then its report.  A timed purge leaves the records
with later keys. -/
lemma expirePurge_spec (h : sp.Good) (addDouble : AddDouble)
    (clock : Clock) (report : Report) (w : Space) (key : BitVec 64) :
    ∃ sp' s L, expirePurge addDouble clock report sp w key = some sp' ∧ sp'.Good ∧ Holds s L ∧
      s.maxSeries = (sp.get w).maxSeries ∧ (w = .other → sp'.other = s) ∧
      (w = .main → reportPurge addDouble clock report 0 s = some sp'.main) ∧
      (key ≠ int64Max → 0 < key.toInt →
        L = (sp.get w).contents.filter fun x => key.toInt < x.key) := by
  obtain ⟨L, T, lists, S, hs⟩ := h w
  obtain ⟨s, T', lists', L', e, S', hsub, -, hmax, -, htimed⟩ := purgeTree_spec S hs clock.base key
  have hs' : Holds s L' := ⟨T', lists', S', hs.sublist hsub⟩
  have h' := h.set (w := w) hs'
  obtain ⟨L1, h1⟩ := h' .main
  obtain ⟨main, L2, e2, h2, -, -⟩ := reportPurge_spec h1 addDouble clock report
  refine ⟨(sp.set w s).set .main main, s, L', ?_, h'.set h2, hs', hmax, ?_, ?_,
    S.contents_eq ▸ htimed⟩
  · simp only [expirePurge, e, some_bind]
    rw [show reportPurge addDouble clock report 0 (sp.set w s).main = some main from e2]
    rfl
  · rintro rfl
    rfl
  · rintro rfl
    exact e2

/-- Every operation has a result and keeps the stores in order. -/
lemma step_good (h : sp.Good) (addDouble : AddDouble) (op : Op) :
    ∃ sp', sp.step addDouble op = some sp' ∧ sp'.Good := by
  cases op with
  | upsert w clock name hash u =>
    obtain ⟨L, hL⟩ := h w
    obtain ⟨s', p, L', x, e, h', -⟩ := upsertSample_spec hL addDouble clock name hash u
    refine ⟨sp.set w s', ?_, h.set h'⟩
    simp [step, e]
  | delete w base name hash =>
    obtain ⟨L, hL⟩ := h w
    obtain ⟨s', -, -, hcases⟩ := deleteSample_spec hL base name hash
    obtain ⟨ret, L', e, h'⟩ : ∃ ret L', deleteSample base (sp.get w) name hash = some (s', ret) ∧
        Holds s' L' := by
      rcases hcases with ⟨e, h', -⟩ | ⟨L1, x, L2, e, -, -, h'⟩ <;> exact ⟨_, _, e, h'⟩
    refine ⟨sp.set w s', ?_, h.set h'⟩
    simp [step, e]
  | purge w clock key report =>
    obtain ⟨sp', -, -, e, h', -⟩ := expirePurge_spec h addDouble clock report w key
    exact ⟨sp', e, h'⟩

/-- Every run has a result and keeps the stores in order. -/
lemma run_good (ops : List Op)
    (h : sp.Good) : ∃ sp', run addDouble sp ops = some sp' ∧ sp'.Good := by
  induction ops generalizing sp with
  | nil =>
    exact ⟨sp, rfl, h⟩
  | cons op ops ih =>
    obtain ⟨sp1, e1, h1⟩ := step_good h addDouble op
    obtain ⟨sp', e', h'⟩ := ih h1
    refine ⟨sp', ?_, h'⟩
    simp only [run, e1]
    exact e'

lemma good_init (maxMain maxOther : Nat) : (init maxMain maxOther).Good := by
  intro w
  cases w with
  | main => exact ⟨[], holds_init maxMain⟩
  | other => exact ⟨[], holds_init maxOther⟩

/-! ## The timed purge -/

lemma Upserted.of_nil {addDouble : AddDouble} {clock : Clock} {u : Upsert}
    {labels : Labels} {L' : List Record} {y : Option Record}
    (h : Upserted addDouble clock u labels false [] L' y) :
    L' = [newRecord clock labels u.type u.value u.ttl] := by
  generalize hL : ([] : List Record) = L at h
  cases h with
  | written => simp at hL
  | dropped _ hfull => cases hfull
  | inserted =>
    obtain ⟨rfl, rfl⟩ := append_eq_nil_iff.mp hL.symm
    rfl

/-- The nodes that a walk along the next pointers meets. -/
def listFrom (h : Entries) : Nat → Ptr → List Addr
  | _, none => []
  | 0, some _ => []
  | fuel + 1, some n =>
    n :: match h.get n with
      | none => []
      | some e => listFrom h fuel e.next

def ExpireTree.list (t : ExpireTree) (b : Bucket) : List Addr :=
  listFrom t.nodes t.nodes.next (t.heads b)

def allBuckets : List Bucket := .due :: .far :: slotBuckets

/-- Metric nodes and expire nodes own each other one to one, and every expire
node is linked into the list that its level and slot name, and into no other. -/
structure ExpiryOwned (s : Store) : Prop where
  metric : ∀ a ∈ s.addrs, ∃ node n e, s.nodes.get a = some node ∧ node.expireNode = some n ∧
    s.expire.nodes.get n = some e ∧ e.metric = some a
  entry : ∀ n e, s.expire.nodes.get n = some e → ∃ a node, a ∈ s.addrs ∧
    s.nodes.get a = some node ∧ node.expireNode = some n ∧ e.metric = some a
  chained : ∀ b, Seg (dlinks s.expire.nodes) none (s.expire.heads b) (s.expire.list b) none
  linked : ∀ n e, s.expire.nodes.get n = some e → ∀ b,
    (s.expire.list b).count n = if b = e.bucket then 1 else 0
  counts : s.expire.count = s.count ∧ s.count = s.addrs.length ∧
    s.count = (allBuckets.flatMap s.expire.list).length

lemma listFrom_eq {h : Entries} {p : Ptr} {l : List Addr}
    (hc : Chain (dlinks h) p l) (hlen : l.length ≤ fuel) : listFrom h fuel p = l := by
  induction fuel generalizing p l with
  | zero =>
    obtain rfl := length_eq_zero_iff.mp (Nat.le_zero.mp hlen)
    cases hc
    rfl
  | succ fuel ih =>
    cases l with
    | nil =>
      cases hc
      rfl
    | cons a l =>
      obtain ⟨rfl, d, hd, hl⟩ := hc
      obtain ⟨e, he, hlink⟩ := view_eq_some.mp hd
      have hnext : e.next = d.next := congrArg DLink.next hlink
      simp only [listFrom, he, hnext]
      rw [ih hl (Nat.le_of_succ_le_succ hlen)]

lemma Wheel.list_eq (W : Wheel t lists free) (b : Bucket) : t.list b = lists b :=
  listFrom_eq (chain_of_seg (W.family.seg b)) (W.length_le b)

lemma mem_allBuckets (b : Bucket) : b ∈ allBuckets := by
  simp only [allBuckets, mem_cons, mem_slotBuckets]
  tauto

lemma nodup_allBuckets : allBuckets.Nodup := by
  have h0 : ((List.finRange 256).map Bucket.lv0).Nodup :=
    (nodup_finRange 256).map fun i j h => by cases h; rfl
  have h1 : ((List.finRange 64).flatMap fun i => [Bucket.lv1 i, .lv2 i, .lv3 i]).Nodup := by
    refine nodup_flatMap.mpr ⟨fun i _ => by simp, (nodup_finRange 64).imp fun {i j} h => ?_⟩
    simp [disjoint_left, h]
  have h2 : slotBuckets.Nodup := by
    refine nodup_append.mpr ⟨h0, h1, ?_⟩
    rintro b hb b' hb' rfl
    obtain ⟨i, -, rfl⟩ := mem_map.mp hb
    simp at hb'
  exact nodup_cons.mpr ⟨by simp [mem_slotBuckets], nodup_cons.mpr ⟨by simp [mem_slotBuckets], h2⟩⟩

lemma Wheel.nodup_all (W : Wheel t lists free) : (allBuckets.flatMap lists).Nodup := by
  refine nodup_flatMap.mpr ⟨fun b _ => W.family.nodup b, nodup_allBuckets.imp fun {b b'} h => ?_⟩
  intro n hn hn'
  exact h (W.family.disjoint hn hn')

lemma Stored.length_entries (S : Stored s T lists L) :
    (allBuckets.flatMap lists).length = L.length := by
  have W := S.guarded.timed.wheel
  refine le_antisymm ?_ ?_
  · refine S.entries_le W.nodup_all fun n hn => ?_
    obtain ⟨b, -, hb⟩ := mem_flatMap.mp hn
    exact ⟨b, hb⟩
  · have nd : (T.addrs.map (entryOf s.nodes)).Nodup := by
      refine List.Nodup.map_on (fun a ha b hb e => ?_) S.tree.nodup
      obtain ⟨x, n, k, pa, -⟩ := S.guarded.owned.owns a ha
      obtain ⟨y, n', k', pb, -⟩ := S.guarded.owned.owns b hb
      rw [entryOf, entryOf, pa, pb] at e
      cases e
      exact S.guarded.owned.inj ha hb pa pb
    have sub : T.addrs.map (entryOf s.nodes) ⊆ (allBuckets.flatMap lists).map some := by
      intro p hp
      obtain ⟨a, ha, rfl⟩ := mem_map.mp hp
      obtain ⟨x, n, k, pa, ia⟩ := S.guarded.owned.owns a ha
      obtain ⟨b, hb⟩ := W.mem_of_infos ia
      refine mem_map.mpr ⟨n, mem_flatMap.mpr ⟨b, mem_allBuckets b, hb⟩, ?_⟩
      rw [entryOf, pa]
      rfl
    have := (subperm_of_subset nd sub).length_le
    rwa [length_map, length_map, S.length] at this

lemma Stored.expiryOwned (S : Stored s T lists L) : ExpiryOwned s := by
  have W := S.guarded.timed.wheel
  refine ⟨fun a ha => ?_, fun n e he => ?_, fun b => ?_, fun n e he b => ?_, ?_, ?_, ?_⟩
  · rw [S.addrs_eq] at ha
    obtain ⟨ser, n, k, pa, ia⟩ := S.guarded.owned.owns a ha
    obtain ⟨node, hget, e1⟩ := view_eq_some.mp pa
    obtain ⟨e, he, e2⟩ := view_eq_some.mp ia
    exact ⟨node, n, e, hget, congrArg Prod.snd e1, he, congrArg Prod.snd e2⟩
  · have hinf : infos s.expire.nodes n = some (e.key, e.metric) := view_of_get _ he
    obtain ⟨a, ser, ha, hm, pa⟩ := S.guarded.owned.owned n _ _ hinf
    obtain ⟨node, hget, e1⟩ := view_eq_some.mp pa
    exact ⟨a, node, S.addrs_eq ▸ ha, hget, congrArg Prod.snd e1, hm⟩
  · rw [W.list_eq]
    exact W.family.seg b
  · rw [W.list_eq]
    obtain ⟨b', hb'⟩ := W.mem_of_infos (view_of_get _ he)
    have hbucket : e.bucket = b' := by
      have := W.family.home b' n hb'
      rw [homes, view_of_get _ he] at this
      exact some.inj this
    subst hbucket
    by_cases hb : b = e.bucket
    · subst hb
      rw [if_pos rfl]
      exact count_eq_one_of_mem (W.family.nodup _) hb'
    · rw [if_neg hb]
      exact count_eq_zero_of_not_mem fun h => hb (W.family.disjoint h hb')
  · rw [S.armed, S.count]
  · rw [S.count, S.addrs_eq, S.length]
  · rw [S.count, ← S.length_entries, show s.expire.list = lists from funext W.list_eq]

/-- In every state of a run, in both namespaces, metric nodes and expire nodes own
each other. -/
theorem run_expiryOwned (addDouble : AddDouble) (maxMain maxOther : Nat)
    (ops : List Op) : ∃ sp, Spaces.run addDouble (.init maxMain maxOther) ops = some sp ∧
      ∀ w, ExpiryOwned (sp.get w) := by
  obtain ⟨sp, e, h⟩ := run_good addDouble ops (good_init maxMain maxOther)
  refine ⟨sp, e, fun w => ?_⟩
  obtain ⟨L, T, lists, S, -⟩ := h w
  exact S.expiryOwned

/-! ## The word cache -/

/-- In every state of a run, the cache of a namespace has an entry for a word exactly if the word is
the name or the key of a label of a stored chain, with the number of its occurrences; so every word
of a stored chain is in the cache, and the cache of an empty tree is empty. -/
theorem word_cache_exact (addDouble : AddDouble) (maxMain maxOther : Nat)
    (ops : List Op) : ∃ sp, Spaces.run addDouble (.init maxMain maxOther) ops = some sp ∧ ∀ w,
      (∀ a, (sp.get w).words.lookup a =
        RefCount.occurrences (storedWords (sp.get w).contents) a) ∧
      (∀ a, a ∈ (sp.get w).words ↔ ∃ x ∈ (sp.get w).contents, ∃ l ∈ x.series.labels,
        a = l.name ∨ l.key = some a) ∧ ((sp.get w).contents = [] → (sp.get w).words = ∅) := by
  obtain ⟨sp, e, h⟩ := run_good addDouble ops (good_init maxMain maxOther)
  refine ⟨sp, e, fun w => ?_⟩
  obtain ⟨L, T, lists, S, -⟩ := h w
  rw [S.contents_eq]
  refine ⟨S.words, fun a => ?_, ?_⟩
  · rw [S.words.mem_iff]
    simp [storedWords, chainWords]
  · rintro rfl
    exact S.words.eq_empty

/-! ## Runs of insertions and deletions

`metric_insert` puts in a node without looking for its labels, so that the tree
may hold several nodes with equal labels.
-/

inductive TreeOp where
  | insert (clock : Clock) (name : Str) (hash : LabelHash) (type : DataType) (value : BitVec 64)
      (ttl : Int)
  | delete (base : Int) (name : Str) (hash : LabelHash)

/-- `metric_insert` or `metric_delete` of a sample. -/
def Store.treeStep (s : Store) : TreeOp → Option Store
  | .insert clock name hash type value ttl =>
    let r := labelsInitiate s.plan hash name
    (metricInsert clock { s with plan := r.2 } r.1 type value ttl).map Prod.fst
  | .delete base name hash => (deleteSample base s name hash).map Prod.fst

def Store.treeRun : Store → List TreeOp → Option Store
  | s, [] => some s
  | s, op :: ops => do
    let s ← s.treeStep op
    Store.treeRun s ops

/-- The labels that the operation inserts are not there. -/
def Store.absent (s : Store) : TreeOp → Bool
  | .insert _ name hash _ _ _ => decide ((findSample s name hash).map Prod.snd = some none)
  | .delete .. => true

/-- No insertion of the sequence meets its labels. -/
def Store.allAbsent : Store → List TreeOp → Bool
  | _, [] => true
  | s, op :: ops =>
    s.absent op &&
      match s.treeStep op with
      | none => true
      | some s => Store.allAbsent s ops

lemma treeStep_spec (S : Stored s T lists L) (op : TreeOp) :
    ∃ s' T' lists' L', s.treeStep op = some s' ∧
      Stored s' T' lists' L' ∧ (StrictlySorted L → s.absent op → StrictlySorted L') := by
  cases op with
  | insert clock name hash type value ttl =>
    have S1 := S.grow (labelsInitiate_grows s.plan hash name)
    have hf := labelsInitiate_fits s.plan hash name
    obtain ⟨s', T', lists', ret, l, r, e, rfl, S', left, right, -⟩ :=
      metricInsert_spec S1 hf clock type value ttl
    obtain ⟨p, efind, -, missing⟩ := metricFind_spec S1 hf
    refine ⟨s', T', lists', _, by rw [Store.treeStep, e]; rfl, S', fun hs habs => ?_⟩
    have hp : p = none := by
      rw [Store.absent, findSample, efind, decide_eq_true_eq] at habs
      exact some.inj habs
    exact hs.insert left right (missing hp)
  | delete base name hash =>
    have S1 := S.grow (labelsInitiate_grows s.plan hash name)
    obtain ⟨s', T', lists', -, hcases⟩ :=
      metricDelete_spec S1 (labelsInitiate_fits s.plan hash name) base
    rcases hcases with ⟨e, S', -⟩ | ⟨-, L1, x, L2, e, -, -, rfl, -, S', -⟩
    · refine ⟨s', T', lists', L, ?_, S', fun hs _ => hs⟩
      rw [Store.treeStep, deleteSample, e]
      rfl
    · refine ⟨s', T', lists', L1 ++ L2, ?_, S', fun hs _ => ?_⟩
      · rw [Store.treeStep, deleteSample, e]
        rfl
      · exact hs.sublist ((sublist_cons_self _ _).append_left _)

lemma treeRun_spec (ops : List TreeOp)
    (S : Stored s T lists L) : ∃ s' T' lists' L', s.treeRun ops = some s' ∧
      Stored s' T' lists' L' ∧ (StrictlySorted L → s.allAbsent ops → StrictlySorted L') := by
  induction ops generalizing s T lists L with
  | nil =>
    exact ⟨s, T, lists, L, rfl, S, fun hs _ => hs⟩
  | cons op ops ih =>
    obtain ⟨s1, T1, lists1, L1, e1, S1, strict1⟩ := treeStep_spec S op
    obtain ⟨s', T', lists', L', e', S', strict'⟩ := ih S1
    refine ⟨s', T', lists', L', ?_, S', fun hs habs => ?_⟩
    · simp only [Store.treeRun, e1]
      exact e'
    · rw [Store.allAbsent, e1, Bool.and_eq_true] at habs
      exact strict' (strict1 hs habs.1) habs.2

lemma Stored.labelsCmp_eq (S : Stored s T lists L) {x y : Record} (hx : x ∈ L) (hy : y ∈ L) :
    labelsCmp s.plan.size x.series.labels y.series.labels = compare x.sortKey y.sortKey :=
  Alligator.labelsCmp_eq (S.fits x hx).length_le (S.fits y hy).length_le

/-- Every run of insertions and deletions has a result, no pointer being missing on
the way: a red-black tree with a black root, whose nodes are sorted by their
labels.  The labels are distinct if no insertion met its own. -/
theorem treeRun_redBlack (maxSeries : Nat) (ops : List TreeOp) :
    ∃ s T, (Store.init maxSeries).treeRun ops = some s ∧ TreeAt s.nodes s.root T ∧
      T.addrs.map (recordAt s) = s.contents.map some ∧ (s.contents.Pairwise fun x y =>
        labelsCmp s.plan.size x.series.labels y.series.labels ≠ .gt) ∧
      ((Store.init maxSeries).allAbsent ops → s.contents.Pairwise fun x y =>
        labelsCmp s.plan.size x.series.labels y.series.labels = .lt) := by
  obtain ⟨s, T, lists, L, e, S, strict⟩ := treeRun_spec ops (stored_init maxSeries)
  refine ⟨s, T, e, S.tree, ?_⟩
  rw [S.contents_eq]
  refine ⟨S.records, S.sorted.imp_of_mem fun hx hy h => ?_, fun habs =>
    (strict List.Pairwise.nil habs).imp_of_mem fun hx hy h => ?_⟩
  · rw [S.labelsCmp_eq hx hy]
    exact Ordering.isLE_iff_ne_gt.mp h
  · rw [S.labelsCmp_eq hx hy]
    exact h

/-- Two insertions of the same labels. -/
theorem treeRun_duplicate :
    ∃ s, (Store.init 0).treeRun [.insert ⟨10, 10⟩ (cstr "a") .empty .int 1 5,
        .insert ⟨10, 10⟩ (cstr "a") .empty .int 2 5] = some s ∧
      ¬s.contents.Pairwise fun x y =>
        labelsCmp s.plan.size x.series.labels y.series.labels = .lt := by
  obtain ⟨s, -, -, -, e, -⟩ := treeRun_spec [.insert ⟨10, 10⟩ (cstr "a") .empty .int 1 5,
    .insert ⟨10, 10⟩ (cstr "a") .empty .int 2 5] (stored_init 0)
  refine ⟨s, e, ?_⟩
  have : (some s).map (fun s => decide (s.contents.Pairwise fun x y =>
      labelsCmp s.plan.size x.series.labels y.series.labels = .lt)) = some false := by
    rw [← e]
    decide +kernel
  exact of_decide_eq_false (some.inj this)

/-- In every run, a full wipe of a namespace ends with no series, no node on any
list of the wheel and no orphan.  The guard does not end it early, and the report
adds nothing to an empty default namespace. -/
theorem full_wipe_complete (addDouble : AddDouble)
    (maxMain maxOther : Nat) (ops : List Op) (w : Space) (clock : Clock) (report : Report) :
    ∃ sp s sp', Spaces.run addDouble (.init maxMain maxOther) ops = some sp ∧
      purgeTree clock.base (sp.get w) int64Max = some (s, 0) ∧
      sp.step addDouble (.purge w clock int64Max report) = some sp' ∧ sp'.get w = s ∧
      s.count = 0 ∧ s.contents = [] ∧ s.expire.count = 0 ∧ ∀ b, s.expire.heads b = none := by
  obtain ⟨sp, e, h⟩ := run_good addDouble ops (good_init maxMain maxOther)
  obtain ⟨L, T, lists, S, hs⟩ := h w
  obtain ⟨s, T', lists', L', e', S', -, -, -, hwipe, -⟩ := purgeTree_spec S hs clock.base int64Max
  obtain rfl := hwipe rfl
  obtain ⟨L1, h1⟩ := (h.set (w := w) ⟨T', lists', S', List.Pairwise.nil⟩) .main
  obtain ⟨main, L2, e2, -⟩ := reportPurge_spec h1 addDouble clock report
  have hmain : w = .main → main = s := by
    rintro rfl
    have hempty : reportPurge addDouble clock report 0 s = some s := by
      simp [reportPurge, S'.count]
    exact some.inj (e2.symm.trans hempty)
  refine ⟨sp, s, { sp.set w s with main := main }, e, e', ?_, ?_, S'.count, S'.contents_eq, S'.armed,
    S'.heads_none⟩
  · simp only [step, expirePurge, e', some_bind]
    rw [show reportPurge addDouble clock report 0 (sp.set w s).main = some main from e2]
    rfl
  · cases w with
    | main => exact hmain rfl
    | other => rfl

end Alligator
