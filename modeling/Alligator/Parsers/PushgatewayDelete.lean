import Alligator.Metric.Query
import Alligator.Parsers.Pushgateway

/-!
# Deleting what was pushed

`DELETE /metrics/job/a/instance/b` takes the labels of its address as a selector.  The series
that carry all of them are copied out of the tree first and then deleted one by one, each by
the chain that is built anew from its copy.

A label name that no series can carry must not get into the sort plan, so the names are looked
up in the table of the plan's names before the selector is built.  That table also has the
entry `__name__` of the metric name, under a hash that is a constant.
-/

namespace Alligator

open Memory RedBlack List Function Option LabelHash

/-! ## The table of names -/

/-- At most four bytes as a word, the lowest first. -/
def le32 (s : Str) : BitVec 32 := s.foldr (fun c v => v <<< 8 ||| BitVec.ofNat 32 c.toNat) 0

def tommyMix (a b c : BitVec 32) : BitVec 32 × BitVec 32 × BitVec 32 :=
  let a := (a - c) ^^^ c.rotateLeft 4
  let c := c + b
  let b := (b - a) ^^^ a.rotateLeft 6
  let a := a + c
  let c := (c - b) ^^^ b.rotateLeft 8
  let b := b + a
  let a := (a - c) ^^^ c.rotateLeft 16
  let c := c + b
  let b := (b - a) ^^^ a.rotateLeft 19
  let a := a + c
  let c := (c - b) ^^^ b.rotateLeft 4
  let b := b + a
  (a, b, c)

/-- `tommy_final`, of which the last word is the hash. -/
def tommyFinal (a b c : BitVec 32) : BitVec 32 :=
  let c := (c ^^^ b) - b.rotateLeft 14
  let a := (a ^^^ c) - c.rotateLeft 11
  let b := (b ^^^ a) - a.rotateLeft 25
  let c := (c ^^^ b) - b.rotateLeft 16
  let a := (a ^^^ c) - c.rotateLeft 4
  let b := (b ^^^ a) - a.rotateLeft 14
  (c ^^^ b) - b.rotateLeft 24

/-- The loop of `tommy_strhash_u32`, over the words of the key.  A word with a zero byte, the
end of the string, is the last one. -/
def tommyStrhashLoop : Nat → Str → BitVec 32 → BitVec 32 → BitVec 32 → BitVec 32
  | 0, _, a, b, c => tommyFinal a b c
  | fuel + 1, key, a, b, c =>
    let a := a + le32 (key.take 4)
    if key.length < 4 then tommyFinal a b c
    else
      let b := b + le32 ((key.drop 4).take 4)
      if key.length < 8 then tommyFinal a b c
      else
        let c := c + le32 ((key.drop 8).take 4)
        if key.length < 12 then tommyFinal a b c
        else
          let (a, b, c) := tommyMix a b c
          tommyStrhashLoop fuel (key.drop 12) a b c

/-- `tommy_strhash_u32(0, key)`, the function `lookup3` of `metrictree_hashfunc`. -/
def tommyStrhashU32 (key : Str) : BitVec 32 :=
  tommyStrhashLoop (key.length + 1) key 0xdeadbeef 0xdeadbeef 0xdeadbeef

def mainMetricHash : BitVec 32 := 3262809090

/-- `sort_plan->check_collisions`: the names of the plan with their hashes. -/
def checkCollisions (hashfuncGet : Str → BitVec 32) (p : SortPlan) : List (Str × BitVec 32) :=
  (mainMetricName, mainMetricHash) :: p.labels.map fun n => (n, hashfuncGet n)

/-- `pg_plan_probe_for`: is the name in the table? -/
def pgPlanProbe (hashfuncGet : Str → BitVec 32) (p : SortPlan) (name : Str) : Bool :=
  (checkCollisions hashfuncGet p).any fun e => e.2 == hashfuncGet name && e.1 == name

/-! ## The request -/

structure PgDeleteEntry where
  name : Str
  labels : LabelHash

def pgCopyLabels (labels : Labels) : LabelHash :=
  labels.tail.foldl
    (fun hash l => match l.key with
      | none => hash
      | some key => hash.insert l.name key) .empty

def pgDeleteCollectNode (planSize : Nat) (query : Labels) (labelsCount : Nat) (h : Nodes) :
    Nat → Ptr → Option (List PgDeleteEntry)
  | _, none => some []
  | 0, some _ => none
  | fuel + 1, some x => do
    let n ← h.get x
    let left ← pgDeleteCollectNode planSize query labelsCount h fuel n.left
    let right ← pgDeleteCollectNode planSize query labelsCount h fuel n.right
    match keyOf n.labels with
    | none => return left ++ right
    | some name =>
      if labelsMatch planSize n.labels query labelsCount ≠ 0 then return left ++ right
      else return left ++ right ++ [⟨name, pgCopyLabels n.labels⟩]

def pgDeleteEntries (base : Int) : Store → List PgDeleteEntry → Option Store
  | s, [] => some s
  | s, e :: es => do
    let (s, _) ← deleteSample base s e.name e.labels
    pgDeleteEntries base s es

/-- The loop of `pg_url_components_odd`. -/
def urlComponentsLoop : Nat → Str → Nat → Nat
  | 0, _, n => n
  | fuel + 1, t, n =>
    let t := t.dropWhile (· == 47)
    if t = [] then n else urlComponentsLoop fuel (t.dropWhile (· != 47)) (n + 1)

def pgUrlComponentsOdd (uri : Str) : Bool :=
  match urlGrouping uri with
  | none => false
  | some t => urlComponentsLoop (t.length + 1) t 0 % 2 == 1

/-- The part of `pushgateway_delete` behind the checks of the address. -/
def pgDeleteLabels (hashfuncGet : Str → BitVec 32) (base : Int) (s : Store)
    (urlLabels : LabelHash) : Option (Store × Nat) :=
  if urlLabels.pairs.any fun c => !pgPlanProbe hashfuncGet s.plan c.1 then some (s, 202)
  else do
    let (query, plan) := labelsSelect s.plan urlLabels none
    let s := { s with plan := plan }
    let list ← pgDeleteCollectNode s.plan.size query urlLabels.pairs.length s.nodes
      s.nodes.next s.root
    let s ← pgDeleteEntries base s list
    return (s, 202)

/-- `pushgateway_delete` on the namespace of the entrypoint: the namespace afterwards, and the
status. -/
def pushgatewayDelete (hashfuncGet : Str → BitVec 32) (base : Int) (s : Store)
    (uri : Option Str) : Option (Store × Nat) :=
  match getLabelsFromUrlPushgatewayFormat uri with
  | none => some (s, 404)
  | some urlLabels =>
    if cstr "job" ∉ urlLabels.pairs.map Prod.fst ∨ pgUrlComponentsOdd (uri.getD []) then
      some (s, 400)
    else pgDeleteLabels hashfuncGet base s urlLabels

/-! ## The components of an address -/

/-- The components of the path behind `/metrics/` that are not empty. -/
def pathComponents (uri : Str) : List Str :=
  (((urlGrouping uri).getD []).splitOn 47).filter (· ≠ [])

lemma filter_splitOn_dropWhile (t : Str) :
    ((t.dropWhile (· == 47)).splitOn 47).filter (· ≠ []) = (t.splitOn 47).filter (· ≠ []) := by
  induction t with
  | nil => rfl
  | cons c t ih =>
    by_cases hc : c = 47
    · subst hc
      have hsplit : ((47 : UInt8) :: t).splitOn 47 = [] :: t.splitOn 47 :=
        splitOn_append_cons_self_of_not_mem not_mem_nil t
      rw [dropWhile_cons_of_pos (by simp), ih]
      rfl
    · rw [dropWhile_cons_of_neg (by simpa using hc)]

/-- The first component, and the rest. -/
lemma filter_splitOn_cons {t : Str} (ht : t ≠ []) (hhead : t.head? ≠ some 47) :
    (t.splitOn 47).filter (· ≠ []) = t.takeWhile (· != 47) ::
      ((t.dropWhile (· != 47)).splitOn 47).filter (· ≠ []) := by
  have hne : t.takeWhile (· != 47) ≠ [] := by
    cases t with
    | nil => exact absurd rfl ht
    | cons c t =>
      have hc : c ≠ 47 := fun e => hhead (by rw [e]; rfl)
      simp [hc]
  have hfree : 47 ∉ t.takeWhile (· != 47) := fun hx => by
    simpa using mem_takeWhile_imp hx
  have happ : t.takeWhile (· != 47) ++ t.dropWhile (· != 47) = t := takeWhile_append_dropWhile
  cases hrest : t.dropWhile (· != 47) with
  | nil =>
    rw [hrest, append_nil] at happ
    rw [happ] at hfree ⊢
    rw [splitOn_eq_singleton hfree]
    simp [ht]
  | cons c r =>
    have hc : c = 47 := by
      have hhead := List.head?_dropWhile_not (· != 47) t
      rw [hrest] at hhead
      simpa using hhead
    subst hc
    have hsplit : t.splitOn 47 = t.takeWhile (· != 47) :: r.splitOn 47 := by
      conv_lhs => rw [← happ, hrest]
      exact splitOn_append_cons_self_of_not_mem hfree r
    have hslash : ((47 : UInt8) :: r).splitOn 47 = [] :: r.splitOn 47 :=
      splitOn_append_cons_self_of_not_mem not_mem_nil r
    rw [hsplit, hslash]
    simp [hne]

lemma urlComponentsLoop_eq (fuel : Nat) (t : Str) (n : Nat) (h : t.length < fuel) :
    urlComponentsLoop fuel t n = n + ((t.splitOn 47).filter (· ≠ [])).length := by
  induction fuel generalizing t n with
  | zero =>
    omega
  | succ fuel ih =>
    rw [urlComponentsLoop, ← filter_splitOn_dropWhile t]
    have hle : (t.dropWhile (· == 47)).length ≤ t.length := (dropWhile_sublist _).length_le
    generalize hu : t.dropWhile (· == 47) = u at hle
    by_cases h0 : u = []
    · simp [h0]
    · have hhead : u.head? ≠ some 47 := by
        have := List.head?_dropWhile_not (· == 47) t
        rw [hu] at this
        intro e
        simp [e] at this
      have hshort : (u.dropWhile (· != 47)).length < u.length := by
        cases u with
        | nil => exact absurd rfl h0
        | cons c u =>
          have hc : c ≠ 47 := fun e => hhead (by rw [e]; rfl)
          rw [dropWhile_cons_of_pos (by simpa using hc)]
          exact Nat.lt_succ_of_le (dropWhile_sublist _).length_le
      rw [if_neg h0, ih _ _ (by omega), filter_splitOn_cons h0 hhead, length_cons]
      omega

lemma pgUrlComponentsOdd_eq (uri : Str) :
    pgUrlComponentsOdd uri = decide ((pathComponents uri).length % 2 = 1) := by
  rw [pgUrlComponentsOdd, pathComponents]
  cases urlGrouping uri with
  | none => rfl
  | some t =>
    dsimp only
    rw [urlComponentsLoop_eq _ _ _ (Nat.lt_succ_self _), zero_add]
    rfl

/-! ## Copies of series -/

lemma pgCopyLabels_eq (labels : Labels) : pgCopyLabels labels =
    (labelPairs labels).foldl (fun hash p => hash.insert p.1 p.2) .empty := by
  rw [pgCopyLabels, labelPairs]
  generalize empty = hash
  induction labels.tail generalizing hash with
  | nil => rfl
  | cons l t ih =>
    cases hk : l.key with
    | none =>
      rw [filterMap_cons_none (by rw [hk]; rfl), foldl_cons, ← ih]
      simp only [hk]
    | some key =>
      rw [filterMap_cons_some (by rw [hk]; rfl), foldl_cons, foldl_cons, ← ih]
      simp only [hk]

variable {name : Str} {x : Record}

section Copies

variable {p : SortPlan} {labels : Labels}

lemma pairs_pgCopyLabels (hf : Fits p labels) :
    (pgCopyLabels labels).pairs = labelPairs labels := by
  have hnd : (empty.pairs.map Prod.fst ++ (labelPairs labels).map Prod.fst).Nodup :=
    hf.nodup_labelPairs
  rw [pgCopyLabels_eq, foldl_insert hnd]
  rfl

lemma mem_labels_of_mem_labelPairs (hf : Fits p labels) {c : Str × Str}
    (hc : c ∈ labelPairs labels) : c.1 ∈ p.labels := by
  obtain ⟨i, hi, -⟩ := (mem_labelPairs_iff_slot hf).mp hc
  exact mem_of_getElem? hi

lemma SortPlan.eq_of_labels {q : SortPlan} (h : p.labels = q.labels) : p = q := by
  cases p
  cases q
  cases h
  rfl

lemma labelsInitiate_plan_eq {hash : LabelHash} (h : ∀ c ∈ hash.pairs, c.1 ∈ p.labels)
    (name : Str) : (labelsInitiate p hash name).2 = p := by
  have hnew : newLabels p hash = [] := filter_eq_nil_iff.mpr fun c hc => by simpa using h c hc
  have hlabels : (labelsInitiate p hash name).2.labels = p.labels := by
    rw [labelsInitiate_plan, hnew]
    simp
  exact SortPlan.eq_of_labels hlabels

/-- The chain built from the copy of a series stands where the series stands. -/
lemma sortKey_pgCopyLabels (hf : Fits p labels) (hname : keyOf labels = some name) :
    sortKey (labelsInitiate p (pgCopyLabels labels) name).1 = sortKey labels := by
  have hin : ∀ c ∈ (pgCopyLabels labels).pairs, c.1 ∈ p.labels := by
    rw [pairs_pgCopyLabels hf]
    exact fun c hc => mem_labels_of_mem_labelPairs hf hc
  have hplan := labelsInitiate_plan_eq hin name
  have hfits := labelsInitiate_fits p (pgCopyLabels labels) name
  rw [hplan] at hfits
  refine (sortKey_eq_iff hfits hf).mpr ?_
  rw [seriesKey_labelsInitiate_of_kept (by rw [hplan]; exact hin), pairs_pgCopyLabels hf, seriesKey,
    hname]
  rfl

end Copies

def Record.copy (x : Record) : PgDeleteEntry :=
  ⟨(keyOf x.series.labels).getD [], pgCopyLabels x.series.labels⟩

/-! ## The walk -/

section Walk

variable {h : Nodes} {planSize : Nat} {query : Labels} {labelsCount : Nat}

def copyAt (h : Nodes) (a : Addr) : PgDeleteEntry :=
  ⟨(keyOf (labelsAt h a)).getD [], pgCopyLabels (labelsAt h a)⟩

/-- The walk copies the matching series, each once. -/
lemma pgDeleteCollectNode_spec {t : CTree} {fuel : Nat}
    (ht : t.Within (links h) (fun a => ∃ name, keyOf (labelsAt h a) = some name) fuel) :
    ∃ as : List Addr, as.Perm (t.addrs.filter fun a =>
        labelsMatch planSize (labelsAt h a) query labelsCount == 0) ∧
      pgDeleteCollectNode planSize query labelsCount h fuel t.root = some (as.map (copyAt h)) := by
  refine ht.induct (P := fun fuel t => ∃ as : List Addr, as.Perm (t.addrs.filter fun a =>
      labelsMatch planSize (labelsAt h a) query labelsCount == 0) ∧
    pgDeleteCollectNode planSize query labelsCount h fuel t.root = some (as.map (copyAt h)))
    (fun fuel => ⟨[], List.Perm.refl _, by cases fuel <;> rfl⟩) ?_
  rintro fuel a c l r ht ⟨as, hp, eas⟩ ⟨bs, hq, ebs⟩
  obtain ⟨n, hget, hleft, hright, hlab⟩ := node_of_lies ht.lies
  obtain ⟨name, hn⟩ := ht.root
  have hperm : (as ++ bs ++ [a].filter fun b =>
        labelsMatch planSize (labelsAt h b) query labelsCount == 0).Perm
      ((CTree.node a c l r).addrs.filter fun b =>
        labelsMatch planSize (labelsAt h b) query labelsCount == 0) := by
    rw [CTree.addrs, append_cons, filter_append, filter_append, append_assoc, append_assoc]
    exact hp.append ((hq.append_right _).trans perm_append_comm)
  refine ⟨_, hperm, ?_⟩
  show pgDeleteCollectNode planSize query labelsCount h (fuel + 1) (some a) = _
  simp only [pgDeleteCollectNode, hget, hleft, hright, eas, ebs, ← hlab, hn, some_bind]
  by_cases hm : labelsMatch planSize (labelsAt h a) query labelsCount = 0
  · simp [hm, copyAt, hn]
  · simp [hm]

end Walk

/-! ## The deletions -/

section Deletions

variable {s : Store} {L : List Record}

/-- A copied series is deleted, and nothing else changes. -/
lemma deleteSample_copy (h : Holds s L) (base : Int) (hx : x ∈ L) :
    ∃ s', deleteSample base s x.copy.name x.copy.labels = some (s', true) ∧
      Holds s' (L.filter (· ≠ x)) ∧ s'.plan = s.plan := by
  obtain ⟨hf, name, hname⟩ : Fits s.plan x.series.labels ∧ ∃ name, keyOf x.series.labels =
    some name := by
    obtain ⟨T, lists, S, -⟩ := h
    exact ⟨S.fits x hx, (S.fits x hx).2⟩
  have hcopy : x.copy = ⟨name, pgCopyLabels x.series.labels⟩ := by
    rw [Record.copy, hname]
    rfl
  have hkey : sortKey (chainOf s name (pgCopyLabels x.series.labels)) = x.sortKey :=
    sortKey_pgCopyLabels hf hname
  have hplan : planAfter s name (pgCopyLabels x.series.labels) = s.plan :=
    labelsInitiate_plan_eq (by
      rw [pairs_pgCopyLabels hf]
      exact fun c hc => mem_labels_of_mem_labelPairs hf hc) name
  have hstrict : StrictlySorted L := by
    obtain ⟨T, lists, S, hs⟩ := h
    exact hs
  rw [hcopy]
  obtain ⟨s', hp, -, ⟨-, -, hmiss⟩ | ⟨L1, y, L2, e, rfl, hy, h'⟩⟩ :=
    deleteSample_spec h base name (pgCopyLabels x.series.labels)
  · exact absurd hkey.symm (hmiss x hx)
  · have hxy : y = x := hstrict.inj (by simp) hx (hy.trans hkey)
    subst hxy
    have hnd : (L1 ++ y :: L2).Nodup := hstrict.nodup.of_map
    refine ⟨s', e, ?_, hp.trans hplan⟩
    have hne : ∀ z ∈ L1 ++ L2, z ≠ y := by
      rintro z hz rfl
      exact (nodup_cons.mp (nodup_middle.mp hnd)).1 hz
    have hfilter : (L1 ++ y :: L2).filter (· ≠ y) = L1 ++ L2 := by
      rw [filter_append, filter_cons_of_neg (by simp), ← filter_append]
      exact filter_eq_self.mpr fun z hz => by simpa using hne z hz
    rwa [hfilter]

/-- All copied series are deleted, if they are the ones with a property. -/
lemma pgDeleteEntries_spec (base : Int) (P : Record → Bool) {D : List Record}
    (h : Holds s L) (hperm : D.Perm (L.filter P)) :
    ∃ s', pgDeleteEntries base s (D.map Record.copy) = some s' ∧ Holds s' (L.filter fun x => !P x) ∧
      s'.plan = s.plan := by
  induction D generalizing s L with
  | nil =>
    have hnone : ∀ x ∈ L, ¬P x = true := filter_eq_nil_iff.mp hperm.symm.eq_nil
    refine ⟨s, rfl, ?_, rfl⟩
    rwa [filter_eq_self.mpr fun x hx => by simpa using hnone x hx]
  | cons x D ih =>
    obtain ⟨hx, hPx⟩ := mem_filter.mp (hperm.subset mem_cons_self)
    obtain ⟨s1, e1, h1, hplan1⟩ := deleteSample_copy h base hx
    have hnd : (x :: D).Nodup := by
      obtain ⟨T, lists, S, hs⟩ := h
      exact hperm.nodup_iff.mpr (hs.nodup.of_map.filter _)
    have hrest : D.Perm ((L.filter (· ≠ x)).filter P) := by
      have := hperm.filter (· ≠ x)
      rw [filter_cons_of_neg (by simp)] at this
      rw [filter_eq_self.mpr fun y hy => by
        simpa using fun e : y = x => (nodup_cons.mp hnd).1 (e ▸ hy)] at this
      rw [List.filter_filter] at this ⊢
      simpa only [Bool.and_comm] using this
    obtain ⟨s', e', h', hplan'⟩ := ih h1 hrest
    refine ⟨s', ?_, ?_, hplan'.trans hplan1⟩
    · rw [map_cons, pgDeleteEntries, e1]
      exact e'
    · rw [List.filter_filter] at h'
      have heq : (L.filter fun y => decide (y ≠ x) && !P y) = L.filter fun y => !P y := by
        refine filter_congr fun y _ => ?_
        by_cases e : y = x
        · simp [e, hPx]
        · simp [e]
      simp only [Bool.and_comm] at h' heq
      rwa [heq] at h'

end Deletions

/-! ## What a request deletes -/

def Record.carries (x : Record) (lbl : LabelHash) : Bool :=
  lbl.pairs.all fun c => decide (c ∈ labelPairs x.series.labels)

lemma Record.carries_iff {lbl : LabelHash} :
    x.carries lbl = true ↔ ∀ c ∈ lbl.pairs, c ∈ labelPairs x.series.labels := by
  rw [Record.carries, List.all_eq_true]
  exact forall₂_congr fun c _ => decide_eq_true_iff

variable {p : SortPlan}

section Request

variable {s : Store} {L : List Record} {hashfuncGet : Str → BitVec 32} {lbl : LabelHash}
  {lists : Buckets} {T : CTree}

/-- The matching nodes hold the records that carry the labels. -/
lemma Stored.filterMap_match (S : Stored s T lists L)
    (g : (labelsSelect p lbl none).2.Grows s.plan) :
    (T.addrs.filter fun a => labelsMatch s.plan.size (labelsAt s.nodes a)
      (labelsSelect p lbl none).1 lbl.pairs.length == 0).filterMap (recordAt s) =
        L.filter fun x => x.carries lbl := by
  have hL : T.addrs.filterMap (recordAt s) = L := by
    rw [← S.addrs_eq]
    exact S.contents_eq
  rw [← hL, filterMap_filter, filter_filterMap]
  refine filterMap_congr fun a ha => ?_
  obtain ⟨x, hx, hrec⟩ := S.record_of_mem ha
  have hmatch : labelsMatch s.plan.size x.series.labels (labelsSelect p lbl none).1
      lbl.pairs.length = 0 ↔ x.carries lbl = true :=
    (labelsMatch_eq_zero (S.fits x hx) ⟨.any, lbl⟩ g fun n hn => by cases hn).trans
      Record.carries_iff.symm
  rw [hrec, S.labelsAt_eq ha hrec, filter_some]
  simp [hmatch]

lemma Stored.collect (S : Stored s T lists L) (g : (labelsSelect p lbl none).2.Grows s.plan) :
    ∃ D : List Record, D.Perm (L.filter fun x => x.carries lbl) ∧
      pgDeleteCollectNode s.plan.size (labelsSelect p lbl none).1 lbl.pairs.length s.nodes
        s.nodes.next s.root = some (D.map Record.copy) := by
  obtain ⟨as, hperm, e⟩ : ∃ as : List Addr, as.Perm (T.addrs.filter fun a => labelsMatch s.plan.size
        (labelsAt s.nodes a) (labelsSelect p lbl none).1 lbl.pairs.length == 0) ∧
      pgDeleteCollectNode s.plan.size (labelsSelect p lbl none).1 lbl.pairs.length s.nodes
        s.nodes.next T.root = some (as.map (copyAt s.nodes)) :=
    pgDeleteCollectNode_spec ⟨S.tree.lies, fun a ha => S.name_at ha, S.tree.length_le⟩
  have hcopies : as.map (copyAt s.nodes) = (as.filterMap (recordAt s)).map Record.copy := by
    rw [map_filterMap, ← filterMap_eq_map]
    refine filterMap_congr fun a ha => ?_
    have haT : a ∈ T.addrs := (mem_filter.mp (hperm.subset ha)).1
    obtain ⟨x, -, hrec⟩ := S.record_of_mem haT
    rw [hrec, comp_apply, copyAt, S.labelsAt_eq haT hrec]
    rfl
  refine ⟨as.filterMap (recordAt s), ?_, ?_⟩
  · rw [← S.filterMap_match g]
    exact hperm.filterMap _
  · rw [← S.tree.root_eq, e, hcopies]

lemma pgPlanProbe_iff : pgPlanProbe hashfuncGet p name = true ↔
    name ∈ p.labels ∨ name = mainMetricName ∧ hashfuncGet mainMetricName = mainMetricHash := by
  rw [pgPlanProbe, checkCollisions, List.any_cons, Bool.or_eq_true, List.any_map, or_comm]
  refine or_congr ?_ ?_
  · simp only [List.any_eq_true, Function.comp_apply, Bool.and_eq_true, beq_iff_eq]
    constructor
    · rintro ⟨n, hn, -, rfl⟩
      exact hn
    · exact fun h => ⟨name, h, rfl, rfl⟩
  · simp only [Bool.and_eq_true, beq_iff_eq]
    constructor
    · rintro ⟨hh, rfl⟩
      exact ⟨rfl, hh.symm⟩
    · rintro ⟨rfl, hh⟩
      exact ⟨hh.symm, rfl⟩

/-- The series that carry the labels are deleted.  The plan takes the names of the selector if
all of them are in the table. -/
lemma pgDeleteLabels_spec (h : Holds s L) (hashfuncGet : Str → BitVec 32) (base : Int)
    (lbl : LabelHash) : ∃ s', pgDeleteLabels hashfuncGet base s lbl = some (s', 202) ∧
      Holds s' (L.filter fun x => !x.carries lbl) ∧
      s'.plan = if ∀ c ∈ lbl.pairs, pgPlanProbe hashfuncGet s.plan c.1 = true then
        (labelsInitiate s.plan lbl []).2 else s.plan := by
  have hany : (lbl.pairs.any fun c => !pgPlanProbe hashfuncGet s.plan c.1) = true ↔
      ¬∀ c ∈ lbl.pairs, pgPlanProbe hashfuncGet s.plan c.1 = true := by
    simp
  obtain ⟨T, lists, S, hs⟩ := h
  by_cases hprobe : ∀ c ∈ lbl.pairs, pgPlanProbe hashfuncGet s.plan c.1 = true
  · have S1 := S.grow (labelsInitiate_grows s.plan lbl [])
    obtain ⟨D, hD, ecollect⟩ := S1.collect (SortPlan.Grows.refl _)
    obtain ⟨s', edelete, h', hplan⟩ := pgDeleteEntries_spec base (fun x => x.carries lbl)
      ⟨T, lists, S1, hs⟩ hD
    refine ⟨s', ?_, h', ?_⟩
    · rw [pgDeleteLabels, if_neg fun hm => hany.mp hm hprobe]
      exact bind_eq_some_iff.mpr ⟨_, ecollect, bind_eq_some_iff.mpr ⟨s', edelete, rfl⟩⟩
    · rw [if_pos hprobe, hplan]
  · refine ⟨s, ?_, ?_, (if_neg hprobe).symm⟩
    · rw [pgDeleteLabels, if_pos (hany.mpr hprobe)]
    · -- no series carries a label whose name is not in the plan
      have hkeep : ∀ x ∈ L, (!x.carries lbl) = true := by
        intro x hx
        rw [Bool.not_eq_true', ← Bool.not_eq_true, Record.carries_iff]
        intro hall
        exact hprobe fun c hc =>
          pgPlanProbe_iff.mpr (.inl (mem_labels_of_mem_labelPairs (S.fits x hx) (hall c hc)))
      rw [filter_eq_self.mpr hkeep]
      exact ⟨T, lists, S, hs⟩

/-- The plan stays as it is if it has all names of a sample, or is full. -/
lemma labelsInitiate_plan_eq_iff : (labelsInitiate p lbl name).2 = p ↔
      (∀ c ∈ lbl.pairs, c.1 ∈ p.labels) ∨ sortplanMax ≤ p.size := by
  constructor
  · intro e
    by_contra hcon
    simp only [not_or, not_forall] at hcon
    obtain ⟨⟨c, hc, hn⟩, hroom⟩ := hcon
    have hlabels := labelsInitiate_plan p lbl name
    rw [e] at hlabels
    have hnil := self_eq_append_right.mp hlabels
    have hnew : c ∈ newLabels p lbl := mem_filter.mpr ⟨hc, by simpa using hn⟩
    rw [map_eq_nil_iff, take_eq_nil_iff] at hnil
    obtain h0 | h0 := hnil
    · omega
    · rw [h0] at hnew
      cases hnew
  · rintro (h | h)
    · exact labelsInitiate_plan_eq h name
    · have hlabels := labelsInitiate_plan p lbl name
      rw [Nat.sub_eq_zero_of_le h, take_zero, map_nil, append_nil] at hlabels
      exact SortPlan.eq_of_labels hlabels

/-- All names pass the probe and one is new for the plan exactly if that is `__name__`. -/
lemma probe_new_iff :
    ((∀ c ∈ lbl.pairs, pgPlanProbe hashfuncGet p c.1 = true) ∧ ¬∀ c ∈ lbl.pairs, c.1 ∈ p.labels) ↔
      hashfuncGet mainMetricName = mainMetricHash ∧ mainMetricName ∈ lbl.pairs.map Prod.fst ∧
        mainMetricName ∉ p.labels ∧
        ∀ n ∈ lbl.pairs.map Prod.fst, n ≠ mainMetricName → n ∈ p.labels := by
  constructor
  · rintro ⟨hprobe, hnew⟩
    simp only [not_forall] at hnew
    obtain ⟨c, hc, hn⟩ := hnew
    obtain ⟨hname, hhash⟩ := (pgPlanProbe_iff.mp (hprobe c hc)).resolve_left hn
    refine ⟨hhash, hname ▸ mem_map_of_mem hc, hname ▸ hn, ?_⟩
    rintro n hmem hne
    obtain ⟨d, hd, rfl⟩ := mem_map.mp hmem
    exact (pgPlanProbe_iff.mp (hprobe d hd)).resolve_right fun hmain => hne hmain.1
  · rintro ⟨hhash, hmem, hn, hothers⟩
    obtain ⟨c, hc, hname⟩ := mem_map.mp hmem
    refine ⟨fun d hd => pgPlanProbe_iff.mpr ?_, fun hall => hn (hname ▸ hall c hc)⟩
    by_cases hd' : d.1 = mainMetricName
    · exact .inr ⟨hd', hhash⟩
    · exact .inl (hothers d.1 (mem_map_of_mem hd) hd')

/-- For every state of a namespace, every hash function and every address with an even number
of path components and a job: the request returns `202`, deletes the series that carry all
labels of the address, keeps the others as they are and leaves the plan alone, unless the
labels have the name `__name__`, the hash function gives it the constant hash of the metric
name, no series has such a label yet and the plan has the other names and room for this
one. -/
theorem pushgatewayDelete_iff (h : Holds s L) (hashfuncGet : Str → BitVec 32) (base : Int)
    {uri : Str} (hurl : getLabelsFromUrlPushgatewayFormat (some uri) = some lbl)
    (hjob : cstr "job" ∈ lbl.pairs.map Prod.fst) (heven : (pathComponents uri).length % 2 = 0) :
    (∃ s', pushgatewayDelete hashfuncGet base s (some uri) = some (s', 202) ∧
        s'.contents = s.contents.filter (fun x => !x.carries lbl) ∧ s'.plan = s.plan) ↔
      ¬(hashfuncGet mainMetricName = mainMetricHash ∧
        mainMetricName ∈ lbl.pairs.map Prod.fst ∧ mainMetricName ∉ s.plan.labels ∧
        (∀ n ∈ lbl.pairs.map Prod.fst, n ≠ mainMetricName → n ∈ s.plan.labels) ∧
        s.plan.size < sortplanMax) := by
  have hgood : ¬(cstr "job" ∉ lbl.pairs.map Prod.fst ∨ pgUrlComponentsOdd uri = true) := by
    rw [pgUrlComponentsOdd_eq, heven]
    rintro (hno | ho)
    · exact hno hjob
    · cases ho
  obtain ⟨s', e, h', hplan⟩ := pgDeleteLabels_spec h hashfuncGet base lbl
  have hrun : pushgatewayDelete hashfuncGet base s (some uri) = some (s', 202) := by
    rw [pushgatewayDelete, hurl]
    dsimp only
    rw [getD_some, if_neg hgood, e]
  have hiff : (∃ s', pushgatewayDelete hashfuncGet base s (some uri) = some (s', 202) ∧
      s'.contents = s.contents.filter (fun x => !x.carries lbl) ∧ s'.plan = s.plan) ↔
      s'.plan = s.plan := by
    constructor
    · rintro ⟨s1, e1, -, hp⟩
      rw [hrun] at e1
      cases e1
      exact hp
    · exact fun hp => ⟨s', hrun, by rw [h'.contents_eq, h.contents_eq], hp⟩
  have hnew : ((∀ c ∈ lbl.pairs, pgPlanProbe hashfuncGet s.plan c.1 = true) ∧ _) ↔ _ :=
    probe_new_iff
  rw [hiff, hplan]
  split_ifs with hprobe
  · rw [labelsInitiate_plan_eq_iff]
    constructor
    · rintro (hall | hfull) ⟨h1, h2, h3, h4, hroom⟩
      · exact (hnew.mpr ⟨h1, h2, h3, h4⟩).2 hall
      · omega
    · intro hnot
      by_contra hcon
      rw [not_or, not_le] at hcon
      obtain ⟨h1, h2, h3, h4⟩ := hnew.mp ⟨hprobe, hcon.1⟩
      exact hnot ⟨h1, h2, h3, h4, hcon.2⟩
  · exact iff_of_true rfl fun ⟨h1, h2, h3, h4, _⟩ => hprobe (hnew.mpr ⟨h1, h2, h3, h4⟩).1

/-- Two series, of which one carries the label of the address. -/
theorem pushgatewayDelete_iff_job :
    ∃ s₁ s₂ s' p₁ p₂, upsertSample (fun a _ => a) ⟨10, 10⟩ (.init 0) (cstr "m")
        (LabelHash.empty.insert (cstr "job") (cstr "a")) ⟨.int, 1, 5, false, false⟩ =
          some (s₁, p₁) ∧
      upsertSample (fun a _ => a) ⟨10, 10⟩ s₁ (cstr "m")
        (LabelHash.empty.insert (cstr "job") (cstr "b")) ⟨.int, 2, 5, false, false⟩ =
          some (s₂, p₂) ∧
      pushgatewayDelete tommyStrhashU32 10 s₂ (some (cstr "/metrics/job/a")) = some (s', 202) ∧
      s'.contents = s₂.contents.filter (fun x =>
        !x.carries (LabelHash.empty.insert (cstr "job") (cstr "a"))) ∧ s'.plan = s₂.plan := by
  obtain ⟨s₁, p₁, L1, -, e1, h1, -⟩ := upsertSample_spec (holds_init 0) (fun a _ => a) ⟨10, 10⟩
    (cstr "m") (empty.insert (cstr "job") (cstr "a")) ⟨.int, 1, 5, false, false⟩
  obtain ⟨s₂, p₂, L2, -, e2, h2, -⟩ := upsertSample_spec h1 (fun a _ => a) ⟨10, 10⟩ (cstr "m")
    (empty.insert (cstr "job") (cstr "b")) ⟨.int, 2, 5, false, false⟩
  have hurl : getLabelsFromUrlPushgatewayFormat (some (cstr "/metrics/job/a")) =
      some (empty.insert (cstr "job") (cstr "a")) := rfl
  obtain ⟨s', e', hcontents, hplan⟩ := (pushgatewayDelete_iff h2 tommyStrhashU32 10 hurl
    (by decide) (by decide)).mpr fun hname => absurd hname.2.1 (by decide)
  exact ⟨s₁, s₂, s', p₁, p₂, e1, e2, e', hcontents, hplan⟩

/-- With the hash function `lookup3`, `DELETE /metrics/job/a/__name__/x` brings `__name__` into
the plan of a namespace that has the label `job`. -/
theorem pushgatewayDelete_name_grows :
    ∃ s s' p, upsertSample (fun a _ => a) ⟨10, 10⟩ (.init 0) (cstr "m")
        (LabelHash.empty.insert (cstr "job") (cstr "a")) ⟨.int, 1, 5, false, false⟩ = some (s, p) ∧
      pushgatewayDelete tommyStrhashU32 10 s (some (cstr "/metrics/job/a/__name__/x")) =
        some (s', 202) ∧
      s.plan.labels = [cstr "job"] ∧ s'.plan.labels = [cstr "job", cstr "__name__"] := by
  have hrun : (do
      let r ← upsertSample (fun a _ => a) ⟨10, 10⟩ (.init 0) (cstr "m")
        (empty.insert (cstr "job") (cstr "a")) ⟨.int, 1, 5, false, false⟩
      let r' ← pushgatewayDelete tommyStrhashU32 10 r.1 (some (cstr "/metrics/job/a/__name__/x"))
      return (r.1.plan.labels, r'.1.plan.labels, r'.2)) =
      some ([cstr "job"], [cstr "job", cstr "__name__"], 202) := by
    decide
  obtain ⟨⟨s, p⟩, e, hrun⟩ := bind_eq_some_iff.mp hrun
  obtain ⟨⟨s', status⟩, e', hrun⟩ := bind_eq_some_iff.mp hrun
  obtain ⟨hs, hs', rfl⟩ : s.plan.labels = [cstr "job"] ∧
      s'.plan.labels = [cstr "job", cstr "__name__"] ∧ status = 202 := by
    simpa using hrun
  exact ⟨s, s', p, e, e', hs, hs'⟩

end Request

end Alligator
