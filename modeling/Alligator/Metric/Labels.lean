import Alligator.Lib.Slots
import Mathlib.Data.Finset.Dedup
import Mathlib.Data.List.Infix

/-!
# Label chains and the sort plan

A series carries a chain of labels.  The first node of a chain is the metric
name; node `i` belongs to the label whose name is entry `i` of the sort plan of
the namespace, and has no key when the series lacks that label.  The plan only
grows, so an old chain is shorter than the plan and stays a prefix of it.

`labelsCmp` walks two chains against the plan.  On chains that fit the plan it
is the lexicographic order of `sortKey`, which does not mention the plan
(`labelsCmp_eq`), and two fitting chains have one sort key exactly when they are
the same series: the same metric name and the same set of label pairs
(`sortKey_eq_iff`).
-/

namespace Alligator

open List Slots

/-- A byte string of the source, without its terminating zero. -/
abbrev Str := List UInt8

instance : LawfulBEq Str := inferInstance

/-- The byte string of an ASCII literal. -/
def cstr (s : String) : Str := s.toList.map fun c => c.toNat.toUInt8

/-- `strcmp`: bytes are compared unsigned and a proper initial part comes first. -/
def strcmp (a b : Str) : Ordering := compare a b

/-- One node of a label chain: the label's name, and its key when it has one. -/
structure Label where
  name : Str
  key : Option Str
deriving DecidableEq

open Label

/-- A label chain, `labels_t` from its first node on. -/
abbrev Labels := List Label

variable {n name k : Str} {labels1 labels2 labels : Labels}

/-- `MAIN_METRIC_NAME`, entry `0` of every sort plan. -/
def mainMetricName : Str := cstr "__name__"

/-- The key of the first node, `NULL` for the chain that has ended. -/
def keyOf : Labels → Option Str
  | [] => none
  | l :: _ => l.key

/-- Positional compare of two chains against a plan of `planSize` entries. -/
def labelsCmp : Nat → Labels → Labels → Ordering
  | 0, _, _ => .eq
  | n + 1, labels1, labels2 =>
    if labels1.isEmpty && labels2.isEmpty then .eq
    else
      match keyOf labels1, keyOf labels2 with
      | some key1, some key2 =>
        match strcmp key1 key2 with
        | .eq => labelsCmp n labels1.tail labels2.tail
        | ret => ret
      | some _, none => .gt
      | none, some _ => .lt
      | none, none => labelsCmp n labels1.tail labels2.tail

/-- What the order of chains looks at: the keys by plan position, without the
missing ones at the end. -/
def sortKey (labels : Labels) : List (Option Str) := Slots.trim (labels.map Label.key)

lemma labelsCmp_succ (n : Nat) (labels1 labels2 : Labels) : labelsCmp (n + 1) labels1 labels2 =
      (compare (keyOf labels1) (keyOf labels2)).then (labelsCmp n labels1.tail labels2.tail) := by
  rw [labelsCmp]
  by_cases ended : (labels1.isEmpty && labels2.isEmpty) = true
  · rw [Bool.and_eq_true, List.isEmpty_iff, List.isEmpty_iff] at ended
    obtain ⟨rfl, rfl⟩ := ended
    cases n <;> rfl
  · rw [if_neg ended]
    generalize keyOf labels1 = key1
    generalize keyOf labels2 = key2
    cases key1 with
    | none => cases key2 <;> rfl
    | some key1 =>
      cases key2 with
      | none => rfl
      | some key2 =>
        show _ = (strcmp key1 key2).then _
        cases h : strcmp key1 key2 <;> simp only [h] <;> rfl

lemma compare_sortKey (labels1 labels2 : Labels) : compare (sortKey labels1) (sortKey labels2) =
      (compare (keyOf labels1) (keyOf labels2)).then
        (compare (sortKey labels1.tail) (sortKey labels2.tail)) := by
  -- an ended chain is a chain with one more missing key
  have nil : sortKey [] = trim (none :: ([] : Labels).map key) := rfl
  cases labels1 with
  | nil =>
    cases labels2 with
    | nil => rfl
    | cons l2 r2 =>
      rw [nil]
      exact compare_trim_cons none l2.key _ _
  | cons l1 r1 =>
    cases labels2 with
    | nil =>
      rw [nil]
      exact compare_trim_cons l1.key none _ _
    | cons l2 r2 => exact compare_trim_cons l1.key l2.key _ _

/-- Chains no longer than the plan compare by their sort keys, whatever the
size of the plan. -/
lemma labelsCmp_eq {n : Nat} (h1 : labels1.length ≤ n) (h2 : labels2.length ≤ n) :
    labelsCmp n labels1 labels2 = compare (sortKey labels1) (sortKey labels2) := by
  induction n generalizing labels1 labels2 with
  | zero =>
    obtain rfl := length_eq_zero_iff.mp (Nat.le_zero.mp h1)
    obtain rfl := length_eq_zero_iff.mp (Nat.le_zero.mp h2)
    rfl
  | succ n ih =>
    rw [labelsCmp_succ, compare_sortKey, ih]
    · rw [length_tail]
      omega
    · rw [length_tail]
      omega

/-! ## The sort plan -/

def sortplanMax : Nat := 65535

/-- The sort plan of a namespace: entry `0` is the metric name, the others are
the label names met so far, each once. -/
structure SortPlan where
  labels : List Str
  nodup : labels.Nodup
  bounded : labels.length + 1 ≤ sortplanMax

variable {p : SortPlan}

namespace SortPlan

def plan (p : SortPlan) : List Str := mainMetricName :: p.labels

/-- `sort_plan->size` -/
def size (p : SortPlan) : Nat := p.plan.length

def init : SortPlan := ⟨[], nodup_nil, by decide⟩

end SortPlan

/-- The labels of a sample: a hash table from label names to keys, in the order
in which it is iterated. -/
structure LabelHash where
  pairs : List (Str × Str)
  nodup : (pairs.map Prod.fst).Nodup

variable {hash : LabelHash}

namespace LabelHash

def empty : LabelHash := ⟨[], nodup_nil⟩

/-- `labels_hash_insert`: a name that is in the table keeps its key. -/
def insert (hash : LabelHash) (name key : Str) : LabelHash :=
  if h : name ∈ hash.pairs.map Prod.fst then hash
  else ⟨hash.pairs ++ [(name, key)], by
    rw [map_append, nodup_append]
    refine ⟨hash.nodup, nodup_singleton _, fun a ha b hb e => h ?_⟩
    rw [map_cons, map_nil, mem_singleton] at hb
    have same : a = name := e.trans hb
    exact same ▸ ha⟩

/-- Labels with new names that differ all get into the table. -/
lemma foldl_insert {ps : List (Str × Str)}
    (hnd : (hash.pairs.map Prod.fst ++ ps.map Prod.fst).Nodup) :
    (ps.foldl (fun hash p => hash.insert p.1 p.2) hash).pairs = hash.pairs ++ ps := by
  induction ps generalizing hash with
  | nil =>
    rw [foldl_nil, append_nil]
  | cons p ps ih =>
    have hnew : p.1 ∉ hash.pairs.map Prod.fst := by
      intro hp
      rw [map_cons, nodup_middle, nodup_cons] at hnd
      exact hnd.1 (mem_append_left _ hp)
    have hinsert : (hash.insert p.1 p.2).pairs = hash.pairs ++ [p] := by
      rw [insert, dif_neg hnew]
    rw [foldl_cons, ih (by rw [hinsert]; simpa using hnd), hinsert, append_assoc]
    rfl

end LabelHash

def labelsMerge (dst src : LabelHash) : LabelHash :=
  src.pairs.foldl (fun dst c => dst.insert c.1 c.2) dst

def labelsDup (labels : LabelHash) : LabelHash := labelsMerge .empty labels

/-- The context of `labels_new_plan_node`: the plan, the chain being built, and
the plan size the chain was built against. -/
structure PlanCtx where
  plan : List Str
  chain : Labels
  planSize : Nat

/-- Append a label whose name is new to the plan and to the chain.  A plan that
is full, or that moved on since the chain was started, drops the label. -/
def labelsNewPlanNode (ctx : PlanCtx) (labelscont : Str × Str) : PlanCtx :=
  if ctx.plan.length ≠ ctx.planSize ∨ sortplanMax ≤ ctx.plan.length then ctx
  else
    { plan := ctx.plan ++ [labelscont.1]
      chain := ctx.chain ++ [⟨labelscont.1, some labelscont.2⟩]
      planSize := ctx.planSize + 1 }

/-- The chain nodes for the names of the plan.  Every label found is taken out
of the hash; the second component is what remains in it. -/
def labelsFill : List Str → List (Str × Str) → Labels × List (Str × Str)
  | [], hash => ([], hash)
  | name :: names, hash =>
    match hash.lookup name with
    | some key =>
      let r := labelsFill names (hash.eraseP fun c => c.1 == name)
      (⟨name, some key⟩ :: r.1, r.2)
    | none =>
      let r := labelsFill names hash
      (⟨name, none⟩ :: r.1, r.2)

/-- The body of `labels_initiate`: the chain for the plan as it is, then the
names that are still in the hash, which are new for the plan. -/
def labelsChain (plan : List Str) (hash : List (Str × Str)) (name : Str) : PlanCtx :=
  let filled := labelsFill plan.tail hash
  filled.2.foldl labelsNewPlanNode
    { plan := plan
      chain := ⟨mainMetricName, some name⟩ :: filled.1
      planSize := if plan.length = 0 then 1 else plan.length }

lemma lookup_eraseP_ne {other : Str} (h : other ≠ name) (hash : List (Str × Str)) :
    (hash.eraseP fun c => c.1 == name).lookup other = hash.lookup other := by
  induction hash with
  | nil => rfl
  | cons c hash ih =>
    obtain ⟨n, k⟩ := c
    by_cases e : n = name
    · subst e
      simp [lookup_cons, beq_false_of_ne h]
    · rw [eraseP_cons_of_neg (by simpa using e), lookup_cons, lookup_cons, ih]

lemma eraseP_fst_eq_filter {hash : List (Str × Str)} (nd : (hash.map Prod.fst).Nodup) :
    (hash.eraseP fun c => c.1 == name) = hash.filter fun c => c.1 ≠ name := by
  induction hash with
  | nil => rfl
  | cons c hash ih =>
    rw [map_cons, nodup_cons] at nd
    by_cases e : c.1 = name
    · have keep : ∀ c' ∈ hash, c'.1 ≠ name := fun c' hc' e' =>
        nd.1 (e.trans e'.symm ▸ mem_map_of_mem hc')
      simp only [eraseP_cons, e, BEq.rfl, ne_eq, not_true_eq_false,
        decide_false, Bool.false_eq_true, not_false_eq_true, filter_cons_of_neg]
      exact (filter_eq_self.mpr fun c' hc' => by simpa using keep c' hc').symm
    · rw [eraseP_cons_of_neg (by simpa using e), filter_cons_of_pos (by simpa using e), ih nd.2]

/-- The chain has one node for every name, with the hash's key, and the labels
with other names remain. -/
lemma labelsFill_eq {names : List Str} {hash : List (Str × Str)} (nd : names.Nodup)
    (ndh : (hash.map Prod.fst).Nodup) : labelsFill names hash =
      (names.map fun n => ⟨n, hash.lookup n⟩, hash.filter fun c => c.1 ∉ names) := by
  induction names generalizing hash with
  | nil => simp [labelsFill]
  | cons name names ih =>
    rw [nodup_cons] at nd
    cases hl : hash.lookup name with
    | none =>
      have absent : ∀ c ∈ hash, c.1 ≠ name := by
        intro c hc e
        rw [lookup_eq_none_iff] at hl
        exact absurd (hl c hc) (by simp [e])
      simp only [labelsFill, hl, ih nd.2 ndh, map_cons, Prod.mk.injEq, true_and]
      refine filter_congr fun c hc => ?_
      simp [absent c hc]
    | some key =>
      have nde : ((hash.eraseP fun c => c.1 == name).map Prod.fst).Nodup := by
        exact ndh.sublist (eraseP_sublist.map _)
      simp only [labelsFill, hl, ih nd.2 nde, map_cons, Prod.mk.injEq]
      constructor
      · congr 1
        refine map_congr_left fun n hn => ?_
        have ne : n ≠ name := by
          rintro rfl
          exact nd.1 hn
        rw [lookup_eraseP_ne ne]
      · rw [eraseP_fst_eq_filter ndh, filter_filter]
        refine filter_congr fun c _ => ?_
        simp only [mem_cons, not_or, Bool.decide_and]
        exact Bool.and_comm _ _

/-- Appending the remaining labels: as many as fit into the plan. -/
lemma foldl_labelsNewPlanNode (rest : List (Str × Str)) (ctx : PlanCtx)
    (h : ctx.planSize = ctx.plan.length) : rest.foldl labelsNewPlanNode ctx =
      { plan := ctx.plan ++ (rest.take (sortplanMax - ctx.plan.length)).map Prod.fst
        chain := ctx.chain ++
          (rest.take (sortplanMax - ctx.plan.length)).map fun c => ⟨c.1, some c.2⟩
        planSize := ctx.planSize + (rest.take (sortplanMax - ctx.plan.length)).length } := by
  induction rest generalizing ctx with
  | nil => simp
  | cons c rest ih =>
    rw [foldl_cons]
    by_cases full : sortplanMax ≤ ctx.plan.length
    · have zero : sortplanMax - ctx.plan.length = 0 := Nat.sub_eq_zero_of_le full
      rw [labelsNewPlanNode, if_pos (.inr full), ih ctx h, zero]
      simp
    · have room : sortplanMax - ctx.plan.length = sortplanMax - (ctx.plan.length + 1) + 1 := by
        omega
      rw [labelsNewPlanNode, if_neg (by rintro (e | e); exacts [e h.symm, full e]),
        ih _ (by simp [h])]
      rw [length_append, length_singleton, room, take_succ_cons]
      simp only [append_assoc, length_cons]
      congr 1
      omega

def newLabels (p : SortPlan) (hash : LabelHash) : List (Str × Str) :=
  hash.pairs.filter fun c => c.1 ∉ p.labels

/-- What `labels_initiate` computes: the chain follows the plan and goes on
with the new labels, of which the plan takes as many as it has room for. -/
lemma labelsChain_eq (p : SortPlan) (hash : LabelHash) (name : Str) :
    labelsChain p.plan hash.pairs name =
      { plan := p.plan ++ ((newLabels p hash).take (sortplanMax - p.size)).map Prod.fst
        chain := ⟨mainMetricName, some name⟩ :: ((p.labels.map fun n => ⟨n, hash.pairs.lookup n⟩) ++
            ((newLabels p hash).take (sortplanMax - p.size)).map fun c => ⟨c.1, some c.2⟩)
        planSize := p.size + ((newLabels p hash).take (sortplanMax - p.size)).length } := by
  have tail : p.plan.tail = p.labels := rfl
  have pos : p.plan.length ≠ 0 := Nat.succ_ne_zero _
  simp only [labelsChain, tail, labelsFill_eq p.nodup hash.nodup]
  exact foldl_labelsNewPlanNode _ _ rfl

/-- `labels_initiate` with the deletion of the hash: the chain of a sample, and
the plan with the sample's new label names. -/
def labelsInitiate (p : SortPlan) (hash : LabelHash) (name : Str) : Labels × SortPlan :=
  let ctx := labelsChain p.plan hash.pairs name
  (ctx.chain,
    { labels := ctx.plan.tail
      nodup := by
        rw [show ctx = _ from labelsChain_eq p hash name]
        show (p.labels ++ _).Nodup
        have sub : (((newLabels p hash).take (sortplanMax - p.size)).map Prod.fst).Sublist
            (hash.pairs.map Prod.fst) :=
          ((take_sublist _ _).trans filter_sublist).map _
        refine nodup_append.mpr ⟨p.nodup, hash.nodup.sublist sub, fun a ha b hb e => ?_⟩
        obtain ⟨c, hc, rfl⟩ := mem_map.mp hb
        have new := mem_filter.mp (mem_of_mem_take hc)
        exact absurd (e ▸ ha) (of_decide_eq_true new.2)
      bounded := by
        rw [show ctx = _ from labelsChain_eq p hash name]
        show (p.labels ++ _).length + 1 ≤ sortplanMax
        have hp := p.bounded
        have hs : p.size = p.labels.length + 1 := rfl
        rw [length_append, length_map, length_take]
        omega })

/-! ## Chains and series -/

/-- A chain that was built against a plan, or an earlier state of it: its names
are the first entries of the plan, and it starts with a metric name. -/
def Fits (p : SortPlan) (labels : Labels) : Prop :=
  labels.map Label.name <+: p.plan ∧ ∃ name, keyOf labels = some name

/-- The first label carries the name of the metric. -/
lemma Fits.eq_cons (h : Fits p labels) :
    ∃ l t name, labels = l :: t ∧ l.name = mainMetricName ∧ l.key = some name := by
  obtain ⟨pre, name, hk⟩ := h
  cases labels with
  | nil => cases hk
  | cons l t => exact ⟨l, t, name, rfl, (cons_prefix_cons.mp pre).1, hk⟩

lemma Fits.length_le (h : Fits p labels) : labels.length ≤ p.size := by
  have := h.1.length_le
  rwa [length_map] at this

lemma Fits.names_prefix (h : Fits p labels) : labels.tail.map Label.name <+: p.labels := by
  obtain ⟨pre, name, hk⟩ := h
  cases labels with
  | nil => cases hk
  | cons l rest => exact (cons_prefix_cons.mp pre).2

def SortPlan.Grows (p p' : SortPlan) : Prop := p.labels <+: p'.labels

lemma Fits.grows {p' : SortPlan} (h : Fits p labels) (g : p.Grows p') : Fits p' labels :=
  ⟨h.1.trans ((prefix_cons_inj mainMetricName).mpr g), h.2⟩

lemma SortPlan.Grows.refl (p : SortPlan) : p.Grows p := prefix_rfl

lemma SortPlan.Grows.trans {q r : SortPlan} (h : p.Grows q) (h' : q.Grows r) : p.Grows r :=
  List.IsPrefix.trans h h'

lemma SortPlan.Grows.size_le {q : SortPlan} (h : p.Grows q) : p.size ≤ q.size :=
  Nat.succ_le_succ h.length_le

section

variable (p : SortPlan) (hash : LabelHash) (name : Str)

lemma labelsInitiate_plan : (labelsInitiate p hash name).2.labels =
      p.labels ++ ((newLabels p hash).take (sortplanMax - p.size)).map Prod.fst := by
  simp only [labelsInitiate, labelsChain_eq]
  rfl

lemma labelsInitiate_chain : (labelsInitiate p hash name).1 = ⟨mainMetricName, some name⟩ ::
      ((p.labels.map fun n => ⟨n, hash.pairs.lookup n⟩) ++
        ((newLabels p hash).take (sortplanMax - p.size)).map fun c => ⟨c.1, some c.2⟩) := by
  simp only [labelsInitiate, labelsChain_eq]

lemma labelsInitiate_grows : p.Grows (labelsInitiate p hash name).2 := by
  rw [SortPlan.Grows, labelsInitiate_plan]
  exact prefix_append _ _

lemma labelsInitiate_fits : Fits (labelsInitiate p hash name).2 (labelsInitiate p hash name).1 := by
  refine ⟨?_, name, by rw [labelsInitiate_chain]; rfl⟩
  rw [SortPlan.plan, labelsInitiate_plan, labelsInitiate_chain]
  simp [Function.comp_def]

end

/-- The label pairs that a chain carries after its metric name. -/
def labelPairs (labels : Labels) : List (Str × Str) :=
  labels.tail.filterMap fun l => l.key.map fun k => (l.name, k)

/-- What a series is: its metric name and the set of its label pairs. -/
abbrev SeriesKey := Str × Finset (Str × Str)

/-- The series that a chain denotes. -/
def seriesKey (labels : Labels) : SeriesKey :=
  ((keyOf labels).getD [], (labelPairs labels).toFinset)

lemma mem_labelPairs : (n, k) ∈ labelPairs labels ↔ (⟨n, some k⟩ : Label) ∈ labels.tail := by
  rw [labelPairs, mem_filterMap]
  constructor
  · rintro ⟨⟨n', o⟩, hl, e⟩
    cases o with
    | none => cases e
    | some k' =>
      cases e
      exact hl
  · intro h
    exact ⟨⟨n, some k⟩, h, rfl⟩

lemma map_fst_labelPairs (labels : Labels) :
    ((labelPairs labels).map Prod.fst).Sublist (labels.tail.map Label.name) := by
  rw [labelPairs]
  generalize labels.tail = t
  induction t with
  | nil => exact List.Sublist.slnil
  | cons l t ih =>
    cases hk : l.key with
    | none =>
      rw [filterMap_cons_none (by rw [hk]; rfl)]
      exact ih.cons _
    | some k =>
      rw [filterMap_cons_some (by rw [hk]; rfl)]
      exact ih.cons_cons _

lemma Fits.nodup_labelPairs (h : Fits p labels) : ((labelPairs labels).map Prod.fst).Nodup :=
  (p.nodup.sublist h.names_prefix.sublist).sublist (map_fst_labelPairs labels)

lemma lookup_eq_some_iff : hash.pairs.lookup n = some k ↔ (n, k) ∈ hash.pairs := by
  have nd := hash.nodup
  generalize hash.pairs = l at nd
  induction l with
  | nil => simp
  | cons c l ih =>
    obtain ⟨n', k'⟩ := c
    rw [map_cons, nodup_cons] at nd
    rw [lookup_cons]
    by_cases e : n = n'
    · subst e
      have hno : (n, k) ∉ l := fun h => nd.1 (mem_map.mpr ⟨_, h, rfl⟩)
      simp [hno, eq_comm]
    · rw [beq_false_of_ne e]
      simp [e, ih nd.2]

/-- A chain carries the labels of the sample whose names are in the plan. -/
lemma mem_labelPairs_labelsInitiate : (n, k) ∈ labelPairs (labelsInitiate p hash name).1 ↔
      (n, k) ∈ hash.pairs ∧ n ∈ (labelsInitiate p hash name).2.labels := by
  rw [mem_labelPairs, labelsInitiate_chain, labelsInitiate_plan, tail_cons, mem_append,
    mem_append, mem_map, mem_map, mem_map]
  constructor
  · rintro (⟨n', hn', e⟩ | ⟨c, hc, e⟩)
    · obtain ⟨rfl, hk⟩ := mk.inj e
      exact ⟨lookup_eq_some_iff.mp hk, .inl hn'⟩
    · cases e
      exact ⟨(mem_filter.mp (mem_of_mem_take hc)).1, .inr ⟨c, hc, rfl⟩⟩
  · rintro ⟨h, hn | ⟨c, hc, rfl⟩⟩
    · exact .inl ⟨n, hn, by rw [lookup_eq_some_iff.mpr h]⟩
    · have hmem := (mem_filter.mp (mem_of_mem_take hc)).1
      have hk : c.2 = k :=
        Option.some.inj ((lookup_eq_some_iff.mpr hmem).symm.trans (lookup_eq_some_iff.mpr h))
      exact .inr ⟨c, hc, by rw [hk]⟩

/-- A label that the plan did not take shows that the plan is full. -/
lemma size_labelsInitiate_of_dropped {c : Str × Str} (hc : c ∈ hash.pairs)
    (hn : c.1 ∉ (labelsInitiate p hash name).2.labels) :
    (labelsInitiate p hash name).2.size = sortplanMax := by
  have hs : (labelsInitiate p hash name).2.size =
      (labelsInitiate p hash name).2.labels.length + 1 := rfl
  have hp : p.size = p.labels.length + 1 := rfl
  have hb := p.bounded
  rw [labelsInitiate_plan] at hn hs
  rw [mem_append, not_or] at hn
  have hnew : c ∈ newLabels p hash := mem_filter.mpr ⟨hc, by simpa using hn.1⟩
  have hshort : sortplanMax - p.size < (newLabels p hash).length := by
    by_contra hge
    rw [take_of_length_le (Nat.le_of_not_lt hge)] at hn
    exact hn.2 (mem_map_of_mem hnew)
  rw [length_append, length_map, length_take] at hs
  omega

lemma seriesKey_labelsInitiate_of_kept
    (kept : ∀ c ∈ hash.pairs, c.1 ∈ (labelsInitiate p hash name).2.labels) :
    seriesKey (labelsInitiate p hash name).1 = (name, hash.pairs.toFinset) := by
  have key : keyOf (labelsInitiate p hash name).1 = some name := by
    rw [labelsInitiate_chain]
    rfl
  refine Prod.ext (by rw [seriesKey, key]; rfl) ?_
  ext ⟨n, k⟩
  rw [seriesKey, mem_toFinset, mem_toFinset, mem_labelPairs_labelsInitiate]
  exact ⟨fun h => h.1, fun h => ⟨h, kept _ h⟩⟩

lemma seriesKey_labelsInitiate (room : (labelsInitiate p hash name).2.size < sortplanMax) :
    seriesKey (labelsInitiate p hash name).1 = (name, hash.pairs.toFinset) := by
  refine seriesKey_labelsInitiate_of_kept fun c hc => ?_
  by_contra hn
  exact lt_irrefl _ (size_labelsInitiate_of_dropped hc hn ▸ room)

variable {P : SortPlan}

lemma labelsInitiate_subset (hp : p.labels ⊆ P.labels)
    (hh : ∀ c ∈ hash.pairs, c.1 ∈ P.labels) : (labelsInitiate p hash name).2.labels ⊆ P.labels := by
  intro n hn
  rw [labelsInitiate_plan, mem_append, mem_map] at hn
  obtain hn | ⟨c, hc, rfl⟩ := hn
  · exact hp hn
  · exact hh c (mem_filter.mp (mem_of_mem_take hc)).1

/-- So did a plan whose labels, with those of the sample, are all in another plan. -/
lemma seriesKey_labelsInitiate_of_subset (hp : p.labels ⊆ P.labels)
    (hh : ∀ c ∈ hash.pairs, c.1 ∈ P.labels) :
    seriesKey (labelsInitiate p hash name).1 = (name, hash.pairs.toFinset) := by
  refine seriesKey_labelsInitiate_of_kept fun c hc => ?_
  by_contra hn
  -- a full plan inside another one is all of it
  have hfull : (labelsInitiate p hash name).2.labels.length + 1 = sortplanMax :=
    size_labelsInitiate_of_dropped hc hn
  have hsub := (labelsInitiate p hash name).2.nodup.subperm (labelsInitiate_subset hp hh)
  have hperm := hsub.perm_of_length_le (by have := P.bounded; omega)
  exact hn (hperm.mem_iff.mpr (hh c hc))

lemma mem_labelPairs_iff_slot (h : Fits p labels) : (n, k) ∈ labelPairs labels ↔
      ∃ i, p.labels[i]? = some n ∧ slot (labels.tail.map key) i = some k := by
  have pre := h.names_prefix
  rw [mem_labelPairs]
  generalize labels.tail = rest at pre
  rw [mem_iff_getElem?]
  constructor
  · rintro ⟨i, hi⟩
    refine ⟨i, ?_, by simp [slot, hi]⟩
    have hn : (rest.map name)[i]? = some n := by simp [hi]
    obtain ⟨t, ht⟩ := pre
    rw [← ht, List.getElem?_append_left]
    · exact hn
    · exact (List.getElem?_eq_some_iff.mp hn).1
  · rintro ⟨i, hn, hk⟩
    cases hi : rest[i]? with
    | none => simp [slot, hi] at hk
    | some l' =>
      have hname : (rest.map name)[i]? = some l'.name := by simp [hi]
      obtain ⟨t, ht⟩ := pre
      rw [← ht, List.getElem?_append_left (List.getElem?_eq_some_iff.mp hname).1, hname] at hn
      have hkey : l'.key = some k := by simpa [slot, hi] using hk
      refine ⟨i, ?_⟩
      rw [hi]
      cases l'
      cases hn
      cases hkey
      rfl

/-- The keys of one chain are in the same slots of another exactly if its label
pairs are label pairs of the other, since a name occurs once in the plan. -/
lemma covers_iff (h1 : Fits p labels1) (h2 : Fits p labels2) :
    Slots.Covers (labels1.tail.map key) (labels2.tail.map key) ↔
      ∀ c ∈ labelPairs labels1, c ∈ labelPairs labels2 := by
  constructor
  · rintro h ⟨n, k⟩ hc
    obtain ⟨i, hn, hk⟩ := (mem_labelPairs_iff_slot h1).mp hc
    exact (mem_labelPairs_iff_slot h2).mpr ⟨i, hn, h i k hk⟩
  · intro h i k hk
    have hlen : i < p.labels.length := by
      have h0 : i < labels1.tail.length := by
        by_contra hge
        have hnone : (labels1.tail.map key)[i]? = none :=
          List.getElem?_eq_none (by rw [length_map]; exact Nat.le_of_not_lt hge)
        rw [slot, hnone] at hk
        cases hk
      have hle : labels1.length ≤ p.labels.length + 1 := h1.length_le
      rw [length_tail] at h0
      omega
    have hi : p.labels[i]? = some p.labels[i] := List.getElem?_eq_getElem hlen
    have hp := h _ ((mem_labelPairs_iff_slot h1).mpr ⟨i, hi, hk⟩)
    obtain ⟨j, hj, hjk⟩ := (mem_labelPairs_iff_slot h2).mp hp
    have hij : j = i := (List.Nodup.getElem_inj_iff p.nodup).mp (List.getElem?_eq_some_iff.mp hj).2
    exact hij ▸ hjk

/-- Fitting chains have one sort key exactly when they denote one series. -/
lemma sortKey_eq_iff (h1 : Fits p labels1) (h2 : Fits p labels2) :
    sortKey labels1 = sortKey labels2 ↔ seriesKey labels1 = seriesKey labels2 := by
  have slot0 : ∀ labels : Labels, slot (labels.map key) 0 = keyOf labels := by
    intro labels
    cases labels <;> rfl
  have slotTail : ∀ (labels : Labels) (i : Nat), slot (labels.map key) (i + 1) =
      slot (labels.tail.map key) i := by
    intro labels i
    cases labels <;> rfl
  rw [sortKey, sortKey, trim_eq_trim]
  constructor
  · intro h
    refine Prod.ext ?_ ?_
    · rw [seriesKey, seriesKey, ← slot0, ← slot0, h 0]
    · ext ⟨n, k⟩
      rw [seriesKey, seriesKey, mem_toFinset, mem_toFinset, mem_labelPairs_iff_slot h1,
        mem_labelPairs_iff_slot h2]
      simp only [← slotTail, h]
  · intro h i
    obtain ⟨name1, hk1⟩ := h1.2
    obtain ⟨name2, hk2⟩ := h2.2
    obtain ⟨hname, hpairs⟩ := Prod.ext_iff.mp h
    cases i with
    | zero =>
      rw [seriesKey, seriesKey, hk1, hk2] at hname
      rw [slot0, slot0, hk1, hk2]
      exact congrArg some hname
    | succ i =>
      rw [slotTail, slotTail]
      have mem : ∀ c, c ∈ labelPairs labels1 ↔ c ∈ labelPairs labels2 := by
        intro c
        rw [← mem_toFinset, ← mem_toFinset]
        exact iff_of_eq (congrArg (c ∈ ·) hpairs)
      have cov1 := (covers_iff h1 h2).mpr fun c => (mem c).mp
      have cov2 := (covers_iff h2 h1).mpr fun c => (mem c).mpr
      exact Option.ext fun k => ⟨cov1 i k, cov2 i k⟩

end Alligator
