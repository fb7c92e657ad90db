import Alligator.Metric.Refinement

/-!
# Queries

A selector is a metric name, or a condition on it, and a set of label equalities.
Three walkers look for the series that match one: `metrictree_gen` goes down to a
node with the name and scans recursively below it, `metrictree_serialize_query`
does the same with a stack of its own, and both scan the whole tree for a regular
expression.  All of them are the pruned walk `CTree.scan`.

Whether a series matches is decided by `labels_match`, which counts down the
number of constraints along two chains that may have been built against plans of
different sizes.
-/

namespace Alligator

open Memory DList RedBlack List Option CTree Spaces Label SortPlan

variable {node : Labels} {a : Addr} {t : CTree} {fuel : Nat}
  {addDouble : AddDouble} {sp : Spaces}

/-! ## Matching one series -/

/-- The length of a key, `0` for a missing one. -/
def keyLen (key : Option Str) : Nat := (key.getD []).length

/-- The parts of a query context that a selector match reads.  The regular
expression is the predicate that `pcre_exec` decides. -/
structure QueryContext where
  nameRe : Option (Str → Bool)
  nameReNeg : Bool
  nameReInvalid : Bool

/-- The loop of `labels_match`. -/
def labelsMatchLoop : Nat → Labels → Labels → Nat → Nat
  | 0, _, _, count => count
  | n + 1, labels1, labels2, count =>
    if count = 0 then 0
    else if labels2.isEmpty then 0
    else
      match keyOf labels2 with
      | none => labelsMatchLoop n labels1.tail labels2.tail count
      | some key2 =>
        match keyOf labels1 with
        | none => count
        | some key1 =>
          if strcmp key1 key2 ≠ .eq then count
          else labelsMatchLoop n labels1.tail labels2.tail (count - 1)

/-- `labels_match`: `0` if every constrained slot of the selector `labels2` has an
equal key in `labels1`.  The name counts as a constraint only beside others. -/
def labelsMatch (planSize : Nat) (labels1 labels2 : Labels) (labelsCount : Nat) : Nat :=
  labelsMatchLoop planSize labels1 labels2
    (if labelsCount ≠ 0 ∧ keyLen (keyOf labels2) ≠ 0 then labelsCount + 1 else labelsCount)

def metricNameMatch (labels1 labels2 : Labels) : Ordering :=
  if labels1.isEmpty || labels2.isEmpty then .eq
  else if keyLen (keyOf labels2) = 0 then .eq
  else
    match keyOf labels1, keyOf labels2 with
    | some key1, some key2 => strcmp key1 key2
    | _, _ => .eq

def metrictreeQueryNameOk (node query : Labels) (mqc : QueryContext) : Bool :=
  if mqc.nameReInvalid then false
  else
    match mqc.nameRe with
    | some re => if mqc.nameReNeg then !re ((keyOf node).getD []) else re ((keyOf node).getD [])
    | none => if keyLen (keyOf query) = 0 then true else metricNameMatch node query == .eq

def metrictreeQueryUsesRegex (mqc : QueryContext) : Bool :=
  mqc.nameRe.isSome || mqc.nameReInvalid

/-- A query as the walkers get it: the chain of the selector, the number of its
labels and the context. -/
structure Query where
  labels : Labels
  labelsCount : Nat
  mqc : QueryContext

def metricSelectorMatch (planSize : Nat) (node : Labels) (q : Query) : Bool :=
  if node.isEmpty || q.labels.isEmpty then false
  else if !metrictreeQueryNameOk node q.labels q.mqc then false
  else labelsMatch planSize node q.labels q.labelsCount == 0

/-! ## The walkers -/

/-- `metrictree_gen_scan`: the nodes for which it generates a metric. -/
def metrictreeGenScan (planSize : Nat) (q : Query) (h : Nodes) : Nat → Ptr → Option (List Addr)
  | _, none => some []
  | 0, some _ => none
  | fuel + 1, some x => do
    let n ← h.get x
    let matched := labelsMatch planSize n.labels q.labels q.labelsCount == 0
    if metrictreeQueryUsesRegex q.mqc then
      let hit := metrictreeQueryNameOk n.labels q.labels q.mqc && matched
      let left ← metrictreeGenScan planSize q h fuel n.left
      let right ← metrictreeGenScan planSize q h fuel n.right
      return [x].filter (fun _ => hit) ++ (left ++ right)
    else if keyLen (keyOf q.labels) = 0 then
      let left ← metrictreeGenScan planSize q h fuel n.left
      let right ← metrictreeGenScan planSize q h fuel n.right
      return [x].filter (fun _ => matched) ++ (left ++ right)
    else
      match metricNameMatch n.labels q.labels with
      | .gt => metrictreeGenScan planSize q h fuel n.left
      | .lt => metrictreeGenScan planSize q h fuel n.right
      | .eq => do
        let left ← metrictreeGenScan planSize q h fuel n.left
        let right ← metrictreeGenScan planSize q h fuel n.right
        return [x].filter (fun _ => matched) ++ (left ++ right)

/-- The loop of `metrictree_gen`: down to the first node with the name. -/
def metrictreeGenLoop (planSize : Nat) (q : Query) (h : Nodes) : Nat → Ptr → Option (List Addr)
  | _, none => some []
  | 0, some _ => none
  | fuel + 1, some x => do
    let n ← h.get x
    match metricNameMatch n.labels q.labels with
    | .gt => metrictreeGenLoop planSize q h fuel n.left
    | .lt => metrictreeGenLoop planSize q h fuel n.right
    | .eq => do
      let left ← metrictreeGenScan planSize q h fuel n.left
      let right ← metrictreeGenScan planSize q h fuel n.right
      let matched := labelsMatch planSize n.labels q.labels q.labelsCount == 0
      return [x].filter (fun _ => matched) ++ (left ++ right)

def metrictreeGen (s : Store) (q : Query) : Option (List Addr) :=
  if metrictreeQueryUsesRegex q.mqc then
    if q.mqc.nameReInvalid then some []
    else metrictreeGenScan s.plan.size q s.nodes s.nodes.next s.root
  else metrictreeGenLoop s.plan.size q s.nodes s.nodes.next s.root

/-- The loop of `metrictree_serialize_query_node`, with the top of the stack first.
The result are the nodes that are serialized. -/
def serializeLoop (planSize : Nat) (q : Query) (h : Nodes) : Nat → List Addr → Option (List Addr)
  | _, [] => some []
  | 0, _ :: _ => none
  | fuel + 1, x :: stack => do
    let n ← h.get x
    let regex := metrictreeQueryUsesRegex q.mqc
    let prune := !regex && keyLen (keyOf q.labels) != 0
    let rc := if prune then metricNameMatch n.labels q.labels else .eq
    let hit := metrictreeQueryNameOk n.labels q.labels q.mqc &&
      labelsMatch planSize n.labels q.labels q.labelsCount == 0
    let visitRight := !(prune && rc == .gt)
    let visitLeft := !(prune && rc == .lt)
    let stack := if visitRight then n.right.toList ++ stack else stack
    let stack := if visitLeft then n.left.toList ++ stack else stack
    let rest ← serializeLoop planSize q h fuel stack
    return [x].filter (fun _ => hit) ++ rest

def metrictreeSerializeQueryNode (planSize : Nat) (q : Query) (h : Nodes) (x : Ptr) :
    Option (List Addr) :=
  serializeLoop planSize q h h.next x.toList

/-- The loop of `metrictree_serialize_query`. -/
def metrictreeSerializeLoop (planSize : Nat) (q : Query) (h : Nodes) :
    Nat → Ptr → Option (List Addr)
  | _, none => some []
  | 0, some _ => none
  | fuel + 1, some x => do
    let n ← h.get x
    match metricNameMatch n.labels q.labels with
    | .gt => metrictreeSerializeLoop planSize q h fuel n.left
    | .lt => metrictreeSerializeLoop planSize q h fuel n.right
    | .eq => do
      let left ← metrictreeSerializeQueryNode planSize q h n.left
      let right ← metrictreeSerializeQueryNode planSize q h n.right
      let matched := labelsMatch planSize n.labels q.labels q.labelsCount == 0
      return [x].filter (fun _ => matched) ++ (left ++ right)

def metrictreeSerializeQuery (s : Store) (q : Query) : Option (List Addr) :=
  if metrictreeQueryUsesRegex q.mqc then
    if q.mqc.nameReInvalid then some []
    else metrictreeSerializeQueryNode s.plan.size q s.nodes s.root
  else metrictreeSerializeLoop s.plan.size q s.nodes s.nodes.next s.root

/-! ## The walkers are pruned walks -/

section Walk

variable {planSize : Nat} {q : Query} {h : Nodes}

def labelsAt (h : Nodes) (a : Addr) : Labels := ((h.get a).map fun n => n.labels).getD []

/-- How the name of a node compares with the name that is looked for. -/
def queryCmp (q : Query) (h : Nodes) (a : Addr) : Ordering :=
  if metrictreeQueryUsesRegex q.mqc then .eq else metricNameMatch (labelsAt h a) q.labels

def queryHit (planSize : Nat) (q : Query) (h : Nodes) (a : Addr) : Bool :=
  metricSelectorMatch planSize (labelsAt h a) q

lemma nameOk_of_not_regex (hre : metrictreeQueryUsesRegex q.mqc = false) (node : Labels) :
    metrictreeQueryNameOk node q.labels q.mqc = (metricNameMatch node q.labels == .eq) := by
  obtain ⟨hnone, hvalid⟩ := Bool.or_eq_false_iff.mp hre
  rw [isSome_eq_false_iff, isNone_iff_eq_none] at hnone
  simp only [metrictreeQueryNameOk, hnone, hvalid, Bool.false_eq_true, if_false]
  split_ifs with hlen
  · simp [metricNameMatch, hlen]
  · rfl

lemma metricNameMatch_of_keyLen (hlen : keyLen (keyOf q.labels) = 0) (node : Labels) :
    metricNameMatch node q.labels = .eq := by
  simp [metricNameMatch, hlen]

lemma metricSelectorMatch_eq (hn : node ≠ []) (hq : q.labels ≠ []) :
    metricSelectorMatch planSize node q = (metrictreeQueryNameOk node q.labels q.mqc &&
      labelsMatch planSize node q.labels q.labelsCount == 0) := by
  simp only [metricSelectorMatch, isEmpty_eq_false_iff.mpr hn, isEmpty_eq_false_iff.mpr hq]
  cases metrictreeQueryNameOk node q.labels q.mqc <;> rfl

lemma queryCmp_of_hit (hhit : queryHit planSize q h a = true) : queryCmp q h a = .eq := by
  rw [queryCmp]
  split_ifs with hre
  · rfl
  · rw [queryHit, metricSelectorMatch] at hhit
    rw [Bool.not_eq_true] at hre
    rw [nameOk_of_not_regex hre] at hhit
    split_ifs at hhit with h1 h2
    simpa using h2

lemma node_of_lies {c : Color} {l r : CTree} (ht : (CTree.node a c l r).Lies (links h)) :
    ∃ n, h.get a = some n ∧ n.left = l.root ∧ n.right = r.root ∧ labelsAt h a = n.labels := by
  obtain ⟨n, hget, hleft, hright⟩ := get_of_lies ht
  exact ⟨n, hget, hleft, hright, by rw [labelsAt, hget]; rfl⟩

variable (hq : q.labels ≠ [])

include hq in
lemma filter_queryHit (hn : labelsAt h a ≠ []) :
    [a].filter (queryHit planSize q h) = [a].filter fun _ =>
      metrictreeQueryNameOk (labelsAt h a) q.labels q.mqc &&
        labelsMatch planSize (labelsAt h a) q.labels q.labelsCount == 0 := by
  rw [filter_singleton, filter_singleton, queryHit, metricSelectorMatch_eq hn hq]

include hq in
lemma filter_queryHit_of_name (hre : metrictreeQueryUsesRegex q.mqc = false)
    (hn : labelsAt h a ≠ []) (hname : metricNameMatch (labelsAt h a) q.labels = .eq) :
    [a].filter (queryHit planSize q h) = [a].filter fun _ =>
      labelsMatch planSize (labelsAt h a) q.labels q.labelsCount == 0 := by
  rw [filter_queryHit hq hn, nameOk_of_not_regex hre, hname]
  rfl

/-- The nodes of the tree have labels, and there is fuel for a walk over it. -/
abbrev Walked (h : Nodes) (fuel : Nat) (t : CTree) : Prop :=
  t.Within (links h) (fun a => labelsAt h a ≠ []) fuel

include hq in
lemma metrictreeGenScan_eq (ht : Walked h fuel t) : metrictreeGenScan planSize q h fuel t.root =
      some (t.scan (queryCmp q h) (queryHit planSize q h)) := by
  refine ht.induct (P := fun fuel t => metrictreeGenScan planSize q h fuel t.root =
    some (t.scan (queryCmp q h) (queryHit planSize q h))) (fun fuel => ?_) ?_
  · cases fuel <;> rfl
  · intro fuel a c l r ht left right
    obtain ⟨n, hget, hleft, hright, hlab⟩ := node_of_lies ht.lies
    show metrictreeGenScan planSize q h (fuel + 1) (some a) = _
    simp only [metrictreeGenScan, hget, hleft, hright, left, right, ← hlab,
      some_bind, Option.pure_def]
    cases hre : metrictreeQueryUsesRegex q.mqc with
    | true =>
      simp [CTree.scan, queryCmp, hre, filter_queryHit hq ht.root]
    | false =>
      have hcmp : queryCmp q h a = metricNameMatch (labelsAt h a) q.labels := by
        rw [queryCmp, hre]
        rfl
      have hhit : queryHit planSize q h a = true → queryCmp q h a = .eq := queryCmp_of_hit
      have heq : metricNameMatch (labelsAt h a) q.labels = .eq →
          (node a c l r).scan (queryCmp q h) (queryHit planSize q h) =
            [a].filter (fun _ =>
              labelsMatch planSize (labelsAt h a) q.labels q.labelsCount == 0) ++
            (l.scan (queryCmp q h) (queryHit planSize q h) ++
              r.scan (queryCmp q h) (queryHit planSize q h)) := by
        intro hname
        rw [CTree.scan, hcmp, hname, filter_queryHit_of_name hq hre ht.root hname]
        rfl
      simp only [Bool.false_eq_true, if_false]
      split_ifs with hk
      · rw [heq (metricNameMatch_of_keyLen hk _)]
      · cases hname : metricNameMatch (labelsAt h a) q.labels with
        | gt => rw [CTree.scan_gt hhit (hcmp.trans hname)]
        | lt => rw [CTree.scan_lt hhit (hcmp.trans hname)]
        | eq => rw [heq hname]

include hq in
/-- A loop that goes down to a node with the name and scans below it is a pruned walk. -/
lemma descend_eq (hre : metrictreeQueryUsesRegex q.mqc = false) {bound : Nat}
    {loop : Nat → Ptr → Option (List Addr)} (hnil : ∀ fuel, loop fuel none = some [])
    (hnode : ∀ {fuel a c l r}, fuel < bound → Walked h (fuel + 1) (.node a c l r) →
      loop (fuel + 1) (some a) = match metricNameMatch (labelsAt h a) q.labels with
        | .gt => loop fuel l.root
        | .lt => loop fuel r.root
        | .eq => some ([a].filter (fun _ =>
          labelsMatch planSize (labelsAt h a) q.labels q.labelsCount == 0) ++
        (l.scan (queryCmp q h) (queryHit planSize q h) ++
          r.scan (queryCmp q h) (queryHit planSize q h))))
    (ht : Walked h bound t) :
    loop bound t.root = some (t.scan (queryCmp q h) (queryHit planSize q h)) := by
  refine ht.induct (P := fun fuel t => fuel ≤ bound →
    loop fuel t.root = some (t.scan (queryCmp q h) (queryHit planSize q h)))
    (fun fuel _ => hnil fuel) ?_ le_rfl
  intro fuel a c l r ht left right hle
  have hcmp : queryCmp q h a = metricNameMatch (labelsAt h a) q.labels := by
    rw [queryCmp, hre]
    rfl
  have hhit : queryHit planSize q h a = true → queryCmp q h a = .eq := queryCmp_of_hit
  rw [root, hnode hle ht]
  cases hname : metricNameMatch (labelsAt h a) q.labels with
  | gt => rw [scan_gt hhit (hcmp.trans hname), left (by omega)]
  | lt => rw [scan_lt hhit (hcmp.trans hname), right (by omega)]
  | eq =>
    simp [CTree.scan, hcmp, hname, filter_queryHit_of_name hq hre ht.root hname]

include hq in
lemma metrictreeGenLoop_eq (hre : metrictreeQueryUsesRegex q.mqc = false) (ht : Walked h fuel t) :
    metrictreeGenLoop planSize q h fuel t.root =
      some (t.scan (queryCmp q h) (queryHit planSize q h)) := by
  refine descend_eq hq hre (fun fuel => by cases fuel <;> rfl) (fun {fuel a c l r} _ ht => ?_) ht
  obtain ⟨n, hget, hleft, hright, hlab⟩ := node_of_lies ht.lies
  simp [metrictreeGenLoop, hget, hleft, hright, ← hlab, metrictreeGenScan_eq hq ht.left,
    metrictreeGenScan_eq hq ht.right]

def rootsOf (ts : List CTree) : List Addr := ts.flatMap fun t => t.root.toList

/-- Without a name to look for, nothing is pruned. -/
lemma prune_eq (a : Addr) {o : Ordering} (ho : o ≠ .eq) :
    ((!metrictreeQueryUsesRegex q.mqc && keyLen (keyOf q.labels) != 0) &&
      (if (!metrictreeQueryUsesRegex q.mqc && keyLen (keyOf q.labels) != 0) = true then
        metricNameMatch (labelsAt h a) q.labels else .eq) == o) = (queryCmp q h a == o) := by
  rw [queryCmp]
  cases hre : metrictreeQueryUsesRegex q.mqc with
  | true => cases o <;> first | rfl | exact absurd rfl ho
  | false =>
    by_cases hk : keyLen (keyOf q.labels) = 0
    · simp only [hk, metricNameMatch_of_keyLen hk]
      cases o <;> first | rfl | exact absurd rfl ho
    · simp [hk]

include hq in
/-- The stack holds the subtrees that are still to be walked. -/
lemma serializeLoop_eq {ts : List CTree} : (∀ t ∈ ts, t.Lies (links h)) →
    (∀ t ∈ ts, ∀ a ∈ t.addrs, labelsAt h a ≠ []) → (ts.flatMap addrs).length ≤ fuel →
    serializeLoop planSize q h fuel (rootsOf ts) =
      some (ts.flatMap (scan (queryCmp q h) (queryHit planSize q h))) := by
  induction fuel generalizing ts with
  | zero =>
    induction ts with
    | nil =>
      intro _ _ _
      rfl
    | cons t ts ih =>
      intro ht hne hlen
      cases t with
      | nil =>
        exact ih (forall_mem_cons.1 ht).2
          (forall_mem_cons.1 hne).2 hlen
      | node a c l r =>
        rw [flatMap_cons, addrs, length_append, length_append, length_cons] at hlen
        omega
  | succ fuel ih =>
    induction ts with
    | nil =>
      intro _ _ _
      rfl
    | cons t ts ihts =>
      intro ht hne hlen
      cases t with
      | nil =>
        exact ihts (forall_mem_cons.1 ht).2
          (forall_mem_cons.1 hne).2 hlen
      | node a c l r =>
        have hta := ht _ mem_cons_self
        obtain ⟨n, hget, hleft, hright, hlab⟩ := node_of_lies hta
        have hna : labelsAt h a ≠ [] := hne _ mem_cons_self a (by simp [addrs])
        -- the trees whose roots are pushed, on top of the others
        obtain ⟨ts', hts'⟩ : ∃ ts', ts' =
            (if queryCmp q h a = .lt then [] else [l]) ++
              ((if queryCmp q h a = .gt then [] else [r]) ++ ts) := ⟨_, rfl⟩
        have hmem : ∀ t ∈ ts', t = l ∨ t = r ∨ t ∈ ts := by
          intro t h'
          rw [hts', mem_append, mem_append] at h'
          rcases h' with h' | h' | h'
          · split_ifs at h' <;> simp_all
          · split_ifs at h' <;> simp_all
          · exact .inr (.inr h')
        have hrest : serializeLoop planSize q h fuel (rootsOf ts') =
            some (ts'.flatMap (scan (queryCmp q h) (queryHit planSize q h))) := by
          refine ih (fun t h' => ?_) (fun t h' b hb => ?_) ?_
          · rcases hmem t h' with rfl | rfl | h'
            · exact hta.2.1
            · exact hta.2.2
            · exact ht t (mem_cons_of_mem _ h')
          · rcases hmem t h' with rfl | rfl | h'
            · exact hne _ mem_cons_self b (by simp [addrs, hb])
            · exact hne _ mem_cons_self b (by simp [addrs, hb])
            · exact hne t (mem_cons_of_mem _ h') b hb
          · rw [flatMap_cons, addrs, length_append, length_append, length_cons] at hlen
            rw [hts']
            split_ifs <;> simp only [nil_append, singleton_append,
              flatMap_cons, length_append] <;> omega
        have hstack : rootsOf ts' = (if (!queryCmp q h a == .lt) = true then l.root.toList ++
              (if (!queryCmp q h a == .gt) = true then r.root.toList ++ rootsOf ts
                else rootsOf ts)
            else if (!queryCmp q h a == .gt) = true then r.root.toList ++ rootsOf ts
              else rootsOf ts) := by
          rw [hts']
          cases queryCmp q h a <;> simp [rootsOf]
        show serializeLoop planSize q h (fuel + 1) (a :: rootsOf ts) = _
        simp only [serializeLoop, hget, hleft, hright, ← hlab, bind_eq_bind,
          bind_some, Option.pure_def, prune_eq a (by decide : Ordering.gt ≠ .eq),
          prune_eq a (by decide : Ordering.lt ≠ .eq), ← hstack, hrest,
          ← filter_queryHit hq hna]
        rw [hts', flatMap_cons, CTree.scan]
        split_ifs <;> simp

include hq in
lemma metrictreeSerializeQueryNode_eq (ht : Walked h h.next t) :
    metrictreeSerializeQueryNode planSize q h t.root =
      some (t.scan (queryCmp q h) (queryHit planSize q h)) := by
  have : serializeLoop planSize q h h.next (rootsOf [t]) = _ :=
    serializeLoop_eq hq (by simpa using ht.lies) (by simpa using ht.good) (by simpa using ht.fits)
  simpa [rootsOf, metrictreeSerializeQueryNode] using this

include hq in
lemma metrictreeSerializeLoop_eq (hre : metrictreeQueryUsesRegex q.mqc = false)
    (ht : Walked h h.next t) : metrictreeSerializeLoop planSize q h h.next t.root =
      some (t.scan (queryCmp q h) (queryHit planSize q h)) := by
  refine descend_eq hq hre (fun fuel => by cases fuel <;> rfl) (fun {fuel a c l r} hlt ht => ?_) ht
  obtain ⟨n, hget, hleft, hright, hlab⟩ := node_of_lies ht.lies
  simp [metrictreeSerializeLoop, hget, hleft, hright, ← hlab, metrictreeSerializeQueryNode_eq hq
    (ht.left.mono hlt.le), metrictreeSerializeQueryNode_eq hq (ht.right.mono hlt.le)]

end Walk

/-! ## The hits are the matching series -/

variable {n : Str} {sp' : Spaces}

section Hits

variable {s : Store} {T : CTree} {lists : Buckets} {L : List Record} {q : Query}

section

variable (S : Stored s T lists L)
include S

lemma Stored.labelsAt_eq (ha : a ∈ T.addrs) {x : Record}
    (hx : recordAt s a = some x) : labelsAt s.nodes a = x.series.labels := by
  obtain ⟨n, hp, -⟩ := S.node ha hx
  obtain ⟨node, hget, e⟩ := Heap.view_eq_some.mp hp
  rw [labelsAt, hget]
  exact congrArg (fun p => p.1.labels) e

lemma Stored.name_at (ha : a ∈ T.addrs) : ∃ name, keyOf (labelsAt s.nodes a) = some name := by
  obtain ⟨x, hx, hrec⟩ := S.record_of_mem ha
  rw [S.labelsAt_eq ha hrec]
  exact (S.fits x hx).2

lemma Stored.labelsAt_ne (ha : a ∈ T.addrs) : labelsAt s.nodes a ≠ [] := by
  obtain ⟨name, h⟩ := S.name_at ha
  intro e
  rw [e] at h
  cases h

lemma Stored.names_rising : T.addrs.Pairwise fun a b => ∀ n m, keyOf (labelsAt s.nodes a) = some n →
      keyOf (labelsAt s.nodes b) = some m → (compare n m).isLE := by
  refine (S.pairwise S.sorted).imp_of_mem fun {a b} ha hb h n m hn hm => ?_
  obtain ⟨x, hx, hxa⟩ := S.record_of_mem ha
  obtain ⟨y, hy, hyb⟩ := S.record_of_mem hb
  have hle := h x y hxa hyb
  rw [S.labelsAt_eq ha hxa] at hn
  rw [S.labelsAt_eq hb hyb] at hm
  rw [Record.sortKey, Record.sortKey, compare_sortKey, hn, hm] at hle
  exact Ordering.isLE_left_of_isLE_then hle

end

def queryName (q : Query) : Option Str :=
  if metrictreeQueryUsesRegex q.mqc || keyLen (keyOf q.labels) == 0 then none else keyOf q.labels

lemma queryCmp_eq {h : Nodes} (hn : keyOf (labelsAt h a) = some n) :
    queryCmp q h a = (queryName q).elim .eq (compare n) := by
  have hne : labelsAt h a ≠ [] := by
    intro e
    rw [e] at hn
    cases hn
  rw [queryCmp, queryName]
  cases metrictreeQueryUsesRegex q.mqc with
  | true => rfl
  | false =>
    by_cases hk : keyLen (keyOf q.labels) = 0
    · simp [metricNameMatch, hk]
    · cases hq : keyOf q.labels with
      | none => simp [keyLen, hq] at hk
      | some k =>
        have hqne : q.labels ≠ [] := by
          intro e
          rw [e] at hq
          cases hq
        rw [hq] at hk
        simp only [metricNameMatch, hn, hq, if_neg hk,
          isEmpty_eq_false_iff.mpr hne, isEmpty_eq_false_iff.mpr hqne, Bool.false_or, beq_iff_eq]
        rfl

lemma Stored.rising (S : Stored s T lists L) (q : Query) : Rising (queryCmp q s.nodes) T.addrs := by
  refine S.names_rising.imp_of_mem fun {a b} ha hb h => ?_
  obtain ⟨n, hn⟩ := S.name_at ha
  obtain ⟨m, hm⟩ := S.name_at hb
  rw [queryCmp_eq hn, queryCmp_eq hm]
  cases queryName q with
  | none => simp
  | some k => exact rising_of_isLE (h n m hn hm) k

/-- Both walkers find the matching nodes, each once. -/
lemma Stored.walkers (S : Stored s T lists L) (hq : q.labels ≠ []) :
    ∃ hits, metrictreeGen s q = some hits ∧ metrictreeSerializeQuery s q = some hits ∧
      hits.Perm (s.addrs.filter (queryHit s.plan.size q s.nodes)) := by
  have hwalk : Walked s.nodes s.nodes.next T :=
    ⟨S.tree.lies, fun a ha => S.labelsAt_ne ha, S.tree.length_le⟩
  have hperm := scan_perm
    (fun a (h : queryHit s.plan.size q s.nodes a = true) => queryCmp_of_hit h) (S.rising q)
  rw [S.addrs_eq, metrictreeGen, metrictreeSerializeQuery, ← S.tree.root_eq]
  cases hre : metrictreeQueryUsesRegex q.mqc with
  | false =>
    exact ⟨_, metrictreeGenLoop_eq hq hre hwalk, metrictreeSerializeLoop_eq hq hre hwalk, hperm⟩
  | true =>
    cases hinv : q.mqc.nameReInvalid with
    | false =>
      exact ⟨_, metrictreeGenScan_eq hq hwalk, metrictreeSerializeQueryNode_eq hq hwalk, hperm⟩
    | true =>
      refine ⟨[], rfl, rfl, ?_⟩
      rw [filter_eq_nil_iff.mpr]
      intro a _
      simp [queryHit, metricSelectorMatch, metrictreeQueryNameOk, hinv]

end Hits

/-! ## What a match is -/

lemma labelsMatchLoop_zero (n : Nat) (labels1 labels2 : Labels) :
    labelsMatchLoop n labels1 labels2 0 = 0 := by
  cases n <;> simp [labelsMatchLoop]

lemma keyOf_eq_slot (labels : Labels) : keyOf labels = Slots.slot (labels.map key) 0 := by
  cases labels <;> rfl

/-- The countdown reaches zero exactly if every key of the selector is met, and no
constraint was counted that has no key in the selector. -/
lemma labelsMatchLoop_eq_zero {n : Nat} {labels1 labels2 : Labels} {count d : Nat}
    (hlen : labels2.length ≤ n) (hd : d ≠ 0 → labels2.length = n)
    (hc : count = (labels2.filterMap key).length + d) :
    labelsMatchLoop n labels1 labels2 count = 0 ↔
      d = 0 ∧ Slots.Covers (labels2.map key) (labels1.map key) := by
  induction n generalizing labels1 labels2 count with
  | zero =>
    obtain rfl := length_eq_zero_iff.mp (Nat.le_zero.mp hlen)
    simp [labelsMatchLoop, hc, Slots.covers_nil]
  | succ n ih =>
    cases labels2 with
    | nil =>
      have hd0 : d = 0 := by
        by_contra hne
        cases hd hne
      simp [labelsMatchLoop, hc, hd0, Slots.covers_nil]
    | cons l r =>
      have hlen' : r.length ≤ n := Nat.le_of_succ_le_succ hlen
      have hd' : d ≠ 0 → r.length = n := fun h => Nat.succ.inj (hd h)
      rw [map_cons, Slots.covers_cons, ← keyOf_eq_slot]
      cases hl : l.key with
      | none =>
        rw [filterMap_cons_none hl] at hc
        by_cases h0 : count = 0
        · have hnil : r.filterMap key = [] := by
            apply eq_nil_of_length_eq_zero
            omega
          have hrest : labelsMatchLoop n labels1.tail r count = 0 ↔ _ := ih hlen' hd' hc
          rw [h0, labelsMatchLoop_zero] at hrest ⊢
          simpa using hrest
        · simp only [labelsMatchLoop, if_neg h0, keyOf, hl, isEmpty_cons,
            Bool.false_eq_true, if_false, tail_cons, ih hlen' hd' hc]
          simp
      | some k =>
        rw [filterMap_cons_some hl, length_cons] at hc
        have h0 : count ≠ 0 := by omega
        have hrest : labelsMatchLoop n labels1.tail r (count - 1) = 0 ↔ _ := ih hlen' hd' (by omega)
        simp only [labelsMatchLoop, if_neg h0, isEmpty_cons, Bool.false_eq_true, tail_cons]
        rw [show keyOf (l :: r) = some k from hl]
        cases h1 : keyOf labels1 with
        | none => simp [h0]
        | some k1 =>
          by_cases hk : strcmp k1 k = .eq
          · obtain rfl : k1 = k := Std.LawfulEqOrd.eq_of_compare hk
            simp only [hk, ne_eq, not_true_eq_false, if_false]
            rw [hrest]
            simp
          · have hne : k1 ≠ k := by
              rintro rfl
              exact hk Std.ReflOrd.compare_self
            simp [hk, h0, hne]

/-! ## Selectors -/

/-- The condition of a selector on the metric name.  An empty name is no condition,
and a regular expression takes the place of a name. -/
inductive NameCond where
  | any
  | exact (name : Str) (nonempty : name ≠ [])
  | regex (re : Str → Bool) (neg : Bool)
  | invalid

namespace NameCond

/-- The metric name in the selector's chain. -/
def name : NameCond → Option Str
  | exact name _ => some name
  | _ => none

def context : NameCond → QueryContext
  | any => ⟨none, false, false⟩
  | exact _ _ => ⟨none, false, false⟩
  | regex re neg => ⟨some re, neg, false⟩
  | invalid => ⟨none, false, true⟩

/-- The condition holds of a metric name.  An expression that does not compile
selects nothing. -/
def Holds : NameCond → Str → Prop
  | any, _ => True
  | exact name _, n => n = name
  | regex re neg, n => re n = !neg
  | invalid, _ => False

end NameCond

structure Selector where
  cond : NameCond
  hash : LabelHash

/-- `labels_initiate` with or without a name. -/
def labelsSelect (p : SortPlan) (hash : LabelHash) (name : Option Str) : Labels × SortPlan :=
  let r := labelsInitiate p hash (name.getD [])
  (⟨mainMetricName, name⟩ :: r.1.tail, r.2)

namespace Selector

/-- The query of a selector, built against a plan. -/
def query (sel : Selector) (p : SortPlan) : Query :=
  ⟨(labelsSelect p sel.hash sel.cond.name).1, sel.hash.pairs.length, sel.cond.context⟩

def planAfter (sel : Selector) (p : SortPlan) : SortPlan :=
  (labelsSelect p sel.hash sel.cond.name).2

/-- A series is selected: its name meets the condition, and it has every label with
an equal value. -/
def Selects (sel : Selector) (key : SeriesKey) : Prop :=
  sel.cond.Holds key.1 ∧ ∀ c ∈ sel.hash.pairs, c ∈ key.2

end Selector

section Selects

variable {p P : SortPlan} {hash : LabelHash} {name : Str}

lemma labelsInitiate_names (p : SortPlan) (hash : LabelHash) (name : Str) :
    (labelsInitiate p hash name).1.map Label.name = (labelsInitiate p hash name).2.plan := by
  rw [plan, labelsInitiate_plan, labelsInitiate_chain]
  simp [Function.comp_def]

def dropped (p : SortPlan) (hash : LabelHash) (name : Str) : List (Str × Str) :=
  hash.pairs.filter fun c => c.1 ∉ (labelsInitiate p hash name).2.labels

/-- Every label of a selector has a key in its chain or was dropped. -/
lemma length_labelPairs (p : SortPlan) (hash : LabelHash) (name : Str) :
    (labelPairs (labelsInitiate p hash name).1).length + (dropped p hash name).length =
      hash.pairs.length := by
  have hperm : (labelPairs (labelsInitiate p hash name).1).Perm
      (hash.pairs.filter fun c => c.1 ∈ (labelsInitiate p hash name).2.labels) := by
    refine (perm_ext_iff_of_nodup
      (List.Nodup.of_map _ (labelsInitiate_fits p hash name).nodup_labelPairs)
      ((List.Nodup.of_map _ hash.nodup).filter _)).mpr ?_
    rintro ⟨n, k⟩
    rw [mem_labelPairs_labelsInitiate, mem_filter, decide_eq_true_eq]
  rw [hperm.length_eq, dropped]
  have := hash.pairs.length_eq_length_filter_add
    (fun c => decide (c.1 ∈ (labelsInitiate p hash name).2.labels))
  simpa using this.symm

/-- A plan that dropped a label is full, and stays as it is. -/
lemma labels_eq_of_dropped {c : Str × Str} (hc : c ∈ dropped p hash name)
    (g : (labelsInitiate p hash name).2.Grows P) :
    P.labels = (labelsInitiate p hash name).2.labels := by
  obtain ⟨hmem, hn⟩ := mem_filter.mp hc
  have hfull := size_labelsInitiate_of_dropped hmem (of_decide_eq_true hn)
  have hs : (labelsInitiate p hash name).2.size =
      (labelsInitiate p hash name).2.labels.length + 1 := rfl
  have hb := P.bounded
  exact (g.eq_of_length (le_antisymm g.length_le (by omega))).symm

/-- A series has all labels of a selector exactly if none was dropped and it has
those of the selector's chain. -/
lemma all_labels_iff (hf : Fits P node) (g : (labelsInitiate p hash name).2.Grows P) :
    ((dropped p hash name).length = 0 ∧
        ∀ c ∈ labelPairs (labelsInitiate p hash name).1, c ∈ labelPairs node) ↔
      ∀ c ∈ hash.pairs, c ∈ labelPairs node := by
  constructor
  · rintro ⟨hd, h⟩ ⟨n, k⟩ hc
    refine h _ (mem_labelPairs_labelsInitiate.mpr ⟨hc, ?_⟩)
    by_contra hn
    have hmem : (n, k) ∈ dropped p hash name := mem_filter.mpr ⟨hc, by simpa using hn⟩
    rw [eq_nil_of_length_eq_zero hd] at hmem
    cases hmem
  · intro h
    refine ⟨?_, fun ⟨n, k⟩ hc => h _ (mem_labelPairs_labelsInitiate.mp hc).1⟩
    rw [length_eq_zero_iff, eq_nil_iff_forall_not_mem]
    rintro ⟨n, k⟩ hc
    obtain ⟨hmem, hn⟩ := mem_filter.mp hc
    obtain ⟨i, hi, -⟩ := (mem_labelPairs_iff_slot hf).mp (h _ hmem)
    rw [labels_eq_of_dropped hc g] at hi
    exact of_decide_eq_true hn (mem_of_getElem? hi)

lemma length_filterMap_key (labels : Labels) :
    (labels.tail.filterMap key).length = (labelPairs labels).length := by
  rw [labelPairs, ← length_map (f := Prod.snd), map_filterMap]
  congr 2
  funext l
  cases l.key <;> rfl

lemma labelsMatch_eq_zero (hf : Fits P node) (sel : Selector) (g : (sel.planAfter p).Grows P)
    (hname : ∀ n, sel.cond.name = some n → keyOf node = some n) :
    labelsMatch P.size node (sel.query p).labels (sel.query p).labelsCount = 0 ↔
      ∀ c ∈ sel.hash.pairs, c ∈ labelPairs node := by
  obtain ⟨cond, hash⟩ := sel
  by_cases h0 : hash.pairs.length = 0
  · have hnil := eq_nil_of_length_eq_zero h0
    simp only [labelsMatch, Selector.query, h0]
    simp [labelsMatchLoop_zero, hnil]
  · obtain ⟨name, hn⟩ : ∃ name, name = cond.name.getD [] := ⟨_, rfl⟩
    have hlen := length_labelPairs p hash name
    have hchain := labelsInitiate_names p hash name
    have g' : (labelsInitiate p hash name).2.Grows P := by
      rw [hn]
      exact g
    have hsel : Fits P (labelsInitiate p hash name).1 := (labelsInitiate_fits p hash name).grows g'
    have hpos : 0 < (labelsInitiate p hash name).1.length := by
      rw [labelsInitiate_chain]
      exact Nat.succ_pos _
    have hsize : ((⟨mainMetricName, cond.name⟩ : Label) ::
        (labelsInitiate p hash name).1.tail).length = (labelsInitiate p hash name).2.size := by
      rw [length_cons, length_tail, Nat.sub_add_cancel hpos, size, ← hchain, length_map]
    have hcount : (if hash.pairs.length ≠ 0 ∧ keyLen cond.name ≠ 0 then hash.pairs.length + 1
        else hash.pairs.length) =
        (((⟨mainMetricName, cond.name⟩ : Label) ::
          (labelsInitiate p hash name).1.tail).filterMap key).length +
          (dropped p hash name).length := by
      cases hcond : cond.name with
      | none =>
        rw [filterMap_cons_none rfl, length_filterMap_key, hlen, if_neg]
        exact fun h => h.2 rfl
      | some n =>
        have hne : n ≠ [] := by
          cases cond with
          | exact m hm =>
            cases hcond
            exact hm
          | any | regex | invalid => cases hcond
        rw [filterMap_cons_some (f := key) rfl, length_cons, length_filterMap_key, if_pos]
        · omega
        · exact ⟨h0, fun h => hne (eq_nil_of_length_eq_zero h)⟩
    have hfull : (dropped p hash name).length ≠ 0 →
        ((⟨mainMetricName, cond.name⟩ : Label) ::
          (labelsInitiate p hash name).1.tail).length = P.size := by
      intro hd
      obtain ⟨c, hc⟩ := exists_mem_of_ne_nil (dropped p hash name) fun h => hd (by rw [h]; rfl)
      rw [hsize, size, size, plan, plan, labels_eq_of_dropped hc g']
    have hloop : labelsMatchLoop P.size node _ _ = 0 ↔ _ :=
      labelsMatchLoop_eq_zero (hsize ▸ g'.size_le) hfull hcount
    rw [← all_labels_iff hf g', ← covers_iff hsel hf]
    refine Iff.trans ?_ (hloop.trans ?_)
    · rw [hn]
      rfl
    · rw [map_cons, Slots.covers_cons, ← keyOf_eq_slot, ← map_tail]
      exact and_congr_right fun _ => and_iff_right fun n => hname n

/-- The name part of a match. -/
lemma nameOk_iff (hn : keyOf node = some n) (sel : Selector) :
    metrictreeQueryNameOk node (sel.query p).labels (sel.query p).mqc = true ↔ sel.cond.Holds n := by
  obtain ⟨cond, hash⟩ := sel
  cases cond with
  | any =>
    simp [metrictreeQueryNameOk, Selector.query, NameCond.context, NameCond.Holds, labelsSelect,
      NameCond.name, keyOf, keyLen]
  | exact m hm =>
    have hne : node ≠ [] := by
      rintro rfl
      cases hn
    have hcmp : compare n m = .eq ↔ n = m := Std.LawfulEqCmp.compare_eq_iff_eq
    have heq : strcmp n m = .eq ↔ n = m := hcmp
    simp [metrictreeQueryNameOk, Selector.query, NameCond.context, NameCond.Holds, labelsSelect,
      NameCond.name, show keyOf (⟨mainMetricName, some m⟩ ::
        (labelsInitiate p hash m).1.tail) = some m from rfl, keyLen, hm, metricNameMatch, hn, hne,
      heq]
  | regex re neg =>
    cases neg <;>
      simp [metrictreeQueryNameOk, Selector.query, NameCond.context, NameCond.Holds, hn]
  | invalid => simp [metrictreeQueryNameOk, Selector.query, NameCond.context, NameCond.Holds]

/-- A stored series matches a selector exactly if it is selected, whatever plans the
two chains were built against. -/
lemma selectorMatch_iff (hf : Fits P node) (sel : Selector) (g : (sel.planAfter p).Grows P) :
    metricSelectorMatch P.size node (sel.query p) = true ↔ sel.Selects (seriesKey node) := by
  obtain ⟨n, hn⟩ := hf.2
  have hne : node ≠ [] := by
    rintro rfl
    cases hn
  have hkey : (seriesKey node).1 = n := by
    rw [seriesKey, hn]
    rfl
  rw [metricSelectorMatch_eq hne (cons_ne_nil _ _), Bool.and_eq_true, nameOk_iff hn,
    Selector.Selects, hkey, beq_iff_eq]
  refine and_congr_right fun hcond => ?_
  have hname : ∀ m, sel.cond.name = some m → keyOf node = some m := by
    intro m hm
    obtain ⟨cond, hash⟩ := sel
    cases cond with
    | exact m' hm' =>
      cases hm
      rw [hn]
      exact congrArg some hcond
    | any | regex | invalid => cases hm
  rw [labelsMatch_eq_zero hf sel g hname]
  simp [seriesKey]

end Selects

/-! ## Plans along a run -/

lemma reportPurge_grows {s s' : Store} {L : List Record} (h : Holds s L) {clock : Clock}
    {report : Report} (e : reportPurge addDouble clock report 0 s = some s') :
    s.plan.Grows s'.plan := by
  obtain ⟨s1, p, L', x, e1, -, -, -, -, hplan, -⟩ := upsertSample_spec h addDouble clock gcName
    .empty ⟨.double, report.duration, report.ttl, true, false⟩
  by_cases h0 : s.count = 0
  · simp only [reportPurge, if_pos h0] at e
    cases e
    exact .refl _
  · simp only [reportPurge, if_neg h0, e1] at e
    cases e
    rw [hplan]
    exact labelsInitiate_grows _ _ _

lemma Spaces.grows_set {w : Space} {s : Store} (h : (sp.get w).plan.Grows s.plan) (v : Space) :
    (sp.get v).plan.Grows ((sp.set w s).get v).plan := by
  by_cases e : v = w
  · subst e
    rwa [get_set_self]
  · rw [get_set_ne sp e]
    exact .refl _

lemma step_grows (h : sp.Good) {op : Op} (e : sp.step addDouble op = some sp')
    (v : Space) : (sp.get v).plan.Grows (sp'.get v).plan := by
  cases op with
  | upsert w clock name hash u =>
    obtain ⟨L, hL⟩ := h w
    obtain ⟨s', p, L', x, e', -, -, -, -, hplan, -⟩ :=
      upsertSample_spec hL addDouble clock name hash u
    simp only [step, e'] at e
    cases e
    exact grows_set (hplan ▸ labelsInitiate_grows _ _ _) v
  | delete w base name hash =>
    obtain ⟨L, hL⟩ := h w
    obtain ⟨s', hplan, -, hcases⟩ := deleteSample_spec hL base name hash
    obtain ⟨ret, e'⟩ : ∃ ret, deleteSample base (sp.get w) name hash = some (s', ret) := by
      rcases hcases with ⟨e', -⟩ | ⟨L1, x, L2, e', -⟩ <;> exact ⟨_, e'⟩
    simp only [step, e'] at e
    cases e
    exact grows_set (hplan ▸ labelsInitiate_grows _ _ _) v
  | purge w clock key report =>
    obtain ⟨L, T, lists, S, hs⟩ := h w
    obtain ⟨s, T', lists', L', e', S', hsub, hplan, -⟩ := purgeTree_spec S hs clock.base key
    have h' : (sp.set w s).Good := h.set ⟨T', lists', S', hs.sublist hsub⟩
    obtain ⟨L1, h1⟩ := h' .main
    obtain ⟨main, L2, e2, -⟩ := reportPurge_spec h1 addDouble clock report
    have e2' : reportPurge addDouble clock report 0 (sp.set w s).main = some main := e2
    simp only [step, expirePurge, e', e2', some_bind] at e
    cases e
    have g1 : (sp.get v).plan.Grows ((sp.set w s).get v).plan :=
      grows_set (hplan ▸ .refl _) v
    exact g1.trans (grows_set (w := .main) (reportPurge_grows h1 e2) v)

lemma run_grows (ops : List Op) (h : sp.Good) (e : run addDouble sp ops = some sp') : ∀ v,
      (sp.get v).plan.Grows (sp'.get v).plan := by
  induction ops generalizing sp sp' with
  | nil =>
    intro v
    cases e
    exact .refl _
  | cons op ops ih =>
    intro v
    obtain ⟨sp1, e1, h1⟩ := step_good h addDouble op
    simp only [run, e1] at e
    exact (step_grows h e1 v).trans (ih h1 e v)

def Spaces.select (sp : Spaces) (w : Space) (sel : Selector) : Query × Spaces :=
  (sel.query (sp.get w).plan, sp.set w { sp.get w with plan := sel.planAfter (sp.get w).plan })

lemma Spaces.Good.select (h : sp.Good) (w : Space) (sel : Selector) : (sp.select w sel).2.Good := by
  obtain ⟨L, T, lists, S, hs⟩ := h w
  exact h.set ⟨T, lists, S.grow (labelsInitiate_grows _ _ _), hs⟩

/-- The selector is built in one state of a run and evaluated in a later one.  Both
walkers visit the series that match it, each once, and those are the series that it
selects. -/
theorem query_exact (addDouble : AddDouble) (maxMain maxOther : Nat)
    (before after : List Op) (w : Space) (sel : Selector) :
    ∃ sp sp' q s, Spaces.run addDouble (.init maxMain maxOther) before = some sp ∧
      Spaces.run addDouble (sp.select w sel).2 after = some sp' ∧
      q = (sp.select w sel).1 ∧ s = sp'.get w ∧ s.addrs.Nodup ∧
      (∃ hits, metrictreeGen s q = some hits ∧ hits.Perm (s.addrs.filter fun a =>
        metricSelectorMatch s.plan.size (labelsAt s.nodes a) q)) ∧
      (∃ hits, metrictreeSerializeQuery s q = some hits ∧ hits.Perm (s.addrs.filter fun a =>
        metricSelectorMatch s.plan.size (labelsAt s.nodes a) q)) ∧
      ∀ a ∈ s.addrs, metricSelectorMatch s.plan.size (labelsAt s.nodes a) q = true ↔
        sel.Selects (seriesKey (labelsAt s.nodes a)) := by
  obtain ⟨sp, e, h⟩ := run_good addDouble before (good_init maxMain maxOther)
  have hsel := h.select w sel
  obtain ⟨sp', e', h'⟩ := run_good addDouble after hsel
  obtain ⟨L, T, lists, S, -⟩ := h' w
  obtain ⟨hits, egen, eser, hperm⟩ := S.walkers (q := (sp.select w sel).1) (cons_ne_nil _ _)
  have g : (sel.planAfter (sp.get w).plan).Grows (sp'.get w).plan := by
    have := run_grows after hsel e' w
    rwa [select, get_set_self] at this
  refine ⟨sp, sp', _, _, e, e', rfl, rfl, ?_, ⟨hits, egen, hperm⟩, ⟨hits, eser, hperm⟩,
    fun a ha => ?_⟩
  · rw [S.addrs_eq]
    exact S.tree.nodup
  · rw [S.addrs_eq] at ha
    obtain ⟨x, hx, hrec⟩ := S.record_of_mem ha
    rw [S.labelsAt_eq ha hrec]
    exact selectorMatch_iff (S.fits x hx) sel g

end Alligator
