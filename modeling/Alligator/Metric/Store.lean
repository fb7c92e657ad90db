import Alligator.Lib.Search
import Alligator.Metric.Expiry

/-!
# The operations of the series store

Lookup, insertion, update and deletion of a series in the store of a namespace.
`Stored s T lists L` is the representation invariant: the metric nodes form the
red-black tree `T`, in whose order they hold the records `L`, sorted by labels;
the expire nodes are in the lists of the wheel and own the metric nodes one to
one; both counts are the number of records.  Every operation has a result on such
a store, and its effect is the effect on `L`.

Equal labels are allowed here.  `metric_insert` does not look for its labels, so
only `metric_upsert` keeps the labels distinct.
-/

namespace Alligator

open Memory DList RedBlack List Function Option Heap

variable {l r : List Addr} {h : Nodes} {m q : Addr} {L1 L2 : List Record}
  {lists' : Buckets}

/-! ## The operations -/

/-- The readings of the clock in one operation: by the operation itself, and by
`expire_base`. -/
structure Clock where
  sec : Int
  base : Int

/-- The loop of `metric_find_locked`. -/
def metricFindLoop (planSize : Nat) (labels : Labels) (h : Nodes) : Nat → Ptr → Option Ptr
  | _, none => some none
  | 0, some _ => none
  | fuel + 1, some x => do
    let n ← h.get x
    match labelsCmp planSize n.labels labels with
    | .gt => metricFindLoop planSize labels h fuel n.left
    | .lt => metricFindLoop planSize labels h fuel n.right
    | .eq => some (some x)

/-- `metric_find_locked` -/
def metricFind (s : Store) (labels : Labels) : Option Ptr :=
  metricFindLoop s.plan.size labels s.nodes s.nodes.next s.root

/-- `metric_insert_locked` -/
def metricInsert (clock : Clock) (s : Store) (labels : Labels) (type : DataType)
    (value : BitVec 64) (ttl : Int) : Option (Store × Addr) := do
  let (nodes, root, ret) ←
    metricInsertNode s.plan.size s.nodes s.root (makeNode labels type value)
  let words := labelsCacheFill s.words labels
  let s ← expireArm clock.base
    { s with nodes := nodes, root := root, count := s.count + 1, words := words }
    (clock.sec + ttl) ret
  return (s, ret)

/-- `INT64_MAX - UINT32_MAX`, the time to live of a series that never expires. -/
def neverExpire : Int := 9223372036854775807 - 4294967295

/-- `metric_refresh_expire`: nothing to do if the key stays the same, or if the
series never expires and its key is still ahead. -/
def metricRefreshExpire (clock : Clock) (s : Store) (m : Addr) (ttl : Int) : Option Store := do
  let node ← s.nodes.get m
  match node.expireNode with
  | none => expireArm clock.base s (clock.sec + ttl) m
  | some n => do
    let e ← s.expire.nodes.get n
    if e.key = clock.sec + ttl then
      some s
    else if neverExpire ≤ ttl ∧ clock.sec < e.key then
      some s
    else
      expireArm clock.base s (clock.sec + ttl) m

def setSample (h : Nodes) (m : Addr) (f : Series → Series) : Option Nodes :=
  h.modify (some m) fun node => { node with toSeries := f node.toSeries }

/-- The addition of doubles, a parameter of the model. -/
abbrev AddDouble := BitVec 64 → BitVec 64 → BitVec 64

/-- What `metric_gset` makes of the sample: it adds to the value under the type
of the call and leaves the stored type alone. -/
def gsetSample (addDouble : AddDouble) (type : DataType)
    (value : BitVec 64) (x : Series) : Series :=
  match type with
  | .int | .uint => { x with value := x.value + value }
  | .double => if notFinite value then x else { x with value := addDouble x.value value }
  | .none => x

def metricGset (addDouble : AddDouble) (clock : Clock) (s : Store)
    (m : Addr) (type : DataType) (value : BitVec 64) (ttl : Int) : Option Store := do
  let nodes ← setSample s.nodes m (gsetSample addDouble type value)
  metricRefreshExpire clock { s with nodes := nodes } m ttl

/-- What `metric_set` makes of the sample. -/
def setSampleTo (type : DataType) (value : BitVec 64) (x : Series) : Series :=
  match type with
  | .int | .uint => { x with type := type, value := value }
  | .double => { x with type := type, value := if notFinite value then 0 else value }
  | .none => { x with type := type }

def metricSet (clock : Clock) (s : Store) (m : Addr) (type : DataType) (value : BitVec 64)
    (ttl : Int) : Option Store := do
  let nodes ← setSample s.nodes m (setSampleTo type value)
  metricRefreshExpire clock { s with nodes := nodes } m ttl

/-- The arguments of `metric_upsert` besides the store and the labels. -/
structure Upsert where
  type : DataType
  value : BitVec 64
  ttl : Int
  add : Bool
  bypass : Bool

/-- The namespace has a cap, the call does not bypass it, and it is reached. -/
def capped (s : Store) (bypass : Bool) : Bool :=
  !bypass && decide (0 < s.maxSeries) && decide ((s.maxSeries : Int) ≤ s.count)

def metricUpsert (addDouble : AddDouble) (clock : Clock) (s : Store)
    (labels : Labels) (u : Upsert) : Option (Store × Ptr) := do
  match ← metricFind s labels with
  | some m => do
    let s ←
      if u.add then metricGset addDouble clock s m u.type u.value u.ttl
      else metricSet clock s m u.type u.value u.ttl
    return (s, some m)
  | none =>
    if capped s u.bypass then
      return ({ s with seriesDropped := s.seriesDropped + 1 }, none)
    else do
      let (s, ret) ← metricInsert clock s labels u.type u.value u.ttl
      return (s, some ret)

/-- The sample of `q` moves to `f`. -/
def moveSample (h : Nodes) (f q : Addr) : Option Nodes := do
  let n ← h.get q
  let h ← setSample h f fun _ => n.toSeries
  setSample h q fun x => { x with percentileBuf := none }

/-- The key of the expire node of `q`, or `0`. -/
def expireKey (s : Store) (q : Addr) : Option Int := do
  let n ← s.nodes.get q
  match n.expireNode with
  | none => some 0
  | some e => (s.expire.nodes.get e).map ExpireNode.key

/-- The words without those of the chain of `f`. -/
def freeChain (s : Store) (f : Addr) : Option WordCache :=
  (s.nodes.get f).map fun n => labelsFree s.words n.labels

/-- What `metric_delete_inner` does once the search has ended at `q` with `f`
found: the words of the chain of `f` are given back, whether `f` is taken out
itself or gets the chain of `q`. -/
def removeFound (base : Int) (s : Store) (p : Ptr) (q f : Addr) : Option Store :=
  if f = q then do
    let s ← expireForget s q
    let words ← freeChain s q
    let nodes ← unlinkNode s.nodes p q
    return { s with nodes := nodes, count := s.count - 1, words := words }
  else do
    let key ← expireKey s q
    let s ← expireForget s q
    let s ← expireArm base s key f
    let words ← freeChain s f
    let nodes ← moveSample s.nodes f q
    let nodes ← unlinkNode nodes p q
    return { s with nodes := nodes, count := s.count - 1, words := words }

/-- `metric_delete_inner` -/
def metricDelete (base : Int) (s : Store) (labels : Labels) : Option (Store × Bool) :=
  match s.root with
  | none => some (s, false)
  | some _ => do
    let (h, head) := s.nodes.alloc headNode
    let h ← setChild h (some head) true s.root
    let (h, p, q, f) ← metricDeleteLoop s.plan.size labels (h.next + 1) h none head none true
    let s := { s with nodes := h }
    let (s, ret) ←
      match f with
      | none => some (s, false)
      | some f => (removeFound base s p q f).map fun s => (s, true)
    let (nodes, root) ← finishRoot s.nodes head
    return ({ s with nodes := nodes, root := root }, ret)

/-! ## The representation invariant -/

def Record.sortKey (x : Record) : List (Option Str) := Alligator.sortKey x.series.labels

def Sorted (L : List Record) : Prop := L.Pairwise fun x y => (compare x.sortKey y.sortKey).isLE

/-- The order of the records when no two have equal labels. -/
def StrictlySorted (L : List Record) : Prop :=
  L.Pairwise fun x y => compare x.sortKey y.sortKey = .lt

/-- The words of the chains of the records. -/
def storedWords (L : List Record) : List Str := L.flatMap fun x => chainWords x.series.labels

lemma storedWords_perm {L L' : List Record} {x : Record} (h : L.Perm (x :: L')) :
    (storedWords L).Perm (chainWords x.series.labels ++ storedWords L') :=
  h.flatMap_right _

/-- The store holds the records `L`, on the tree `T` and the wheel lists
`lists`. -/
structure Stored (s : Store) (T : CTree) (lists : Buckets) (L : List Record) : Prop where
  tree : TreeAt s.nodes s.root T
  guarded : Guarded s lists (· ∈ T.addrs)
  records : T.addrs.map (recordAt s) = L.map some
  fits : ∀ x ∈ L, Fits s.plan x.series.labels
  sorted : Sorted L
  count : s.count = L.length
  armed : s.expire.count = L.length
  words : RefCount.Counts s.words (storedWords L)

lemma stored_init (maxSeries : Nat) : Stored (.init maxSeries) .nil (fun _ => []) [] where
  tree := ⟨trivial, nodup_nil, rfl, rfl, 0, .nil⟩
  guarded := by
    refine ⟨⟨⟨⟨fun _ => rfl, fun _ => nodup_nil, ?_⟩, rfl, List.Pairwise.nil, nodup_nil,
      ?_, ?_⟩, ?_⟩, ⟨?_, ?_⟩⟩
    · intro b a ha
      cases ha
    · intro a ha
      cases ha
    · intro a
      constructor
      · intro h
        cases h
      · rintro (h | ⟨b, h⟩) <;> cases h
    · intro h
      cases h
    · intro m hm
      cases hm
    · intro n k p h
      cases h
  records := rfl
  fits x hx := by cases hx
  sorted := List.Pairwise.nil
  count := rfl
  armed := rfl
  words := RefCount.counts_nil

variable {new : Record}

section Stored

variable {s : Store} {T : CTree} {lists : Buckets} {L : List Record} {labels : Labels}
  {a : Addr} {x : Record}

section

variable (S : Stored s T lists L)
include S

lemma Stored.record_of_mem (ha : a ∈ T.addrs) : ∃ x ∈ L, recordAt s a = some x := by
  have : recordAt s a ∈ L.map some := S.records ▸ mem_map_of_mem ha
  obtain ⟨x, hx, e⟩ := mem_map.mp this
  exact ⟨x, hx, e.symm⟩

lemma Stored.mem_of_record (hx : x ∈ L) : ∃ a ∈ T.addrs, recordAt s a = some x := by
  have : some x ∈ T.addrs.map (recordAt s) := S.records ▸ mem_map_of_mem hx
  exact mem_map.mp this

lemma Stored.node (ha : a ∈ T.addrs) (hx : recordAt s a = some x) :
    ∃ n, payload s.nodes a = some (x.series, some n) ∧
      infos s.expire.nodes n = some (x.key, some a) := by
  obtain ⟨ser, n, k, e, i⟩ := S.guarded.owned.owns a ha
  rw [recordAt, recordOf_eq e i] at hx
  cases hx
  exact ⟨n, e, i⟩

lemma Stored.length : T.addrs.length = L.length := by
  have := congrArg List.length S.records
  rwa [length_map, length_map] at this

lemma Stored.eq_nil (hroot : s.root = none) : L = [] := by
  obtain rfl := CTree.root_eq_none.mp (S.tree.root_eq.trans hroot)
  exact eq_nil_of_length_eq_zero S.length.symm

lemma Stored.pairwise {R : Record → Record → Prop} (h : L.Pairwise R) :
    T.addrs.Pairwise fun a b => ∀ x y, recordAt s a = some x → recordAt s b = some y → R x y := by
  have : (L.map some).Pairwise fun p q => ∀ x y, p = some x → q = some y → R x y := by
    refine pairwise_map.mpr (h.imp ?_)
    rintro x y hr _ _ ⟨⟩ ⟨⟩
    exact hr
  rw [← S.records] at this
  exact pairwise_map.mp this

lemma Stored.split (h : T.addrs = l ++ r) :
    ∃ L1 L2, L = L1 ++ L2 ∧ l.map (recordAt s) = L1.map some ∧ r.map (recordAt s) = L2.map some := by
  have := S.records
  rw [h, map_append] at this
  obtain ⟨L1, L2, rfl, h1, h2⟩ := map_eq_append_iff.mp this.symm
  exact ⟨L1, L2, rfl, h1.symm, h2.symm⟩

variable (hf : Fits s.plan labels)
include hf

lemma Stored.greaterAt_eq (ha : a ∈ T.addrs)
    (hx : recordAt s a = some x) : greaterAt s.plan.size labels s.nodes a =
      decide (compare x.sortKey (sortKey labels) = .lt) := by
  obtain ⟨n, hp, -⟩ := S.node ha hx
  obtain ⟨y, hy, e⟩ := S.record_of_mem ha
  rw [hx] at e
  cases e
  rw [greaterAt, hp]
  simp only [labelsCmp_eq hf.length_le (S.fits x hy).length_le]
  exact decide_eq_decide.mpr Std.OrientedCmp.gt_iff_lt

lemma Stored.equalAt_eq (ha : a ∈ T.addrs)
    (hx : recordAt s a = some x) : equalAt s.plan.size labels s.nodes a =
      decide (x.sortKey = sortKey labels) := by
  obtain ⟨n, hp, -⟩ := S.node ha hx
  obtain ⟨y, hy, e⟩ := S.record_of_mem ha
  rw [hx] at e
  cases e
  rw [equalAt, hp]
  simp only [labelsCmp_eq (S.fits x hy).length_le hf.length_le]
  exact decide_eq_decide.mpr Std.LawfulEqCmp.compare_eq_iff_eq

lemma Stored.mono : T.addrs.Pairwise fun a b => greaterAt s.plan.size labels s.nodes b = true →
      greaterAt s.plan.size labels s.nodes a = true := by
  refine (S.pairwise S.sorted).imp_of_mem fun ha hb h hgt => ?_
  obtain ⟨x, -, hx⟩ := S.record_of_mem ha
  obtain ⟨y, -, hy⟩ := S.record_of_mem hb
  rw [S.greaterAt_eq hf hb hy, decide_eq_true_eq] at hgt
  rw [S.greaterAt_eq hf ha hx, decide_eq_true_eq]
  exact Std.TransCmp.lt_of_isLE_of_lt (h x y hx hy) hgt

lemma Stored.equalRun :
    EqualRun (greaterAt s.plan.size labels s.nodes) (equalAt s.plan.size labels s.nodes) T.addrs := by
  constructor
  · intro a ha heq
    obtain ⟨x, -, hx⟩ := S.record_of_mem ha
    rw [S.equalAt_eq hf ha hx, decide_eq_true_eq] at heq
    rw [S.greaterAt_eq hf ha hx, heq, Std.ReflOrd.compare_self]
    rfl
  · refine (S.pairwise S.sorted).imp_of_mem fun ha hb h heq hle => ?_
    obtain ⟨x, -, hx⟩ := S.record_of_mem ha
    obtain ⟨y, -, hy⟩ := S.record_of_mem hb
    rw [S.equalAt_eq hf hb hy, decide_eq_true_eq] at heq
    rw [S.greaterAt_eq hf ha hx, decide_eq_false_iff_not] at hle
    rw [S.equalAt_eq hf ha hx, decide_eq_true_eq]
    have hxy := h x y hx hy
    rw [heq] at hxy
    refine Std.LawfulEqOrd.eq_of_compare ?_
    cases hc : compare x.sortKey (sortKey labels) with
    | lt => exact absurd hc hle
    | eq => rfl
    | gt =>
      rw [hc] at hxy
      cases hxy

end

/-! ## Lookup -/

/-- How the record of a node compares with a chain. -/
def cmpAt (s : Store) (labels : Labels) (a : Addr) : Ordering :=
  (recordAt s a).elim .eq fun x => compare x.sortKey (sortKey labels)

lemma Stored.rising_cmpAt (S : Stored s T lists L) (labels : Labels) :
    Rising (cmpAt s labels) T.addrs := by
  refine (S.pairwise S.sorted).imp_of_mem fun {a b} ha hb h => ?_
  obtain ⟨x, -, hx⟩ := S.record_of_mem ha
  obtain ⟨y, -, hy⟩ := S.record_of_mem hb
  rw [cmpAt, cmpAt, hx, hy, elim_some, elim_some]
  exact rising_of_isLE (h x y hx hy) _

/-- The loop of `metric_find_locked` goes down the tree. -/
lemma metricFindLoop_eq {planSize fuel : Nat} {cmp : Addr → Ordering} {t : CTree}
    (ht : t.Within (links h) (fun a => ∀ n, h.get a = some n → labelsCmp planSize n.labels labels =
      cmp a) fuel) : metricFindLoop planSize labels h fuel t.root = some (t.find cmp) := by
  refine ht.induct (P := fun fuel t =>
    metricFindLoop planSize labels h fuel t.root = some (t.find cmp)) (fun fuel => ?_) ?_
  · cases fuel <;> rfl
  · intro fuel a c x y ht ihx ihy
    obtain ⟨n, hget, hleft, hright⟩ := get_of_lies ht.lies
    show metricFindLoop planSize labels h (fuel + 1) (some a) = _
    simp only [metricFindLoop, hget, hleft, hright, ihx, ihy, ht.root n hget, CTree.find, some_bind]
    cases cmp a <;> rfl

/-- `metric_find` finds a record with the labels if there is one. -/
lemma metricFind_spec (S : Stored s T lists L) (hf : Fits s.plan labels) :
    ∃ p, metricFind s labels = some p ∧
      (∀ m, p = some m → m ∈ T.addrs ∧ ∃ x, recordAt s m = some x ∧ x.sortKey = sortKey labels) ∧
      (p = none → ∀ x ∈ L, x.sortKey ≠ sortKey labels) := by
  have hcmp : ∀ a ∈ T.addrs, ∀ n, s.nodes.get a = some n →
      labelsCmp s.plan.size n.labels labels = cmpAt s labels a := by
    intro a ha n hget
    obtain ⟨x, hx, hrec⟩ := S.record_of_mem ha
    obtain ⟨e, hpay, -⟩ := S.node ha hrec
    rw [payload, view_of_get _ hget] at hpay
    have hlabels : n.labels = x.series.labels := congrArg (fun p => p.1.labels) (some.inj hpay)
    rw [hlabels, labelsCmp_eq (S.fits x hx).length_le hf.length_le, cmpAt, hrec]
    rfl
  have hfind := metricFindLoop_eq ⟨S.tree.lies, hcmp, S.tree.length_le⟩
  refine ⟨T.find (cmpAt s labels), by rw [metricFind, ← S.tree.root_eq]; exact hfind,
    fun m hm => ?_, fun hp x hx e => ?_⟩
  · obtain ⟨hmem, heq⟩ := CTree.mem_of_find hm
    obtain ⟨x, -, hx⟩ := S.record_of_mem hmem
    rw [cmpAt, hx] at heq
    exact ⟨hmem, x, hx, Std.LawfulEqOrd.eq_of_compare heq⟩
  · obtain ⟨a, ha, hrec⟩ := S.mem_of_record hx
    refine CTree.ne_of_find_eq_none (S.rising_cmpAt labels) hp a ha ?_
    rw [cmpAt, hrec, elim_some, e, Std.ReflOrd.compare_self]

/-! ## Insertion -/

lemma TreeAt.congr {h' : Nodes} {root : Ptr} (t : TreeAt h root T)
    (hl : links h' = links h) : TreeAt h' root T :=
  ⟨hl ▸ t.lies, t.nodup, t.root_eq, t.black, t.rb⟩

/-- A record between the smaller ones and the others. -/
lemma Sorted.insert {l r : List Record} (h : Sorted (l ++ r))
    (hl : ∀ x ∈ l, compare x.sortKey new.sortKey = .lt)
    (hr : ∀ x ∈ r, compare x.sortKey new.sortKey ≠ .lt) : Sorted (l ++ new :: r) := by
  refine pairwise_insert h (fun x hx => ?_) fun y hy => ?_
  · rw [hl x hx]
    rfl
  · have hne := hr y hy
    cases hc : compare new.sortKey y.sortKey with
    | lt | eq => rfl
    | gt => exact absurd (Std.OrientedCmp.gt_iff_lt.mp hc) hne

/-- What no operation on series changes. -/
structure SameConfig (s s' : Store) : Prop where
  plan : s'.plan = s.plan
  maxSeries : s'.maxSeries = s.maxSeries
  cursor : s'.expire.cursor = s.expire.cursor

/-- The record that `metric_insert` makes. -/
def newRecord (clock : Clock) (labels : Labels) (type : DataType) (value : BitVec 64) (ttl : Int) :
    Record :=
  ⟨(makeNode labels type value).toSeries, clock.sec + ttl⟩

/-- Insertion puts the new record after the smaller ones. -/
lemma metricInsert_spec (S : Stored s T lists L) (hf : Fits s.plan labels) (clock : Clock)
    (type : DataType) (value : BitVec 64) (ttl : Int) :
    ∃ s' T' lists' ret l r, metricInsert clock s labels type value ttl = some (s', ret) ∧
      L = l ++ r ∧ Stored s' T' lists' (l ++ newRecord clock labels type value ttl :: r) ∧
      (∀ x ∈ l, compare x.sortKey (sortKey labels) = .lt) ∧
      (∀ x ∈ r, compare x.sortKey (sortKey labels) ≠ .lt) ∧
      ret ∈ T'.addrs ∧ recordAt s' ret = some (newRecord clock labels type value ttl) ∧
      SameConfig s s' := by
  have hleaf : IsLeaf (makeNode labels type value) := rfl
  obtain ⟨h1, T', ret, e1, t1, ⟨l, r, hseq, hseq', hl, hr⟩, hpay, hret⟩ :=
    metricInsertNode_spec hleaf S.tree (S.mono hf)
  obtain ⟨L1, L2, rfl, hL1, hL2⟩ := S.split hseq
  have hne : ∀ b ∈ T.addrs, b ≠ ret := by
    rintro b hb rfl
    obtain ⟨p, hp⟩ := S.tree.live hb
    rw [hret] at hp
    cases hp
  have hpay' : ∀ b ∈ T.addrs, payload h1 b = payload s.nodes b := fun b hb => by
    rw [hpay, update_of_ne (hne b hb)]
  obtain ⟨s1, hs1⟩ : ∃ s1 : Store, s1 = { s with
      nodes := h1, root := T'.root, count := s.count + 1,
      words := labelsCacheFill s.words labels } := ⟨_, rfl⟩
  have G1 : Guarded s1 lists (· ∈ T.addrs) := by
    subst hs1
    exact ⟨S.guarded.timed, S.guarded.owned.congr fun b hb => by
      rw [show payload h1 b = payload s.nodes b from hpay' b hb]⟩
  have hnot : ret ∉ T.addrs := fun h => hne ret h rfl
  have hpret : payload s1.nodes ret = some ((makeNode labels type value).toSeries, none) := by
    subst hs1
    rw [hpay, update_self]
    rfl
  obtain ⟨s', lists', n, e', same, G', rec', recm, count', cursor', -, -⟩ :=
    expireArm_fresh G1 hnot hpret clock.base (clock.sec + ttl)
  have hs' := same.eq
  have hold : ∀ b ∈ T.addrs, recordAt s' b = recordAt s b := by
    intro b hb
    rw [rec' b hb]
    subst hs1
    show (payload h1 b).bind _ = _
    rw [hpay' b hb]
    rfl
  have hmem : ∀ b, b ∈ T'.addrs ↔ b ∈ T.addrs ∨ b = ret := by
    intro b
    rw [hseq', hseq, mem_append, mem_append, mem_cons]
    tauto
  have hbelow : ∀ b ∈ T.addrs, ∀ x, recordAt s b = some x → ∀ v,
      greaterAt s.plan.size labels s.nodes b = v →
      decide (compare x.sortKey (sortKey labels) = .lt) = v := by
    intro b hb x hx v hv
    rw [← hv, S.greaterAt_eq hf hb hx]
  have hleft : ∀ x ∈ L1, compare x.sortKey (sortKey labels) = .lt := by
    intro x hx
    obtain ⟨b, hb, hrec⟩ := mem_map.mp (hL1 ▸ mem_map_of_mem hx : some x ∈ l.map (recordAt s))
    exact of_decide_eq_true (hbelow b (hseq ▸ mem_append_left _ hb) x hrec true (hl b hb))
  have hright : ∀ x ∈ L2, compare x.sortKey (sortKey labels) ≠ .lt := by
    intro x hx
    obtain ⟨b, hb, hrec⟩ := mem_map.mp (hL2 ▸ mem_map_of_mem hx : some x ∈ r.map (recordAt s))
    exact of_decide_eq_false (hbelow b (hseq ▸ mem_append_right _ hb) x hrec false (hr b hb))
  refine ⟨s', T', lists', ret, L1, L2, ?_, rfl, ⟨?_, ⟨G'.timed, ?_⟩, ?_, ?_, ?_, ?_, ?_, ?_⟩, hleft,
    hright, ?_, recm, ?_⟩
  · subst hs1
    simp [metricInsert, e1, e']
  · have t' : TreeAt s'.nodes T'.root T' := t1.congr (by rw [same.links, hs1])
    rw [hs', hs1]
    exact t'
  · have : (fun b => b ∈ T.addrs ∨ b = ret) = (· ∈ T'.addrs) := by
      funext b
      exact propext (hmem b).symm
    rw [← this]
    exact G'.owned
  · rw [hseq', map_append, map_cons, map_append, map_cons, recm, ← hL1, ← hL2]
    congr 1
    · exact map_congr_left fun b hb => hold b (hseq ▸ mem_append_left _ hb)
    · congr 1
      exact map_congr_left fun b hb => hold b (hseq ▸ mem_append_right _ hb)
  · obtain ⟨fits1, fits2⟩ := forall_mem_append.1 S.fits
    rw [hs', hs1, forall_mem_append, forall_mem_cons]
    exact ⟨fits1, hf, fits2⟩
  · exact S.sorted.insert hleft hright
  · rw [hs', hs1]
    show s.count + 1 = _
    rw [S.count, length_append, length_append, length_cons]
    omega
  · rw [count', hs1]
    rw [S.armed, length_append, length_append, length_cons]
    omega
  · rw [hs', hs1]
    show RefCount.Counts (labelsCacheFill s.words labels) _
    rw [labelsCacheFill_eq]
    exact S.words.foldl_retain.perm
      (storedWords_perm (x := newRecord clock labels type value ttl) perm_middle).symm
  · exact (hmem ret).mpr (.inr rfl)
  · refine ⟨?_, ?_, cursor'.trans (by rw [hs1])⟩ <;> rw [hs', hs1]

/-! ## Update -/

lemma Stored.splitAt (S : Stored s T lists L) (hm : m ∈ T.addrs) :
    ∃ l r L1 x L2, T.addrs = l ++ m :: r ∧ L = L1 ++ x :: L2 ∧
      l.map (recordAt s) = L1.map some ∧ recordAt s m = some x ∧
      r.map (recordAt s) = L2.map some := by
  obtain ⟨l, r, hseq⟩ := append_of_mem hm
  obtain ⟨L1, L', rfl, hL1, hL'⟩ := S.split hseq
  cases L' with
  | nil => simp at hL'
  | cons x L2 =>
    rw [map_cons, map_cons, cons.injEq] at hL'
    exact ⟨l, r, L1, x, L2, hseq, rfl, hL1, hL'.1, hL'.2⟩

lemma mem_append_of_nodup (nd : (l ++ q :: r).Nodup) (b : Addr) :
    b ∈ l ++ r ↔ b ∈ l ++ q :: r ∧ b ≠ q := by
  rw [nodup_middle, nodup_cons] at nd
  rw [mem_append, mem_append, mem_cons]
  constructor
  · intro h
    refine ⟨by tauto, ?_⟩
    rintro rfl
    exact nd.1 (mem_append.mpr h)
  · tauto

/-- Nothing but the node `m` changed. -/
lemma map_of_ne {β : Type} {f g : Addr → β} (nd : (l ++ m :: r).Nodup)
    (h : ∀ b ∈ l ++ m :: r, b ≠ m → f b = g b) : l.map f = l.map g ∧ r.map f = r.map g := by
  have hmem : ∀ b ∈ l ++ r, f b = g b := fun b hb =>
    have ⟨hb, hne⟩ := (mem_append_of_nodup nd b).mp hb
    h b hb hne
  exact ⟨map_congr_left fun b hb => hmem b (mem_append_left _ hb),
    map_congr_left fun b hb => hmem b (mem_append_right _ hb)⟩

variable {s' : Store} {p : Ptr} {hd : Addr}

/-- The order of the records is one of their sort keys. -/
lemma pairwise_replace {R : List (Option Str) → List (Option Str) → Prop} {x' : Record}
    (hkey : x'.sortKey = x.sortKey)
    (h : (L1 ++ x :: L2).Pairwise fun x y => R x.sortKey y.sortKey) :
    (L1 ++ x' :: L2).Pairwise fun x y => R x.sortKey y.sortKey := by
  have hmap : (L1 ++ x' :: L2).map Record.sortKey = (L1 ++ x :: L2).map Record.sortKey := by
    simp [hkey]
  rw [← pairwise_map] at h ⊢
  rwa [hmap]

lemma Stored.change {x' : Record} (S : Stored s T lists (L1 ++ x :: L2))
    (hseq : T.addrs = l ++ m :: r) (hL1 : l.map (recordAt s) = L1.map some)
    (hL2 : r.map (recordAt s) = L2.map some) (hlabels : x'.series.labels = x.series.labels)
    (heq : s' = { s with nodes := s'.nodes, expire := s'.expire })
    (hl : links s'.nodes = links s.nodes) (hcount : s'.expire.count = s.expire.count)
    (G' : Guarded s' lists' (· ∈ T.addrs))
    (hother : ∀ b ∈ T.addrs, b ≠ m → recordAt s' b = recordAt s b) (hm : recordAt s' m = some x') :
    Stored s' T lists' (L1 ++ x' :: L2) := by
  have hkey : x'.sortKey = x.sortKey := by rw [Record.sortKey, hlabels]; rfl
  have hlen : (L1 ++ x' :: L2).length = (L1 ++ x :: L2).length := by
    rw [length_append, length_append, length_cons, length_cons]
  obtain ⟨hl', hr'⟩ := map_of_ne (hseq ▸ S.tree.nodup) (hseq ▸ hother)
  refine ⟨?_, G', ?_, ?_, ?_, ?_, ?_, ?_⟩
  · have t' : TreeAt s'.nodes s.root T := S.tree.congr hl
    rw [heq]
    exact t'
  · rw [hseq, map_append, map_cons, map_append, map_cons, hm, ← hL1, ← hL2, hl', hr']
  · have hfits := S.fits
    have hplan : s'.plan = s.plan := by rw [heq]
    rw [forall_mem_append, forall_mem_cons] at hfits ⊢
    rwa [hplan, hlabels]
  · exact pairwise_replace (R := fun a b => (compare a b).isLE) hkey S.sorted
  · rw [heq, hlen]
    exact S.count
  · rw [hcount, hlen]
    exact S.armed
  · have hwords : storedWords (L1 ++ x' :: L2) = storedWords (L1 ++ x :: L2) := by
      simp [storedWords, hlabels]
    rw [heq, hwords]
    exact S.words

/-- The key after `metric_refresh_expire`. -/
def refreshedKey (clock : Clock) (ttl key : Int) : Int :=
  if neverExpire ≤ ttl ∧ clock.sec < key then key else clock.sec + ttl

/-- The record after `metric_set` or `metric_gset`. -/
def writtenRecord (clock : Clock) (ttl : Int) (f : Series → Series) (x : Record) : Record :=
  ⟨f x.series, refreshedKey clock ttl x.key⟩

lemma setSample_eq {ser : Series} (hm : payload h m = some (ser, p))
    (f : Series → Series) : ∃ h', setSample h m f = some h' ∧ links h' = links h ∧
      payload h' = update (payload h) m (some (f ser, p)) ∧ h'.next = h.next := by
  obtain ⟨node, hn, e⟩ := view_eq_some.mp hm
  cases e
  exact ⟨_, modify_some hn _, view_update_same _ _ fun _ => rfl, view_update hn rfl,
    rfl⟩

/-- `metric_refresh_expire` -/
lemma metricRefreshExpire_spec (S : Stored s T lists (L1 ++ x :: L2))
    (hseq : T.addrs = l ++ m :: r) (hL1 : l.map (recordAt s) = L1.map some)
    (hx : recordAt s m = some x) (hL2 : r.map (recordAt s) = L2.map some) (clock : Clock)
    (ttl : Int) : ∃ s' lists', metricRefreshExpire clock s m ttl = some s' ∧
      Stored s' T lists' (L1 ++ ⟨x.series, refreshedKey clock ttl x.key⟩ :: L2) ∧
      recordAt s' m = some ⟨x.series, refreshedKey clock ttl x.key⟩ ∧ SameConfig s s' := by
  have hm : m ∈ T.addrs := by simp [hseq]
  obtain ⟨n, hpay, hinf⟩ := S.node hm hx
  obtain ⟨node, hget, e⟩ := view_eq_some.mp hpay
  have hnode : node.expireNode = some n := congrArg Prod.snd e
  obtain ⟨entry, hentry, e'⟩ := view_eq_some.mp hinf
  have hkey : entry.key = x.key := congrArg Prod.fst e'
  simp only [metricRefreshExpire, hget, hnode, hentry, hkey, some_bind]
  by_cases h1 : x.key = clock.sec + ttl
  · have : refreshedKey clock ttl x.key = x.key := by
      rw [refreshedKey, ← h1, ite_self]
    rw [if_pos h1, this]
    exact ⟨s, lists, rfl, S, hx, rfl, rfl, rfl⟩
  · rw [if_neg h1]
    by_cases h2 : neverExpire ≤ ttl ∧ clock.sec < x.key
    · rw [if_pos h2, refreshedKey, if_pos h2]
      exact ⟨s, lists, rfl, S, hx, rfl, rfl, rfl⟩
    · rw [if_neg h2, refreshedKey, if_neg h2]
      have hpos : 0 < s.expire.count := by
        rw [S.armed, length_append, length_cons]
        omega
      obtain ⟨s', lists', _, _, e, same, G', hother, ⟨ser, hser, hrec⟩, hcount, hcursor, -, -⟩ :=
        expireArm_again S.guarded hm clock.base (clock.sec + ttl) hpos
      have hser' : ser = x.series := by
        rw [seriesAt, hpay] at hser
        exact (some.inj hser).symm
      subst hser'
      refine ⟨s', lists', e, S.change hseq hL1 hL2 rfl same.eq same.links hcount G' hother hrec, hrec,
        ?_, ?_, hcursor⟩
      · rw [same.eq]
      · rw [same.eq]

/-- Write a sample and refresh its key, as `metric_set` and `metric_gset` do. -/
lemma writeSample_spec (S : Stored s T lists L) (hm : m ∈ T.addrs) (clock : Clock) (ttl : Int)
    {f : Series → Series} (hf : ∀ ser, (f ser).labels = ser.labels) :
    ∃ h' s' lists' L1 x L2, setSample s.nodes m f = some h' ∧
      metricRefreshExpire clock { s with nodes := h' } m ttl = some s' ∧ L = L1 ++ x :: L2 ∧
      recordAt s m = some x ∧ Stored s' T lists' (L1 ++ writtenRecord clock ttl f x :: L2) ∧
      recordAt s' m = some (writtenRecord clock ttl f x) ∧ SameConfig s s' := by
  obtain ⟨l, r, L1, x, L2, hseq, rfl, hL1, hx, hL2⟩ := S.splitAt hm
  obtain ⟨n, hpay, hinf⟩ := S.node hm hx
  obtain ⟨h', e, hl, hp, hn⟩ := setSample_eq hpay f
  have hother : ∀ b ∈ T.addrs, b ≠ m → recordAt { s with nodes := h' } b = recordAt s b := by
    intro b _ hne
    show recordOf (payload h') _ b = recordOf (payload s.nodes) _ b
    rw [recordOf, recordOf, hp, update_of_ne hne]
  have hrec : recordAt { s with nodes := h' } m = some ⟨f x.series, x.key⟩ :=
    recordOf_eq (by rw [hp, update_self]) hinf
  have G : Guarded { s with nodes := h' } lists (· ∈ T.addrs) := by
    refine ⟨S.guarded.timed, S.guarded.owned.congr fun b _ => ?_⟩
    rw [hp]
    by_cases e : b = m
    · subst e
      rw [update_self, hpay]
      rfl
    · rw [update_of_ne e]
  have S1 : Stored { s with nodes := h' } T lists (L1 ++ ⟨f x.series, x.key⟩ :: L2) :=
    S.change hseq hL1 hL2 (hf x.series) rfl hl rfl G hother hrec
  obtain ⟨hl', hr'⟩ := map_of_ne (hseq ▸ S.tree.nodup) (hseq ▸ hother)
  obtain ⟨s', lists', e', S', hrec', same⟩ :=
    metricRefreshExpire_spec S1 hseq (hl'.trans hL1) hrec (hr'.trans hL2) clock ttl
  exact ⟨h', s', lists', L1, x, L2, e, e', rfl, hx, S', hrec', same.plan, same.maxSeries, same.cursor⟩

lemma gsetSample_labels (addDouble : AddDouble) (type : DataType)
    (value : BitVec 64) (ser : Series) : (gsetSample addDouble type value ser).labels = ser.labels := by
  cases type with
  | double =>
    rw [gsetSample]
    split_ifs <;> rfl
  | _ => rfl

lemma setSampleTo_labels (type : DataType) (value : BitVec 64) (ser : Series) :
    (setSampleTo type value ser).labels = ser.labels := by
  cases type <;> rfl

/-! ## Deletion -/

/-- The store during a deletion: the nodes of `A` are as they were, and what else
is in the heap does not matter. -/
lemma Guarded.reheap (G : Guarded s lists (· ∈ T.addrs))
    (hp : ∀ b ∈ T.addrs, payload h b = payload s.nodes b) :
    Guarded { s with nodes := h } lists (· ∈ T.addrs) ∧
      ∀ b ∈ T.addrs, recordAt { s with nodes := h } b = recordAt s b := by
  refine ⟨⟨G.timed, G.owned.congr fun b hb => ?_⟩, fun b hb => ?_⟩
  · exact congrArg _ (hp b hb)
  · show recordOf (payload h) _ b = recordOf (payload s.nodes) _ b
    rw [recordOf, recordOf, hp b hb]

/-- Fewer nodes are due once a due one is gone, even if the node `q` was armed
again as `n'`: with a key that is due it was due before. -/
lemma due_lt {n : Addr} (n' : Addr) (b : Bucket) (nd : (lists .due).Nodup)
    (nd' : (lists' .due).Nodup) (hn : n ∈ lists .due) (hnq : q ≠ n)
    (hmem : ∀ c ∈ lists' .due, (c = n' ∧ b = .due) ∨ (c ≠ n ∧ c ≠ q ∧ c ∈ lists .due))
    (hq : b = .due → q ∈ lists .due) : (lists' .due).length < (lists .due).length := by
  by_cases hb : b = .due
  · have hlen : ((lists .due).erase n).length + 1 = (lists .due).length := by
      rw [length_erase_of_mem hn]
      have := length_pos_of_mem hn
      omega
    have hq' : q ∈ (lists .due).erase n := (List.Nodup.mem_erase_iff nd).mpr ⟨hnq, hq hb⟩
    have sub : lists' .due ⊆ n' :: ((lists .due).erase n).erase q := by
      intro c hc
      rcases hmem c hc with ⟨rfl, -⟩ | ⟨h1, h2, h3⟩
      · exact mem_cons_self
      · refine mem_cons_of_mem _ ((List.Nodup.mem_erase_iff (nd.erase n)).mpr ⟨h2, ?_⟩)
        exact (List.Nodup.mem_erase_iff nd).mpr ⟨h1, h3⟩
    have := (subperm_of_subset nd' sub).length_le
    rw [length_cons, length_erase_of_mem hq'] at this
    have := length_pos_of_mem hq'
    omega
  · refine length_lt_of_left nd' hn fun c hc => ?_
    obtain ⟨h1, -, h3⟩ := (hmem c hc).resolve_left fun h => hb h.2
    exact ⟨h1, h3⟩

/-- The node `q` is cut off: the records of the others stay, one less. -/
lemma Stored.cut {L' : List Record} (S : Stored s T lists L)
    (hseq : T.addrs = l ++ q :: r) (hhd : hd ∉ T.addrs) (H : Searched h hd p q l r)
    (heq : s' = { s with nodes := s'.nodes, expire := s'.expire })
    (hlinks : links s'.nodes = links h) (G : Guarded s' lists' fun b => b ∈ T.addrs ∧ b ≠ q)
    (hrec : (l ++ r).map (recordAt s') = L'.map some) (hsub : L'.Sublist L)
    (hperm : L.Perm (x :: L')) (harmed : s'.expire.count = s.expire.count - 1)
    (hcursor : s'.expire.cursor = s.expire.cursor) :
    ∃ h1 h' T', unlinkNode s'.nodes p q = some h1 ∧ finishRoot h1 hd = some (h', T'.root) ∧
      Stored { s' with
        nodes := h', count := s'.count - 1, root := T'.root,
        words := labelsFree s'.words x.series.labels } T' lists' L' ∧
      SameConfig s s' := by
  obtain ⟨h1, h', T', e1, e', t', hseq', hpay⟩ := H.cut s'.nodes hlinks
  have hmem : ∀ b, b ∈ T'.addrs ↔ b ∈ T.addrs ∧ b ≠ q := by
    rw [hseq', hseq]
    exact mem_append_of_nodup (hseq ▸ S.tree.nodup)
  have hkeep : ∀ b ∈ T'.addrs, payload h' b = payload s'.nodes b := by
    intro b hb
    obtain ⟨hbT, hbq⟩ := (hmem b).mp hb
    rw [hpay, update_of_ne, update_of_ne hbq]
    rintro rfl
    exact hhd hbT
  have hA : (fun b => b ∈ T.addrs ∧ b ≠ q) = (· ∈ T'.addrs) := by
    funext b
    exact propext (hmem b).symm
  rw [hA] at G
  obtain ⟨G', rec'⟩ := G.reheap hkeep
  have hplan : s'.plan = s.plan := by rw [heq]
  have hcount : s'.count = s.count := by rw [heq]
  have hwords : s'.words = s.words := by rw [heq]
  have hlen : L.length = L'.length + 1 := hperm.length_eq
  refine ⟨h1, h', T', e1, e', ⟨t', ⟨G'.timed, G'.owned⟩, ?_, fun x hx => ?_,
    S.sorted.sublist hsub, ?_, ?_, ?_⟩, hplan, by rw [heq], hcursor⟩
  · rw [← hrec, ← hseq']
    exact map_congr_left rec'
  · exact hplan ▸ S.fits x (hsub.subset hx)
  · show s'.count - 1 = _
    rw [hcount, S.count, hlen]
    omega
  · show s'.expire.count = _
    rw [harmed, S.armed, hlen]
    omega
  · show RefCount.Counts (labelsFree s'.words x.series.labels) _
    rw [labelsFree_eq, hwords]
    exact (S.words.perm (storedWords_perm hperm)).foldl_release

/-- The words of a record are given back, also after its expire node changed. -/
lemma Stored.freeChain_eq (S : Stored s T lists L) (ha : a ∈ T.addrs) (hx : recordAt s a = some x)
    (hp : payload h a = payload s.nodes a) (same : SameTree { s with nodes := h } s') :
    freeChain s' a = some (labelsFree s'.words x.series.labels) := by
  obtain ⟨n, hpay, -⟩ := S.node ha hx
  have hser := same.series a
  rw [seriesAt, seriesAt, hp, hpay] at hser
  obtain ⟨c, hpay', hc⟩ := map_eq_some_iff.mp hser
  obtain ⟨node, hget, e⟩ := view_eq_some.mp hpay'
  have hnode : node.toSeries = x.series := (congrArg Prod.fst e).trans hc
  rw [freeChain, hget, ← hnode]
  rfl

/-- The node that the search ended at is the one with the labels. -/
lemma removeFound_self (S : Stored s T lists (L1 ++ x :: L2))
    (hseq : T.addrs = l ++ q :: r) (hL1 : l.map (recordAt s) = L1.map some)
    (hx : recordAt s q = some x) (hL2 : r.map (recordAt s) = L2.map some) (hhd : hd ∉ T.addrs)
    (hp : ∀ b ∈ T.addrs, payload h b = payload s.nodes b) (H : Searched h hd p q l r) (base : Int) :
    ∃ s1 h' T' lists', removeFound base { s with nodes := h } p q q = some s1 ∧
      finishRoot s1.nodes hd = some (h', T'.root) ∧
      Stored { s1 with nodes := h', root := T'.root } T' lists' (L1 ++ L2) ∧
      SameConfig s { s1 with nodes := h', root := T'.root } ∧
      ∀ n, entryOf s.nodes q = some n → n ∈ lists .due →
        (lists' .due).length < (lists .due).length := by
  have hq : q ∈ T.addrs := by simp [hseq]
  obtain ⟨G1, rec1⟩ := S.guarded.reheap hp
  obtain ⟨s2, lists2, n, e2, same2, G2, rec2, count2, cursor2, entry, -, -, removes⟩ :=
    expireForget_spec G1 hq
  have hpos : 0 < s.expire.count := by
    rw [S.armed, length_append, length_cons]
    omega
  obtain ⟨hl', hr'⟩ := map_of_ne (f := recordAt s2) (hseq ▸ S.tree.nodup)
    (hseq ▸ fun b hb hne => (rec2 b hb hne).trans (rec1 b hb))
  have hrec : (l ++ r).map (recordAt s2) = (L1 ++ L2).map some := by
    rw [map_append, map_append, hl', hr', hL1, hL2]
  obtain ⟨h3, h', T', e3, e', S', same⟩ := S.cut hseq hhd H same2.eq same2.links G2 hrec
    ((sublist_cons_self _ _).append_left _) perm_middle (count2.trans (if_pos hpos)) cursor2
  have efree := S.freeChain_eq hq hx (hp q hq) same2
  refine ⟨{ s2 with nodes := h3, count := s2.count - 1, words := _ }, h', T', lists2,
    by simp [removeFound, e2, e3, efree], e', S',
    ⟨same.plan, same.maxSeries, same.cursor⟩, fun n' hn' hdue => ?_⟩
  have : entryOf s.nodes q = entryOf h q := by rw [entryOf, entryOf, hp q hq]
  rw [this] at hn'
  have hnn : n' = n := some.inj (hn'.symm.trans entry)
  subst hnn
  exact length_lt_of_left (G2.timed.wheel.family.nodup .due) hdue fun c => (removes c .due).mp

/-- The sample of `q` moves to `f`. -/
lemma moveSample_eq {f : Addr} {x y : Series} {pf pq : Ptr} (hne : q ≠ f)
    (hf : payload h f = some (x, pf)) (hq : payload h q = some (y, pq)) :
    ∃ h', moveSample h f q = some h' ∧ links h' = links h ∧
      payload h' f = some (y, pf) ∧ ∀ b, b ≠ f → b ≠ q → payload h' b = payload h b := by
  obtain ⟨n, hget, e⟩ := view_eq_some.mp hq
  have hy : n.toSeries = y := congrArg Prod.fst e
  obtain ⟨h1, e1, l1, p1, -⟩ := setSample_eq hf fun _ => n.toSeries
  have hq1 : payload h1 q = some (y, pq) := by rw [p1, update_of_ne hne, hq]
  obtain ⟨h2, e2, l2, p2, -⟩ := setSample_eq hq1 fun x => { x with percentileBuf := none }
  refine ⟨h2, ?_, l2.trans l1, ?_, fun b hbf hbq => ?_⟩
  · simp [moveSample, hget, e1, e2]
  · rw [p2, update_of_ne hne.symm, p1, update_self, hy]
  · rw [p2, update_of_ne hbq, p1, update_of_ne hbf]

/-- The node after the one that the search ended at has the labels: it takes over
the sample and the key of that one. -/
lemma removeFound_next {y : Record}
    (S : Stored s T lists (L1 ++ y :: x :: L2)) (hseq : T.addrs = l ++ q :: a :: r)
    (hL1 : l.map (recordAt s) = L1.map some) (hy : recordAt s q = some y) (hx : recordAt s a = some x)
    (hL2 : r.map (recordAt s) = L2.map some) (hhd : hd ∉ T.addrs)
    (hp : ∀ b ∈ T.addrs, payload h b = payload s.nodes b) (H : Searched h hd p q l (a :: r))
    (base : Int) : ∃ s1 h' T' lists', removeFound base { s with nodes := h } p q a = some s1 ∧
      finishRoot s1.nodes hd = some (h', T'.root) ∧
      Stored { s1 with nodes := h', root := T'.root } T' lists' (L1 ++ y :: L2) ∧
      SameConfig s { s1 with nodes := h', root := T'.root } ∧
      ∀ n, entryOf s.nodes a = some n → 0 < s.expire.cursor → n ∈ lists .due →
        (lists' .due).length < (lists .due).length := by
  have hq : q ∈ T.addrs := by simp [hseq]
  have ha : a ∈ T.addrs := by simp [hseq]
  have nd : (l ++ q :: a :: r).Nodup := hseq ▸ S.tree.nodup
  have hnd := nodup_cons.mp (nodup_middle.mp nd)
  have hqa : q ≠ a := by
    rintro rfl
    exact hnd.1 (by simp)
  obtain ⟨G1, rec1⟩ := S.guarded.reheap hp
  -- the key of `q`
  obtain ⟨nq, payq, infq⟩ := S.node hq hy
  have payq1 : payload h q = some (y.series, some nq) := (hp q hq).trans payq
  obtain ⟨node, hget, eq1⟩ := view_eq_some.mp payq1
  have hnode : node.expireNode = some nq := congrArg Prod.snd eq1
  obtain ⟨entry, hentry, eq2⟩ := view_eq_some.mp infq
  have hkey : entry.key = y.key := congrArg Prod.fst eq2
  have ekey : expireKey { s with nodes := h } q = some y.key := by
    simp [expireKey, hget, hnode, hentry, hkey]
  -- `q` is forgotten and `a` armed with its key
  obtain ⟨s2, lists2, n2, e2, same2, G2, rec2, count2, cursor2, entry2, -, keep2, removes⟩ :=
    expireForget_spec G1 hq
  have hlen : s.expire.count = ((L1 ++ y :: x :: L2).length : Nat) := S.armed
  rw [length_append, length_cons, length_cons] at hlen
  have count2' : s2.expire.count = s.expire.count - 1 := by
    rw [count2]
    exact if_pos (by show 0 < s.expire.count; omega)
  obtain ⟨s3, lists3, n3, n', e3, same3, G3, rec3, ⟨ser, hser, recA⟩, count3, cursor3, entry3, mem3⟩ :=
    expireArm_again G2 ⟨ha, Ne.symm hqa⟩ base y.key (by omega)
  have same := same2.trans same3
  have efree := S.freeChain_eq ha hx (hp a ha) same
  -- its sample moves
  obtain ⟨ser', na, ka, paya, infa⟩ := G3.owned.owns a ⟨ha, Ne.symm hqa⟩
  obtain ⟨pq, payq3⟩ : ∃ pq, payload s3.nodes q = some (y.series, pq) := by
    have hs := same.series q
    rw [seriesAt, seriesAt, show payload h q = _ from payq1] at hs
    obtain ⟨⟨ser'', pq⟩, e, hs⟩ := map_eq_some_iff.mp hs
    cases hs
    exact ⟨pq, e⟩
  obtain ⟨h4, e4, l4, p4, p4'⟩ := moveSample_eq hqa paya payq3
  have G4 : Guarded { s3 with nodes := h4 } lists3 fun b => b ∈ T.addrs ∧ b ≠ q := by
    refine ⟨G3.timed, G3.owned.congr fun b hb => ?_⟩
    by_cases e : b = a
    · subst e
      rw [p4, paya]
      rfl
    · rw [p4' b e hb.2]
  have recA' : recordAt { s3 with nodes := h4 } a = some y := by
    have hka : ka = y.key := by
      rw [recordAt, recordOf_eq paya infa] at recA
      exact congrArg Record.key (some.inj recA)
    subst hka
    exact recordOf_eq p4 infa
  obtain ⟨hl', hr'⟩ : l.map (recordAt { s3 with nodes := h4 }) = l.map (recordAt s) ∧
      r.map (recordAt { s3 with nodes := h4 }) = r.map (recordAt s) := by
    refine map_of_ne hnd.2 fun b hb hba => ?_
    obtain ⟨hbT, hbq⟩ := (mem_append_of_nodup nd b).mp hb
    rw [← hseq] at hbT
    rw [← rec1 b hbT, ← rec2 b hbT hbq, ← rec3 b ⟨hbT, hbq⟩ hba]
    show recordOf (payload h4) _ b = recordOf (payload s3.nodes) _ b
    rw [recordOf, recordOf, p4' b hba hbq]
  have hrec : (l ++ a :: r).map (recordAt { s3 with nodes := h4 }) = (L1 ++ y :: L2).map some := by
    rw [map_append, map_cons, map_append, map_cons, hl', hr', recA', hL1, hL2]
  obtain ⟨h5, h', T', e5, e', S', config⟩ := S.cut hseq hhd H
    (congrArg (fun t : Store => { t with nodes := h4 }) same.eq) (l4.trans same.links) G4 hrec
    (((sublist_cons_self _ _).cons_cons _).append_left _)
    (((Perm.swap x y L2).append_left L1).trans perm_middle) (count3.trans count2') (cursor3.trans cursor2)
  refine ⟨{ s3 with nodes := h5, count := s3.count - 1, words := _ }, h', T', lists3,
    by simp [removeFound, if_neg hqa.symm, ekey, e2, e3, efree, e4, e5], e', S',
    ⟨config.plan, config.maxSeries, config.cursor⟩,
    fun n hn hpos hdue => ?_⟩
  have hn3 : n3 = n := by
    have h1 : entryOf h a = some n := by
      rw [entryOf, hp a ha]
      exact hn
    exact some.inj (entry3.symm.trans ((keep2 a hqa.symm).trans h1))
  have hn2 : n2 = nq := by
    have h1 : entryOf h q = some nq := by
      rw [entryOf, payq1]
      rfl
    exact some.inj (entry2.symm.trans h1)
  subst hn3 hn2
  have W := S.guarded.timed.wheel
  have hbase : expireBase s2.expire base = s.expire.cursor := by
    rw [expireBase, cursor2]
    exact if_pos hpos
  rw [hbase] at mem3
  have hqn : n2 ≠ n3 := by
    rintro rfl
    obtain ⟨xa, -, hxa⟩ := S.record_of_mem ha
    obtain ⟨na', paya', -⟩ := S.node ha hxa
    rw [entryOf, paya'] at hn
    cases hn
    exact hqa (S.guarded.owned.inj hq ha payq paya')
  refine due_lt n' (scheduleBucket s.expire.cursor y.key) (W.family.nodup .due)
    (G3.timed.wheel.family.nodup .due) hdue hqn (fun c hc => ?_) fun hb => ?_
  · rcases (mem3 c .due).mp hc with ⟨h1, h2⟩ | ⟨h1, h2⟩
    · exact .inl ⟨h1, h2.symm⟩
    · obtain ⟨h3, h4⟩ := (removes c .due).mp h2
      exact .inr ⟨h1, h3, h4⟩
  · obtain ⟨b, hb'⟩ := W.mem_of_infos infq
    have hle : keyAt s.expire.nodes n2 ≤ s.expire.cursor := by
      rw [keyAt, infq]
      exact scheduleBucket_eq_due.mp hb
    obtain rfl := S.guarded.timed.due hpos hb' hle
    exact hb'

/-- `metric_delete_inner` takes out the first record with the labels, if there is
one. -/
lemma metricDelete_spec (S : Stored s T lists L) (hf : Fits s.plan labels) (base : Int) :
    ∃ s' T' lists', SameConfig s s' ∧
      ((metricDelete base s labels = some (s', false) ∧ Stored s' T' lists' L ∧
          ∀ x ∈ L, x.sortKey ≠ sortKey labels) ∨
        ∃ m L1 x L2, metricDelete base s labels = some (s', true) ∧ m ∈ T.addrs ∧
          recordAt s m = some x ∧ L = L1 ++ x :: L2 ∧ x.sortKey = sortKey labels ∧
          Stored s' T' lists' (L1 ++ L2) ∧
          ∀ n, entryOf s.nodes m = some n → 0 < s.expire.cursor → n ∈ lists .due →
            (lists' .due).length < (lists .due).length) := by
  cases hroot : s.root with
  | none =>
    refine ⟨s, T, lists, ⟨rfl, rfl, rfl⟩, .inl ⟨?_, S, by simp [S.eq_nil hroot]⟩⟩
    rw [metricDelete, hroot]
  | some r0 =>
    obtain ⟨h1, h2, p, q, f, l, r, e1, e2, pay2, hseq, H, hcases⟩ :=
      metricDelete_search S.tree (by simp [hroot]) (S.mono hf) (S.equalRun hf)
    have hhd : s.nodes.next ∉ T.addrs := fun h => S.tree.ne_next h rfl
    have hp : ∀ b ∈ T.addrs, payload h2 b = payload s.nodes b := fun b hb => by
      rw [pay2, update_of_ne (S.tree.ne_next hb)]
    have hkey : ∀ b ∈ T.addrs, ∀ x, recordAt s b = some x →
        equalAt s.plan.size labels s.nodes b = true → x.sortKey = sortKey labels := by
      intro b hb x hx h
      rw [S.equalAt_eq hf hb hx] at h
      exact of_decide_eq_true h
    rcases hcases with ⟨rfl, hnone⟩ | ⟨rfl, heq, -⟩ | ⟨a, r', rfl, rfl, heq, -⟩
    · obtain ⟨h', T', e', t', hseq', hpay⟩ := H.done h2 rfl
      have hsame : ∀ b ∈ T.addrs, payload h' b = payload s.nodes b := fun b hb => by
        rw [hpay, update_of_ne (S.tree.ne_next hb), hp b hb]
      obtain ⟨G', rec'⟩ := S.guarded.reheap hsame
      have haddrs : T'.addrs = T.addrs := hseq'.trans hseq.symm
      refine ⟨{ s with nodes := h', root := T'.root }, T', lists, ⟨rfl, rfl, rfl⟩,
        .inl ⟨?_, ⟨t', ?_, ?_, S.fits, S.sorted, S.count, S.armed, S.words⟩, fun x hx => ?_⟩⟩
      · rw [hroot] at e1
        simp [metricDelete, hroot, e1, e2, e']
      · rw [haddrs]
        exact ⟨G'.timed, G'.owned⟩
      · rw [haddrs, ← S.records]
        exact map_congr_left rec'
      · obtain ⟨b, hb, hrec⟩ := S.mem_of_record hx
        have := hnone b hb
        rwa [S.equalAt_eq hf hb hrec, decide_eq_false_iff_not] at this
    · have hq : q ∈ T.addrs := by simp [hseq]
      obtain ⟨L1, L', rfl, hL1, hL'⟩ := S.split hseq
      cases L' with
      | nil => simp at hL'
      | cons x L2 =>
        rw [map_cons, map_cons, List.cons.injEq] at hL'
        obtain ⟨s1, h', T', lists', e3, e', S', same, hdue⟩ :=
          removeFound_self S hseq hL1 hL'.1 hL'.2 hhd hp H base
        refine ⟨_, T', lists', same, .inr ⟨q, L1, x, L2, ?_, hq, hL'.1, rfl,
          hkey q hq x hL'.1 heq, S', fun n hn _ => hdue n hn⟩⟩
        rw [hroot] at e1 e3
        simp [metricDelete, hroot, e1, e2, e3, e']
    · have ha : a ∈ T.addrs := by simp [hseq]
      obtain ⟨L1, L', rfl, hL1, hL'⟩ := S.split hseq
      rcases L' with - | ⟨y, - | ⟨x, L2⟩⟩
      · simp at hL'
      · simp at hL'
      · simp only [map_cons, List.cons.injEq] at hL'
        obtain ⟨hy, hx, hL2⟩ := hL'
        obtain ⟨s1, h', T', lists', e3, e', S', same, hdue⟩ :=
          removeFound_next S hseq hL1 hy hx hL2 hhd hp H base
        refine ⟨_, T', lists', same, .inr ⟨a, L1 ++ [y], x, L2, ?_, ha, hx, by simp,
          hkey a ha x hx heq, by simpa using S', hdue⟩⟩
        rw [hroot] at e1 e3
        simp [metricDelete, hroot, e1, e2, e3, e']

/-! ## Insertion or update -/

/-- What `metric_upsert` makes of the sample of a series that it finds. -/
def Upsert.sample (addDouble : AddDouble) (u : Upsert) : Series → Series :=
  if u.add then gsetSample addDouble u.type u.value else setSampleTo u.type u.value

lemma Upsert.sample_labels (addDouble : AddDouble) (u : Upsert)
    (ser : Series) : (u.sample addDouble ser).labels = ser.labels := by
  rw [Upsert.sample]
  split_ifs
  · exact gsetSample_labels ..
  · exact setSampleTo_labels ..

/-- The records after `metric_upsert`. -/
inductive Upserted (addDouble : AddDouble) (clock : Clock) (u : Upsert)
    (labels : Labels) (full : Bool) : List Record → List Record → Option Record → Prop where
  /-- The labels are there: the record is written. -/
  | written {L1 L2 : List Record} {x : Record} (found : x.sortKey = sortKey labels) :
      Upserted addDouble clock u labels full (L1 ++ x :: L2)
        (L1 ++ writtenRecord clock u.ttl (u.sample addDouble) x :: L2)
        (some (writtenRecord clock u.ttl (u.sample addDouble) x))
  /-- The labels are new and the namespace is full. -/
  | dropped {L : List Record} (missing : ∀ x ∈ L, x.sortKey ≠ sortKey labels) (h : full = true) :
      Upserted addDouble clock u labels full L L none
  /-- The labels are new. -/
  | inserted {l r : List Record} (missing : ∀ x ∈ l ++ r, x.sortKey ≠ sortKey labels)
      (h : full = false) (left : ∀ x ∈ l, compare x.sortKey (sortKey labels) = .lt)
      (right : ∀ x ∈ r, compare x.sortKey (sortKey labels) ≠ .lt) :
      Upserted addDouble clock u labels full (l ++ r)
        (l ++ newRecord clock labels u.type u.value u.ttl :: r)
        (some (newRecord clock labels u.type u.value u.ttl))

/-- `metric_upsert`, and where the record is that it returns. -/
lemma metricUpsert_spec (S : Stored s T lists L) (hf : Fits s.plan labels)
    (addDouble : AddDouble) (clock : Clock) (u : Upsert) :
    ∃ s' T' lists' L' p x, metricUpsert addDouble clock s labels u = some (s', p) ∧
      Stored s' T' lists' L' ∧ SameConfig s s' ∧
      Upserted addDouble clock u labels (capped s u.bypass) L L' x ∧
      (p = none ↔ x = none) ∧ ∀ m, p = some m → m ∈ T'.addrs ∧ recordAt s' m = x := by
  obtain ⟨p, e, found, missing⟩ := metricFind_spec S hf
  cases p with
  | some m =>
    obtain ⟨hm, x, hx, hkey⟩ := found m rfl
    obtain ⟨h', s', lists', L1, x', L2, e1, e2, rfl, hx', S', hrec, same⟩ :=
      writeSample_spec S hm clock u.ttl (u.sample_labels addDouble)
    rw [hx] at hx'
    cases hx'
    refine ⟨s', T, lists', _, some m, _, ?_, S', same, .written hkey, by simp, ?_⟩
    · have hset : (if u.add = true then metricGset addDouble clock s m u.type u.value u.ttl
          else metricSet clock s m u.type u.value u.ttl) = some s' := by
        rw [Upsert.sample] at e1
        split_ifs with hadd
        · rw [if_pos hadd] at e1
          simp only [metricGset, e1]
          exact e2
        · rw [if_neg hadd] at e1
          simp only [metricSet, e1]
          exact e2
      simp only [metricUpsert, e, bind_eq_bind, bind_some, Option.pure_def]
      split_ifs at hset ⊢ <;> rw [hset, bind_some]
    · rintro m' ⟨⟩
      exact ⟨hm, hrec⟩
  | none =>
    have hmiss := missing rfl
    cases hc : capped s u.bypass with
    | true =>
      refine ⟨{ s with seriesDropped := s.seriesDropped + 1 }, T, lists, L, none, none, ?_,
        ⟨S.tree, ⟨S.guarded.timed, S.guarded.owned⟩, S.records, S.fits, S.sorted, S.count, S.armed, S.words⟩,
        ⟨rfl, rfl, rfl⟩, .dropped hmiss rfl, by simp, by simp⟩
      simp [metricUpsert, e, hc]
    | false =>
      obtain ⟨s', T', lists', ret, l, r, e', rfl, S', left, right, hret, hrec, same⟩ :=
        metricInsert_spec S hf clock u.type u.value u.ttl
      refine ⟨s', T', lists', _, some ret, _, ?_, S', same, .inserted hmiss rfl left right,
        by simp, ?_⟩
      · simp [metricUpsert, e, hc, e']
      · rintro m' ⟨⟩
        exact ⟨hret, hrec⟩

end Stored

/-! ## Distinct labels -/

lemma StrictlySorted.insert {l r : List Record} (h : StrictlySorted (l ++ r))
    (hl : ∀ x ∈ l, compare x.sortKey new.sortKey = .lt)
    (hr : ∀ x ∈ r, compare x.sortKey new.sortKey ≠ .lt)
    (hne : ∀ x ∈ l ++ r, x.sortKey ≠ new.sortKey) : StrictlySorted (l ++ new :: r) := by
  refine pairwise_insert h hl fun y hy => ?_
  cases hc : compare new.sortKey y.sortKey with
  | lt => rfl
  | eq =>
    exact absurd (Std.LawfulEqOrd.eq_of_compare hc).symm (hne y (mem_append_right _ hy))
  | gt => exact absurd (Std.OrientedCmp.gt_iff_lt.mp hc) (hr y hy)

section Upserted

variable {addDouble : AddDouble} {clock : Clock} {u : Upsert}
  {labels : Labels} {full : Bool} {L L' : List Record} {y : Option Record}

lemma writtenRecord_sortKey (x : Record) :
    (writtenRecord clock u.ttl (u.sample addDouble) x).sortKey = x.sortKey := by
  rw [Record.sortKey, writtenRecord, u.sample_labels]
  rfl

/-- `metric_upsert` changes records with its labels only. -/
lemma Upserted.filter_eq (h : Upserted addDouble clock u labels full L L' y) {P : Record → Bool}
    (hP : ∀ x, x ∈ L ∨ x ∈ L' → x.sortKey = sortKey labels → P x = false) :
    L'.filter P = L.filter P := by
  cases h with
  | @written L1 L2 x found =>
    have hx := hP x (.inl (by simp)) found
    have hw := hP _ (.inr (mem_append_right _ mem_cons_self))
      ((writtenRecord_sortKey x).trans found)
    rw [filter_append, filter_append, filter_cons_of_neg (by simp [hw]),
      filter_cons_of_neg (by simp [hx])]
  | dropped => rfl
  | inserted =>
    have hn := hP _ (.inr (mem_append_right _ mem_cons_self)) rfl
    rw [filter_append, filter_append, filter_cons_of_neg (by simp [hn])]

/-- Unless it is dropped, a sample has a record afterwards. -/
lemma Upserted.exists_mem (h : Upserted addDouble clock u labels false L L' y) :
    ∃ x ∈ L', x.sortKey = sortKey labels := by
  cases h with
  | written found =>
    exact ⟨_, mem_append_right _ mem_cons_self, (writtenRecord_sortKey _).trans found⟩
  | dropped _ hfull => cases hfull
  | inserted => exact ⟨_, mem_append_right _ mem_cons_self, rfl⟩

/-- `metric_upsert` keeps the labels distinct. -/
lemma Upserted.strict (h : Upserted addDouble clock u labels full L L' y) (hs : StrictlySorted L) :
    StrictlySorted L' := by
  cases h with
  | @written L1 L2 x found =>
    have hkey : (writtenRecord clock u.ttl (u.sample addDouble) x).sortKey = x.sortKey :=
      writtenRecord_sortKey x
    exact pairwise_replace (R := fun a b => compare a b = .lt) hkey hs
  | dropped => exact hs
  | inserted missing _ left right => exact hs.insert left right missing

end Upserted

lemma StrictlySorted.nodup {L : List Record} (h : StrictlySorted L) :
    (L.map Record.sortKey).Nodup := by
  refine pairwise_map.mpr (h.imp fun {x y} hlt e => ?_)
  rw [e, Std.ReflOrd.compare_self] at hlt
  cases hlt

lemma StrictlySorted.inj {L : List Record} (h : StrictlySorted L) {x y : Record} (hx : x ∈ L)
    (hy : y ∈ L) (hkey : x.sortKey = y.sortKey) : x = y :=
  inj_on_of_nodup_map h.nodup hx hy hkey

end Alligator
