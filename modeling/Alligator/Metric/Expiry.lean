import Alligator.Metric.Advance
import Alligator.Metric.Insert
import Alligator.Metric.Delete
import Alligator.Metric.WordCache

/-!
# Who owns an expire node

The store of a namespace has two heaps, the metric nodes and the expire nodes,
which point at each other.  Two operations change such a pair: `expireForget`
drops the expire node of a metric, and `expireArm` gives a metric a new one.

`Owned pay inf A` says that the two heaps agree: the metrics of `A` have an
expire node each, which points back, and there are no other expire nodes.  It is
stated on views of the heaps.  `A` is not always the whole tree, since a metric
is without expire node for a moment while it is deleted.
-/

namespace Alligator

open Memory DList RedBlack List Function Option Heap

/-! ## Arming and forgetting in the wheel -/

section Wheel

variable {t : ExpireTree} {lists : Buckets} {free : List Addr} {a : Addr}

/-- An entry in no list changes: the lists stand as before. -/
lemma Wheel.beside (W : Wheel t lists free) {nodes : Entries} {x : Option ExpireNode}
    (view : ∀ {β : Type} (g : ExpireNode → β), view g nodes = update (view g t.nodes) a (x.map g))
    (hne : ∀ c b, c ∈ lists b → c ≠ a) : Family (dlinks nodes) (homes nodes) t.heads lists ∧
      (lists .far).Pairwise fun c d => keyAt nodes c ≤ keyAt nodes d := by
  refine ⟨W.family.congr (fun b c hc => ?_) fun b c hc => ?_, W.sorted.imp_of_mem fun hc hd h => ?_⟩
  · exact (congrFun (view _) c).trans (update_of_ne (hne c b hc) _ _)
  · exact (congrFun (view _) c).trans (update_of_ne (hne c b hc) _ _)
  · have key : ∀ c ∈ lists .far, keyAt nodes c = keyAt t.nodes c := by
      intro c hc
      rw [keyAt, infos, view, update_of_ne (hne c _ hc)]
      rfl
    rwa [key _ hc, key _ hd]

lemma Wheel.alloc (W : Wheel t lists free) (x : ExpireNode) (count : Int) :
    Wheel { t with nodes := (t.nodes.alloc x).1, count := count } lists (t.nodes.next :: free) := by
  have hnew : ∀ c, c ∈ free ∨ (∃ b, c ∈ lists b) → c ≠ t.nodes.next := by
    rintro c hc rfl
    have := (W.live _).mpr hc
    rw [infos, view_next] at this
    cases this
  obtain ⟨family, sorted⟩ := W.beside (x := some x) (fun g => view_alloc g t.nodes x)
    fun c b hc => hnew c (.inr ⟨b, hc⟩)
  refine ⟨family, W.tail, sorted, ?_, ?_, fun c => ?_⟩
  · exact nodup_cons.mpr ⟨fun h => hnew _ (.inl h) rfl, W.nodup⟩
  · intro c hc b hb
    rcases mem_cons.mp hc with rfl | hc
    · exact hnew _ (.inr ⟨b, hb⟩) rfl
    · exact W.apart c hc b hb
  · rw [infos, view_alloc]
    by_cases e : c = t.nodes.next
    · simp [e]
    · rw [update_of_ne e]
      exact (W.live c).trans (by simp [e])

lemma Wheel.dealloc (W : Wheel t lists (a :: free)) (count : Int) :
    Wheel { t with nodes := t.nodes.free a, count := count } lists free := by
  have hne : ∀ c b, c ∈ lists b → c ≠ a := by
    rintro c b hc rfl
    exact W.apart c mem_cons_self b hc
  obtain ⟨hna, nd⟩ := nodup_cons.mp W.nodup
  obtain ⟨family, sorted⟩ := W.beside (x := none) (fun g => view_free g t.nodes a) hne
  refine ⟨family, W.tail, sorted, nd, (forall_mem_cons.1 W.apart).2, fun c => ?_⟩
  rw [infos, view_free]
  by_cases e : c = a
  · subst e
    rw [update_self]
    constructor
    · intro h
      cases h
    · rintro (h | ⟨b, h⟩)
      · exact absurd h hna
      · exact absurd rfl (hne c b h)
  · rw [update_of_ne e]
    exact (W.live c).trans (by simp [e])

lemma Wheel.forget (W : Wheel t lists []) {b : Bucket} (ha : a ∈ lists b) :
    ∃ t' lists', expireUnlink t a = some t' ∧ t'.count = t.count ∧ t'.cursor = t.cursor ∧
      (∀ count, Wheel { t' with nodes := t'.nodes.free a, count := count } lists' [] ∧
        ∀ r, AllPlaced r t lists →
          AllPlaced r { t' with nodes := t'.nodes.free a, count := count } lists') ∧
      infos (t'.nodes.free a) = update (infos t.nodes) a none ∧ Removes lists lists' a := by
  obtain ⟨t', lists', e, W, removes, k, -⟩ := expireUnlink_spec W ha
  have hinfos : infos (t'.nodes.free a) = update (infos t.nodes) a none := by
    rw [← k.infos]
    exact view_free _ _ _
  refine ⟨t', lists', e, k.count, k.cursor, fun count => ⟨W.dealloc count, ?_⟩, hinfos, removes⟩
  intro r placed b' c hc
  obtain ⟨hne, hc⟩ := (removes c b').mp hc
  rw [keyAt, hinfos, update_of_ne hne]
  exact placed b' c hc

lemma Wheel.keyAt_alloc (W : Wheel t lists free) (x : ExpireNode) :
    keyAt (t.nodes.alloc x).1 t.nodes.next = x.key ∧
      ∀ b, ∀ c ∈ lists b, keyAt (t.nodes.alloc x).1 c = keyAt t.nodes c := by
  have hinfos : infos (t.nodes.alloc x).1 =
      update (infos t.nodes) t.nodes.next (some (x.key, x.metric)) := view_alloc _ _ _
  refine ⟨by rw [keyAt, hinfos, update_self]; rfl, fun b c hc => ?_⟩
  rw [keyAt, hinfos, update_of_ne]
  · rfl
  · rintro rfl
    have := (W.live _).mpr (.inr ⟨b, hc⟩)
    rw [infos, view_next] at this
    cases this

lemma Timed.arm (T : Timed t lists) (wall key : Int) (m : Ptr) (count : Int) :
    ∃ t' lists', expireSchedule wall
        { t with nodes := (t.nodes.alloc ⟨⟨none, none⟩, key, m, .due⟩).1, count := count }
        t.nodes.next = some t' ∧ Timed t' lists' ∧
      infos t'.nodes = update (infos t.nodes) t.nodes.next (some (key, m)) ∧
      t'.count = count ∧ t'.cursor = t.cursor ∧
      Adds lists lists' t.nodes.next (scheduleBucket (expireBase t wall) key) := by
  have W := T.wheel.alloc ⟨⟨none, none⟩, key, m, .due⟩ count
  obtain ⟨hkey, hold⟩ := T.wheel.keyAt_alloc ⟨⟨none, none⟩, key, m, .due⟩
  obtain ⟨t', lists', e, W', adds, k, -⟩ := expireSchedule_spec W wall
  have hcur : t'.cursor = t.cursor := k.cursor
  rw [hkey] at adds
  refine ⟨t', lists', e, ⟨W', fun hpos b c hc => ?_⟩, k.infos.trans (view_alloc _ _ _),
    k.count, hcur, adds⟩
  rw [hcur] at hpos ⊢
  rw [k.key c]
  rcases (adds c b).mp hc with ⟨rfl, rfl⟩ | hc
  · rw [hkey, expireBase, if_pos hpos]
    exact placed_scheduleBucket hpos
  · rw [hold b c hc]
    exact T.placed hpos b c hc

end Wheel

/-! ## The store -/

/-- What a namespace keeps: the sort plan, the metric tree with its heap and its
cache of words, the expire tree, and the cap on the number of series. -/
structure Store where
  plan : SortPlan
  nodes : Nodes
  root : Ptr
  count : Int
  words : WordCache
  expire : ExpireTree
  maxSeries : Nat
  seriesDropped : Nat

def Store.init (maxSeries : Nat) : Store where
  plan := .init
  nodes := Heap.empty
  root := none
  count := 0
  words := ∅
  expire := .init
  maxSeries := maxSeries
  seriesDropped := 0

/-- Write `metric->expire_node`. -/
def setExpireNode (h : Nodes) (m : Addr) (n : Ptr) : Option Nodes :=
  h.modify (some m) fun node => { node with expireNode := n }

/-- `expire_forget_locked` -/
def expireForget (s : Store) (m : Addr) : Option Store := do
  let node ← s.nodes.get m
  match node.expireNode with
  | none => some s
  | some n => do
    let t ← expireUnlink s.expire n
    let nodes ← setExpireNode s.nodes m none
    let count := if 0 < t.count then t.count - 1 else t.count
    return { s with nodes := nodes, expire := { t with nodes := t.nodes.free n, count := count } }

/-- `expire_arm_locked` -/
def expireArm (wall : Int) (s : Store) (key : Int) (m : Addr) : Option Store := do
  let s ← expireForget s m
  let (entries, n) := s.expire.nodes.alloc ⟨⟨none, none⟩, key, some m, .due⟩
  let nodes ← setExpireNode s.nodes m (some n)
  let t ← expireSchedule wall
    { s.expire with nodes := entries, count := s.expire.count + 1 } n
  return { s with nodes := nodes, expire := t }

/-! ## Ownership -/

/-- The metrics of `A` and the expire nodes own each other. -/
structure Owned (pay : Addr → Option (Series × Ptr)) (inf : Addr → Option (Int × Ptr))
    (A : Addr → Prop) : Prop where
  owns : ∀ m, A m → ∃ ser n k, pay m = some (ser, some n) ∧ inf n = some (k, some m)
  owned : ∀ n k p, inf n = some (k, p) → ∃ m ser, A m ∧ p = some m ∧ pay m = some (ser, some n)

/-- A stored series with the key of its expire node. -/
structure Record where
  series : Series
  key : Int
deriving DecidableEq

def recordOf (pay : Addr → Option (Series × Ptr)) (inf : Addr → Option (Int × Ptr)) (m : Addr) :
    Option Record := do
  let p ← pay m
  let n ← p.2
  let i ← inf n
  return ⟨p.1, i.1⟩

variable {ser : Series}

lemma recordOf_eq {pay : Addr → Option (Series × Ptr)} {inf : Addr → Option (Int × Ptr)}
    {m n : Addr} {k : Int} {p : Ptr} (hm : pay m = some (ser, some n))
    (hn : inf n = some (k, p)) : recordOf pay inf m = some ⟨ser, k⟩ := by
  simp [recordOf, hm, hn]

section Owned

variable {pay pay' : Addr → Option (Series × Ptr)} {inf : Addr → Option (Int × Ptr)}
  {A : Addr → Prop} {m n : Addr} {ser : Series} {k : Int}

variable (O : Owned pay inf A)
include O

lemma Owned.inj {m' : Addr} {ser' : Series} (hm : A m) (hm' : A m')
    (h : pay m = some (ser, some n)) (h' : pay m' = some (ser', some n)) : m = m' := by
  obtain ⟨_, n1, k1, e1, i1⟩ := O.owns m hm
  obtain ⟨_, n2, k2, e2, i2⟩ := O.owns m' hm'
  rw [h] at e1
  rw [h'] at e2
  cases e1
  cases e2
  rw [i1] at i2
  cases i2
  rfl

/-- A metric and its expire node part. -/
lemma Owned.forget (hm : A m) (h : pay m = some (ser, some n)) :
    Owned (update pay m (some (ser, none))) (update inf n none) (fun a => A a ∧ a ≠ m) where
  owns a ha := by
    obtain ⟨ser', n', k', e, i⟩ := O.owns a ha.1
    have hn : n' ≠ n := by
      rintro rfl
      exact ha.2 (O.inj ha.1 hm e h)
    exact ⟨ser', n', k', by rw [update_of_ne ha.2, e], by rw [update_of_ne hn, i]⟩
  owned n' k' p hn' := by
    have hne : n' ≠ n := by
      rintro rfl
      rw [update_self] at hn'
      cases hn'
    rw [update_of_ne hne] at hn'
    obtain ⟨a, ser', ha, rfl, e⟩ := O.owned n' k' p hn'
    have ham : a ≠ m := by
      rintro rfl
      rw [h] at e
      cases e
      exact hne rfl
    exact ⟨a, ser', ⟨ha, ham⟩, rfl, by rw [update_of_ne ham, e]⟩

/-- A metric gets a new expire node. -/
lemma Owned.arm (hm : ¬A m) (hn : inf n = none) :
    Owned (update pay m (some (ser, some n))) (update inf n (some (k, some m)))
      (fun a => A a ∨ a = m) where
  owns a ha := by
    by_cases e : a = m
    · subst e
      exact ⟨ser, n, k, update_self .., update_self ..⟩
    · obtain ⟨ser', n', k', h, i⟩ := O.owns a (ha.resolve_right e)
      have hne : n' ≠ n := by
        rintro rfl
        rw [hn] at i
        cases i
      exact ⟨ser', n', k', by rw [update_of_ne e, h], by rw [update_of_ne hne, i]⟩
  owned n' k' p hn' := by
    by_cases e : n' = n
    · subst e
      rw [update_self] at hn'
      cases hn'
      exact ⟨m, ser, .inr rfl, rfl, update_self ..⟩
    · rw [update_of_ne e] at hn'
      obtain ⟨a, ser', ha, rfl, h⟩ := O.owned n' k' p hn'
      have ham : a ≠ m := by
        rintro rfl
        exact hm ha
      exact ⟨a, ser', .inl ha, rfl, by rw [update_of_ne ham, h]⟩

/-- Only series changed, or metrics outside of `A`. -/
lemma Owned.congr
    (h : ∀ a, A a → (pay' a).map Prod.snd = (pay a).map Prod.snd) : Owned pay' inf A := by
  have move : ∀ a, A a → ∀ n ser, pay a = some (ser, some n) → ∃ ser', pay' a = some (ser', some n) := by
    intro a ha n ser e
    have := h a ha
    rw [e] at this
    obtain ⟨⟨ser', p⟩, e', hp⟩ := map_eq_some_iff.mp this
    cases hp
    exact ⟨ser', e'⟩
  constructor
  · intro a ha
    obtain ⟨ser, n, k, e, i⟩ := O.owns a ha
    obtain ⟨ser', e'⟩ := move a ha n ser e
    exact ⟨ser', n, k, e', i⟩
  · intro n k p i
    obtain ⟨a, ser, ha, rfl, e⟩ := O.owned n k p i
    obtain ⟨ser', e'⟩ := move a ha n ser e
    exact ⟨a, ser', ha, rfl, e'⟩

/-- A record does not change with another metric and a node that is not its own. -/
lemma Owned.record_update {a : Addr} (ha : A a) (hne : a ≠ m)
    (hn : ∀ {ser k}, pay a = some (ser, some n) → inf n ≠ some (k, some a)) (v w) :
    recordOf (update pay m v) (update inf n w) a = recordOf pay inf a := by
  obtain ⟨ser, n', k, e, i⟩ := O.owns a ha
  have hn' : n' ≠ n := by
    rintro rfl
    exact hn e i
  rw [recordOf_eq e i, recordOf_eq (by rw [update_of_ne hne, e])
    (by rw [update_of_ne hn', i])]

end Owned

/-! ## The two operations -/

def recordAt (s : Store) (m : Addr) : Option Record :=
  recordOf (payload s.nodes) (infos s.expire.nodes) m

def seriesAt (h : Nodes) (m : Addr) : Option Series := (payload h m).map Prod.fst

def entryOf (h : Nodes) (m : Addr) : Ptr := (payload h m).bind Prod.snd

/-- The wheel is in order, and the metrics of `A` and the expire nodes own each
other. -/
structure Guarded (s : Store) (lists : Buckets) (A : Addr → Prop) : Prop where
  timed : Timed s.expire lists
  owned : Owned (payload s.nodes) (infos s.expire.nodes) A

/-- Nothing changed but expire nodes and who has them. -/
structure SameTree (s s' : Store) : Prop where
  eq : s' = { s with nodes := s'.nodes, expire := s'.expire }
  links : links s'.nodes = links s.nodes
  next : s'.nodes.next = s.nodes.next
  series : ∀ a, seriesAt s'.nodes a = seriesAt s.nodes a

lemma SameTree.trans {s s1 s2 : Store} (h : SameTree s s1) (h' : SameTree s1 s2) :
    SameTree s s2 := by
  refine ⟨?_, h'.links.trans h.links, h'.next.trans h.next, fun a => (h'.series a).trans (h.series a)⟩
  rw [h'.eq, h.eq]

lemma setExpireNode_eq {h : Nodes} {m : Addr} {p : Ptr}
    (hm : payload h m = some (ser, p)) (n : Ptr) :
    ∃ h', setExpireNode h m n = some h' ∧ links h' = links h ∧
      payload h' = update (payload h) m (some (ser, n)) ∧ h'.next = h.next := by
  obtain ⟨node, hn, e⟩ := view_eq_some.mp hm
  cases e
  exact ⟨_, modify_some hn _, view_update_same _ _ fun _ => rfl, view_update hn rfl,
    rfl⟩

section Store

variable {s : Store} {lists : Buckets} {A : Addr → Prop} {m : Addr}

lemma sameTree_setExpireNode {nodes : Nodes} {t : ExpireTree} {p n : Ptr}
    (hm : payload s.nodes m = some (ser, p)) (hl : links nodes = links s.nodes)
    (hp : payload nodes = update (payload s.nodes) m (some (ser, n)))
    (hn : nodes.next = s.nodes.next) : SameTree s { s with nodes := nodes, expire := t } := by
  refine ⟨rfl, hl, hn, fun a => ?_⟩
  show (payload nodes a).map _ = (payload s.nodes a).map _
  rw [hp]
  by_cases e : a = m
  · subst e
    rw [update_self, hm]
    rfl
  · rw [update_of_ne e]

/-- `expire_forget_locked` -/
lemma expireForget_spec (G : Guarded s lists A) (hm : A m) :
    ∃ s' lists' n, expireForget s m = some s' ∧ SameTree s s' ∧
      Guarded s' lists' (fun a => A a ∧ a ≠ m) ∧ (∀ a, A a → a ≠ m → recordAt s' a = recordAt s a) ∧
      s'.expire.count = (if 0 < s.expire.count then s.expire.count - 1 else s.expire.count) ∧
      s'.expire.cursor = s.expire.cursor ∧ entryOf s.nodes m = some n ∧ entryOf s'.nodes m = none ∧
      (∀ a, a ≠ m → entryOf s'.nodes a = entryOf s.nodes a) ∧ Removes lists lists' n := by
  obtain ⟨ser, n, k, hpay, hinf⟩ := G.owned.owns m hm
  obtain ⟨node, hget, e⟩ := view_eq_some.mp hpay
  have hnode : node.expireNode = some n := congrArg Prod.snd e
  obtain ⟨b, hb⟩ := G.timed.wheel.mem_of_infos hinf
  obtain ⟨t', lists', e1, hcount, hcursor, W', hinfos, removes⟩ := G.timed.wheel.forget hb
  obtain ⟨nodes, e2, hl, hp, hn⟩ := setExpireNode_eq hpay none
  obtain ⟨W', placed⟩ := W' (if 0 < t'.count then t'.count - 1 else t'.count)
  have T' : Timed _ lists' := ⟨W', fun h => hcursor ▸ placed _ (G.timed.placed (hcursor ▸ h))⟩
  refine ⟨_, lists', n, ?_, sameTree_setExpireNode hpay hl hp hn, ⟨T', ?_⟩, fun a ha hne => ?_, ?_,
    hcursor, ?_, ?_, fun a hne => ?_, removes⟩
  · simp [expireForget, hget, hnode, e1, e2]
  · rw [hp, hinfos]
    exact G.owned.forget hm hpay
  · show recordOf (payload nodes) (infos (t'.nodes.free n)) a = _
    rw [hp, hinfos, G.owned.record_update ha hne fun e _ => hne (G.owned.inj ha hm e hpay)]
    rfl
  · simp only [hcount]
  · simp [entryOf, hpay]
  · simp [entryOf, hp]
  · simp only [entryOf, hp, update_of_ne hne]

/-- `expire_forget_locked` of a metric that has no expire node. -/
lemma expireForget_none (hm : payload s.nodes m = some (ser, none)) :
    expireForget s m = some s := by
  obtain ⟨node, hget, e⟩ := view_eq_some.mp hm
  have hnode : node.expireNode = none := congrArg Prod.snd e
  simp [expireForget, hget, hnode]

/-- `expire_arm_locked` of a metric without expire node. -/
lemma expireArm_fresh (G : Guarded s lists A) (hm : ¬A m)
    (hpay : payload s.nodes m = some (ser, none)) (wall key : Int) :
    ∃ s' lists' n, expireArm wall s key m = some s' ∧ SameTree s s' ∧
      Guarded s' lists' (fun a => A a ∨ a = m) ∧
      (∀ a, A a → recordAt s' a = recordAt s a) ∧ recordAt s' m = some ⟨ser, key⟩ ∧
      s'.expire.count = s.expire.count + 1 ∧ s'.expire.cursor = s.expire.cursor ∧
      (∀ b, n ∉ lists b) ∧ Adds lists lists' n (scheduleBucket (expireBase s.expire wall) key) := by
  obtain ⟨t', lists', e1, T', hinfos, hcount, hcursor, adds⟩ :=
    G.timed.arm wall key (some m) (s.expire.count + 1)
  obtain ⟨nodes, e2, hl, hp, hn⟩ := setExpireNode_eq hpay (some s.expire.nodes.next)
  have hnew : infos s.expire.nodes s.expire.nodes.next = none := view_next _ _
  refine ⟨{ s with nodes := nodes, expire := t' }, lists', s.expire.nodes.next, ?_,
    sameTree_setExpireNode hpay hl hp hn, ⟨T', ?_⟩, fun a ha => ?_, ?_, hcount, hcursor, ?_, adds⟩
  · simp [expireArm, expireForget_none hpay, e1, e2]
  · rw [hp, hinfos]
    exact G.owned.arm hm hnew
  · show recordOf (payload nodes) (infos t'.nodes) a = _
    have hne : a ≠ m := by
      rintro rfl
      exact hm ha
    rw [hp, hinfos, G.owned.record_update ha hne fun _ => by simp [hnew]]
    rfl
  · show recordOf (payload nodes) (infos t'.nodes) m = _
    rw [hp, hinfos]
    exact recordOf_eq (update_self ..) (update_self ..)
  · intro b hb
    have := (G.timed.wheel.live s.expire.nodes.next).mpr (.inr ⟨b, hb⟩)
    rw [hnew] at this
    cases this

/-- `expire_arm_locked` of a metric that has an expire node. -/
lemma expireArm_again (G : Guarded s lists A) (hm : A m) (wall key : Int)
    (hpos : 0 < s.expire.count) :
    ∃ s' lists' n n', expireArm wall s key m = some s' ∧ SameTree s s' ∧ Guarded s' lists' A ∧
      (∀ a, A a → a ≠ m → recordAt s' a = recordAt s a) ∧
      (∃ ser, seriesAt s.nodes m = some ser ∧ recordAt s' m = some ⟨ser, key⟩) ∧
      s'.expire.count = s.expire.count ∧ s'.expire.cursor = s.expire.cursor ∧
      entryOf s.nodes m = some n ∧
      ∀ c b, c ∈ lists' b ↔ (c = n' ∧ b = scheduleBucket (expireBase s.expire wall) key) ∨
        (c ≠ n ∧ c ∈ lists b) := by
  obtain ⟨s1, lists1, n, e1, same1, G1, rec1, count1, cursor1, entry, entry1, -, removes⟩ :=
    expireForget_spec G hm
  obtain ⟨ser, _, _, hpay, -⟩ := G.owned.owns m hm
  have hser : seriesAt s.nodes m = some ser := by rw [seriesAt, hpay]; rfl
  have hpay1 : payload s1.nodes m = some (ser, none) := by
    have h1 := same1.series m
    rw [hser] at h1
    obtain ⟨⟨ser', p⟩, h2, rfl⟩ := map_eq_some_iff.mp h1
    rw [entryOf, h2] at entry1
    rw [h2, show p = none from entry1]
  obtain ⟨s', lists', n', e', same', G', rec', recm, count', cursor', -, adds⟩ :=
    expireArm_fresh G1 (m := m) (fun h => h.2 rfl) hpay1 wall key
  refine ⟨s', lists', n, n', ?_, same1.trans same', ⟨G'.timed, ?_⟩, fun a ha hne => ?_,
    ⟨ser, hser, recm⟩, ?_, cursor'.trans cursor1, entry, fun c b => ?_⟩
  · rw [expireArm, expireForget_none hpay1] at e'
    rw [expireArm, e1]
    exact e'
  · have hA : (fun a => (A a ∧ a ≠ m) ∨ a = m) = A := by
      funext a
      by_cases e : a = m
      · simp [e, hm]
      · simp [e]
    rw [← hA]
    exact G'.owned
  · rw [rec' a ⟨ha, hne⟩, rec1 a ha hne]
  · omega
  · rw [adds c b, removes c b, expireBase, cursor1]
    rfl

end Store

end Alligator
