import Alligator.Lib.DList
import Mathlib.Data.List.TakeWhile

/-!
# The expiry wheel

The expire tree of a namespace is a hierarchical timing wheel: level `0` has one
slot per second, levels `1` to `3` have slots of growing length, `due` holds what
is due and `far` what lies beyond level `3`, sorted by key.  Every list is an
intrusive doubly linked list of expire nodes.

A `Bucket` is a level with a slot of it, which is what the `level` and `slot`
fields of a node say; the heads of the lists are a function of the bucket.
`Wheel t lists free` is the representation invariant.  `lists` are the contents
of the buckets, and `free` are the nodes that an operation has taken out of
their lists and not put back yet.
-/

namespace Alligator

open Memory DList List Function Option Heap

/-- A list of the wheel: `level` and `slot` of an expire node. -/
inductive Bucket where
  | due
  | lv0 (slot : Fin 256)
  | lv1 (slot : Fin 64)
  | lv2 (slot : Fin 64)
  | lv3 (slot : Fin 64)
  | far
deriving DecidableEq

abbrev Buckets := Bucket → List Addr

structure ExpireNode extends DLink where
  key : Int
  metric : Ptr
  bucket : Bucket
deriving DecidableEq

abbrev Entries := Heap ExpireNode

variable {h : Entries} {b : Bucket} {l m : List Addr}

/-- `expire_tree`, with the heap of its nodes. -/
structure ExpireTree where
  nodes : Entries
  heads : Bucket → Ptr
  farTail : Ptr
  cursor : Int
  count : Int

def ExpireTree.init : ExpireTree := ⟨Heap.empty, fun _ => none, none, 0, 0⟩

/-- `EXPIRE_SPAN0` to `EXPIRE_SPAN3` -/
def span0 : Int := 256

def span1 : Int := span0 * 64

def span2 : Int := span1 * 64

def span3 : Int := span2 * 64

/-- `key & (EXPIRE_LV0_SIZE - 1)` -/
def slot0 (key : Int) : Fin 256 := Fin.ofNat 256 (key % 256).toNat

/-- `(key / span) & (EXPIRE_LVN_SIZE - 1)` -/
def slotOf (span key : Int) : Fin 64 := Fin.ofNat 64 (key.tdiv span % 64).toNat

/-! ## List operations -/

def setLink (h : Entries) (n : Addr) (next prev : Ptr) : Option Entries :=
  h.modify (some n) fun e => { e with next := next, prev := prev }

/-- `if (p) p->next = n` -/
def writeNext (h : Entries) (p n : Ptr) : Option Entries :=
  match p with
  | none => some h
  | some _ => h.modify p fun e => { e with next := n }

/-- `if (p) p->prev = n` -/
def writePrev (h : Entries) (p n : Ptr) : Option Entries :=
  match p with
  | none => some h
  | some _ => h.modify p fun e => { e with prev := n }

/-- `expire_push` on the nodes; the new head is `n`. -/
def pushFront (h : Entries) (head : Ptr) (n : Addr) : Option Entries := do
  let h ← setLink h n head none
  writePrev h head (some n)

/-- Write `level` and `slot` of a node. -/
def setBucket (h : Entries) (n : Addr) (b : Bucket) : Option Entries :=
  h.modify (some n) fun e => { e with bucket := b }

/-- Set `level` and `slot` of a node and push it onto that list. -/
def pushInto (t : ExpireTree) (b : Bucket) (n : Addr) : Option ExpireTree := do
  let nodes ← setBucket t.nodes n b
  let nodes ← pushFront nodes (t.heads b) n
  return { t with nodes := nodes, heads := update t.heads b (some n) }

/-- `expire_unlink`: nothing happens to a node that is in no list. -/
def expireUnlink (t : ExpireTree) (n : Addr) : Option ExpireTree := do
  let e ← t.nodes.get n
  if e.prev = none ∧ t.heads e.bucket ≠ some n then
    return t
  else
    let nodes ← writeNext t.nodes e.prev e.next
    let heads := if e.prev = none then update t.heads e.bucket e.next else t.heads
    let nodes ← writePrev nodes e.next e.prev
    let farTail := if e.bucket = .far ∧ t.farTail = some n then e.prev else t.farTail
    let nodes ← setLink nodes n none none
    return { t with nodes := nodes, heads := heads, farTail := farTail }

/-- The walk of `expire_insert_far` across the earlier keys. -/
def farPlace (h : Entries) (key : Int) : Nat → Ptr → Ptr → Option (Ptr × Ptr)
  | _, prev, none => some (prev, none)
  | 0, _, some _ => none
  | fuel + 1, prev, some cur => do
    let e ← h.get cur
    if e.key ≤ key then farPlace h key fuel (some cur) e.next else some (prev, some cur)

/-- Put a node between two neighbours of the `far` list. -/
def farLink (t : ExpireTree) (n : Addr) (prev cur : Ptr) : Option ExpireTree := do
  let nodes ← setLink t.nodes n cur prev
  let nodes ← writePrev nodes cur (some n)
  let farTail := if cur = none then some n else t.farTail
  let nodes ← writeNext nodes prev (some n)
  let heads := if prev = none then update t.heads .far (some n) else t.heads
  return { t with nodes := nodes, heads := heads, farTail := farTail }

/-- `expire_insert_far`: at the end if the key is not before the last one, else
where the walk from the head stops. -/
def expireInsertFar (t : ExpireTree) (n : Addr) : Option ExpireTree := do
  let e ← t.nodes.get n
  match t.farTail with
  | none => farLink t n none none
  | some tail => do
    let last ← t.nodes.get tail
    if last.key ≤ e.key then
      farLink t n (some tail) none
    else do
      let (prev, cur) ← farPlace t.nodes e.key t.nodes.next none (t.heads .far)
      farLink t n prev cur

/-- `expire_base`: the cursor, or the wall clock as long as it is not set. -/
def expireBase (t : ExpireTree) (wall : Int) : Int := if 0 < t.cursor then t.cursor else wall

/-- The list that `expire_schedule` chooses for a key. -/
def scheduleBucket (base key : Int) : Bucket :=
  let delta := key - base
  if delta ≤ 0 then .due
  else if delta < span0 then .lv0 (slot0 key)
  else if delta < span1 then .lv1 (slotOf span0 key)
  else if delta < span2 then .lv2 (slotOf span1 key)
  else if delta < span3 then .lv3 (slotOf span2 key)
  else .far

def expireSchedule (wall : Int) (t : ExpireTree) (n : Addr) : Option ExpireTree := do
  let e ← t.nodes.get n
  match scheduleBucket (expireBase t wall) e.key with
  | .far => do
    let nodes ← setBucket t.nodes n .far
    expireInsertFar { t with nodes := nodes } n
  | b => pushInto t b n

/-! ## Views of the nodes -/

def dlinks (h : Entries) : DLinks := h.view ExpireNode.toDLink

def homes (h : Entries) : Addr → Option Bucket := h.view ExpireNode.bucket

/-- Key and metric, which the wheel does not change. -/
def infos (h : Entries) : Addr → Option (Int × Ptr) := h.view fun e => (e.key, e.metric)

def keyAt (h : Entries) (a : Addr) : Int := ((infos h a).map Prod.fst).getD 0

variable {a : Addr}

lemma keyAt_eq {e : ExpireNode} (he : h.get a = some e) : keyAt h a = e.key := by
  rw [keyAt, infos, view_of_get _ he]
  rfl

/-- Only neighbours changed. -/
structure Relinked (h h' : Entries) (v : DLinks) : Prop where
  links : dlinks h' = v
  homes : Alligator.homes h' = Alligator.homes h
  infos : Alligator.infos h' = Alligator.infos h
  next : h'.next = h.next

lemma Relinked.trans {h1 h2 : Entries} {v1 v2 : DLinks} (r : Relinked h h1 v1)
    (r' : Relinked h1 h2 v2) : Relinked h h2 v2 :=
  ⟨r'.links, r'.homes.trans r.homes, r'.infos.trans r.infos, r'.next.trans r.next⟩

variable {d : DLink} {p : Ptr}

lemma modify_dlink (hd : dlinks h a = some d) (f : DLink → DLink) :
    ∃ h', (h.modify (some a) fun e => { e with toDLink := f e.toDLink }) = some h' ∧
      Relinked h h' (update (dlinks h) a (some (f d))) := by
  obtain ⟨e, he, rfl⟩ := view_eq_some.mp hd
  exact ⟨_, modify_some he _, view_update he rfl, view_update_same _ _ fun _ => rfl,
    view_update_same _ _ fun _ => rfl, rfl⟩

lemma setLink_eq (hd : dlinks h a = some d) (next prev : Ptr) :
    ∃ h', setLink h a next prev = some h' ∧
      Relinked h h' (update (dlinks h) a (some ⟨next, prev⟩)) :=
  modify_dlink hd fun _ => ⟨next, prev⟩

section

variable (hp : ∀ a, p = some a → (dlinks h a).isSome)
include hp

lemma writeNext_eq (n : Ptr) :
    ∃ h', writeNext h p n = some h' ∧ Relinked h h' (putNext (dlinks h) p n) := by
  cases p with
  | none => exact ⟨h, rfl, rfl, rfl, rfl, rfl⟩
  | some a =>
    obtain ⟨d, hd⟩ := isSome_iff_exists.mp (hp a rfl)
    obtain ⟨h', e, r⟩ := modify_dlink hd fun l => { l with next := n }
    refine ⟨h', e, ?_⟩
    rw [putNext, hd]
    exact r

lemma writePrev_eq (n : Ptr) :
    ∃ h', writePrev h p n = some h' ∧ Relinked h h' (putPrev (dlinks h) p n) := by
  cases p with
  | none => exact ⟨h, rfl, rfl, rfl, rfl, rfl⟩
  | some a =>
    obtain ⟨d, hd⟩ := isSome_iff_exists.mp (hp a rfl)
    obtain ⟨h', e, r⟩ := modify_dlink hd fun l => { l with prev := n }
    refine ⟨h', e, ?_⟩
    rw [putPrev, hd]
    exact r

end

lemma setBucket_eq (ha : (dlinks h a).isSome) (b : Bucket) :
    ∃ h', setBucket h a b = some h' ∧ dlinks h' = dlinks h ∧
      homes h' = update (homes h) a (some b) ∧ infos h' = infos h ∧ h'.next = h.next := by
  obtain ⟨d, hd⟩ := isSome_iff_exists.mp ha
  obtain ⟨e, he, -⟩ := view_eq_some.mp hd
  exact ⟨_, modify_some he _, view_update_same _ _ fun _ => rfl, view_update he rfl,
    view_update_same _ _ fun _ => rfl, rfl⟩

/-! ## The representation invariant -/

/-- Keys, metrics, cursor and count are the same. -/
structure Kept (t t' : ExpireTree) : Prop where
  infos : Alligator.infos t'.nodes = Alligator.infos t.nodes
  next : t'.nodes.next = t.nodes.next
  cursor : t'.cursor = t.cursor
  count : t'.count = t.count

lemma Kept.refl (t : ExpireTree) : Kept t t := ⟨rfl, rfl, rfl, rfl⟩

lemma Kept.trans {t t1 t2 : ExpireTree} (k : Kept t t1) (k' : Kept t1 t2) : Kept t t2 :=
  ⟨k'.infos.trans k.infos, k'.next.trans k.next, k'.cursor.trans k.cursor, k'.count.trans k.count⟩

lemma Kept.key {t t' : ExpireTree} (k : Kept t t') (a : Addr) :
    keyAt t'.nodes a = keyAt t.nodes a := by
  rw [keyAt, keyAt, k.infos]

/-- The buckets hold `lists`; the nodes of `free` are in none of them. -/
structure Wheel (t : ExpireTree) (lists : Buckets) (free : List Addr) : Prop where
  family : Family (dlinks t.nodes) (homes t.nodes) t.heads lists
  tail : t.farTail = (lists .far).getLast?
  sorted : (lists .far).Pairwise fun a b => keyAt t.nodes a ≤ keyAt t.nodes b
  nodup : free.Nodup
  apart : ∀ a ∈ free, ∀ b, a ∉ lists b
  live : ∀ a, (infos t.nodes a).isSome ↔ a ∈ free ∨ ∃ b, a ∈ lists b

/-- `lists'` is `lists` with `a` added to the bucket `b`. -/
def Adds (lists lists' : Buckets) (a : Addr) (b : Bucket) : Prop :=
  ∀ c b', c ∈ lists' b' ↔ (c = a ∧ b' = b) ∨ c ∈ lists b'

/-- `lists'` is `lists` without `a`. -/
def Removes (lists lists' : Buckets) (a : Addr) : Prop :=
  ∀ c b', c ∈ lists' b' ↔ c ≠ a ∧ c ∈ lists b'

section Wheel

variable {t t' : ExpireTree} {lists : Buckets} {free : List Addr} {a : Addr}

lemma Wheel.get (W : Wheel t lists free) (ha : a ∈ free ∨ ∃ b, a ∈ lists b) :
    ∃ e, t.nodes.get a = some e := by
  have := (W.live a).mpr ha
  rw [infos, view, isSome_map] at this
  exact isSome_iff_exists.mp this

lemma Wheel.dlink (W : Wheel t lists free) (ha : a ∈ free ∨ ∃ b, a ∈ lists b) :
    (dlinks t.nodes a).isSome := by
  obtain ⟨e, he⟩ := W.get ha
  rw [dlinks, view_of_get _ he]
  rfl

lemma Wheel.mem_of_infos {x : Int × Ptr} (W : Wheel t lists []) (h : infos t.nodes a = some x) :
    ∃ b, a ∈ lists b :=
  ((W.live a).mp (by rw [h]; rfl)).resolve_left not_mem_nil

lemma length_lt_of_left {α : Type} {l l' : List α} {x : α} (nd : l'.Nodup) (hx : x ∈ l)
    (h : ∀ y ∈ l', y ≠ x ∧ y ∈ l) : l'.length < l.length := by
  have sub : x :: l' ⊆ l := cons_subset.mpr ⟨hx, fun y hy => (h y hy).2⟩
  exact (subperm_of_subset (nodup_cons.mpr ⟨fun hy => (h x hy).1 rfl, nd⟩) sub).length_le

lemma pairwise_insert {α : Type} {R : α → α → Prop} {l r : List α} {x : α}
    (h : (l ++ r).Pairwise R) (hl : ∀ y ∈ l, R y x) (hr : ∀ y ∈ r, R x y) :
    (l ++ x :: r).Pairwise R := by
  obtain ⟨h1, h2, h12⟩ := pairwise_append.mp h
  refine pairwise_append.mpr ⟨h1, pairwise_cons.mpr ⟨hr, h2⟩, fun y hy z hz => ?_⟩
  rcases mem_cons.mp hz with rfl | hz
  · exact hl y hy
  · exact h12 y hy z hz

section

variable (W : Wheel t lists (a :: free))
include W

lemma Wheel.insert (hb : lists b = l ++ m) (k : Kept t t')
    (links : dlinks t'.nodes = linkIn (dlinks t.nodes) a l m)
    (home : homes t'.nodes = update (homes t.nodes) a (some b))
    (heads : t'.heads = update t.heads b (if l = [] then some a else t.heads b))
    (tail : t'.farTail = (update lists b (l ++ a :: m) .far).getLast?)
    (sorted : (update lists b (l ++ a :: m) .far).Pairwise fun c d => keyAt t.nodes c ≤ keyAt t.nodes d) :
    ∃ lists', Wheel t' lists' free ∧ Adds lists lists' a b ∧
      ∀ c ∈ free, dlinks t'.nodes c = dlinks t.nodes c := by
  have hfree : ∀ b', a ∉ lists b' := W.apart a mem_cons_self
  obtain ⟨hna, ndf⟩ := nodup_cons.mp W.nodup
  have F := W.family.insert hb hfree
  rw [← links, ← home, ← heads] at F
  have adds : Adds lists (update lists b (l ++ a :: m)) a b := by
    intro c b'
    by_cases e : b' = b
    · subst e
      rw [update_self, hb, mem_append, mem_cons, mem_append]
      tauto
    · rw [update_of_ne e]
      tauto
  refine ⟨_, ⟨F, tail, ?_, ndf, ?_, ?_⟩, adds, ?_⟩
  · have key : ∀ c, keyAt t'.nodes c = keyAt t.nodes c := k.key
    simpa only [key] using sorted
  · intro c hc b' hmem
    rcases (adds c b').mp hmem with ⟨rfl, -⟩ | h
    · exact hna hc
    · exact W.apart c (mem_cons_of_mem _ hc) b' h
  · intro c
    rw [k.infos, W.live c, mem_cons]
    constructor
    · rintro ((rfl | h) | ⟨b', h⟩)
      · exact .inr ⟨b, (adds c b).mpr (.inl ⟨rfl, rfl⟩)⟩
      · exact .inl h
      · exact .inr ⟨b', (adds c b').mpr (.inr h)⟩
    · rintro (h | ⟨b', h⟩)
      · exact .inl (.inr h)
      · rcases (adds c b').mp h with ⟨rfl, -⟩ | h
        · exact .inl (.inl rfl)
        · exact .inr ⟨b', h⟩
  · intro c hc
    rw [links, linkIn_of_not_mem]
    · rintro rfl
      exact hna hc
    · exact fun h => W.apart c (mem_cons_of_mem _ hc) b (hb ▸ mem_append_left _ h)
    · exact fun h => W.apart c (mem_cons_of_mem _ hc) b (hb ▸ mem_append_right _ h)

omit W in
lemma Wheel.head_mem (W : Wheel t lists free) (b : Bucket) :
    ∀ c, t.heads b = some c → c ∈ lists b := by
  intro c hc
  have := (W.family.seg b).head
  rw [this] at hc
  exact mem_of_mem_head? hc

omit W in
/-- `expire_push` on a list of nodes. -/
lemma pushFront_eq (ha : (dlinks h a).isSome) (hm : Seg (dlinks h) none p m none)
    (hna : a ∉ m) : ∃ h', pushFront h p a = some h' ∧ Relinked h h' (linkIn (dlinks h) a [] m) := by
  obtain ⟨d, hd⟩ := isSome_iff_exists.mp ha
  obtain ⟨h1, e1, r1⟩ := setLink_eq hd p none
  have hhead : ∀ c, p = some c → (dlinks h1 c).isSome := by
    intro c hc
    have hmem : c ∈ m := mem_of_mem_head? (hm.head ▸ hc)
    have hca : c ≠ a := by
      rintro rfl
      exact hna hmem
    obtain ⟨l, m', rfl⟩ := append_of_mem hmem
    rw [r1.links, update_of_ne hca, hm.at]
    rfl
  obtain ⟨h2, e2, r2⟩ := writePrev_eq hhead (some a)
  refine ⟨h2, ?_, ?_⟩
  · simp [pushFront, e1, e2]
  · have r := r1.trans r2
    rw [r1.links, hm.head] at r
    exact r

/-- `level` and `slot` set and pushed: the node is in that list. -/
lemma pushInto_spec (hb : b ≠ .far) :
    ∃ t' lists', pushInto t b a = some t' ∧ Wheel t' lists' free ∧ Adds lists lists' a b ∧
      Kept t t' ∧ ∀ c ∈ free, dlinks t'.nodes c = dlinks t.nodes c := by
  have ha : (dlinks t.nodes a).isSome := W.dlink (.inl mem_cons_self)
  obtain ⟨n1, e1, l1, hm1, i1, x1⟩ := setBucket_eq ha b
  obtain ⟨n2, e2, r2⟩ := pushFront_eq (l1 ▸ ha) (l1 ▸ W.family.seg b)
    (W.apart a mem_cons_self b)
  have k : Kept t { t with nodes := n2, heads := Function.update t.heads b (some a) } :=
    ⟨r2.infos.trans i1, r2.next.trans x1, rfl, rfl⟩
  obtain ⟨lists', W', adds, frame⟩ := W.insert (l := []) (m := lists b) rfl k (l1 ▸ r2.links)
    (by rw [← hm1, ← r2.homes]) (by rw [if_pos rfl])
    (by rw [update_of_ne hb.symm, W.tail]) (by rw [update_of_ne hb.symm]; exact W.sorted)
  refine ⟨_, lists', ?_, W', adds, k, frame⟩
  simp [pushInto, e1, e2]

omit W in
lemma lastOf_eq_none : lastOf none l = none ↔ l = [] := by
  rw [lastOf_none_eq, List.getLast?_eq_none_iff]

/-- A node put between two neighbours of `far`, in its place by key. -/
lemma farLink_spec (home : homes t.nodes a = some .far)
    (hb : lists .far = l ++ m) (hl : ∀ c ∈ l, keyAt t.nodes c ≤ keyAt t.nodes a)
    (hm : ∀ c ∈ m, keyAt t.nodes a ≤ keyAt t.nodes c) :
    ∃ t' lists', farLink t a (lastOf none l) m.head? = some t' ∧ Wheel t' lists' free ∧
      Adds lists lists' a .far ∧ Kept t t' ∧ ∀ c ∈ free, dlinks t'.nodes c = dlinks t.nodes c := by
  have inl : ∀ c, lastOf none l = some c → c ∈ lists .far := by
    intro c hc
    rcases lastOf_mem hc with h | ⟨-, h⟩
    · exact hb ▸ mem_append_left _ h
    · cases h
  have inm : ∀ c, m.head? = some c → c ∈ lists .far := fun c hc =>
    hb ▸ mem_append_right _ (mem_of_mem_head? hc)
  have ne : ∀ c ∈ lists .far, c ≠ a := by
    rintro c hc rfl
    exact W.apart c mem_cons_self _ hc
  obtain ⟨d, hd⟩ := isSome_iff_exists.mp (W.dlink (.inl mem_cons_self))
  obtain ⟨n1, e1, r1⟩ := setLink_eq hd m.head? (lastOf none l)
  have live1 : ∀ c ∈ lists .far, (dlinks n1 c).isSome := by
    intro c hc
    rw [r1.links, update_of_ne (ne c hc)]
    exact W.dlink (.inr ⟨_, hc⟩)
  obtain ⟨n2, e2, r2⟩ := writePrev_eq (fun c hc => live1 c (inm c hc)) (some a)
  have live2 : ∀ c, lastOf none l = some c → (dlinks n2 c).isSome := by
    intro c hc
    rw [r2.links, isSome_putPrev]
    exact live1 c (inl c hc)
  obtain ⟨n3, e3, r3⟩ := writeNext_eq live2 (some a)
  have links : dlinks n3 = linkIn (dlinks t.nodes) a l m := by
    rw [r3.links, r2.links, r1.links, putNext_putPrev]
    rfl
  have k : Kept t { t with
      nodes := n3
      heads := if lastOf none l = none then Function.update t.heads .far (some a) else t.heads
      farTail := if m.head? = none then some a else t.farTail } :=
    ⟨r3.infos.trans (r2.infos.trans r1.infos), r3.next.trans (r2.next.trans r1.next), rfl, rfl⟩
  obtain ⟨lists', W', adds, frame⟩ := W.insert hb k links
    (by
      rw [r3.homes, r2.homes, r1.homes]
      exact (Function.update_eq_self_iff.mpr home.symm).symm)
    (by
      by_cases e : l = []
      · rw [if_pos e, if_pos (lastOf_eq_none.mpr e)]
      · rw [if_neg e, if_neg fun h => e (lastOf_eq_none.mp h), Function.update_eq_self])
    (by
      rw [update_self]
      rcases eq_nil_or_concat m with rfl | ⟨m', z, rfl⟩
      · simp
      · simp [W.tail, hb, List.getLast?_cons])
    (by rw [update_self]; exact pairwise_insert (hb ▸ W.sorted) hl hm)
  refine ⟨_, lists', ?_, W', adds, k, frame⟩
  simp [farLink, e1, e2, e3]

omit W in
/-- The walk splits the list before the first later key. -/
lemma farPlace_spec {key : Int} {fuel : Nat} {pr : Ptr}
    (hs : Seg (dlinks h) pr p l none) (hlen : l.length ≤ fuel) :
    farPlace h key fuel pr p = some (lastOf pr (l.takeWhile fun c => keyAt h c ≤ key),
        (l.dropWhile fun c => keyAt h c ≤ key).head?) := by
  induction fuel generalizing pr p l with
  | zero =>
    obtain rfl := length_eq_zero_iff.mp (Nat.le_zero.mp hlen)
    cases hs
    rfl
  | succ fuel ih =>
    cases l with
    | nil =>
      cases hs
      rfl
    | cons c l =>
      obtain ⟨rfl, n, hc, hl⟩ := hs
      obtain ⟨e, he, hlink⟩ := view_eq_some.mp hc
      have hnext : e.next = n := congrArg DLink.next hlink
      have hkey := keyAt_eq he
      have hlen' : l.length ≤ fuel := Nat.le_of_succ_le_succ hlen
      by_cases hk : e.key ≤ key
      · have hk' : decide (keyAt h c ≤ key) = true := by
          rw [hkey]
          exact decide_eq_true hk
        rw [takeWhile_cons, if_pos hk', dropWhile_cons, if_pos hk', lastOf, ← ih hl hlen']
        simp [farPlace, he, if_pos hk, hnext]
      · have hk' : ¬decide (keyAt h c ≤ key) = true := by
          rw [hkey]
          simpa using hk
        rw [takeWhile_cons, if_neg hk', dropWhile_cons, if_neg hk', lastOf]
        simp [farPlace, he, if_neg hk]

omit W in
lemma Wheel.length_le (W : Wheel t lists free) (b : Bucket) : (lists b).length ≤ t.nodes.next := by
  refine length_le_next (W.family.nodup b) fun c hc => ?_
  obtain ⟨e, he⟩ := W.get (.inr ⟨b, hc⟩)
  rw [he]
  rfl

/-- `expire_insert_far` keeps `far` sorted. -/
lemma expireInsertFar_spec (home : homes t.nodes a = some .far) :
    ∃ t' lists', expireInsertFar t a = some t' ∧ Wheel t' lists' free ∧
      Adds lists lists' a .far ∧ Kept t t' ∧ ∀ c ∈ free, dlinks t'.nodes c = dlinks t.nodes c := by
  obtain ⟨e, he⟩ := W.get (.inl mem_cons_self)
  have hkey := keyAt_eq he
  cases htail : t.farTail with
  | none =>
    have hnil : lists .far = [] := by
      rw [← List.getLast?_eq_none_iff, ← W.tail, htail]
    obtain ⟨t', lists', e', rest⟩ := farLink_spec W home (l := []) (m := []) hnil (by simp)
      (by simp)
    refine ⟨t', lists', ?_, rest⟩
    simp only [expireInsertFar, he, htail]
    exact e'
  | some tail =>
    have hlast : (lists .far).getLast? = some tail := W.tail ▸ htail
    have hmem : tail ∈ lists .far := mem_of_getLast? hlast
    obtain ⟨last, hl⟩ := W.get (.inr ⟨_, hmem⟩)
    have hlkey := keyAt_eq hl
    by_cases hle : last.key ≤ e.key
    · -- the last key is the greatest
      have all : ∀ c ∈ lists .far, keyAt t.nodes c ≤ keyAt t.nodes a := by
        intro c hc
        obtain ⟨init, hinit⟩ := List.getLast?_eq_some_iff.mp hlast
        have hs := W.sorted
        rw [hinit] at hs hc
        rcases mem_append.mp hc with h | h
        · have := (pairwise_append.mp hs).2.2 c h tail (mem_singleton.mpr rfl)
          omega
        · rw [mem_singleton.mp h]
          omega
      obtain ⟨t', lists', e', rest⟩ := farLink_spec W home (l := lists .far) (m := [])
        (by simp) all (by simp)
      refine ⟨t', lists', ?_, rest⟩
      rw [lastOf_none_eq, hlast] at e'
      simp only [expireInsertFar, he, htail, hl, if_pos hle, some_bind]
      exact e'
    · obtain ⟨t', lists', e', rest⟩ := farLink_spec W home
        (l := (lists .far).takeWhile fun c => keyAt t.nodes c ≤ e.key)
        (m := (lists .far).dropWhile fun c => keyAt t.nodes c ≤ e.key)
        takeWhile_append_dropWhile.symm
        (fun c hc => by
          have := mem_takeWhile_imp hc
          rw [hkey]
          exact of_decide_eq_true this)
        (fun c hc => by
          -- the first key that was not passed is later, and the rest are not before it
          have hs : ((lists .far).dropWhile fun c => keyAt t.nodes c ≤ e.key).Pairwise
              fun a b => keyAt t.nodes a ≤ keyAt t.nodes b :=
            W.sorted.sublist (dropWhile_sublist _)
          have hhead := List.head?_dropWhile_not (fun c => decide (keyAt t.nodes c ≤ e.key))
            (lists .far)
          cases hd : (lists .far).dropWhile fun c => keyAt t.nodes c ≤ e.key with
          | nil =>
            rw [hd] at hc
            cases hc
          | cons z zs =>
            rw [hd] at hc hs hhead
            have hz : e.key < keyAt t.nodes z := by
              simpa using hhead
            rcases mem_cons.mp hc with rfl | h
            · omega
            · have := (pairwise_cons.mp hs).1 c h
              omega)
      refine ⟨t', lists', ?_, rest⟩
      simp only [expireInsertFar, he, htail, hl, if_neg hle, bind_eq_bind,
        bind_some, farPlace_spec (W.family.seg .far) (W.length_le .far)]
      exact e'

/-- `expire_schedule` puts a free node into the list that its key belongs to. -/
lemma expireSchedule_spec (wall : Int) :
    ∃ t' lists', expireSchedule wall t a = some t' ∧ Wheel t' lists' free ∧
      Adds lists lists' a (scheduleBucket (expireBase t wall) (keyAt t.nodes a)) ∧
      Kept t t' ∧ ∀ c ∈ free, dlinks t'.nodes c = dlinks t.nodes c := by
  obtain ⟨e, he⟩ := W.get (.inl mem_cons_self)
  rw [keyAt_eq he]
  by_cases hfar : scheduleBucket (expireBase t wall) e.key = .far
  · obtain ⟨n1, e1, l1, h1, i1, x1⟩ := setBucket_eq (W.dlink (.inl mem_cons_self)) .far
    have W1 : Wheel { t with nodes := n1 } lists (a :: free) := by
      refine ⟨W.family.congr (fun b c _ => by rw [l1]) fun b c hc => ?_, W.tail, ?_, W.nodup, W.apart,
        fun c => by rw [← W.live c, i1]⟩
      · rw [h1, update_of_ne]
        rintro rfl
        exact W.apart c mem_cons_self b hc
      · have : ∀ c, keyAt n1 c = keyAt t.nodes c := fun c => by rw [keyAt, keyAt, i1]
        simp only [this]
        exact W.sorted
    obtain ⟨t', lists', e', W', adds, k, frame⟩ := expireInsertFar_spec W1
      (by rw [h1, update_self])
    refine ⟨t', lists', ?_, W', hfar ▸ adds, ?_, fun c hc => by rw [frame c hc, l1]⟩
    · simp [expireSchedule, he, hfar, e1, e']
    · exact ⟨k.infos.trans i1, k.next.trans x1, k.cursor, k.count⟩
  · obtain ⟨t', lists', e', rest⟩ := pushInto_spec W hfar
    refine ⟨t', lists', ?_, rest⟩
    simp only [expireSchedule, he, some_bind]
    cases hb : scheduleBucket (expireBase t wall) e.key with
    | far => exact absurd hb hfar
    | due | lv0 i | lv1 i | lv2 i | lv3 i => exact hb ▸ e'

end

lemma Wheel.remove (W : Wheel t lists free) (hb : lists b = l ++ a :: m) (k : Kept t t')
    (links : dlinks t'.nodes = update (linkOut (dlinks t.nodes) l m) a (some ⟨none, none⟩))
    (home : homes t'.nodes = homes t.nodes)
    (heads : t'.heads = update t.heads b (if l = [] then m.head? else t.heads b))
    (tail : t'.farTail = (update lists b (l ++ m) .far).getLast?) :
    ∃ lists', Wheel t' lists' (a :: free) ∧ Removes lists lists' a ∧
      ∀ c ∈ free, dlinks t'.nodes c = dlinks t.nodes c := by
  have nd : (l ++ a :: m).Nodup := hb ▸ W.family.nodup b
  have hna : a ∉ l ++ m := (nodup_cons.mp (nodup_middle.mp nd)).1
  have ha : a ∈ lists b := hb ▸ mem_append_right _ mem_cons_self
  have hfree : a ∉ free := fun h => W.apart a h b ha
  have F := W.family.unlink hb (some ⟨none, none⟩)
  rw [← links, ← home, ← heads] at F
  have removes : Removes lists (update lists b (l ++ m)) a := by
    intro c b'
    by_cases e : b' = b
    · subst e
      have hca : c ∈ l ++ m → c ≠ a := fun h e => hna (e ▸ h)
      rw [update_self, hb]
      rw [mem_append] at hca
      rw [mem_append, mem_append, mem_cons]
      tauto
    · rw [update_of_ne e]
      refine ⟨fun h => ⟨?_, h⟩, fun h => h.2⟩
      rintro rfl
      exact e (W.family.disjoint h ha)
  refine ⟨_, ⟨F, tail, ?_, nodup_cons.mpr ⟨hfree, W.nodup⟩, ?_, ?_⟩, removes, ?_⟩
  · have key : ∀ c, keyAt t'.nodes c = keyAt t.nodes c := k.key
    simp only [key]
    by_cases e : b = .far
    · subst e
      have hs := W.sorted
      rw [hb] at hs
      exact hs.sublist ((sublist_cons_self a m).append_left l)
    · rw [update_of_ne (Ne.symm e)]
      exact W.sorted
  · intro c hc b' hmem
    obtain ⟨hca, h⟩ := (removes c b').mp hmem
    rcases mem_cons.mp hc with rfl | hc
    · exact hca rfl
    · exact W.apart c hc b' h
  · intro c
    rw [k.infos, W.live c, mem_cons]
    constructor
    · rintro (h | ⟨b', h⟩)
      · exact .inl (.inr h)
      · by_cases e : c = a
        · exact .inl (.inl e)
        · exact .inr ⟨b', (removes c b').mpr ⟨e, h⟩⟩
    · rintro ((rfl | h) | ⟨b', h⟩)
      · exact .inr ⟨b, ha⟩
      · exact .inl h
      · exact .inr ⟨b', ((removes c b').mp h).2⟩
  · intro c hc
    have apart := W.apart c hc b
    rw [hb, mem_append, mem_cons, not_or, not_or] at apart
    rw [links, update_of_ne apart.2.1, linkOut_of_not_mem apart.1 apart.2.2]

/-- `expire_unlink` frees a node of a list. -/
lemma expireUnlink_spec (W : Wheel t lists free) (ha : a ∈ lists b) :
    ∃ t' lists', expireUnlink t a = some t' ∧ Wheel t' lists' (a :: free) ∧
      Removes lists lists' a ∧ Kept t t' ∧ ∀ c ∈ free, dlinks t'.nodes c = dlinks t.nodes c := by
  obtain ⟨l, m, hb⟩ := append_of_mem ha
  have nd : (l ++ a :: m).Nodup := hb ▸ W.family.nodup b
  have hna : a ∉ l ++ m := (nodup_cons.mp (nodup_middle.mp nd)).1
  have hseg : Seg (dlinks t.nodes) none (t.heads b) (l ++ a :: m) none := hb ▸ W.family.seg b
  obtain ⟨e, he, hlink⟩ := view_eq_some.mp hseg.at
  have hprev : e.prev = lastOf none l := congrArg DLink.prev hlink
  have hnext : e.next = m.head? := congrArg DLink.next hlink
  have hbucket : e.bucket = b := by
    have := W.family.home b a ha
    rw [homes, view_of_get _ he] at this
    exact Option.some.inj this
  have inlist : ∀ c ∈ l ++ m, c ∈ lists b := by
    intro c hc
    rw [mem_append] at hc
    rw [hb, mem_append]
    tauto
  -- the neighbours are told of each other
  obtain ⟨n1, e1, r1⟩ := writeNext_eq (h := t.nodes) (p := lastOf none l) (fun c hc => by
    rcases lastOf_mem hc with h | ⟨-, h⟩
    · exact W.dlink (.inr ⟨b, inlist c (mem_append_left _ h)⟩)
    · cases h) m.head?
  have live1 : ∀ c, (dlinks t.nodes c).isSome → (dlinks n1 c).isSome := by
    intro c hc
    rwa [r1.links, isSome_putNext]
  obtain ⟨n2, e2, r2⟩ := writePrev_eq (h := n1) (p := m.head?) (fun c hc =>
    live1 c (W.dlink (.inr ⟨b, inlist c (mem_append_right _ (mem_of_mem_head? hc))⟩)))
    (lastOf none l)
  have links2 : dlinks n2 = linkOut (dlinks t.nodes) l m := by
    rw [r2.links, r1.links]
    rfl
  rw [mem_append, not_or] at hna
  have ha2 : dlinks n2 a = some e.toDLink := by
    rw [links2, linkOut_of_not_mem hna.1 hna.2]
    exact view_of_get _ he
  obtain ⟨n3, e3, r3⟩ := setLink_eq ha2 none none
  have linked : ¬(e.prev = none ∧ t.heads e.bucket ≠ some a) := by
    rintro ⟨hp, hh⟩
    rw [hprev, lastOf_eq_none] at hp
    subst hp
    rw [hbucket, hseg.head] at hh
    exact hh rfl
  have k : Kept t { t with
      nodes := n3
      heads := if e.prev = none then Function.update t.heads e.bucket e.next else t.heads
      farTail := if e.bucket = .far ∧ t.farTail = some a then e.prev else t.farTail } :=
    ⟨r3.infos.trans (r2.infos.trans r1.infos), r3.next.trans (r2.next.trans r1.next), rfl, rfl⟩
  obtain ⟨lists', W', removes, frame⟩ := W.remove hb k (by rw [r3.links, links2])
    (by rw [r3.homes, r2.homes, r1.homes])
    (by
      rw [hprev, hbucket, hnext]
      by_cases h : l = []
      · rw [if_pos h, if_pos (lastOf_eq_none.mpr h)]
      · rw [if_neg h, if_neg fun h' => h (lastOf_eq_none.mp h'), Function.update_eq_self])
    (by
      rw [hprev, hbucket, W.tail]
      by_cases h : b = .far
      · -- the last node is `a` exactly when nothing follows it
        subst h
        rw [update_self, hb]
        rcases eq_nil_or_concat m with rfl | ⟨m', z, rfl⟩
        · simp [lastOf_none_eq]
        · have hz : z ≠ a := by
            rintro rfl
            exact hna.2 (by simp)
          simp [hz, List.getLast?_cons]
      · simp [h, update_of_ne (Ne.symm h)])
  refine ⟨_, lists', ?_, W', removes, k, frame⟩
  simp only [expireUnlink, he, if_neg linked, some_bind]
  rw [hprev, hnext, e1]
  simp [e2, e3]

end Wheel

end Alligator
