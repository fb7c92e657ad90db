import Alligator.Metric.Store

/-!
# Purging expired series

`expire_purge` advances the wheel to the time of the purge and then takes the
nodes from `due` one by one.  A node whose key is not due goes back to its place,
and for any other its series is deleted, by its labels.  A deletion may move
another series into the node and arm that again.  The loop is bounded by a guard.
With the key `INT64_MAX` all nodes are due, and the loop runs again as long as
series are left.

A round of the loop either leaves the records alone or takes out the one record
that the node belongs to (`purgeRound_spec`).  Each round of a timed purge leaves
fewer nodes on `due`, so the guard is never reached and what is left are the
records with later keys (`purgeTree_timed`).
-/

namespace Alligator

open Memory DList RedBlack List

/-! ## The operation -/

/-- An expired entry whose series could not be deleted: drop the entry. -/
def dropOrphan (s : Store) (n : Addr) (m : Ptr) : Option Store := do
  let owner ←
    match m with
    | none => some none
    | some m => (s.nodes.get m).map MetricNode.expireNode
  match m, owner with
  | some m, some _ => expireForget s m
  | _, _ =>
    if s.expire.heads .due = some n then do
      let t ← expireUnlink s.expire n
      let count := if 0 < t.count then t.count - 1 else t.count
      return { s with expire := { t with nodes := t.nodes.free n, count := count } }
    else some s

variable (base : Int)

/-- `m && m->labels && metric_delete_locked(tree, m->labels, expiretree)` -/
def deleteOwner (s : Store) (m : Ptr) : Option (Store × Bool) :=
  match m with
  | none => some (s, false)
  | some m => do
    let node ← s.nodes.get m
    if node.labels = [] then some (s, false) else metricDelete base s node.labels

/-- One round of the loop over `due`, with the number of orphans met. -/
def purgeRound (drain : Bool) (now : Int) (s : Store) (n : Addr) : Option (Store × Nat):= do
  let e ← s.expire.nodes.get n
  if !drain && decide (now < e.key) then do
    let t ← expireUnlink s.expire n
    let t ← expireSchedule base t n
    return ({ s with expire := t }, 0)
  else do
    let (s, deleted) ← deleteOwner base s e.metric
    if deleted then
      return (s, 0)
    else do
      let s ← dropOrphan s n e.metric
      return (s, 1)

/-- `while (expiretree->due && guard-- > 0)`: the store, what is left of the
guard, and the orphans. -/
def purgeDue (base : Int) (drain : Bool) (now : Int) :
    Nat → Store → Nat → Option (Store × Nat × Nat)
  | 0, s, orphans => some (s, 0, orphans)
  | guard + 1, s, orphans =>
    match s.expire.heads .due with
    | none => some (s, guard + 1, orphans)
    | some n => do
      let (s, k) ← purgeRound base drain now s n
      purgeDue base drain now guard s (orphans + k)

/-- The outer loop of a full wipe. -/
def purgeDrain (base now : Int) : Nat → Nat → Store → Nat → Option (Store × Nat)
  | 0, _, _, _ => none
  | fuel + 1, guard, s, orphans => do
    let t ← expireDrainAll s.expire
    let (s, guard, orphans) ← purgeDue base true now guard { s with expire := t } orphans
    if 0 < s.count ∧ 0 < guard then purgeDrain base now fuel guard s orphans
    else return (s, orphans)

/-- `INT64_MAX`, the key of a full wipe. -/
def int64Max : BitVec 64 := 0x7fffffffffffffff#64

/-- The part of `expire_purge` under the locks: the store and the orphans. -/
def purgeTree (s : Store) (key : BitVec 64) : Option (Store × Nat) :=
  let guard := (s.count + s.expire.count + 1).toNat
  if key = int64Max then
    purgeDrain base key.toInt (guard + 1) guard s 0
  else do
    let t ← expireWheelAdvance base s.expire key.toInt
    let (s, _, orphans) ← purgeDue base false key.toInt guard { s with expire := t } 0
    return (s, orphans)

/-! ## One round -/

variable {x : Record} {guard : Nat}

section Round

variable {s : Store} {T : CTree} {lists : Buckets} {L : List Record}
  {t : ExpireTree} {n : Addr} {b : Bucket}

variable (S : Stored s T lists L)
include S

/-- The wheel changed, but not its nodes. -/
lemma Stored.rewheel {lists' : Buckets} (hT : Timed t lists') (same : SameEntries s.expire t) :
    Stored { s with expire := t } T lists' L where
  tree := S.tree
  guarded := by
    refine ⟨hT, ?_⟩
    rw [same.infos]
    exact S.guarded.owned
  records := by
    rw [← S.records]
    refine map_congr_left fun a _ => ?_
    show recordOf _ (infos t.nodes) a = recordOf _ (infos s.expire.nodes) a
    rw [same.infos]
  fits := S.fits
  sorted := S.sorted
  count := S.count
  armed := same.count.trans S.armed
  words := S.words

omit S in
lemma Timed.reschedule (hT : Timed t lists) (base : Int) (hn : n ∈ lists b) :
    ∃ t1 t' lists', expireUnlink t n = some t1 ∧ expireSchedule base t1 n = some t' ∧
      Timed t' lists' ∧ SameEntries t t' ∧ t'.cursor = t.cursor ∧
      ∀ c b', c ∈ lists' b' ↔ (c = n ∧ b' = scheduleBucket (expireBase t base) (keyAt t.nodes n)) ∨
        (c ≠ n ∧ c ∈ lists b') := by
  obtain ⟨t1, t', lists', e1, e', W, k, mem⟩ := reschedule_spec base hT.wheel hn
  refine ⟨t1, t', lists', e1, e', ⟨W, fun hpos b' c hc => ?_⟩, k.same, k.cursor, mem⟩
  rw [k.cursor] at hpos ⊢
  rw [k.key c]
  rcases (mem c b').mp hc with ⟨rfl, rfl⟩ | ⟨-, hc⟩
  · rw [expireBase, if_pos hpos]
    exact placed_scheduleBucket hpos
  · exact hT.placed hpos b' c hc

lemma Stored.node_inj (hs : StrictlySorted L) {a b : Addr}
    (ha : a ∈ T.addrs) (hb : b ∈ T.addrs) (hxa : recordAt s a = some x)
    (hxb : recordAt s b = some x) : a = b := by
  have nd : (T.addrs.map (recordAt s)).Nodup := by
    rw [S.records]
    exact (List.Nodup.of_map _ hs.nodup).map (Option.some_injective _)
  exact inj_on_of_nodup_map nd ha hb (hxa.trans hxb.symm)

lemma Stored.owner (hn : n ∈ lists b) :
    ∃ m x e, m ∈ T.addrs ∧ x ∈ L ∧ recordAt s m = some x ∧ entryOf s.nodes m = some n ∧
      s.expire.nodes.get n = some e ∧ e.metric = some m ∧ e.key = x.key ∧
      ∃ node, s.nodes.get m = some node ∧ node.labels = x.series.labels ∧ node.labels ≠ [] := by
  obtain ⟨e, he⟩ := S.guarded.timed.wheel.get (.inr ⟨b, hn⟩)
  have hinf : infos s.expire.nodes n = some (e.key, e.metric) := Heap.view_of_get _ he
  obtain ⟨m, ser, hm, hmetric, hpay⟩ := S.guarded.owned.owned n _ _ hinf
  obtain ⟨x, hx, hrec⟩ := S.record_of_mem hm
  obtain ⟨node, hget, hnode⟩ := Heap.view_eq_some.mp hpay
  obtain ⟨l, t, -, hne, -⟩ := (S.fits x hx).eq_cons
  refine ⟨m, x, e, hm, hx, hrec, by rw [entryOf, hpay]; rfl, he, hmetric, ?_⟩
  rw [recordAt, recordOf_eq hpay hinf] at hrec
  cases hrec
  have hlabels : node.labels = ser.labels := congrArg (fun p => p.1.labels) hnode
  exact ⟨rfl, node, hget, hlabels, by rw [hlabels, hne]; exact cons_ne_nil l t⟩

/-- A round leaves the records alone, if the entry is not due, or takes out the
record of the entry. -/
lemma purgeRound_spec (hs : StrictlySorted L) (base : Int)
    (drain : Bool) (now : Int) (hn : n ∈ lists .due) :
    ∃ s' T' lists' L', purgeRound base drain now s n = some (s', 0) ∧ Stored s' T' lists' L' ∧
      SameConfig s s' ∧ ((drain = false ∧ L' = L ∧
          (s.expire.cursor = now → 0 < now → (lists' .due).length < (lists .due).length)) ∨
        ∃ L1 x L2, L = L1 ++ x :: L2 ∧ L' = L1 ++ L2 ∧ (drain = true ∨ x.key ≤ now) ∧
          (0 < s.expire.cursor → (lists' .due).length < (lists .due).length)) := by
  obtain ⟨m, x, e, hm, hx, hrec, hentry, he, hmetric, hkey, node, hget, hlabels, hne⟩ := S.owner hn
  by_cases h : (!drain && decide (now < e.key)) = true
  · obtain ⟨t1, t', lists', e1, e', hT, same, hcur, mem⟩ := S.guarded.timed.reschedule base hn
    simp only [Bool.and_eq_true, Bool.not_eq_true', decide_eq_true_eq] at h
    refine ⟨{ s with expire := t' }, T, lists', L, ?_, S.rewheel hT same, ⟨rfl, rfl, hcur⟩,
      .inl ⟨h.1, rfl, fun hnow hpos => ?_⟩⟩
    · simp only [purgeRound, he, h.1, h.2, e1, e', Bool.not_false, decide_true, Bool.and_self,
        if_true, some_bind, Option.pure_def]
    · have hfar : scheduleBucket (expireBase s.expire base) (keyAt s.expire.nodes n) ≠ .due := by
        rw [expireBase, keyAt_eq he]
        intro hdue
        have := scheduleBucket_eq_due.mp hdue
        omega
      exact length_lt_of_left (hT.wheel.family.nodup .due) hn fun c hc =>
        ((mem c .due).mp hc).resolve_left fun h => hfar h.2.symm
  · rw [hlabels] at hne
    obtain ⟨s', T', lists', same, hcases⟩ := metricDelete_spec S (S.fits x hx) base
    rcases hcases with ⟨-, -, hmiss⟩ | ⟨m', L1, x', L2, e', hm', hrec', hL, hkey', S', hdue⟩
    · exact absurd rfl (hmiss x hx)
    · have hxx : x' = x := hs.inj (by rw [hL]; simp) hx hkey'
      subst hxx
      have hmm : m' = m := S.node_inj hs hm' hm hrec' hrec
      subst hmm
      refine ⟨s', T', lists', L1 ++ L2, ?_, S', same, .inr ⟨L1, x', L2, hL, rfl, ?_,
        fun hpos => hdue n hentry hpos hn⟩⟩
      · simp only [purgeRound, he, h, hmetric, deleteOwner, hget, hlabels, if_neg hne, e', if_true,
          Bool.false_eq_true, if_false, some_bind, Option.pure_def]
      · cases drain with
        | true => exact .inl rfl
        | false =>
          right
          rw [Bool.not_false, Bool.true_and, decide_eq_true_eq] at h
          omega

end Round

/-! ## The loops -/

lemma SameConfig.refl (s : Store) : SameConfig s s := ⟨rfl, rfl, rfl⟩

lemma SameConfig.trans {s s1 s2 : Store} (h : SameConfig s s1) (h' : SameConfig s1 s2) :
    SameConfig s s2 :=
  ⟨h'.plan.trans h.plan, h'.maxSeries.trans h.maxSeries, h'.cursor.trans h.cursor⟩

variable {lists : Buckets} {L : List Record}

/-- With nothing on `due`, no record is due. -/
lemma Stored.alive {s : Store} {T : CTree}
    (S : Stored s T lists L) (hpos : 0 < s.expire.cursor) (hdue : lists .due = [])
    (hx : x ∈ L) : s.expire.cursor < x.key := by
  obtain ⟨a, ha, hrec⟩ := S.mem_of_record hx
  obtain ⟨n, -, hinf⟩ := S.node ha hrec
  obtain ⟨b, hb⟩ := S.guarded.timed.wheel.mem_of_infos hinf
  by_contra hle
  have hkey : keyAt s.expire.nodes n = x.key := by
    rw [keyAt, hinf]
    rfl
  have := S.guarded.timed.due hpos hb (by omega)
  subst this
  rw [hdue] at hb
  cases hb

lemma Stored.filter_alive {s : Store} {T : CTree} (S : Stored s T lists L)
    (hpos : 0 < s.expire.cursor) (hdue : lists .due = []) :
    L = L.filter fun x => s.expire.cursor < x.key :=
  (filter_eq_self.mpr fun _ hx => decide_eq_true (S.alive hpos hdue hx)).symm

/-- Whatever the guard, the loop ends and leaves some of the records.  In a full
wipe every round takes one out.  A timed purge, once the wheel is at its time and the guard is
large enough, leaves the records with later keys. -/
lemma purgeDue_spec (drain : Bool) (now : Int) (guard : Nat) {s : Store}
    {T : CTree} (orphans : Nat) (S : Stored s T lists L) (hs : StrictlySorted L) :
    ∃ s' T' lists' L' left, purgeDue base drain now guard s orphans = some (s', left, orphans) ∧
        Stored s' T' lists' L' ∧ SameConfig s s' ∧ L'.Sublist L ∧ left ≤ guard ∧
        (drain = true → L'.length + guard = L.length + left) ∧
        (lists .due ≠ [] → guard ≠ 0 → left < guard) ∧
        (drain = false → 0 < now → s.expire.cursor = now → (lists .due).length ≤ guard →
          L' = L.filter fun x => now < x.key) := by
  induction guard generalizing s T lists L orphans with
  | zero =>
    refine ⟨s, T, lists, L, 0, rfl, S, .refl s, List.Sublist.refl _, le_refl _,
      fun _ => rfl, fun _ h => absurd rfl h, fun _ hnow hcur hlen => ?_⟩
    subst hcur
    exact S.filter_alive hnow (length_eq_zero_iff.mp (Nat.le_zero.mp hlen))
  | succ guard ih =>
    have hdue := (S.guarded.timed.wheel.family.seg .due).head
    cases hhead : s.expire.heads .due with
    | none =>
      rw [hhead, eq_comm, head?_eq_none_iff] at hdue
      refine ⟨s, T, lists, L, guard + 1, ?_, S, .refl s, List.Sublist.refl _, le_refl _,
        fun _ => rfl, absurd hdue, fun _ hnow hcur _ => ?_⟩
      · rw [purgeDue, hhead]
      · subst hcur
        exact S.filter_alive hnow hdue
    | some n =>
      have hn := S.guarded.timed.wheel.head_mem .due n hhead
      obtain ⟨s1, T1, lists1, L1, e1, S1, same1, hcases⟩ := purgeRound_spec S hs base drain now hn
      have hsub : L1.Sublist L := by
        rcases hcases with ⟨-, rfl, -⟩ | ⟨l, x, r, rfl, rfl, -, -⟩
        · exact List.Sublist.refl _
        · exact (sublist_cons_self _ _).append_left _
      obtain ⟨s', T', lists', L', left, e', S', same', hsub', hleft, hlen, -, htimed⟩ :=
        ih orphans S1 (hs.sublist hsub)
      refine ⟨s', T', lists', L', left, ?_, S', same1.trans same', hsub'.trans hsub, by omega, ?_,
        ?_, ?_⟩
      · simp only [purgeDue, hhead, e1]
        exact e'
      · intro hd
        have := hlen hd
        rcases hcases with ⟨hf, -, -⟩ | ⟨l, x, r, rfl, rfl, -, -⟩
        · rw [hf] at hd
          cases hd
        · rw [length_append] at this
          rw [length_append, length_cons]
          omega
      · intro _ _
        omega
      · intro hd hnow hcur hguard
        have htimed := htimed hd hnow (same1.cursor.trans hcur)
        rcases hcases with ⟨-, rfl, hless⟩ | ⟨l, x, r, rfl, rfl, hkey, hless⟩
        · have := hless hcur hnow
          exact htimed (by omega)
        · have := hless (hcur ▸ hnow)
          have hx : ¬now < x.key := by simpa [hd] using hkey
          rw [filter_append, filter_cons_of_neg (by simpa using hx), ← filter_append]
          exact htimed (by omega)

lemma purgeDrain_spec (base now : Int) {fuel : Nat} {s : Store} {T : CTree}
    (orphans : Nat) (S : Stored s T lists L)
    (hs : StrictlySorted L) (hlt : guard < fuel) : L.length < guard →
      ∃ s' T' lists', purgeDrain base now fuel guard s orphans = some (s', orphans) ∧
        Stored s' T' lists' [] ∧ SameConfig s s' := by
  induction fuel generalizing guard s T lists L orphans with
  | zero =>
    cases hlt
  | succ fuel ih =>
    intro hguard
    obtain ⟨t, lists1, e1, hT, k1, hdue⟩ := expireDrainAll_spec S.guarded.timed.wheel
    have S1 := S.rewheel hT k1.same
    obtain ⟨s2, T2, lists2, L2, left, e2, S2, same2, hsub, hle, hlen, hless, -⟩ :=
      purgeDue_spec base true now guard orphans S1 hs
    have hlen := hlen rfl
    have same : SameConfig s s2 := ⟨same2.plan, same2.maxSeries, same2.cursor.trans k1.cursor⟩
    simp only [purgeDrain, e1, e2, some_bind]
    by_cases hL : L2 = []
    · subst hL
      have hcount : ¬(0 < s2.count ∧ 0 < left) := by
        rw [S2.count]
        simp
      rw [if_neg hcount]
      exact ⟨s2, T2, lists2, rfl, S2, same⟩
    · have hpos : 0 < L2.length := length_pos_iff.mpr hL
      have hcount : 0 < s2.count ∧ 0 < left := by
        rw [S2.count]
        omega
      -- something was left before, and it was on `due`
      have hnonempty : lists1 .due ≠ [] := by
        intro hnil
        have hL' : L ≠ [] := by
          rintro rfl
          rw [sublist_nil.mp hsub] at hpos
          cases hpos
        obtain ⟨x, hx⟩ := exists_mem_of_ne_nil L hL'
        obtain ⟨a, ha, hrec⟩ := S1.mem_of_record hx
        obtain ⟨n, -, hinf⟩ := S1.node ha hrec
        obtain ⟨b, h⟩ := hT.wheel.mem_of_infos hinf
        rw [hdue n b h, hnil] at h
        cases h
      have hfuel : left < fuel := by
        have := hless hnonempty (by omega)
        omega
      rw [if_pos hcount]
      obtain ⟨s', T', lists', e', S', same'⟩ := ih orphans S2 (hs.sublist hsub) hfuel (by omega)
      exact ⟨s', T', lists', e', S', same.trans same'⟩

section Purge

variable {s : Store} {T : CTree} {lists : Buckets} {L : List Record} (S : Stored s T lists L)
include S

lemma Stored.entries_le {E : List Addr} (nd : E.Nodup)
    (hE : ∀ n ∈ E, ∃ b, n ∈ lists b) : E.length ≤ L.length := by
  have sub : E.map some ⊆ T.addrs.map (entryOf s.nodes) := by
    intro p hp
    obtain ⟨n, hn, rfl⟩ := mem_map.mp hp
    obtain ⟨b, hb⟩ := hE n hn
    obtain ⟨m, -, -, hm, -, -, hentry, -⟩ := S.owner hb
    exact mem_map.mpr ⟨m, hm, hentry⟩
  have := (subperm_of_subset (nd.map (Option.some_injective _)) sub).length_le
  rwa [length_map, length_map, S.length] at this

lemma Stored.guard_eq : (s.count + s.expire.count + 1).toNat = 2 * L.length + 1 := by
  rw [S.count, S.armed]
  omega

omit S in
lemma Stored.heads_none (S : Stored s T lists []) (b : Bucket) : s.expire.heads b = none := by
  have hle := S.entries_le (S.guarded.timed.wheel.family.nodup b) fun n hn => ⟨b, hn⟩
  rw [(S.guarded.timed.wheel.family.seg b).head, length_eq_zero_iff.mp (Nat.le_zero.mp hle)]
  rfl

/-- A purge with any key ends without orphans and leaves some of the records.  A full wipe leaves
nothing, and a timed purge is exact. -/
lemma purgeTree_spec (hs : StrictlySorted L) (base : Int) (key : BitVec 64) :
    ∃ s' T' lists' L', purgeTree base s key = some (s', 0) ∧ Stored s' T' lists' L' ∧
      L'.Sublist L ∧ s'.plan = s.plan ∧ s'.maxSeries = s.maxSeries ∧
      (key = int64Max → L' = []) ∧
      (key ≠ int64Max → 0 < key.toInt → L' = L.filter fun x => key.toInt < x.key) := by
  by_cases hkey : key = int64Max
  · subst hkey
    obtain ⟨s', T', lists', e', S', same⟩ := purgeDrain_spec base int64Max.toInt 0 S hs
      (Nat.lt_succ_self (2 * L.length + 1)) (by omega)
    refine ⟨s', T', lists', [], ?_, S', nil_sublist _, same.plan, same.maxSeries, fun _ => rfl,
      absurd rfl⟩
    simp [purgeTree, S.guard_eq, e']
  · obtain ⟨t, lists1, e1, hT, same, hcur⟩ := expireWheelAdvance_spec S.guarded.timed base key.toInt
    have S1 := S.rewheel hT same
    have hlen := S1.entries_le (hT.wheel.family.nodup .due) fun n hn => ⟨_, hn⟩
    obtain ⟨s', T', lists', L', left, e', S', same', hsub, -, -, -, htimed⟩ :=
      purgeDue_spec base false key.toInt (2 * L.length + 1) 0 S1 hs
    refine ⟨s', T', lists', L', ?_, S', hsub, same'.plan, same'.maxSeries,
      fun h => absurd h hkey, fun _ hpos => ?_⟩
    · simp [purgeTree, if_neg hkey, e1, S.guard_eq, e']
    · exact htimed rfl hpos (hcur hpos) (by omega)

end Purge

end Alligator
