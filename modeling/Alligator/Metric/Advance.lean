import Alligator.Metric.Wheel

/-!
# Moving the wheel

The cascades, the rebuild and the advance of the expiry wheel.  `Timed` is the
invariant between operations: once the cursor is set, every node outside `due`
is in a list that the cursor has still to reach before the node's key.
`expireWheelAdvance_spec` says that the advance keeps it, whichever way the
clock moved, and leaves the cursor at the new time.  After that every node with
a key that has been reached is on `due` (`Timed.due`).

The loops over a list have one form.  They read the next pointer, hand the node
to an action that puts it into some list, and go on; `walkList_spec` is the rule
for them.
-/

namespace Alligator

open Memory DList List Function Option

variable {act : ExpireTree → Addr → Option ExpireTree} {pl : Int → Bucket} {fuel : Nat} {f : Int}

/-- `while (n) { next = n->next; act(n); n = next; }` -/
def walkList (act : ExpireTree → Addr → Option ExpireTree) :
    Nat → ExpireTree → Ptr → Option ExpireTree
  | _, t, none => some t
  | 0, _, some _ => none
  | fuel + 1, t, some n => do
    let e ← t.nodes.get n
    let t ← act t n
    walkList act fuel t e.next

variable (wall : Int)

def expireCascade (t : ExpireTree) (b : Bucket) : Option ExpireTree :=
  walkList (expireSchedule wall) t.nodes.next
    { t with heads := update t.heads b none } (t.heads b)

/-- The loop of `expire_take_bucket`: push every node onto `acc`. -/
def takeLoop : Nat → Entries → Ptr → Ptr → Option (Entries × Ptr)
  | _, h, none, acc => some (h, acc)
  | 0, _, some _, _ => none
  | fuel + 1, h, some n, acc => do
    let e ← h.get n
    let h ← pushFront h acc n
    takeLoop fuel h e.next (some n)

def expireTakeBucket (t : ExpireTree) (acc : Ptr) (b : Bucket) : Option (ExpireTree × Ptr) := do
  let (nodes, acc) ← takeLoop t.nodes.next t.nodes (t.heads b) acc
  return ({ t with nodes := nodes, heads := update t.heads b none }, acc)

/-- The slots of the four levels, in the order in which they are emptied. -/
def slotBuckets : List Bucket :=
  (List.finRange 256).map .lv0 ++ (List.finRange 64).flatMap fun i => [.lv1 i, .lv2 i, .lv3 i]

/-- Empty a sequence of buckets onto `acc`. -/
def takeBuckets : List Bucket → ExpireTree → Ptr → Option (ExpireTree × Ptr)
  | [], t, acc => some (t, acc)
  | b :: bs, t, acc => do
    let (t, acc) ← expireTakeBucket t acc b
    takeBuckets bs t acc

def takeAll (t : ExpireTree) : Option (ExpireTree × Ptr) := do
  let (t, acc) ← takeBuckets [.due, .far] t none
  takeBuckets slotBuckets { t with farTail := none } acc

def expireRescheduleAll (t : ExpireTree) : Option ExpireTree := do
  let (t, acc) ← takeAll t
  walkList (expireSchedule wall) t.nodes.next t acc

/-- `expire_drain_all`: everything onto `due`. -/
def expireDrainAll (t : ExpireTree) : Option ExpireTree := do
  let (t, acc) ← takeAll t
  walkList (fun t n => pushInto t .due n) t.nodes.next
    { t with heads := update t.heads .due none } acc

/-- What the advance does with a node of the level `0` slot that it reached. -/
def slotVisit (wall now : Int) (t : ExpireTree) (n : Addr) : Option ExpireTree := do
  let e ← t.nodes.get n
  if e.key ≤ now then pushInto t .due n else expireSchedule wall t n

/-- `if (opens) expire_cascade(tree, b)` -/
def cascadeIf (opens : Prop) [Decidable opens] (wall : Int) (t : ExpireTree) (b : Bucket) :
    Option ExpireTree :=
  if opens then expireCascade wall t b else some t

def wheelTick (wall now : Int) (t : ExpireTree) : Option ExpireTree := do
  let t := { t with cursor := t.cursor + 1 }
  let t ← cascadeIf (t.cursor % span0 = 0) wall t (.lv1 (slotOf span0 t.cursor))
  let t ← cascadeIf (t.cursor.tmod span1 = 0) wall t (.lv2 (slotOf span1 t.cursor))
  let t ← cascadeIf (t.cursor.tmod span2 = 0) wall t (.lv3 (slotOf span2 t.cursor))
  let b := Bucket.lv0 (slot0 t.cursor)
  walkList (slotVisit wall now) t.nodes.next { t with heads := update t.heads b none }
    (t.heads b)

/-- `while (tree->cursor < now)` -/
def wheelTicks (wall now : Int) : Nat → ExpireTree → Option ExpireTree
  | 0, t => if t.cursor < now then none else some t
  | fuel + 1, t =>
    if t.cursor < now then do
      let t ← wheelTick wall now t
      wheelTicks wall now fuel t
    else some t

/-- The first node of `far`, if it is inside the range of level `3`. -/
def farNear (t : ExpireTree) : Option Ptr :=
  match t.heads .far with
  | none => some none
  | some n => do
    let e ← t.nodes.get n
    return if e.key - t.cursor < span3 then some n else none

/-- The end of the advance: the first nodes of `far` go where they belong now. -/
def farEnter (wall : Int) : Nat → ExpireTree → Option ExpireTree
  | 0, t => do
    match ← farNear t with
    | none => some t
    | some _ => none
  | fuel + 1, t => do
    match ← farNear t with
    | none => some t
    | some n => do
      let t ← expireUnlink t n
      let t ← expireSchedule wall t n
      farEnter wall fuel t

def expireWheelAdvance (t : ExpireTree) (now : Int) : Option ExpireTree :=
  if t.cursor ≤ 0 then expireRescheduleAll wall { t with cursor := now }
  else if now ≤ 0 then some t
  else if now < t.cursor then some { t with cursor := now }
  else if span1 < now - t.cursor then expireRescheduleAll wall { t with cursor := now }
  else do
    let t ← wheelTicks wall now (now - t.cursor).toNat t
    farEnter wall t.nodes.next t

/-! ## Walking a list -/

/-- The nodes of `l` follow each other from the pointer `p` on. -/
def Chain (v : DLinks) : Ptr → List Addr → Prop
  | p, [] => p = none
  | p, a :: l => p = some a ∧ ∃ d, v a = some d ∧ Chain v d.next l

variable {l : List Addr} {v : DLinks} {p acc : Ptr} {cur : Int} {t1 t2 : ExpireTree}

lemma Chain.congr {v' : DLinks} (h : Chain v p l) (hv : ∀ b ∈ l, v' b = v b) : Chain v' p l := by
  induction l generalizing p with
  | nil => exact h
  | cons a l ih =>
    obtain ⟨hp, d, ha, hl⟩ := h
    exact ⟨hp, d, by rw [hv a mem_cons_self, ha], ih hl (forall_mem_cons.1 hv).2⟩

lemma chain_of_seg {pr : Ptr} (h : Seg v pr p l none) : Chain v p l := by
  induction l generalizing pr p with
  | nil => exact h
  | cons a l ih =>
    obtain ⟨hp, n, ha, hl⟩ := h
    exact ⟨hp, _, ha, ih hl⟩

/-- An action that puts a free node into the list `pl` of its key, as long as
the cursor is `cur`. -/
def Placing (act : ExpireTree → Addr → Option ExpireTree) (pl : Int → Bucket) (cur : Int) : Prop :=
  ∀ t lists a free, t.cursor = cur → Wheel t lists (a :: free) →
    ∃ t' lists', act t a = some t' ∧ Wheel t' lists' free ∧
      Adds lists lists' a (pl (keyAt t.nodes a)) ∧ Kept t t' ∧
      ∀ c ∈ free, dlinks t'.nodes c = dlinks t.nodes c

variable {t : ExpireTree} {lists : Buckets}

/-- Walking a chain of free nodes with a placing action. -/
lemma walkList_spec (hact : Placing act pl cur) (hcur : t.cursor = cur)
    (W : Wheel t lists l) (hc : Chain (dlinks t.nodes) p l) (hlen : l.length ≤ fuel) :
    ∃ t' lists', walkList act fuel t p = some t' ∧ Wheel t' lists' [] ∧ Kept t t' ∧
        ∀ c b, c ∈ lists' b ↔ (c ∈ l ∧ b = pl (keyAt t.nodes c)) ∨ c ∈ lists b := by
  induction fuel generalizing t lists l p with
  | zero =>
    obtain rfl := length_eq_zero_iff.mp (Nat.le_zero.mp hlen)
    cases hc
    exact ⟨t, lists, rfl, W, .refl t, by simp⟩
  | succ fuel ih =>
    cases l with
    | nil =>
      cases hc
      exact ⟨t, lists, rfl, W, .refl t, by simp⟩
    | cons a l =>
      obtain ⟨rfl, d, hd, hl⟩ := hc
      obtain ⟨e, he, hlink⟩ := Heap.view_eq_some.mp hd
      obtain ⟨t1, lists1, e1, W1, adds, k1, frame⟩ := hact t lists a l hcur W
      obtain ⟨t', lists', e', W', k', mem⟩ := ih (k1.cursor.trans hcur) W1 (hl.congr frame)
        (Nat.le_of_succ_le_succ hlen)
      refine ⟨t', lists', ?_, W', k1.trans k', fun c b => ?_⟩
      · have hnext : e.next = d.next := congrArg DLink.next hlink
        simp only [walkList, he, e1, hnext, some_bind]
        exact e'
      · rw [mem c b, adds c b, k1.key c, mem_cons]
        constructor
        · rintro (⟨h, e⟩ | ⟨rfl, e⟩ | h)
          · exact .inl ⟨.inr h, e⟩
          · exact .inl ⟨.inl rfl, e⟩
          · exact .inr h
        · rintro (⟨rfl | h, e⟩ | h)
          · exact .inr (.inl ⟨rfl, e⟩)
          · exact .inl ⟨h, e⟩
          · exact .inr (.inr h)

lemma placing_schedule (wall cur : Int) :
    Placing (expireSchedule wall) (scheduleBucket (if 0 < cur then cur else wall)) cur := by
  rintro t lists a free rfl W
  exact expireSchedule_spec W wall

lemma placing_due : Placing (fun t n => pushInto t .due n) (fun _ => .due) cur := by
  rintro t lists a free rfl W
  exact pushInto_spec W (by simp)

lemma placing_slotVisit (wall now cur : Int) :
    Placing (slotVisit wall now) (fun key => if key ≤ now then .due
      else scheduleBucket (if 0 < cur then cur else wall) key) cur := by
  rintro t lists a free rfl W
  obtain ⟨e, he⟩ := W.get (.inl mem_cons_self)
  simp only [slotVisit, he, some_bind, keyAt_eq he]
  by_cases hk : e.key ≤ now
  · simp only [if_pos hk]
    exact pushInto_spec W (by simp)
  · simp only [if_neg hk]
    have := expireSchedule_spec W wall
    rw [keyAt_eq he] at this
    exact this

variable {b : Bucket}

section Lists

variable {t : ExpireTree} {lists : Buckets}

/-- Take a whole list other than `far` away. -/
lemma Wheel.take (W : Wheel t lists []) (hb : b ≠ .far) :
    Wheel { t with heads := update t.heads b none } (update lists b [])
      (lists b) where
  family := W.family.take b
  tail := by
    rw [update_of_ne hb.symm]
    exact W.tail
  sorted := by
    rw [update_of_ne hb.symm]
    exact W.sorted
  nodup := W.family.nodup b
  apart a ha b' hmem := by
    obtain ⟨e, hmem⟩ := mem_update_nil.mp hmem
    exact e (W.family.disjoint hmem ha)
  live a := by
    rw [W.live a]
    constructor
    · rintro (h | ⟨b', h⟩)
      · cases h
      · by_cases e : b' = b
        · exact .inl (e ▸ h)
        · exact .inr ⟨b', mem_update_nil.mpr ⟨e, h⟩⟩
    · rintro (h | ⟨b', h⟩)
      · exact .inr ⟨b, h⟩
      · exact .inr ⟨b', (mem_update_nil.mp h).2⟩

lemma rewalk_spec (W : Wheel t lists []) (hb : b ≠ .far) (hact : Placing act pl t.cursor) :
    ∃ t' lists', walkList act t.nodes.next { t with heads := update t.heads b none }
        (t.heads b) = some t' ∧ Wheel t' lists' [] ∧ Kept t t' ∧
      ∀ c b', c ∈ lists' b' → (c ∈ lists b ∧ b' = pl (keyAt t.nodes c)) ∨
        (b' ≠ b ∧ c ∈ lists b') := by
  obtain ⟨t', lists', e', W', k, mem⟩ := walkList_spec hact
    (t := { t with heads := update t.heads b none }) rfl (W.take hb)
    (chain_of_seg (W.family.seg b)) (W.length_le b)
  refine ⟨t', lists', e', W', ⟨k.infos, k.next, k.cursor, k.count⟩, fun c b' h => ?_⟩
  rcases (mem c b').mp h with h | h
  · exact .inl h
  · exact .inr (mem_update_nil.mp h)

end Lists

/-! ## Emptying lists onto one -/

/-- The loop of `expire_take_bucket` reverses a list onto another one. -/
lemma takeLoop_spec {h : Entries} {m : List Addr} (hc : Chain (dlinks h) p l)
    (hm : Seg (dlinks h) none acc m none) (nd : (l ++ m).Nodup) (hlen : l.length ≤ fuel) :
    ∃ h' acc', takeLoop fuel h p acc = some (h', acc') ∧
      Seg (dlinks h') none acc' (l.reverse ++ m) none ∧ homes h' = homes h ∧ infos h' = infos h ∧
      h'.next = h.next ∧ ∀ c, c ∉ l → c ∉ m → dlinks h' c = dlinks h c := by
  induction fuel generalizing h p acc l m with
  | zero =>
    obtain rfl := length_eq_zero_iff.mp (Nat.le_zero.mp hlen)
    cases hc
    exact ⟨h, acc, rfl, hm, rfl, rfl, rfl, fun _ _ _ => rfl⟩
  | succ fuel ih =>
    cases l with
    | nil =>
      cases hc
      exact ⟨h, acc, rfl, hm, rfl, rfl, rfl, fun _ _ _ => rfl⟩
    | cons a l =>
      obtain ⟨rfl, d, hd, hl⟩ := hc
      obtain ⟨e, he, hlink⟩ := Heap.view_eq_some.mp hd
      rw [cons_append] at nd
      obtain ⟨hna, nd'⟩ := nodup_cons.mp nd
      rw [mem_append, not_or] at hna
      obtain ⟨h1, e1, r1⟩ := pushFront_eq (by rw [hd]; rfl) hm hna.2
      have hm1 : Seg (dlinks h1) none (some a) (a :: m) none := by
        rw [r1.links]
        exact insert_seg (l := []) hm (nodup_append.mp nd').2.1 hna.2
      have hl1 : Chain (dlinks h1) d.next l := hl.congr fun c hc => by
        rw [r1.links, linkIn_of_not_mem]
        · rintro rfl
          exact hna.1 hc
        · exact not_mem_nil
        · exact fun hc' => (nodup_append.mp nd').2.2 c hc c hc' rfl
      obtain ⟨h', acc', e', hs, ho, hi, hn, frame⟩ := ih hl1 hm1
        (nodup_middle.mpr nd) (Nat.le_of_succ_le_succ hlen)
      refine ⟨h', acc', ?_, ?_, ho.trans r1.homes, hi.trans r1.infos, hn.trans r1.next, ?_⟩
      · have hnext : e.next = d.next := congrArg DLink.next hlink
        simp only [takeLoop, he, e1, hnext, some_bind]
        exact e'
      · rw [reverse_cons, append_assoc]
        exact hs
      · intro c hc hc'
        rw [mem_cons, not_or] at hc
        rw [frame c hc.2 (by simp [hc.1, hc']), r1.links, linkIn_of_not_mem hc.1 not_mem_nil hc']

/-- Everything free is on one list, which starts at `acc`. -/
structure Taken (t : ExpireTree) (lists : Buckets) (free : List Addr) (acc : Ptr) : Prop where
  wheel : Wheel t lists free
  seg : Seg (dlinks t.nodes) none acc free none

variable {free : List Addr}

/-- `expire_take_bucket`.  The tail of `far` is reset by the caller. -/
lemma expireTakeBucket_spec (T : Taken t lists free acc) (b : Bucket) :
    ∃ t' free' acc', expireTakeBucket t acc b = some (t', acc') ∧ Kept t t' ∧
      t'.farTail = t.farTail ∧ (∀ c, c ∈ free' ↔ c ∈ lists b ∨ c ∈ free) ∧
      ∀ tail, tail = (update lists b [] .far).getLast? →
        Taken { t' with farTail := tail } (update lists b []) free' acc' := by
  have W := T.wheel
  have nd : (lists b ++ free).Nodup := by
    refine nodup_append.mpr ⟨W.family.nodup b, W.nodup, ?_⟩
    rintro c hc c' hc' rfl
    exact W.apart c hc' b hc
  obtain ⟨h', acc', e', hs, ho, hi, hn, frame⟩ := takeLoop_spec (chain_of_seg (W.family.seg b))
    T.seg nd (W.length_le b)
  have mem : ∀ c, c ∈ (lists b).reverse ++ free ↔ c ∈ lists b ∨ c ∈ free := by simp
  have apart : ∀ b', ∀ c ∈ update lists b [] b', c ∉ lists b ∧ c ∉ free := by
    intro b' c hc
    obtain ⟨e, hc⟩ := mem_update_nil.mp hc
    exact ⟨fun h => e (W.family.disjoint hc h), fun h => W.apart c h b' hc⟩
  have key : ∀ c, keyAt h' c = keyAt t.nodes c := fun c => by rw [keyAt, keyAt, hi]
  refine ⟨{ t with nodes := h', heads := update t.heads b none }, _, acc', ?_,
    ⟨hi, hn, rfl, rfl⟩, rfl, mem, fun tail htail => ⟨⟨?_, htail, ?_, ?_, ?_, ?_⟩, hs⟩⟩
  · simp [expireTakeBucket, e']
  · exact (W.family.take b).congr (fun b' c hc => frame c (apart b' c hc).1 (apart b' c hc).2)
      fun b' c _ => by rw [ho]
  · simp only [key]
    by_cases e : Bucket.far = b
    · subst e
      exact List.Pairwise.nil
    · rw [update_of_ne e]
      exact W.sorted
  · obtain ⟨h1, h2, h3⟩ := nodup_append.mp nd
    refine nodup_append.mpr ⟨nodup_reverse.mpr h1, h2, fun c hc => h3 c ?_⟩
    exact mem_reverse.mp hc
  · intro c hc b' hc'
    rcases (mem c).mp hc with h | h
    · exact (apart b' c hc').1 h
    · exact (apart b' c hc').2 h
  · intro c
    rw [hi, W.live c, mem c]
    constructor
    · rintro (h | ⟨b', h⟩)
      · exact .inl (.inr h)
      · by_cases e : b' = b
        · exact .inl (.inl (e ▸ h))
        · exact .inr ⟨b', mem_update_nil.mpr ⟨e, h⟩⟩
    · rintro ((h | h) | ⟨b', h⟩)
      · exact .inr ⟨b, h⟩
      · exact .inl h
      · exact .inr ⟨b', (mem_update_nil.mp h).2⟩

/-- Emptying a sequence of lists other than `far`. -/
lemma takeBuckets_spec {bs : List Bucket} (hfar : Bucket.far ∉ bs) (T : Taken t lists free acc) :
    ∃ t' free' acc', takeBuckets bs t acc = some (t', acc') ∧ Kept t t' ∧
        Taken t' (fun b => if b ∈ bs then [] else lists b) free' acc' ∧
        ∀ c, c ∈ free' ↔ (∃ b ∈ bs, c ∈ lists b) ∨ c ∈ free := by
  induction bs generalizing t lists free acc with
  | nil =>
    exact ⟨t, free, acc, rfl, .refl t, by simpa using T, by simp⟩
  | cons b bs ih =>
    rw [mem_cons, not_or] at hfar
    obtain ⟨t1, free1, acc1, e1, k1, tail1, mem1, T1⟩ := expireTakeBucket_spec T b
    have T1 : Taken t1 _ _ _ := T1 t1.farTail (by rw [tail1, T.wheel.tail, update_of_ne hfar.1])
    obtain ⟨t', free', acc', e', k', T', mem'⟩ := ih hfar.2 T1
    have hlists : (fun b' => if b' ∈ b :: bs then [] else lists b') =
        fun b' => if b' ∈ bs then [] else update lists b [] b' := by
      funext b'
      by_cases e : b' = b <;> simp [e]
    refine ⟨t', free', acc', ?_, k1.trans k', hlists ▸ T', fun c => ?_⟩
    · simp only [takeBuckets, e1]
      exact e'
    · rw [mem' c, mem1 c]
      constructor
      · rintro (⟨b', hb', h⟩ | h | h)
        · exact .inl ⟨b', mem_cons_of_mem _ hb', (mem_update_nil.mp h).2⟩
        · exact .inl ⟨b, mem_cons_self, h⟩
        · exact .inr h
      · rintro (⟨b', hb', h⟩ | h)
        · by_cases e : b' = b
          · exact .inr (.inl (e ▸ h))
          · exact .inl ⟨b', (mem_cons.mp hb').resolve_left e, mem_update_nil.mpr ⟨e, h⟩⟩
        · exact .inr (.inr h)

lemma mem_slotBuckets : b ∈ slotBuckets ↔ b ≠ .due ∧ b ≠ .far := by
  cases b <;> simp [slotBuckets]

lemma takeAll_eq {acc1 acc2 : Ptr} (e1 : expireTakeBucket t none .due = some (t1, acc1))
    (e2 : expireTakeBucket t1 acc1 .far = some (t2, acc2)) :
    takeAll t = takeBuckets slotBuckets { t2 with farTail := none } acc2 := by
  have e : takeBuckets [.due, .far] t none = some (t2, acc2) := by
    simp [takeBuckets, e1, e2]
  rw [takeAll, e, some_bind]

lemma takeAll_spec (W : Wheel t lists []) :
    ∃ t' free acc, takeAll t = some (t', acc) ∧ Kept t t' ∧ Taken t' (fun _ => []) free acc ∧
      ∀ c, c ∈ free ↔ ∃ b, c ∈ lists b := by
  have T0 : Taken t lists [] none := ⟨W, rfl⟩
  have hslots : Bucket.far ∉ slotBuckets := by simp [mem_slotBuckets]
  obtain ⟨t1, free1, acc1, e1, k1, tail1, mem1, T1⟩ := expireTakeBucket_spec T0 .due
  have T1 : Taken t1 _ _ _ := T1 t1.farTail (by rw [tail1, W.tail]; rfl)
  obtain ⟨t2, free2, acc2, e2, k2, -, mem2, T2⟩ := expireTakeBucket_spec T1 .far
  have T2 := T2 none (by rw [update_self]; rfl)
  obtain ⟨t', free, acc, e', k', T', mem'⟩ := takeBuckets_spec hslots T2
  refine ⟨t', free, acc, ?_, k1.trans (k2.trans ⟨k'.infos, k'.next, k'.cursor, k'.count⟩), ?_, ?_⟩
  · exact (takeAll_eq e1 e2).trans e'
  · have hlists : (fun b => if b ∈ slotBuckets then [] else
        update (update lists .due []) .far [] b) = fun _ => [] := by
      funext b
      by_cases hdue : b = .due
      · simp [hdue]
      by_cases hfar : b = .far
      · simp [hfar]
      · rw [if_pos (mem_slotBuckets.mpr ⟨hdue, hfar⟩)]
    rwa [hlists] at T'
  · intro c
    rw [mem' c, mem2 c, mem1 c]
    constructor
    · rintro (⟨b, hb, h⟩ | h | h | h)
      · exact ⟨b, (mem_update_nil.mp (mem_update_nil.mp h).2).2⟩
      · exact ⟨.far, h⟩
      · exact ⟨.due, h⟩
      · cases h
    · rintro ⟨b, h⟩
      by_cases hdue : b = .due
      · exact .inr (.inr (.inl (hdue ▸ h)))
      by_cases hfar : b = .far
      · subst hfar
        exact .inr (.inl h)
      · exact .inl ⟨b, mem_slotBuckets.mpr ⟨hdue, hfar⟩,
          mem_update_nil.mpr ⟨hfar, mem_update_nil.mpr ⟨hdue, h⟩⟩⟩

/-- Placing everything anew, once all lists are empty. -/
lemma Taken.walk (T : Taken t (fun _ => []) free acc) (hact : Placing act pl t.cursor) :
    ∃ t' lists', walkList act t.nodes.next t acc = some t' ∧ Wheel t' lists' [] ∧ Kept t t' ∧
      ∀ c b, c ∈ lists' b → b = pl (keyAt t.nodes c) := by
  have hlen : free.length ≤ t.nodes.next := Heap.length_le_next T.wheel.nodup fun c hc => by
    obtain ⟨e, he⟩ := T.wheel.get (.inl hc)
    rw [he]
    rfl
  obtain ⟨t', lists', e', W', k, mem⟩ := walkList_spec hact rfl T.wheel (chain_of_seg T.seg) hlen
  refine ⟨t', lists', e', W', k, fun c b h => ?_⟩
  rcases (mem c b).mp h with h | h
  · exact h.2
  · cases h

/-- `expire_reschedule_all` -/
lemma expireRescheduleAll_spec (W : Wheel t lists []) (wall : Int) :
    ∃ t' lists', expireRescheduleAll wall t = some t' ∧ Wheel t' lists' [] ∧ Kept t t' ∧
      ∀ c b, c ∈ lists' b → b = scheduleBucket (expireBase t wall) (keyAt t.nodes c) := by
  obtain ⟨t1, free, acc, e1, k1, T, -⟩ := takeAll_spec W
  obtain ⟨t', lists', e', W', k', place⟩ := T.walk (placing_schedule wall _)
  refine ⟨t', lists', ?_, W', k1.trans k', fun c b h => ?_⟩
  · simp only [expireRescheduleAll, e1]
    exact e'
  · rw [place c b h, k1.key c, k1.cursor]
    rfl

/-! ## Where a key may be

A node in a slot of level `1` waits for the cursor to reach the first second of
the slot's period that contains its key, and then cascades; so that second is
ahead of the cursor.  The thresholds of the levels are separate, since inside
one second of the advance they are brought up one after the other. -/

/-- The first second of the period of length `span` that contains `key`. -/
def startOf (span key : Int) : Int := key.tdiv span * span

/-- How far the cursor is, for each level and for `far`. -/
structure Reached where
  lv0 : Int
  lv1 : Int
  lv2 : Int
  lv3 : Int
  far : Int

def Reached.all (c : Int) : Reached := ⟨c, c, c, c, c⟩

/-- A node with this key may be in this bucket. -/
def Placed (r : Reached) (key : Int) : Bucket → Prop
  | .due => True
  | .lv0 i => r.lv0 < key ∧ i = slot0 key
  | .lv1 i => r.lv1 < startOf span0 key ∧ i = slotOf span0 key
  | .lv2 i => r.lv2 < startOf span1 key ∧ i = slotOf span1 key
  | .lv3 i => r.lv3 < startOf span2 key ∧ i = slotOf span2 key
  | .far => span3 ≤ key - r.far

/-- Every node may be where it is. -/
def AllPlaced (r : Reached) (t : ExpireTree) (lists : Buckets) : Prop :=
  ∀ b, ∀ a ∈ lists b, Placed r (keyAt t.nodes a) b

lemma Placed.mono {r r' : Reached} {key : Int} (h : Placed r key b)
    (h0 : r'.lv0 ≤ r.lv0) (h1 : r'.lv1 ≤ r.lv1) (h2 : r'.lv2 ≤ r.lv2) (h3 : r'.lv3 ≤ r.lv3)
    (hf : r'.far ≤ r.far) : Placed r' key b := by
  cases b with
  | due => trivial
  | lv0 i => exact ⟨Int.lt_of_le_of_lt h0 h.1, h.2⟩
  | lv1 i => exact ⟨Int.lt_of_le_of_lt h1 h.1, h.2⟩
  | lv2 i => exact ⟨Int.lt_of_le_of_lt h2 h.1, h.2⟩
  | lv3 i => exact ⟨Int.lt_of_le_of_lt h3 h.1, h.2⟩
  | far => exact Int.le_trans h (Int.sub_le_sub_left hf key)

/-- No level is ahead of `c`. -/
def Reached.Within (r : Reached) (c : Int) : Prop :=
  r.lv0 ≤ c ∧ r.lv1 ≤ c ∧ r.lv2 ≤ c ∧ r.lv3 ≤ c ∧ r.far ≤ c

variable {c key : Int}

lemma Placed.within {r : Reached} (h : Placed (.all c) key b) (hr : r.Within c) : Placed r key b :=
  h.mono hr.1 hr.2.1 hr.2.2.1 hr.2.2.2.1 hr.2.2.2.2

lemma Placed.earlier {c' : Int} (h : Placed (.all c) key b) (hc : c' ≤ c) :
    Placed (.all c') key b :=
  h.within ⟨hc, hc, hc, hc, hc⟩

/-- `expire_schedule` puts a node where its key may be. -/
lemma placed_scheduleBucket (hc : 0 < c) : Placed (.all c) key (scheduleBucket c key) := by
  have start : ∀ span : Int, 0 < span → c < key → key - span < startOf span key := by
    intro span hs hk
    rw [startOf, Int.tdiv_eq_ediv_of_nonneg (by omega)]
    have h₁ := Int.emod_lt_of_pos key hs
    have h₂ := Int.mul_ediv_add_emod key span
    rw [Int.mul_comm] at h₂
    omega
  simp only [scheduleBucket]
  split_ifs with h h0 h1 h2 h3
  · trivial
  · exact ⟨by simp only [Reached.all]; omega, rfl⟩
  · have := start span0 (by decide) (by omega)
    exact ⟨by simp only [Reached.all]; omega, rfl⟩
  · have := start span1 (by decide) (by omega)
    exact ⟨by simp only [Reached.all]; omega, rfl⟩
  · have := start span2 (by decide) (by omega)
    exact ⟨by simp only [Reached.all]; omega, rfl⟩
  · exact Int.not_lt.mp h3

lemma scheduleBucket_eq_due : scheduleBucket c key = .due ↔ key ≤ c := by
  simp only [scheduleBucket]
  split_ifs with h h0 h1 h2 h3
  · exact iff_of_true rfl (by omega)
  all_goals exact iff_of_false (by simp) (by omega)

/-- What is not on `due` is not due. -/
lemma Placed.lt (h : Placed (.all c) key b) (hc : 0 < c) (hb : b ≠ .due) : c < key := by
  have start : ∀ span : Int, 0 < span → c < startOf span key → c < key := by
    intro span hs hk
    rw [startOf] at hk
    rcases Int.lt_or_le key 0 with hneg | hpos
    · have hdiv : 0 ≤ (-key).tdiv span := Int.tdiv_nonneg (by omega) (Int.le_of_lt hs)
      have := Int.mul_nonneg hdiv (Int.le_of_lt hs)
      rw [Int.neg_tdiv, Int.neg_mul] at this
      omega
    · rw [Int.tdiv_eq_ediv_of_nonneg hpos] at hk
      exact Int.lt_of_lt_of_le hk (Int.ediv_mul_le key (Int.ne_of_gt hs))
  cases b with
  | due => exact absurd rfl hb
  | lv0 i => exact h.1
  | lv1 i => exact start span0 (by decide) h.1
  | lv2 i => exact start span1 (by decide) h.1
  | lv3 i => exact start span2 (by decide) h.1
  | far =>
    have h : span3 ≤ key - c := h
    have : 0 < span3 := by decide
    omega

/-- The cursor moves on by one second.  A node with a period that starts in that
second is in the slot that is opened in it. -/
lemma startOf_lt_succ {span : Int} (hs : 0 < span) (h : c < startOf span key)
    (hslot : (c + 1).tmod span = 0 → slotOf span key ≠ slotOf span (c + 1)) :
    c + 1 < startOf span key := by
  refine Int.lt_iff_le_and_ne.mpr ⟨h, fun e => ?_⟩
  have hmul : (c + 1).tdiv span = key.tdiv span := by
    rw [e, startOf, Int.mul_tdiv_cancel _ (by omega)]
  refine hslot ?_ ?_
  · rw [e, startOf, Int.mul_tmod_left]
  · rw [slotOf, slotOf, hmul]

section Open

variable {r : Reached} {c key : Int} {b : Bucket}

/-! What stays in its slot when the cursor moves from `c` to `c + 1` and the slots
that open in that second are emptied. -/

variable (h : Placed r key b)
include h

lemma Placed.open0 (hr : r.lv0 = c) (hne : b ≠ .lv0 (slot0 (c + 1))) :
    Placed { r with lv0 := c + 1 } key b := by
  cases b with
  | lv0 i =>
    refine ⟨?_, h.2⟩
    have h1 : r.lv0 < key := h.1
    have h2 : key ≠ c + 1 := by
      rintro rfl
      exact hne (by rw [h.2])
    show c + 1 < key
    omega
  | _ => exact h

lemma Placed.open1 (hr : r.lv1 = c)
    (hne : (c + 1).tmod span0 = 0 → b ≠ .lv1 (slotOf span0 (c + 1))) :
    Placed { r with lv1 := c + 1 } key b := by
  cases b with
  | lv1 i =>
    refine ⟨startOf_lt_succ (by decide) (hr ▸ h.1) fun h0 e => hne h0 ?_, h.2⟩
    rw [h.2, e]
  | _ => exact h

lemma Placed.open2 (hr : r.lv2 = c)
    (hne : (c + 1).tmod span1 = 0 → b ≠ .lv2 (slotOf span1 (c + 1))) :
    Placed { r with lv2 := c + 1 } key b := by
  cases b with
  | lv2 i =>
    refine ⟨startOf_lt_succ (by decide) (hr ▸ h.1) fun h0 e => hne h0 ?_, h.2⟩
    rw [h.2, e]
  | _ => exact h

lemma Placed.open3 (hr : r.lv3 = c)
    (hne : (c + 1).tmod span2 = 0 → b ≠ .lv3 (slotOf span2 (c + 1))) :
    Placed { r with lv3 := c + 1 } key b := by
  cases b with
  | lv3 i =>
    refine ⟨startOf_lt_succ (by decide) (hr ▸ h.1) fun h0 e => hne h0 ?_, h.2⟩
    rw [h.2, e]
  | _ => exact h

end Open

/-! ## One second of the advance -/

/-- The nodes are the same, with their keys and metrics. -/
structure SameEntries (t t' : ExpireTree) : Prop where
  infos : Alligator.infos t'.nodes = Alligator.infos t.nodes
  next : t'.nodes.next = t.nodes.next
  count : t'.count = t.count

lemma SameEntries.refl (t : ExpireTree) : SameEntries t t := ⟨rfl, rfl, rfl⟩

lemma SameEntries.trans (s : SameEntries t t1) (s' : SameEntries t1 t2) : SameEntries t t2 :=
  ⟨s'.infos.trans s.infos, s'.next.trans s.next, s'.count.trans s.count⟩

lemma Kept.same {t' : ExpireTree} (k : Kept t t') : SameEntries t t' :=
  ⟨k.infos, k.next, k.count⟩

variable {c : Int}

section Tick

variable {t : ExpireTree} {lists : Buckets} {r : Reached}

/-- Emptying one list and placing its nodes anew, where the new places and the
places of all other nodes are good for `r'`. -/
lemma rewalk_placed (b : Bucket) (r' : Reached) (W : Wheel t lists []) (hb : b ≠ .far)
    (hact : Placing act pl t.cursor) (placed : AllPlaced r t lists)
    (anew : ∀ key, Placed r' key (pl key))
    (stay : ∀ key b', b' ≠ b → Placed r key b' → Placed r' key b') :
    ∃ t' lists', walkList act t.nodes.next { t with heads := update t.heads b none }
        (t.heads b) = some t' ∧ Wheel t' lists' [] ∧ Kept t t' ∧ AllPlaced r' t' lists' := by
  obtain ⟨t', lists', e', W', k, mem⟩ := rewalk_spec W hb hact
  refine ⟨t', lists', e', W', k, fun b' c hc => ?_⟩
  rw [k.key c]
  rcases mem c b' hc with ⟨-, rfl⟩ | ⟨hne, h⟩
  · exact anew _
  · exact stay _ b' hne (placed b' c h)

/-- The cascade of a slot that the cursor opens, or nothing. -/
lemma cascadeIf_spec (opens : Prop) [Decidable opens] (b : Bucket) (r' : Reached) (wall : Int)
    (W : Wheel t lists []) (hb : b ≠ .far) (hcur : t.cursor = c) (hc : 0 < c)
    (placed : AllPlaced r t lists) (hr : r'.Within c)
    (stay : ∀ key b', (opens → b' ≠ b) → Placed r key b' → Placed r' key b') :
    ∃ t' lists', cascadeIf opens wall t b = some t' ∧ Wheel t' lists' [] ∧ Kept t t' ∧
      AllPlaced r' t' lists' := by
  by_cases h : opens
  · rw [cascadeIf, if_pos h]
    have hact := placing_schedule wall t.cursor
    rw [hcur, if_pos hc, ← hcur] at hact
    exact rewalk_placed b r' W hb hact placed
      (fun key => (placed_scheduleBucket (hcur ▸ hc)).within (hcur ▸ hr))
      fun key b' hne => stay key b' fun _ => hne
  · rw [cascadeIf, if_neg h]
    exact ⟨t, lists, rfl, W, .refl t,
      fun b' a ha => stay _ b' (fun h' => absurd h' h) (placed b' a ha)⟩

/-- `wheelTick` brings every level up by one second. -/
lemma wheelTick_spec (wall now : Int) (W : Wheel t lists []) (hc : t.cursor = c)
    (hpos : 0 < c) (hf : f ≤ c) (placed : AllPlaced ⟨c, c, c, c, f⟩ t lists) :
    ∃ t' lists', wheelTick wall now t = some t' ∧ Wheel t' lists' [] ∧ SameEntries t t' ∧
      t'.cursor = c + 1 ∧ AllPlaced ⟨c + 1, c + 1, c + 1, c + 1, f⟩ t' lists' := by
  have hpos' : 0 < c + 1 := by omega
  have hle : c ≤ c + 1 := by omega
  have hf' : f ≤ c + 1 := by omega
  have c0 : t.cursor + 1 = c + 1 := by rw [hc]
  have W0 : Wheel { t with cursor := t.cursor + 1 } lists [] := { W with }
  obtain ⟨t1, lists1, e1, W1, k1, p1⟩ := cascadeIf_spec ((t.cursor + 1) % span0 = 0)
    (.lv1 (slotOf span0 (t.cursor + 1))) ⟨c, c + 1, c, c, f⟩ wall W0 (by simp) c0 hpos' placed
    ⟨hle, Int.le_refl _, hle, hle, hf'⟩ fun key b' hne h => h.open1 rfl fun h0 => by
      rw [c0, ← Int.tmod_eq_emod_of_nonneg (Int.le_of_lt hpos')] at hne
      exact hne h0
  have c1 : t1.cursor = c + 1 := k1.cursor.trans c0
  obtain ⟨t2, lists2, e2, W2, k2, p2⟩ := cascadeIf_spec (t1.cursor.tmod span1 = 0)
    (.lv2 (slotOf span1 t1.cursor)) ⟨c, c + 1, c + 1, c, f⟩ wall W1 (by simp) c1 hpos' p1
    ⟨hle, Int.le_refl _, Int.le_refl _, hle, hf'⟩ fun key b' hne h => h.open2 rfl (c1 ▸ hne)
  have c2 : t2.cursor = c + 1 := k2.cursor.trans c1
  obtain ⟨t3, lists3, e3, W3, k3, p3⟩ := cascadeIf_spec (t2.cursor.tmod span2 = 0)
    (.lv3 (slotOf span2 t2.cursor)) ⟨c, c + 1, c + 1, c + 1, f⟩ wall W2 (by simp) c2 hpos' p2
    ⟨hle, Int.le_refl _, Int.le_refl _, Int.le_refl _, hf'⟩ fun key b' hne h =>
      h.open3 rfl (c2 ▸ hne)
  have c3 : t3.cursor = c + 1 := k3.cursor.trans c2
  have hact := placing_slotVisit wall now t3.cursor
  obtain ⟨t', lists', e', W', k', p'⟩ := rewalk_placed (.lv0 (slot0 t3.cursor))
    ⟨c + 1, c + 1, c + 1, c + 1, f⟩ W3 (by simp) hact p3
    (fun key => by
      rw [c3]
      split_ifs
      · trivial
      · exact (placed_scheduleBucket hpos').within
          ⟨Int.le_refl _, Int.le_refl _, Int.le_refl _, Int.le_refl _, hf'⟩)
    fun key b' hne h => h.open0 rfl (c3 ▸ hne)
  refine ⟨t', lists', ?_, W', ?_, k'.cursor.trans c3, p'⟩
  · simp only [wheelTick, e1, e2, e3, some_bind]
    exact e'
  · exact SameEntries.trans ⟨k1.infos, k1.next, k1.count⟩ (k2.trans (k3.trans k')).same

/-- The loop over the seconds. -/
lemma wheelTicks_spec (wall now : Int)
    (W : Wheel t lists []) (hc : t.cursor = c) (hpos : 0 < c) (hf : f ≤ c) (hle : c ≤ now)
    (hfuel : (now - c).toNat ≤ fuel) (placed : AllPlaced ⟨c, c, c, c, f⟩ t lists) :
    ∃ t' lists', wheelTicks wall now fuel t = some t' ∧ Wheel t' lists' [] ∧ SameEntries t t' ∧
        t'.cursor = now ∧ AllPlaced ⟨now, now, now, now, f⟩ t' lists' := by
  induction fuel generalizing t lists c with
  | zero =>
    have e : c = now := by omega
    subst e
    refine ⟨t, lists, ?_, W, .refl t, hc, placed⟩
    rw [wheelTicks, if_neg (by omega)]
  | succ fuel ih =>
    by_cases h : c < now
    · obtain ⟨t1, lists1, e1, W1, s1, c1, p1⟩ := wheelTick_spec wall now W hc hpos hf placed
      obtain ⟨t', lists', e', W', s', c', p'⟩ := ih W1 c1 (by omega) (by omega) (by omega)
        (by omega) p1
      refine ⟨t', lists', ?_, W', s1.trans s', c', p'⟩
      rw [wheelTicks, hc, if_pos h, e1, bind_eq_bind]
      exact e'
    · have e : c = now := by omega
      subst e
      refine ⟨t, lists, ?_, W, .refl t, hc, placed⟩
      rw [wheelTicks, hc, if_neg h]

lemma AllPlaced.far (placed : AllPlaced ⟨c, c, c, c, f⟩ t lists)
    (hfar : ∀ a ∈ lists .far, span3 ≤ keyAt t.nodes a - c) : AllPlaced (.all c) t lists := by
  intro b a ha
  have := placed b a ha
  cases b with
  | far => exact hfar a ha
  | _ => exact this

lemma reschedule_spec (W : Wheel t lists []) {n : Addr} (hn : n ∈ lists b) :
    ∃ t1 t' lists', expireUnlink t n = some t1 ∧ expireSchedule wall t1 n = some t' ∧
      Wheel t' lists' [] ∧ Kept t t' ∧
      ∀ c b', c ∈ lists' b' ↔ (c = n ∧ b' = scheduleBucket (expireBase t wall) (keyAt t.nodes n)) ∨
        (c ≠ n ∧ c ∈ lists b') := by
  obtain ⟨t1, lists1, e1, W1, removes, k1, -⟩ := expireUnlink_spec W hn
  obtain ⟨t', lists', e', W', adds, k', -⟩ := expireSchedule_spec W1 wall
  refine ⟨t1, t', lists', e1, e', W', k1.trans k', fun c b' => ?_⟩
  rw [adds c b', removes c b', k1.key n, expireBase, expireBase, k1.cursor]

/-- The nodes of `far` that the cursor came near enough to leave it. -/
lemma farEnter_spec (hpos : 0 < c) (hf : f ≤ c) (W : Wheel t lists []) (hc : t.cursor = c)
    (hlen : (lists .far).length ≤ fuel) (placed : AllPlaced ⟨c, c, c, c, f⟩ t lists) :
    ∃ t' lists', farEnter wall fuel t = some t' ∧ Wheel t' lists' [] ∧ Kept t t' ∧
        AllPlaced (.all c) t' lists' := by
  induction fuel generalizing t lists with
  | zero =>
    have hnil := length_eq_zero_iff.mp (Nat.le_zero.mp hlen)
    refine ⟨t, lists, ?_, W, .refl t, placed.far (by simp [hnil])⟩
    rw [farEnter, farNear, (W.family.seg .far).head, hnil]
    rfl
  | succ fuel ih =>
    have hhead := (W.family.seg .far).head
    cases hl : lists .far with
    | nil =>
      refine ⟨t, lists, ?_, W, .refl t, placed.far (by simp [hl])⟩
      rw [farEnter, farNear, hhead, hl]
      rfl
    | cons n m =>
      have hn : n ∈ lists .far := hl ▸ mem_cons_self
      rw [hl] at hhead
      obtain ⟨e, he⟩ := W.get (.inr ⟨_, hn⟩)
      by_cases h : e.key - c < span3
      · obtain ⟨t1, t2, lists2, e1, e2, W2, k2, mem⟩ := reschedule_spec wall W hn
        have hplace : expireBase t wall = c := by rw [expireBase, hc, if_pos hpos]
        rw [hplace, keyAt_eq he] at mem
        have hb : Placed (.all c) e.key (scheduleBucket c e.key) := placed_scheduleBucket hpos
        have hnear : scheduleBucket c e.key ≠ .far := by
          intro hfar
          rw [hfar] at hb
          exact absurd h (Int.not_lt.mpr hb)
        have hlt : (lists2 .far).length < (lists .far).length :=
          length_lt_of_left (W2.family.nodup .far) hn fun a ha =>
            ((mem a .far).mp ha).resolve_left fun h => hnear h.2.symm
        have placed2 : AllPlaced ⟨c, c, c, c, f⟩ t2 lists2 := by
          intro b a ha
          rw [k2.key a]
          rcases (mem a b).mp ha with ⟨rfl, rfl⟩ | ⟨-, ha⟩
          · rw [keyAt_eq he]
            exact hb.within ⟨Int.le_refl _, Int.le_refl _, Int.le_refl _, Int.le_refl _, hf⟩
          · exact placed b a ha
        obtain ⟨t', lists', e', W', k', p'⟩ := ih W2 (k2.cursor.trans hc) (by omega) placed2
        refine ⟨t', lists', ?_, W', k2.trans k', p'⟩
        simp only [farEnter, farNear, hhead, List.head?_cons, he, hc, if_pos h, e1, e2,
          some_bind, Option.pure_def]
        exact e'
      · refine ⟨t, lists, ?_, W, .refl t, placed.far fun a ha => ?_⟩
        · simp [farEnter, farNear, hhead, he, hc, if_neg h]
        · -- the list is sorted, so its first key decides
          have hsorted := W.sorted
          rw [hl, pairwise_cons] at hsorted
          rw [hl, mem_cons] at ha
          have hle : e.key ≤ keyAt t.nodes a := by
            rcases ha with rfl | ha
            · exact Int.le_of_eq (keyAt_eq he).symm
            · exact keyAt_eq he ▸ hsorted.1 a ha
          omega

end Tick

/-! ## The advance -/

/-- The wheel is well formed, and once the cursor is set everything is where it
may be. -/
structure Timed (t : ExpireTree) (lists : Buckets) : Prop where
  wheel : Wheel t lists []
  placed : 0 < t.cursor → AllPlaced (.all t.cursor) t lists

lemma Timed.due (T : Timed t lists) {a : Addr}
    (hpos : 0 < t.cursor) (ha : a ∈ lists b) (hkey : keyAt t.nodes a ≤ t.cursor) : b = .due := by
  by_contra hb
  exact absurd ((T.placed hpos b a ha).lt hpos hb) (Int.not_lt.mpr hkey)

lemma expireDrainAll_spec (W : Wheel t lists []) :
    ∃ t' lists', expireDrainAll t = some t' ∧ Timed t' lists' ∧ Kept t t' ∧
      ∀ c b, c ∈ lists' b → b = .due := by
  obtain ⟨t1, free, acc, e1, k1, T, -⟩ := takeAll_spec W
  have hdue : update t1.heads .due none = t1.heads :=
    update_eq_self_iff.mpr (T.wheel.family.seg .due).symm
  obtain ⟨t', lists', e', W', k', place⟩ := T.walk placing_due
  refine ⟨t', lists', ?_, ⟨W', fun _ b a ha => ?_⟩, k1.trans k', place⟩
  · simp only [expireDrainAll, e1, some_bind, hdue]
    exact e'
  · rw [place a b ha]
    trivial

lemma Wheel.rebuild (W : Wheel t lists []) (wall now : Int) :
    ∃ t' lists', expireRescheduleAll wall { t with cursor := now } = some t' ∧ Timed t' lists' ∧
      SameEntries t t' ∧ t'.cursor = now := by
  have W : Wheel { t with cursor := now } lists [] := { W with }
  obtain ⟨t', lists', e', W', k, place⟩ := expireRescheduleAll_spec W wall
  have hcur : t'.cursor = now := k.cursor
  refine ⟨t', lists', e', ⟨W', fun hpos b a ha => ?_⟩, ⟨k.infos, k.next, k.count⟩, hcur⟩
  rw [hcur] at hpos ⊢
  rw [place a b ha, k.key a, expireBase, if_pos hpos]
  exact placed_scheduleBucket hpos

/-- The seconds up to a later time, wherever the first nodes of `far` are. -/
lemma Wheel.forward (W : Wheel t lists []) (hpos : 0 < c) (hf : f ≤ c) (hc : t.cursor = c)
    (placed : AllPlaced ⟨c, c, c, c, f⟩ t lists) (wall : Int) {now : Int} (hle : c ≤ now) :
    ∃ t1 t' lists', wheelTicks wall now (now - c).toNat t = some t1 ∧
      farEnter wall t1.nodes.next t1 = some t' ∧ Timed t' lists' ∧ SameEntries t t' ∧
      t'.cursor = now := by
  obtain ⟨t1, lists1, e1, W1, s1, c1, p1⟩ := wheelTicks_spec wall now W hc hpos hf hle
    (Nat.le_refl _) placed
  obtain ⟨t', lists', e', W', k', p'⟩ := farEnter_spec wall (by omega) (by omega) W1 c1
    (W1.length_le .far) p1
  have hcur : t'.cursor = now := k'.cursor.trans c1
  exact ⟨t1, t', lists', e1, e', ⟨W', fun _ => hcur ▸ p'⟩, s1.trans k'.same, hcur⟩

/-- `expire_wheel_advance`: the wheel stays well formed, and the cursor is at a
positive new time. -/
lemma expireWheelAdvance_spec (T : Timed t lists) (wall now : Int) :
    ∃ t' lists', expireWheelAdvance wall t now = some t' ∧ Timed t' lists' ∧ SameEntries t t' ∧
      (0 < now → t'.cursor = now) := by
  unfold expireWheelAdvance
  split_ifs with h h0 hback hjump
  · obtain ⟨t', lists', e', T', s, c⟩ := T.wheel.rebuild wall now
    exact ⟨t', lists', e', T', s, fun _ => c⟩
  · exact ⟨t, lists, rfl, T, .refl t, fun h => by omega⟩
  · refine ⟨_, lists, rfl, ⟨{ T.wheel with }, ?_⟩, ⟨rfl, rfl, rfl⟩, fun _ => rfl⟩
    exact fun _ b a ha => (T.placed (by omega) b a ha).earlier (Int.le_of_lt hback)
  · obtain ⟨t', lists', e', T', s, c⟩ := T.wheel.rebuild wall now
    exact ⟨t', lists', e', T', s, fun _ => c⟩
  · obtain ⟨t1, t', lists', e1, e', T', s, c⟩ := T.wheel.forward (by omega) (Int.le_refl _) rfl
      (T.placed (by omega)) wall (Int.not_lt.mp hback)
    refine ⟨t', lists', ?_, T', s, fun _ => c⟩
    rw [e1, bind_eq_bind]
    exact e'

end Alligator
