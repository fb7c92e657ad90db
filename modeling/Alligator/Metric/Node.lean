import Alligator.Lib.RedBlack
import Alligator.Metric.Labels

/-!
# Metric nodes and rotations

A metric node carries a series (label chain, value), its two children and
colour, and a pointer to its expire node.  The tree algorithms read and write
the links only.  `links` and `payload` are the two views of a heap of metric
nodes, and `Rewires A h h'` says that a computation changed nothing but links at
the addresses of `A`.

The specifications of `metricSingle` and `metricDouble` are stated on shapes: the
heap holds one tree before and the rotated one after.
-/

namespace Alligator

open Memory RedBlack List Function CTree Link

variable {A : List Addr} {a r s : Addr} {l : Link} {t x y : CTree} {c cs : Color}

/-- `DATATYPE_*`: how the value of a series is to be read. -/
inductive DataType where
  | none
  | double
  | int
  | uint
deriving DecidableEq

/-- The sample that a metric node stores.  The value is the 64-bit union of a
double, a signed and an unsigned integer. -/
structure Series where
  labels : Labels
  type : DataType
  value : BitVec 64
  percentileBuf : Ptr
deriving DecidableEq

/-- `metric_node`: `child[LEFT]`, `child[RIGHT]` and `color` are the link. -/
structure MetricNode extends Link, Series where
  expireNode : Ptr
deriving DecidableEq

abbrev Nodes := Heap MetricNode

variable {h h' h₁ : Nodes}

def links (h : Nodes) : Links := h.view MetricNode.toLink

/-- Everything else in the nodes. -/
def payload (h : Nodes) : Addr → Option (Series × Ptr) :=
  h.view fun n => (n.toSeries, n.expireNode)

def isRed (h : Nodes) (p : Ptr) : Option Bool :=
  match p with
  | none => some false
  | some a => (h.get a).map fun n => decide (n.color = .red)

/-- Read `p->child[d]`. -/
def child (h : Nodes) (p : Ptr) (d : Dir) : Option Ptr := (h.deref p).map fun n => n.child d

/-- Write `p->child[d]`. -/
def setChild (h : Nodes) (p : Ptr) (d : Dir) (c : Ptr) : Option Nodes :=
  h.modify p fun n => { n with toLink := n.toLink.setChild d c }

/-- Write `p->color`. -/
def setColor (h : Nodes) (p : Ptr) (c : Color) : Option Nodes :=
  h.modify p fun n => { n with color := c }

/-- `metric_single`: the child of `root` opposite to `dir` takes its place. -/
def metricSingle (h : Nodes) (root : Ptr) (dir : Dir) : Option (Nodes × Ptr) := do
  let save ← child h root (!dir)
  let inner ← child h save dir
  let h ← setChild h root (!dir) inner
  let h ← setChild h save dir root
  let h ← setColor h root .red
  let h ← setColor h save .black
  return (h, save)

/-- `metric_double`: the inner grandchild of `root` takes its place. -/
def metricDouble (h : Nodes) (root : Ptr) (dir : Dir) : Option (Nodes × Ptr) := do
  let outer ← child h root (!dir)
  let (h, inner) ← metricSingle h outer (!dir)
  let h ← setChild h root (!dir) inner
  metricSingle h root dir

/-! ## One read, one write -/

/-- The computation from `h` to `h'` wrote links at the addresses of `A` only. -/
structure Rewires (A : List Addr) (h h' : Nodes) : Prop where
  off : ∀ b, b ∉ A → links h' b = links h b
  payload : payload h' = payload h
  next : h'.next = h.next

lemma Rewires.refl (A : List Addr) (h : Nodes) : Rewires A h h := ⟨fun _ _ => rfl, rfl, rfl⟩

lemma Rewires.mono {B : List Addr} (r : Rewires A h h') (hAB : A ⊆ B) :
    Rewires B h h' := ⟨fun b hb => r.off b fun hA => hb (hAB hA), r.payload, r.next⟩

variable {h2 h3 : Nodes}

lemma Rewires.trans (r : Rewires A h₁ h2) (r' : Rewires A h2 h3) : Rewires A h₁ h3 :=
  ⟨fun b hb => (r'.off b hb).trans (r.off b hb), r'.payload.trans r.payload, r'.next.trans r.next⟩

lemma Rewires.of_update {l : Option Link} (hl : links h' = update (links h) a l)
    (hp : Alligator.payload h' = Alligator.payload h) (hn : h'.next = h.next) (ha : a ∈ A) :
    Rewires A h h' := by
  refine ⟨fun b hb => ?_, hp, hn⟩
  rw [hl, update_of_ne]
  rintro rfl
  exact hb ha

lemma get_of_lies {c : Color} {x y : CTree} (ht : (CTree.node a c x y).Lies (links h)) :
    ∃ n, h.get a = some n ∧ n.left = x.root ∧ n.right = y.root := by
  obtain ⟨n, hn, e⟩ := Heap.view_eq_some.mp ht.1
  exact ⟨n, hn, congrArg Link.left e, congrArg Link.right e⟩

section

variable (hl : links h a = some l)
include hl

lemma child_eq (d : Dir) : child h (some a) d = some (l.child d) := by
  obtain ⟨n, hn, rfl⟩ := Heap.view_eq_some.mp hl
  simp [child, hn]

omit hl in
lemma isRed_root (ht : t.Lies (links h)) : isRed h t.root = some (decide (t.color = .red)) := by
  cases t with
  | nil => rfl
  | node a c l r =>
    obtain ⟨n, hn, e⟩ := Heap.view_eq_some.mp ht.1
    obtain rfl : n.color = c := congrArg Link.color e
    simp only [isRed, root, hn]
    rfl

lemma modify_link (f : Link → Link) :
    ∃ h', (h.modify (some a) fun n => { n with toLink := f n.toLink }) = some h' ∧
      links h' = update (links h) a (some (f l)) ∧ payload h' = payload h ∧ h'.next = h.next := by
  obtain ⟨n, hn, rfl⟩ := Heap.view_eq_some.mp hl
  exact ⟨_, Heap.modify_some hn _, Heap.view_update hn rfl, Heap.view_update_same _ _ fun _ => rfl,
    rfl⟩

lemma setChild_eq (d : Dir) (p : Ptr) : ∃ h', setChild h (some a) d p = some h' ∧
      links h' = update (links h) a (some (l.setChild d p)) ∧ payload h' = payload h ∧
      h'.next = h.next :=
  modify_link hl fun l => l.setChild d p

lemma setColor_eq (c : Color) : ∃ h', setColor h (some a) c = some h' ∧
      links h' = update (links h) a (some { l with color := c }) ∧
      payload h' = payload h ∧ h'.next = h.next :=
  modify_link hl fun l => { l with color := c }

end

/-! ## Recolouring and relinking trees -/

variable {d dir : Dir} {t' z : CTree}

/-- Paint the root of a tree in memory. -/
lemma setColor_lies (ht : (mk d a c x y).Lies (links h))
    (nd : (mk d a c x y).addrs.Nodup) (c' : Color) : ∃ h', setColor h (some a) c' = some h' ∧
      (mk d a c' x y).Lies (links h') ∧ Rewires [a] h h' := by
  obtain ⟨ha, hx, hy⟩ := lies_mk.mp ht
  obtain ⟨hax, hay, -⟩ := nodup_mk.mp nd
  obtain ⟨h', e, hl, hp, hn⟩ := setColor_eq ha c'
  have off : Rewires [a] h h' := .of_update hl hp hn (mem_singleton.mpr rfl)
  refine ⟨h', e, lies_mk.mpr ⟨?_, hx.congr fun b hb => ?_, hy.congr fun b hb => ?_⟩, off⟩
  · rw [hl, update_self]
    cases d <;> rfl
  · exact off.off b fun hm => hax (mem_singleton.mp hm ▸ hb)
  · exact off.off b fun hm => hay (mem_singleton.mp hm ▸ hb)

/-- A computation on the tree under a path that keeps its root needs no
relinking. -/
lemma lies_keep_root {ctx : Path} (ht : (plug ctx t).Lies (links h))
    (nd : (plug ctx t).addrs.Nodup) (r : Rewires t.addrs h h') (ht' : t'.Lies (links h'))
    (root : t'.root = t.root) : (plug ctx t').Lies (links h') := by
  refine lies_plug.mpr ⟨?_, ht'⟩
  rw [root]
  exact (lies_plug.mp ht).1.congr fun b hb => r.off b (path_apart ctx t nd b hb)

/-- After a computation on the tree under a path, point the parent to the
result. -/
lemma setChild_under (f : Frame) (ctx : Path)
    (ht : (plug (f :: ctx) t).Lies (links h)) (nd : (plug (f :: ctx) t).addrs.Nodup)
    (r : Rewires t.addrs h h₁) (ht' : t'.Lies (links h₁)) (sub : t'.addrs ⊆ t.addrs) :
    ∃ h', setChild h₁ (some f.a) f.d t'.root = some h' ∧
      (plug (f :: ctx) t').Lies (links h') ∧ Rewires (f.a :: t.addrs) h h' := by
  have hf : f.a ∉ t.addrs := path_apart _ _ nd _ (mem_path_cons.mpr (.inl rfl))
  have hold : links h₁ f.a = some (of f.d f.c t.root f.sib.root) := by
    rw [r.off _ hf]
    exact (lies_plug.mp ht).1.1
  obtain ⟨h', e, hl, hp, hn⟩ := setChild_eq hold f.d t'.root
  rw [setChild_of] at hl
  have step : Rewires (f.a :: t.addrs) h₁ h' := .of_update hl hp hn mem_cons_self
  refine ⟨h', e, ?_, (r.mono (subset_cons_self _ _)).trans step⟩
  refine lies_replace ht nd (ht'.congr fun b hb => ?_) ?_ fun b hb hbf => ?_
  · rw [hl, update_of_ne]
    rintro rfl
    exact hf (sub hb)
  · rw [hl, update_self]
  · rw [hl, update_of_ne hbf, r.off b (path_apart _ _ nd b hb)]

/-- `metric_single` on pointers. -/
lemma metricSingle_eq {x y z : Ptr} (hr : links h r = some (of dir c x (some s)))
    (hs : links h s = some (of dir cs y z)) (ne : r ≠ s) :
    ∃ h', metricSingle h (some r) dir = some (h', some s) ∧
      links h' r = some (of dir .red x y) ∧
      links h' s = some (of dir .black (some r) z) ∧ Rewires [r, s] h h' := by
  have mr : r ∈ [r, s] := by simp
  have ms : s ∈ [r, s] := by simp
  obtain ⟨h₁, e1, l1, p1, n1⟩ := setChild_eq hr (!dir) y
  rw [setChild_of_not] at l1
  have hs1 : links h₁ s = some (of dir cs y z) := by
    rw [l1, update_of_ne ne.symm, hs]
  obtain ⟨h2, e2, l2, p2, n2⟩ := setChild_eq hs1 dir (some r)
  rw [setChild_of] at l2
  have hr2 : links h2 r = some (of dir c x y) := by
    rw [l2, update_of_ne ne, l1, update_self]
  obtain ⟨h3, e3, l3, p3, n3⟩ := setColor_eq hr2 .red
  have hs3 : links h3 s = some (of dir cs (some r) z) := by
    rw [l3, update_of_ne ne.symm, l2, update_self]
  obtain ⟨h4, e4, l4, p4, n4⟩ := setColor_eq hs3 .black
  refine ⟨h4, ?_, ?_, ?_, ?_⟩
  · simp [metricSingle, child_eq hr, child_eq hs, e1, e2, e3, e4]
  · rw [l4, update_of_ne ne, l3, update_self]
    cases dir <;> rfl
  · rw [l4, update_self]
    cases dir <;> rfl
  · exact ((Rewires.of_update l1 p1 n1 mr).trans (.of_update l2 p2 n2 ms)).trans
      ((Rewires.of_update l3 p3 n3 mr).trans (.of_update l4 p4 n4 ms))

/-- `metric_single` on shapes. -/
lemma metricSingle_lies (ht : (mk dir r c x (.mk dir s cs y z)).Lies (links h))
    (nd : (mk dir r c x (.mk dir s cs y z)).addrs.Nodup) :
    ∃ h', metricSingle h (some r) dir = some (h', some s) ∧
      (mk dir s .black (.mk dir r .red x y) z).Lies (links h') ∧ Rewires [r, s] h h' := by
  obtain ⟨hr, hx, hsub⟩ := lies_mk.mp ht
  obtain ⟨hs, hy, hz⟩ := lies_mk.mp hsub
  obtain ⟨hrx, hrs, -, nds, hxs⟩ := nodup_mk.mp nd
  obtain ⟨hsy, hsz, -⟩ := nodup_mk.mp nds
  rw [mem_addrs_mk, not_or, not_or] at hrs
  rw [root_mk] at hr
  obtain ⟨h', e, hr', hs', w⟩ := metricSingle_eq hr hs hrs.1
  -- the three subtrees hold neither of the two nodes
  have keep : ∀ {t : CTree}, t.Lies (links h) → r ∉ t.addrs → s ∉ t.addrs → t.Lies (links h') := by
    intro t ht hr hs
    refine ht.congr fun b hb => w.off b fun hm => ?_
    rcases mem_pair.mp hm with rfl | rfl
    · exact hr hb
    · exact hs hb
  have hsx : s ∉ x.addrs := fun hb => hxs s hb (mem_addrs_mk.mpr (.inl rfl))
  refine ⟨h', e, lies_mk.mpr ⟨?_, lies_mk.mpr ⟨hr', ?_, ?_⟩, ?_⟩, w⟩
  · rw [root_mk, hs']
  · exact keep hx hrx hsx
  · exact keep hy hrs.2.1 hsy
  · exact keep hz hrs.2.2 hsz

/-- `metric_double` on shapes. -/
lemma metricDouble_lies {q : Addr} {cq : Color} {w : CTree}
    (ht : (mk dir r c x (.mk dir s cs (.mk dir q cq y z) w)).Lies (links h))
    (nd : (mk dir r c x (.mk dir s cs (.mk dir q cq y z) w)).addrs.Nodup) :
    ∃ h', metricDouble h (some r) dir = some (h', some q) ∧
      (mk dir q .black (.mk dir r .red x y) (.mk dir s .red z w)).Lies (links h') ∧
      Rewires [r, s, q] h h' := by
  obtain ⟨hr, hx, hsub⟩ := lies_mk.mp ht
  have hr' := hr
  rw [root_mk] at hr'
  have nds := (nodup_mk.mp nd).2.2.2.1
  have hns : r ∉ (mk dir s cs (.mk dir q cq y z) w).addrs := (nodup_mk.mp nd).2.1
  -- the inner rotation is the mirror image of `metric_single` on this side
  have flip : mk dir s cs (.mk dir q cq y z) w = mk (!dir) s cs w (.mk (!dir) q cq z y) := by
    rw [mk_not, mk_not]
  have flip' : mk (!dir) q .black (.mk (!dir) s .red w z) y =
      mk dir q .black y (.mk dir s .red z w) := by
    rw [mk_not, mk_not]
  obtain ⟨h₁, e1, t1, w1⟩ := metricSingle_lies (flip ▸ hsub) (flip ▸ nds)
  rw [flip'] at t1
  have sub1 : ∀ b ∈ [s, q], b ∈ (mk dir s cs (.mk dir q cq y z) w).addrs := by
    intro b hb
    rcases mem_pair.mp hb with rfl | rfl <;> simp
  -- the other child of the root hangs on a path of one frame
  have hplug : (plug [⟨r, c, !dir, x⟩] (.mk dir s cs (.mk dir q cq y z) w)).Lies (links h) := by
    rw [plug_cons, Frame.fill, mk_not]
    exact ht
  have ndplug : (plug [⟨r, c, !dir, x⟩] (.mk dir s cs (.mk dir q cq y z) w)).addrs.Nodup := by
    rw [plug_cons, Frame.fill, mk_not]
    exact nd
  have seq := addrs_single dir q s .black cq .red cs y z w
  obtain ⟨h₂, e2, t2, -⟩ := setChild_under _ _ hplug ndplug (w1.mono sub1) t1
    (by rw [seq]; exact fun _ h => h)
  have w2 : Rewires [r, s, q] h h₂ := by
    have hr1 : links h₁ r = some (of dir c x.root (some s)) := by
      rw [w1.off r fun hb => hns (sub1 r hb), hr']
    obtain ⟨h2', e2', l2, p2, n2⟩ := setChild_eq hr1 (!dir) (some q)
    rw [root_mk] at e2
    obtain rfl : h₂ = h2' := Option.some.inj (e2.symm.trans e2')
    exact (w1.mono (subset_cons_self _ _)).trans (.of_update l2 p2 n2 (by simp))
  rw [plug_cons, Frame.fill, mk_not] at t2
  have nd2 : (mk dir r c x (.mk dir q .black y (.mk dir s .red z w))).addrs.Nodup := by
    rw [addrs_mk_congr (c := c) rfl seq.symm]
    exact nd
  obtain ⟨h₃, e3, t3, w3⟩ := metricSingle_lies t2 nd2
  refine ⟨h₃, ?_, t3, w2.trans (w3.mono ?_)⟩
  · rw [root_mk] at e2
    simp [metricDouble, child_eq hr', e1, e2, e3]
  · intro b hb
    rcases mem_pair.mp hb with rfl | rfl <;> simp

/-! ## Trees held by a heap -/

/-- The heap holds a tree over distinct addresses. -/
structure Held (h : Nodes) (t : CTree) : Prop where
  lies : t.Lies (links h)
  nodup : t.addrs.Nodup

/-- Links aside, the heaps agree. -/
structure SamePayload (h h' : Nodes) : Prop where
  payload : Alligator.payload h' = Alligator.payload h
  next : h'.next = h.next

lemma SamePayload.refl (h : Nodes) : SamePayload h h := ⟨rfl, rfl⟩

lemma SamePayload.trans (s : SamePayload h₁ h2) (s' : SamePayload h2 h3) :
    SamePayload h₁ h3 := ⟨s'.payload.trans s.payload, s'.next.trans s.next⟩

lemma Rewires.same (r : Rewires A h h') : SamePayload h h' :=
  ⟨r.payload, r.next⟩

lemma plug_other (ctx : Path) (d : Dir) (a : Addr) (c : Color) (x y : CTree) :
    plug ctx (.mk d a c x y) = plug (⟨a, c, !d, x⟩ :: ctx) y := by
  rw [plug_cons, Frame.fill, mk_not]

/-- Paint a node anywhere in a tree. -/
lemma setColor_at (ctx : Path) (t : Held h (plug ctx (.mk d a c x y))) (c' : Color) :
    ∃ h', setColor h (some a) c' = some h' ∧ Held h' (plug ctx (.mk d a c' x y)) ∧
      SamePayload h h' := by
  obtain ⟨h', e, lies, w⟩ :=
    setColor_lies (lies_of_plug ctx t.lies) (nodup_of_plug ctx _ t.nodup) c'
  refine ⟨h', e, ⟨lies_keep_root t.lies t.nodup (w.mono ?_) lies ?_, ?_⟩, w.same⟩
  · intro b hb
    rw [mem_singleton.mp hb]
    exact root_mem (root_mk ..)
  · rw [root_mk, root_mk]
  · rw [addrs_plug_congr ctx (addrs_mk_congr (c := c) rfl rfl)]
    exact t.nodup

end Alligator
