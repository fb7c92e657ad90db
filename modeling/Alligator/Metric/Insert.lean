import Alligator.Metric.Descent

/-!
# Insertion into the metric tree

`metricInsertNode` is the tree part of `metric_insert_locked`: a top-down
red-black insertion under a sentinel head.  The loop goes down with four
pointers, great-grandparent `t`, grandparent `g`, parent `p` and `q`.  It splits
a node with two red children on the way and rotates at `g` when that leaves a
red node under a red one.  It does not correct the pointers after a rotation, so
`t` and `g` are stale for one or two rounds.  `Mode` lists the situations at the
top of the loop; in those with stale pointers the colours at `q` rule out
another rotation.

`metricInsertNode_spec` is the result: the operation never reads through a null
pointer, and it puts the new node into the in-order sequence between the nodes
that its labels are greater than and the others.
-/

namespace Alligator

open Memory RedBlack List Function Option Heap CTree Frame

variable {q : CTree} {f0 f1 f2 : Frame} {rest : Path} {m bump : Nat} {node : MetricNode}

/-- `isnan` or `isinf` of the bits of a double: the exponent is all ones. -/
def notFinite (v : BitVec 64) : Bool := (v >>> 52) &&& 0x7ff#64 == 0x7ff#64

def initialValue (type : DataType) (value : BitVec 64) : BitVec 64 :=
  match type with
  | .int | .uint => value
  | .double => if notFinite value then 0 else value
  | .none => 0

/-- `make_node`: a red node without children. -/
def makeNode (labels : Labels) (type : DataType) (value : BitVec 64) : MetricNode where
  color := .red
  left := none
  right := none
  labels := labels
  type := type
  value := initialValue type value
  percentileBuf := none
  expireNode := none

/-- Split `q` if both its children are red. -/
def insertRecolor (h : Nodes) (q : Ptr) : Option Nodes := do
  let left ← child h q false
  let right ← child h q true
  let redLeft ← isRed h left
  let redRight ← isRed h right
  if redLeft && redRight then
    let h ← setColor h q .red
    let h ← setColor h left .black
    setColor h right .black
  else
    some h

/-- Rotate at `g` if `q` and `p` are both red. -/
def insertRotate (h : Nodes) (t g p q : Ptr) (last : Dir) : Option Nodes := do
  let redQ ← isRed h q
  let redP ← isRed h p
  if redQ && redP then
    let right ← child h t true
    let dir2 := decide (right = g)
    let outer ← child h p last
    let (h, top) ← if q = outer then metricSingle h g (!last) else metricDouble h g (!last)
    setChild h t dir2 top
  else
    some h

/-- The loop of `metric_insert_locked`. -/
def metricInsertLoop (planSize : Nat) (node : MetricNode) :
    Nat → Nodes → Ptr → Ptr → Ptr → Ptr → Dir → Dir → Option (Nodes × Addr)
  | 0, _, _, _, _, _, _, _ => none
  | fuel + 1, h, t, g, p, q, dir, last =>
    match q with
    | none => do
      let (h, ret) := h.alloc node
      let h ← setChild h p dir (some ret)
      let h ← insertRotate h t g p (some ret) last
      return (h, ret)
    | some q => do
      let h ← insertRecolor h (some q)
      let h ← insertRotate h t g p (some q) last
      let n ← h.get q
      let dir' := decide (labelsCmp planSize node.labels n.labels = .gt)
      metricInsertLoop planSize node fuel h (if g = none then t else g) p (some q)
        (n.child dir') dir' dir

/-- The tree part of `metric_insert_locked`: the new heap, the new root and the
address of the new node. -/
def metricInsertNode (planSize : Nat) (h : Nodes) (root : Ptr) (node : MetricNode) :
    Option (Nodes × Ptr × Addr) :=
  match root with
  | none => do
    let (h, ret) := h.alloc node
    let h ← setColor h (some ret) .black
    return (h, some ret, ret)
  | some _ => do
    let (h, head) := h.alloc headNode
    let h ← setChild h (some head) true root
    let (h, ret) ←
      metricInsertLoop planSize node (2 * h.next + 2) h (some head) none none root false false
    let root ← child h (some head) true
    let h := h.free head
    let h ← setColor h root .black
    return (h, root, ret)

/-! ## The situations at the top of the loop -/

/-- A black node that will not be split. -/
def Quiet (t : CTree) : Prop :=
  ∃ a x y, t = .node a .black x y ∧ (x.color = .black ∨ y.color = .black)

variable {a : Addr} {x y : CTree} {d : Dir}

lemma quiet_mk (h : x.color = .black ∨ y.color = .black) : Quiet (.mk d a .black x y) := by
  cases d with
  | false => exact ⟨a, x, y, rfl, h⟩
  | true => exact ⟨a, y, x, rfl, h.symm⟩

lemma Quiet.exists_mk {t : CTree} (h : Quiet t) (d : Dir) :
    ∃ a x y, t = .mk d a .black x y ∧ (x.color = .black ∨ y.color = .black) := by
  obtain ⟨a, x, y, rfl, hc⟩ := h
  cases d with
  | false => exact ⟨a, x, y, rfl, hc⟩
  | true => exact ⟨a, y, x, rfl, hc.symm⟩

/-- How far the search goes down in a tree. -/
def searchDepth (dirOf : Addr → Bool) : CTree → Nat
  | .nil => 0
  | .node a _ l r => (if dirOf a then searchDepth dirOf r else searchDepth dirOf l) + 1

lemma searchDepth_mk {dirOf : Addr → Bool} (c : Color) (x y : CTree) :
    searchDepth dirOf (.mk (dirOf a) a c x y) = searchDepth dirOf x + 1 := by
  cases h : dirOf a <;> simp [CTree.mk, searchDepth, h]

lemma searchDepth_le (dirOf : Addr → Bool) (t : CTree) : searchDepth dirOf t ≤ t.addrs.length := by
  induction t with
  | nil => exact le_refl _
  | node a c l r ihl ihr =>
    rw [searchDepth, addrs, length_append, length_cons]
    split <;> omega

variable {h : Nodes} {ctx : Path} {inorder : List Addr} {t g p : Ptr} {dir last : Dir} {x1 x2 y1 y2 : CTree}
  {planSize : Nat}

section Loop

variable (hd : Addr) (dirOf : Addr → Bool)

/-- The four pointers and the two directions belong to the path. -/
def OnPath : Path → Ptr → Ptr → Ptr → Dir → Dir → Prop
  | [], t, g, p, _, _ => t = some hd ∧ g = none ∧ p = none
  | [f], t, g, p, dir, _ => t = some hd ∧ g = none ∧ p = some f.a ∧ dir = f.d
  | f0 :: f1 :: rest, t, g, p, dir, last =>
    t = some (topOf hd rest) ∧ g = some f1.a ∧ p = some f0.a ∧ dir = f0.d ∧ last = f1.d

/-- The situation at the top of the loop: which of the pointers belong to the
path, and what the colours at `q` allow.  The last index counts the rounds that
do not go down: it is `0` right after a double rotation. -/
inductive Mode : Path → CTree → Ptr → Ptr → Ptr → Dir → Dir → Nat → Prop where
  /-- All pointers are right. -/
  | onPath {ctx : Path} {q : CTree} {t g p : Ptr} {dir last : Dir}
      (ptrs : OnPath hd ctx t g p dir last) (root : ctx = [] → q ≠ .nil)
      (red : q.color = .red → ∃ f rest, ctx = f :: rest ∧ f.sib.color = .black)
      (parent : ∀ f rest, ctx = f :: rest → f.c = .red →
        Quiet q ∨ ∃ f1 rest', rest = f1 :: rest' ∧ f1.sib.color = .black) :
      Mode ctx q t g p dir last 1
  /-- One round after a rotation: `t` is stale. -/
  | afterSingle {f0 f1 : Frame} {rest : Path} {q : CTree} {t : Ptr} {last : Dir} (quiet : Quiet q) :
      Mode (f0 :: f1 :: rest) q t (some f1.a) (some f0.a) f0.d last 1
  /-- Right after a double rotation: `t` and `g` are stale. -/
  | afterDouble {f0 : Frame} {rest : Path} {a : Addr} {x y : CTree} {t g : Ptr} {last : Dir}
      (parent : f0.c = .black) (quiet : Quiet x) :
      Mode (f0 :: rest) (.mk (dirOf a) a .red x y) t g (some f0.a) f0.d last 0

/-- The comparison with the labels of a node of the tree is `dirOf`. -/
def Steers (planSize : Nat) (labels : Labels) (inorder : List Addr) (h : Nodes) : Prop :=
  ∀ a ∈ inorder, ∀ s, payload h a = some s →
    decide (labelsCmp planSize labels s.1.labels = .gt) = dirOf a

variable {hd dirOf}

/-! ## Splitting -/

variable {c : Color} {f : Frame}

lemma insertRecolor_same
    (ht : (CTree.node a c x y).Lies (links h)) (hc : x.color = .black ∨ y.color = .black) :
    insertRecolor h (some a) = some h := by
  have hl := child_eq ht.1 false
  have hr := child_eq ht.1 true
  simp only [Link.child, Bool.false_eq_true, if_false, if_true] at hl hr
  simp only [insertRecolor, hl, hr, some_bind, isRed_root ht.2.1, isRed_root ht.2.2]
  rcases hc with e | e <;> simp [e]

lemma insertRecolor_at (ctx : Path) {q b : Addr}
    (t : Held h (plug ctx (.node q .black (.node a .red x1 x2) (.node b .red y1 y2)))) :
    ∃ h', insertRecolor h (some q) = some h' ∧
      Held h' (plug ctx (.node q .red (.node a .black x1 x2) (.node b .black y1 y2))) ∧
      SamePayload h h' := by
  obtain ⟨hq, ha, hb⟩ := lies_of_plug ctx t.lies
  have hl := child_eq hq false
  have hr := child_eq hq true
  simp only [Link.child] at hl hr
  have reda : isRed h (some a) = some true := isRed_root ha
  have redb : isRed h (some b) = some true := isRed_root hb
  -- paint the node, then its two children
  obtain ⟨h1, e1, t1, s1⟩ := setColor_at (d := false) ctx t .red
  obtain ⟨h2, e2, t2, s2⟩ :=
    setColor_at (d := false) (⟨q, .red, false, .node b .red y1 y2⟩ :: ctx) t1 .black
  obtain ⟨h3, e3, t3, s3⟩ :=
    setColor_at (d := false) (⟨q, .red, true, .node a .black x1 x2⟩ :: ctx) t2 .black
  refine ⟨h3, ?_, t3, (s1.trans s2).trans s3⟩
  simp [insertRecolor, hl, hr, reda, redb, root, e1, e2, e3]

/-! ## Rotating -/

lemma insertRotate_same_child (last : Dir) {r : Bool}
    (hq : q.Lies (links h)) (hp : isRed h p = some r) (hc : q.color = .black) :
    insertRotate h t g p q.root last = some h := by
  simp [insertRotate, isRed_root hq, hc, hp]

lemma insertRotate_same_parent (last : Dir) (hq : q.Lies (links h))
    (hp : isRed h p = some false) : insertRotate h t g p q.root last = some h := by
  simp [insertRotate, isRed_root hq, hp]

section

variable (ht : (plug (f0 :: f1 :: f2 :: ctx) q).Lies (links h))
include ht

/-- What `insertRotate` reads when `q` and `p` are both red. -/
lemma insertRotate_eq (nd : (plug (f0 :: f1 :: f2 :: ctx) q).addrs.Nodup) (hq : q.root = some a)
    (hqc : q.color = .red) (hpc : f0.c = .red) :
    insertRotate h (some f2.a) (some f1.a) (some f0.a) (some a) f1.d = (do
      let (h, top) ← if f0.d = f1.d then metricSingle h (some f1.a) (!f1.d)
        else metricDouble h (some f1.a) (!f1.d)
      setChild h (some f2.a) f2.d top) := by
  obtain ⟨⟨h0, -, h1, -, h2, -⟩, hql⟩ := lies_plug.mp ht
  -- the addresses of the path and of the tree under it are distinct
  have nd0 : (f0.fill q).addrs.Nodup := nodup_of_plug (f1 :: f2 :: ctx) _ nd
  have nd2 : (f2.fill (f1.fill (f0.fill q))).addrs.Nodup := nodup_of_plug ctx _ nd
  have hsib0 : f0.sib.root ≠ some a := fun e =>
    (nodup_mk.mp nd0).2.2.2.2 a (root_mem hq) (root_mem e)
  have hsib2 : f2.sib.root ≠ some f1.a := fun e =>
    (nodup_mk.mp nd2).2.2.2.2 f1.a (root_mem (root_fill _ _)) (root_mem e)
  have redq : isRed h (some a) = some true := by
    rw [← hq, isRed_root hql, hqc]
    rfl
  have redp : isRed h (some f0.a) = some true := by
    have hp : (f0.fill q).Lies (links h) := lies_of_plug (f1 :: f2 :: ctx) ht
    rw [← root_fill f0 q, isRed_root hp, color_fill, hpc]
    rfl
  rw [hq] at h0
  have outer : (some a = (Link.of f0.d f0.c (some a) f0.sib.root).child f1.d) ↔ f0.d = f1.d := by
    constructor
    · intro e
      by_contra hne
      rw [(Bool.eq_not.mpr (Ne.symm hne) : f1.d = !f0.d), Link.child_of_not] at e
      exact hsib0 e.symm
    · intro e
      rw [← e, Link.child_of]
  simp [insertRotate, redq, redp, child_eq h2, child_eq h0, decide_child_right hsib2, outer]

/-- The rotation at `g` when `q` is on the outer side. -/
lemma insertRotate_single (nd : (plug (f0 :: f1 :: f2 :: ctx) q).addrs.Nodup) (hq : q.root = some a)
    (hqc : q.color = .red) (hpc : f0.c = .red) (hd : f0.d = f1.d) :
    ∃ h', insertRotate h (some f2.a) (some f1.a) (some f0.a) (some a) f1.d = some h' ∧
      (plug (f2 :: ctx) (.mk f1.d f0.a .black q (.mk f1.d f1.a .red f0.sib f1.sib))).Lies
        (links h') ∧ payload h' = payload h ∧ h'.next = h.next := by
  rw [insertRotate_eq ht nd hq hqc hpc, if_pos hd]
  have shape : f1.fill (f0.fill q) =
      .mk (!f1.d) f1.a f1.c f1.sib (.mk (!f1.d) f0.a f0.c f0.sib q) := by
    rw [mk_not, mk_not, fill, fill, hd]
  have hsub : (f1.fill (f0.fill q)).Lies (links h) := lies_of_plug (f2 :: ctx) ht
  have ndsub : (f1.fill (f0.fill q)).addrs.Nodup := nodup_of_plug (f2 :: ctx) _ nd
  obtain ⟨h1, e1, t1, w1⟩ := metricSingle_lies (shape ▸ hsub) (shape ▸ ndsub)
  obtain ⟨h2, e2, t2, w2⟩ := setChild_under f2 ctx ht nd
    (w1.mono fun b hb => by simp [shape] at hb ⊢; tauto) t1
    (by rw [addrs_single _ _ _ f1.c _ f0.c, ← shape]; exact fun _ h => h)
  rw [mk_not, mk_not] at t2
  rw [root_mk] at e2
  refine ⟨h2, ?_, t2, w2.payload, w2.next⟩
  simp [e1, e2]

end

/-- The rotation at `g` when `q` is on the inner side. -/
lemma insertRotate_double
    (ht : (plug (f0 :: f1 :: f2 :: ctx) (.mk f1.d a .red x y)).Lies (links h))
    (nd : (plug (f0 :: f1 :: f2 :: ctx) (.mk f1.d a .red x y)).addrs.Nodup) (hpc : f0.c = .red)
    (hd : f0.d ≠ f1.d) :
    ∃ h', insertRotate h (some f2.a) (some f1.a) (some f0.a) (some a) f1.d = some h' ∧
      (plug (f2 :: ctx) (.mk f1.d a .black (.mk f1.d f0.a .red f0.sib x)
        (.mk f1.d f1.a .red y f1.sib))).Lies (links h') ∧
      payload h' = payload h ∧ h'.next = h.next := by
  rw [insertRotate_eq ht nd (root_mk ..) (color_mk ..) hpc, if_neg hd]
  have hd' : f0.d = !f1.d := Bool.eq_not.mpr hd
  have shape : f1.fill (f0.fill (.mk f1.d a .red x y)) =
      .mk (!f1.d) f1.a f1.c f1.sib (.mk (!f1.d) f0.a f0.c (.mk (!f1.d) a .red y x) f0.sib) := by
    rw [mk_not, mk_not, fill, fill, hd', mk_not, mk_not]
  have hsub : (f1.fill (f0.fill (.mk f1.d a .red x y))).Lies (links h) := lies_of_plug (f2 :: ctx) ht
  have ndsub : (f1.fill (f0.fill (.mk f1.d a .red x y))).addrs.Nodup :=
    nodup_of_plug (f2 :: ctx) _ nd
  obtain ⟨h1, e1, t1, w1⟩ := metricDouble_lies (shape ▸ hsub) (shape ▸ ndsub)
  obtain ⟨h2, e2, t2, w2⟩ := setChild_under f2 ctx ht nd
    (w1.mono fun b hb => by simp [shape] at hb ⊢; tauto) t1
    (by rw [addrs_double _ _ _ _ f1.c _ f0.c _ .red, ← shape]; exact fun _ h => h)
  simp only [mk_not] at t2
  rw [root_mk] at e2
  refine ⟨h2, ?_, t2, w2.payload, w2.next⟩
  simp [e1, e2]

section

variable (L : Located hd dirOf inorder h (f0 :: f1 :: rest) q)
include L

/-- A rotation at the top of the loop, from what it does under a frame. -/
lemma Located.rotate {t : CTree} (seq : t.addrs = (f1.fill (f0.fill q)).addrs)
    (hrot : ∀ f2 ctx, (plug (f0 :: f1 :: f2 :: ctx) q).Lies (links h) →
      (plug (f0 :: f1 :: f2 :: ctx) q).addrs.Nodup → ∃ h',
        insertRotate h (some f2.a) (some f1.a) (some f0.a) (some a) f1.d = some h' ∧
          (plug (f2 :: ctx) t).Lies (links h') ∧ payload h' = payload h ∧ h'.next = h.next) :
    ∃ h', insertRotate h (some (topOf hd rest)) (some f1.a) (some f0.a) (some a) f1.d = some h' ∧
      Located hd dirOf inorder h' rest t ∧ payload h' = payload h ∧ h'.next = h.next := by
  obtain ⟨f2, ctx, e, htop⟩ := exists_topOf hd rest
  have full : ∀ t, plug (f2 :: ctx) t = plug (rest ++ [headFrame hd]) t := fun t => by rw [e]
  have lies := L.lies
  have nd := L.nodup
  simp only [cons_append, e] at lies nd
  obtain ⟨h', e', t', hp, hn⟩ := hrot f2 ctx lies nd
  rw [full] at t'
  refine ⟨h', htop ▸ e', ⟨t', ?_, ?_, ?_⟩, hp, hn⟩
  · exact (addrs_plug_congr (rest ++ [headFrame hd]) seq).symm ▸ L.nodup
  · exact fun f hf => L.dirs f (mem_cons_of_mem _ (mem_cons_of_mem _ hf))
  · rw [← L.seq]
    exact addrs_plug_congr rest seq

lemma Located.rotate_single (hq : q.root = some a)
    (hqc : q.color = .red) (hpc : f0.c = .red) (hdir : f0.d = f1.d) :
    ∃ h', insertRotate h (some (topOf hd rest)) (some f1.a) (some f0.a) (some a) f1.d = some h' ∧
      Located hd dirOf inorder h'
        (⟨f0.a, .black, f1.d, .mk f1.d f1.a .red f0.sib f1.sib⟩ :: rest) q ∧
      payload h' = payload h ∧ h'.next = h.next := by
  obtain ⟨h', e', L', hp, hn⟩ := L.rotate
    (by rw [← addrs_single f1.d f0.a f1.a _ f0.c _ f1.c, fill, fill, hdir])
    fun f2 ctx lies nd => insertRotate_single lies nd hq hqc hpc hdir
  refine ⟨h', e', ⟨L'.lies, L'.nodup, ?_, L'.seq⟩, hp, hn⟩
  exact forall_mem_cons.mpr ⟨hdir ▸ L.dirs f0 mem_cons_self, L'.dirs⟩

end

lemma Located.rotate_double
    (L : Located hd dirOf inorder h (f0 :: f1 :: rest) (.mk f1.d a .red x y)) (hpc : f0.c = .red)
    (hdir : f0.d ≠ f1.d) :
    ∃ h', insertRotate h (some (topOf hd rest)) (some f1.a) (some f0.a) (some a) f1.d = some h' ∧
      Located hd dirOf inorder h' rest (.mk f1.d a .black (.mk f1.d f0.a .red f0.sib x)
        (.mk f1.d f1.a .red y f1.sib)) ∧ payload h' = payload h ∧ h'.next = h.next := by
  refine L.rotate ?_ fun f2 ctx lies nd => insertRotate_double lies nd hpc hdir
  rw [fill, fill, Bool.eq_not.mpr hdir]
  cases f1.d <;> simp [CTree.mk, CTree.addrs]

/-! ## Colours after a rotation -/

/-- What is around a node under a red parent, and what may take the place of the grandparent. -/
lemma rb_under_red (h : RB (plug (f0 :: f1 :: ctx) q) m) (hpc : f0.c = .red) :
    ∃ k, RB q k ∧ f0.sib.color = .black ∧ RB f0.sib k ∧ RB f1.sib k ∧
      ∀ {d a x y}, RB x k → RB y k → RB (plug ctx (.mk d a .black x y)) m := by
  obtain ⟨n, hn, hr⟩ := RB.replace ctx (t := f1.fill (f0.fill q)) h
  obtain ⟨p, c0, d0, y⟩ := f0
  obtain ⟨g, c1, d1, u⟩ := f1
  subst hpc
  cases c1 with
  | red =>
    obtain ⟨hc, -⟩ := rb_red.mp hn
    rw [color_fill] at hc
    cases hc
  | black =>
    obtain ⟨k, rfl, hp, hu⟩ := rb_black.mp hn
    obtain ⟨-, hy, bq, by'⟩ := rb_red.mp hp
    exact ⟨k, bq, hy, by', hu, fun hx hy =>
      hr _ (rb_black.mpr ⟨k, rfl, hx, hy⟩) (.inr (color_mk ..))⟩

/-- A split or new node under a red parent: the shape that a single rotation
makes is red-black. -/
lemma rb_insert_single {q' : CTree} (h : RB (plug (f0 :: f1 :: ctx) q) m)
    (hpc : f0.c = .red) (hs : f1.sib.color = .black) (hq' : ∀ n, RB q n → RB q' n) :
    RB (plug ctx (.mk f1.d f0.a .black q' (.mk f1.d f1.a .red f0.sib f1.sib))) m := by
  obtain ⟨k, bq, hy, by', hu, hr⟩ := rb_under_red h hpc
  exact hr (hq' k bq) (rb_red.mpr ⟨hy, hs, by', hu⟩)

lemma rb_insert_double (h : RB (plug (f0 :: f1 :: ctx) q) m)
    (hpc : f0.c = .red) (hs : f1.sib.color = .black)
    (hq' : ∀ n, RB q n → RB (.mk f1.d a .red x y) n) :
    RB (plug ctx (.mk f1.d a .black (.mk f1.d f0.a .red f0.sib x)
      (.mk f1.d f1.a .red y f1.sib))) m := by
  obtain ⟨k, bq, hy0, by0, hu, hr⟩ := rb_under_red h hpc
  obtain ⟨hx, hy, bx, by'⟩ := rb_red.mp (hq' k bq)
  exact hr (rb_red.mpr ⟨hy0, hx, by0, bx⟩) (rb_red.mpr ⟨hy, hs, by', hu⟩)

lemma rb_split {q b : Addr} {n : Nat}
    (h : RB (.mk d q .black (.mk d a .red x1 x2) (.mk d b .red y1 y2)) n) :
    RB (.mk d q .red (.mk d a .black x1 x2) (.mk d b .black y1 y2)) n := by
  obtain ⟨k, rfl, hx, hy⟩ := rb_black.mp h
  obtain ⟨-, -, bx1, bx2⟩ := rb_red.mp hx
  obtain ⟨-, -, by1, by2⟩ := rb_red.mp hy
  exact rb_red.mpr ⟨color_mk .., color_mk .., rb_black.mpr ⟨k, rfl, bx1, bx2⟩,
    rb_black.mpr ⟨k, rfl, by1, by2⟩⟩

/-! ## One round of the loop -/

lemma OnPath.push (h : OnPath hd ctx t g p dir last) (f : Frame) :
    OnPath hd (f :: ctx) (if g = none then t else g) p (some f.a) f.d dir := by
  match ctx, h with
  | [], ⟨ht, hg, hp⟩ => exact ⟨by rw [if_pos hg, ht], hp, rfl, rfl⟩
  | [f0], ⟨ht, hg, hp, hdir⟩ => exact ⟨by rw [if_pos hg, ht]; rfl, hp, rfl, rfl, hdir⟩
  | f0 :: f1 :: rest, ⟨_, hg, hp, hdir, _⟩ =>
    exact ⟨by rw [hg]; rfl, hp, rfl, rfl, hdir⟩

lemma OnPath.parent (h : OnPath hd (f :: ctx) t g p dir last) : p = some f.a ∧ dir = f.d := by
  match ctx, h with
  | [], ⟨_, _, hp, hdir⟩ => exact ⟨hp, hdir⟩
  | _ :: _, ⟨_, _, hp, hdir, _⟩ => exact ⟨hp, hdir⟩

variable (hd dirOf) in
/-- What one round leaves: the same payload, and the descent one frame deeper
with a smaller measure. -/
structure Round (inorder : List Addr) (h : Nodes) (t g p : Ptr) (a : Addr) (dir last : Dir)
    (bound : Nat) (h' : Nodes) (f : Frame) (ctx : Path) (q : CTree) (bump : Nat) : Prop where
  run : (insertRecolor h (some a) >>= fun h => insertRotate h t g p (some a) last) = some h'
  payload : Alligator.payload h' = Alligator.payload h
  next : h'.next = h.next
  addr : f.a = a
  descent : Descent hd dirOf inorder h' (f :: ctx) q
  mode : Mode hd dirOf (f :: ctx) q (if g = none then t else g) p (some a) f.d dir bump
  less : 2 * searchDepth dirOf q + bump < bound

section Rounds

variable {inorder : List Addr} {h : Nodes} {ctx : Path} {a : Addr} {x y : CTree} {t g p : Ptr}
  {dir last : Dir}

lemma insertRecolor_mk_same (ht : (mk d a c x y).Lies (links h))
    (hc : x.color = .black ∨ y.color = .black) : insertRecolor h (some a) = some h := by
  cases d with
  | false => exact insertRecolor_same ht hc
  | true => exact insertRecolor_same ht hc.symm

/-- A quiet node: nothing happens. -/
lemma round_quiet (D : Descent hd dirOf inorder h ctx (.mk (dirOf a) a .black x y))
    (hc : x.color = .black ∨ y.color = .black) (ptrs : ∀ f : Frame,
      OnPath hd (f :: ctx) (if g = none then t else g) p (some f.a) f.d dir)
    (hp : ∃ r, isRed h p = some r) :
    Round hd dirOf inorder h t g p a dir last
      (2 * searchDepth dirOf (.mk (dirOf a) a .black x y) + 1) h ⟨a, .black, dirOf a, y⟩ ctx x 1 where
  run := by
    obtain ⟨r, hr⟩ := hp
    have rot := insertRotate_same_child (t := t) (g := g) last D.tree hr
      (color_mk ..)
    rw [root_mk] at rot
    rw [insertRecolor_mk_same D.tree hc, some_bind, rot]
  payload := rfl
  next := rfl
  addr := rfl
  descent := ⟨D.down, D.rb⟩
  mode := by
    refine .onPath (ptrs ⟨a, .black, dirOf a, y⟩) (by simp) (fun hx => ⟨_, _, rfl, ?_⟩) ?_
    · rcases hc with e | e
      · rw [hx] at e
        cases e
      · exact e
    · rintro f rest e hf
      cases e
      cases hf
  less := by
    rw [searchDepth_mk]
    omega

/-- A red node: its parent is black and nothing happens. -/
lemma round_red (D : Descent hd dirOf inorder h ctx (.mk (dirOf a) a .red x y))
    (hp : isRed h p = some false) {bump' : Nat}
    (mode : Mode hd dirOf (⟨a, .red, dirOf a, y⟩ :: ctx) x (if g = none then t else g) p (some a)
      (dirOf a) dir bump')
    (hb : bump' < bump + 2) :
    Round hd dirOf inorder h t g p a dir last
      (2 * searchDepth dirOf (.mk (dirOf a) a .red x y) + bump) h ⟨a, .red, dirOf a, y⟩ ctx x
      bump' where
  run := by
    obtain ⟨n, hn⟩ := D.rb_tree
    have rot := insertRotate_same_parent (t := t) (g := g) last D.tree hp
    rw [root_mk] at rot
    rw [insertRecolor_mk_same D.tree (.inl (rb_red.mp hn).1), some_bind, rot]
  payload := rfl
  next := rfl
  addr := rfl
  descent := ⟨D.down, D.rb⟩
  mode := mode
  less := by
    rw [searchDepth_mk]
    omega

section Split

variable {d : Dir} {xa ya : Addr} {x1 x2 y1 y2 : CTree}

lemma Located.split (L : Located hd dirOf inorder h ctx
      (.mk d a .black (.mk d xa .red x1 x2) (.mk d ya .red y1 y2))) :
    ∃ h', insertRecolor h (some a) = some h' ∧ Located hd dirOf inorder h' ctx
        (.mk d a .red (.mk d xa .black x1 x2) (.mk d ya .black y1 y2)) ∧
      payload h' = payload h ∧ h'.next = h.next := by
  cases d with
  | false | true =>
    obtain ⟨h', e, t', same⟩ := insertRecolor_at (ctx ++ [headFrame hd]) ⟨L.lies, L.nodup⟩
    refine ⟨h', e, ⟨t'.lies, t'.nodup, L.dirs, ?_⟩, same.payload, same.next⟩
    rw [← L.seq]
    exact addrs_plug_congr ctx rfl

lemma Descent.quiet_children (D : Descent hd dirOf inorder h ctx
      (.mk d a .black (.mk d xa .red x1 x2) (.mk d ya .red y1 y2))) :
    Quiet (.mk d xa .black x1 x2) ∧ Quiet (.mk d ya .black y1 y2) := by
  obtain ⟨n, hn⟩ := D.rb_tree
  obtain ⟨k, -, hx, hy⟩ := rb_black.mp hn
  exact ⟨quiet_mk (.inl (rb_red.mp hx).1), quiet_mk (.inl (rb_red.mp hy).1)⟩

lemma searchDepth_recolor (c c' : Color) (x y : CTree) :
    searchDepth dirOf (.mk d a c x y) = searchDepth dirOf (.mk d a c' x y) := by
  cases d <;> rfl

/-- A split below a black parent, or at the root. -/
lemma round_split (D : Descent hd dirOf inorder h ctx
      (.mk (dirOf a) a .black (.mk (dirOf a) xa .red x1 x2) (.mk (dirOf a) ya .red y1 y2)))
    (ptrs : OnPath hd ctx t g p dir last) (hp : ∀ f rest, ctx = f :: rest → f.c = .black) :
    ∃ h', Round hd dirOf inorder h t g p a dir last (2 * searchDepth dirOf
        (.mk (dirOf a) a .black (.mk (dirOf a) xa .red x1 x2) (.mk (dirOf a) ya .red y1 y2)) + 1)
      h' ⟨a, .red, dirOf a, .mk (dirOf a) ya .black y1 y2⟩ ctx (.mk (dirOf a) xa .black x1 x2) 1 := by
  obtain ⟨h', e, L, pay, next⟩ := D.split
  have hred : isRed h' p = some false := by
    cases ctx with
    | nil =>
      rw [ptrs.2.2]
      rfl
    | cons f rest =>
      rw [ptrs.parent.1, L.isRed_parent, hp f rest rfl]
      rfl
  have rb : ∃ m, RB (plug ctx
      (.mk (dirOf a) a .red (.mk (dirOf a) xa .black x1 x2) (.mk (dirOf a) ya .black y1 y2))) m := by
    obtain ⟨m, hm⟩ := D.rb
    cases ctx with
    | nil => exact ⟨m, rb_split hm⟩
    | cons f rest =>
      obtain ⟨n, hn, hr⟩ := hm.replace_black (hp f rest rfl)
      exact ⟨m, hr _ (rb_split hn)⟩
  have rot := insertRotate_same_parent (t := t) (g := g) last L.tree hred
  rw [root_mk] at rot
  refine ⟨h', ?_, pay, next, rfl, ⟨L.down, rb⟩, ?_, ?_⟩
  · rw [e, some_bind, rot]
  · refine .onPath (ptrs.push _) (by simp) ?_ fun f rest _ _ => .inl D.quiet_children.1
    rw [color_mk]
    intro hx
    cases hx
  · rw [searchDepth_mk, searchDepth_recolor .black .red]
    omega

/-- A split below a red parent on the same side: a single rotation. -/
lemma round_single (D : Descent hd dirOf inorder h (f0 :: f1 :: rest) (.mk (dirOf a) a .black
      (.mk (dirOf a) xa .red x1 x2) (.mk (dirOf a) ya .red y1 y2)))
    (hpc : f0.c = .red) (hs : f1.sib.color = .black) (hdir : f0.d = f1.d) :
    ∃ h' f ctx', Round hd dirOf inorder h (some (topOf hd rest)) (some f1.a) (some f0.a) a f0.d f1.d
      (2 * searchDepth dirOf
        (.mk (dirOf a) a .black (.mk (dirOf a) xa .red x1 x2) (.mk (dirOf a) ya .red y1 y2)) + 1)
      h' f ctx' (.mk (dirOf a) xa .black x1 x2) 1 := by
  obtain ⟨h1, e1, L1, pay1, next1⟩ := D.split
  obtain ⟨h2, e2, L2, pay2, next2⟩ :=
    L1.rotate_single (root_mk ..) (color_mk ..) hpc hdir
  obtain ⟨m, hm⟩ := D.rb
  refine ⟨h2, _, _, ?_, pay2.trans pay1, next2.trans next1, rfl, ⟨L2.down, m, ?_⟩, ?_, ?_⟩
  · rw [e1, some_bind, e2]
  · exact rb_insert_single hm hpc hs fun n hn => rb_split hn
  · exact hdir ▸ .afterSingle D.quiet_children.1
  · rw [searchDepth_mk, searchDepth_recolor .black .red]
    omega

/-- A split below a red parent on the other side: a double rotation, after which
the search goes on in the old parent or in the old grandparent. -/
lemma round_double
    (D : Descent hd dirOf inorder h (f0 :: f1 :: rest) (.mk f1.d a .black (.mk f1.d xa .red x1 x2)
      (.mk f1.d ya .red y1 y2)))
    (hpc : f0.c = .red) (hs : f1.sib.color = .black) (hdir : f0.d ≠ f1.d) :
    ∃ h' f ctx' q, Round hd dirOf inorder h (some (topOf hd rest)) (some f1.a) (some f0.a) a f0.d
      f1.d (2 * searchDepth dirOf
        (.mk f1.d a .black (.mk f1.d xa .red x1 x2) (.mk f1.d ya .red y1 y2)) + 1) h' f ctx' q 0 := by
  obtain ⟨h1, e1, L1, pay1, next1⟩ := D.split
  obtain ⟨h2, e2, L2, pay2, next2⟩ := L1.rotate_double hpc hdir
  obtain ⟨m, hm⟩ := D.rb
  have rb := rb_insert_double hm hpc hs fun n hn => rb_split hn
  have dir0 : dirOf f0.a = !f1.d := by
    rw [← D.dirs f0 mem_cons_self]
    exact Bool.eq_not.mpr hdir
  have dir1 : dirOf f1.a = f1.d := (D.dirs f1 (by simp)).symm
  have run : (insertRecolor h (some a) >>= fun h => insertRotate h (some (topOf hd rest))
      (some f1.a) (some f0.a) (some a) f1.d) = some h2 := by
    rw [e1, some_bind, e2]
  by_cases side : dirOf a = f1.d
  · -- the labels are on the side of the old parent
    have shape : mk f1.d f0.a .red f0.sib (.mk f1.d xa .black x1 x2) =
        .mk (dirOf f0.a) f0.a .red (.mk f1.d xa .black x1 x2) f0.sib := by
      rw [dir0, mk_not]
    rw [shape, ← side] at L2 rb
    refine ⟨h2, _, _, _, run, pay2.trans pay1, next2.trans next1, rfl, ⟨L2.down, m, rb⟩, ?_, ?_⟩
    · exact .afterDouble rfl (side ▸ D.quiet_children.1)
    · rw [searchDepth_mk, ← side, searchDepth_mk, searchDepth_recolor .black .red]
      omega
  · -- the labels are on the side of the old grandparent
    have side' : dirOf a = !f1.d := Bool.eq_not.mpr side
    rw [← mk_not, ← side', ← dir1] at L2 rb
    refine ⟨h2, _, _, _, run, pay2.trans pay1, next2.trans next1, rfl, ⟨L2.down, m, rb⟩, ?_, ?_⟩
    · exact .afterDouble rfl (dir1 ▸ D.quiet_children.2)
    · rw [searchDepth_mk, dir1, ← mk_not f1.d a, ← side', searchDepth_mk,
        searchDepth_recolor .black .red]
      omega

end Split

lemma exists_mk_of_both_red (hc : ¬(x.color = .black ∨ y.color = .black))
    (d' : Dir) : ∃ xa x1 x2 ya y1 y2, mk d a .black x y =
      .mk d' a .black (.mk d' xa .red x1 x2) (.mk d' ya .red y1 y2) := by
  rw [not_or, ← color_ne_red, ← color_ne_red, not_not, not_not] at hc
  obtain ⟨xa, x1, x2, rfl⟩ := exists_mk_of_red d' hc.1
  obtain ⟨ya, y1, y2, rfl⟩ := exists_mk_of_red d' hc.2
  by_cases e : d = d'
  · subst e
    exact ⟨xa, x1, x2, ya, y1, y2, rfl⟩
  · rw [Bool.eq_not.mpr e, mk_not]
    exact ⟨ya, y1, y2, xa, x1, x2, rfl⟩

/-- One round of the loop, whatever the situation. -/
lemma round (D : Descent hd dirOf inorder h ctx q) (M : Mode hd dirOf ctx q t g p dir last bump)
    (hq : q.root = some a) : ∃ h' f ctx' q' bump', Round hd dirOf inorder h t g p a dir last
      (2 * searchDepth dirOf q + bump) h' f ctx' q' bump' := by
  obtain ⟨n, hn⟩ := D.rb_tree
  have node : ∀ d, ∃ c x y, q = .mk d a c x y := by
    intro d
    rcases eq_nil_or_mk d q with rfl | ⟨b, c, x, y, rfl⟩
    · cases hq
    · rw [root_mk] at hq
      cases hq
      exact ⟨c, x, y, rfl⟩
  cases M with
  | afterSingle quiet =>
    obtain ⟨b, x, y, rfl, hc⟩ := quiet.exists_mk (dirOf a)
    rw [root_mk] at hq
    cases hq
    exact ⟨_, _, _, _, _, round_quiet D hc (fun f => ⟨rfl, rfl, rfl, rfl, rfl⟩)
      ⟨_, D.isRed_parent⟩⟩
  | afterDouble parent quiet =>
    rw [root_mk] at hq
    cases hq
    refine ⟨_, _, _, _, _, round_red D ?_ (.afterSingle quiet) (by omega)⟩
    rw [D.isRed_parent, parent]
    rfl
  | onPath ptrs root red parent =>
    obtain ⟨c, x, y, rfl⟩ := node (dirOf a)
    cases c with
    | red =>
      obtain ⟨f, rest, rfl, hs⟩ := red (color_mk ..)
      -- the parent of a red node is black
      have hf : f.c = .black := by
        obtain ⟨m, hm⟩ := D.rb
        obtain ⟨k, hk, -⟩ := RB.replace rest (t := f.fill _) hm
        obtain ⟨b, c, d, sib⟩ := f
        cases c with
        | black => rfl
        | red =>
          have := (rb_red.mp hk).1
          rw [color_mk] at this
          cases this
      refine ⟨_, _, _, _, _, round_red D ?_ (.onPath (ptrs.push _) (by simp) ?_ ?_) (by omega)⟩
      · rw [ptrs.parent.1, D.isRed_parent, hf]
        rfl
      · intro hx
        rw [(rb_red.mp hn).1] at hx
        cases hx
      · rintro f' rest' e -
        cases e
        exact .inr ⟨f, rest, rfl, hs⟩
    | black =>
      by_cases hc : x.color = .black ∨ y.color = .black
      · refine ⟨_, _, _, _, _, round_quiet D hc (fun f => ptrs.push f) ?_⟩
        cases ctx with
        | nil => exact ⟨false, by rw [ptrs.2.2]; rfl⟩
        | cons f rest => exact ⟨_, by rw [ptrs.parent.1]; exact D.isRed_parent⟩
      · have both : ∀ d, ∃ xa x1 x2 ya y1 y2, mk (dirOf a) a .black x y =
            .mk d a .black (.mk d xa .red x1 x2) (.mk d ya .red y1 y2) :=
          exists_mk_of_both_red hc
        by_cases hp : ∀ f rest, ctx = f :: rest → f.c = .black
        · obtain ⟨xa, x1, x2, ya, y1, y2, e⟩ := both (dirOf a)
          rw [e] at D ⊢
          obtain ⟨h', R⟩ := round_split D ptrs hp
          exact ⟨_, _, _, _, _, R⟩
        · push Not at hp
          obtain ⟨f0, rest, rfl, hne⟩ := hp
          have hpc : f0.c = .red := by
            cases h : f0.c with
            | red => rfl
            | black => exact absurd h hne
          rcases parent f0 rest rfl hpc with quiet | ⟨f1, rest, rfl, hs⟩
          · obtain ⟨b, x', y', e, hc'⟩ := quiet.exists_mk (dirOf a)
            obtain ⟨-, -, hx, hy⟩ := mk_inj e
            exact absurd (hx ▸ hy ▸ hc') hc
          · obtain ⟨rfl, rfl, rfl, rfl, rfl⟩ := ptrs
            by_cases hdir : f0.d = f1.d
            · obtain ⟨xa, x1, x2, ya, y1, y2, e⟩ := both (dirOf a)
              rw [e] at D ⊢
              obtain ⟨h', f, ctx', R⟩ := round_single D hpc hs hdir
              exact ⟨_, _, _, _, _, R⟩
            · obtain ⟨xa, x1, x2, ya, y1, y2, e⟩ := both f1.d
              rw [e] at D ⊢
              obtain ⟨h', f, ctx', q, R⟩ := round_double D hpc hs hdir
              exact ⟨_, _, _, _, _, R⟩

end Rounds

/-! ## The whole loop -/

variable (hd dirOf) in
/-- What the loop leaves: the new node in its place of the sequence, in a tree
that is red-black but for the colour of its root. -/
structure Inserted (inorder : List Addr) (node : MetricNode) (h h' : Nodes) (ret : Addr) :
    Prop where
  tree : ∃ T, (plug [headFrame hd] T).Lies (links h') ∧ (∃ m, RB T m) ∧
    ∃ l r, inorder = l ++ r ∧ T.addrs = l ++ ret :: r ∧ (∀ a ∈ l, dirOf a = true) ∧
      (∀ a ∈ r, dirOf a = false)
  payload : Alligator.payload h' =
    update (Alligator.payload h) ret (some (node.toSeries, node.expireNode))
  ret : ret = h.next
  next : h'.next = h.next + 1

/-- A new red node without children. -/
def IsLeaf (node : MetricNode) : Prop := node.toLink = ⟨.red, none, none⟩

/-- Hang a new node into the hole of a path. -/
lemma Located.attach (L : Located hd dirOf inorder h (f :: rest) .nil) (leaf : IsLeaf node) :
    ∃ h', setChild (h.alloc node).1 (some f.a) f.d (some h.next) = some h' ∧
      Located hd dirOf (Path.before (f :: rest) ++ h.next :: Path.after (f :: rest)) h' (f :: rest)
        (.node h.next .red .nil .nil) ∧
      payload h' = update (payload h) h.next (some (node.toSeries, node.expireNode)) ∧
      h'.next = h.next + 1 := by
  have dead : ∀ b ∈ (plug (f :: rest ++ [headFrame hd]) .nil).addrs, b ≠ h.next := by
    rintro b hb rfl
    have := L.lies.live _ hb
    rw [links, view_next] at this
    cases this
  have onpath : ∀ b ∈ Path.addrs (f :: rest ++ [headFrame hd]), b ≠ h.next := by
    intro b hb
    refine dead b ?_
    rw [addrs_plug, addrs_nil, append_nil]
    exact hb
  have hf : f.a ≠ h.next := onpath _ (mem_path_cons.mpr (.inl rfl))
  have links1 : links (h.alloc node).1 = update (links h) h.next (some node.toLink) :=
    view_alloc _ _ _
  have hf1 : links (h.alloc node).1 f.a = some (Link.of f.d f.c none f.sib.root) := by
    rw [links1, update_of_ne hf]
    exact (lies_plug.mp L.lies).1.1
  obtain ⟨h', e, hl, hp, hn⟩ := setChild_eq hf1 f.d (some h.next)
  rw [Link.setChild_of] at hl
  have seq : ∀ ctx : Path, (plug ctx (.node h.next .red .nil .nil)).addrs =
      Path.before ctx ++ h.next :: Path.after ctx := by
    intro ctx
    rw [addrs_plug]
    simp [addrs]
  refine ⟨h', e, ⟨?_, ?_, L.dirs, seq _⟩, ?_, hn⟩
  · refine lies_replace L.lies L.nodup ⟨?_, trivial, trivial⟩ ?_ fun b hb hbf => ?_
    · rw [hl, update_of_ne hf.symm, links1, update_self, leaf]
      rfl
    · rw [hl, update_self]
      rfl
    · rw [hl, update_of_ne hbf, links1, update_of_ne (onpath b hb)]
  · have nd := L.nodup
    rw [addrs_plug, addrs_nil, append_nil] at nd
    rw [seq, nodup_middle, nodup_cons]
    exact ⟨fun hb => onpath _ hb rfl, nd⟩
  · rw [hp]
    exact view_alloc _ _ _

/-- The last round: the search reached a missing child. -/
lemma insert_last
    (leaf : IsLeaf node) (mono : inorder.Pairwise fun a b => dirOf b = true → dirOf a = true)
    (D : Descent hd dirOf inorder h ctx .nil) (M : Mode hd dirOf ctx .nil t g p dir last bump) :
    ∃ h' h'', setChild (h.alloc node).1 p dir (some h.next) = some h' ∧
      insertRotate h' t g p (some h.next) last = some h'' ∧
      Inserted hd dirOf inorder node h h'' h.next := by
  have noQuiet : ¬Quiet .nil := by
    rintro ⟨a, x, y, e, -⟩
    cases e
  -- a missing child is met with the right pointers only
  obtain ⟨ptrs, root, parent⟩ : OnPath hd ctx t g p dir last ∧ ctx ≠ [] ∧
      ∀ f rest, ctx = f :: rest → f.c = .red →
        ∃ f1 rest', rest = f1 :: rest' ∧ f1.sib.color = .black := by
    generalize hq : CTree.nil = q at M
    cases M with
    | onPath ptrs root red parent =>
      subst hq
      exact ⟨ptrs, fun e => root e rfl, fun f rest e hf => (parent f rest e hf).resolve_left noQuiet⟩
    | afterSingle quiet => exact absurd (hq ▸ quiet) noQuiet
    | afterDouble _ _ => exact absurd hq.symm (CTree.mk_ne_nil _ _ _ _ _)
  obtain ⟨f, rest, rfl⟩ := exists_cons_of_ne_nil root
  obtain ⟨rfl, rfl⟩ := ptrs.parent
  obtain ⟨h1, e1, L1, pay1, next1⟩ := D.attach leaf
  obtain ⟨m, hm⟩ := D.rb
  have rbLeaf : ∀ n, RB .nil n → RB (.node h.next .red .nil .nil) n := by
    intro n hn
    exact .red rfl rfl hn hn
  obtain ⟨hb, ha⟩ := dirs_before_after D.dirs (D.seq ▸ mono)
  have seq : inorder = Path.before (f :: rest) ++ Path.after (f :: rest) := by
    rw [← D.seq, addrs_plug]
    simp
  -- whichever rotation follows, the new node stays where it is in the sequence
  have done : ∀ {h2 : Nodes} {ctx' : Path} {q' : CTree}, Located hd dirOf
      (Path.before (f :: rest) ++ h.next :: Path.after (f :: rest)) h2 ctx' q' →
      (∃ m, RB (plug ctx' q') m) → payload h2 = payload h1 → h2.next = h1.next →
      Inserted hd dirOf inorder node h h2 h.next := by
    intro h2 ctx' q' L rb pay next
    have lies := L.lies
    rw [plug_append] at lies
    exact ⟨⟨_, lies, rb, _, _, seq, L.seq, hb, ha⟩, pay.trans pay1, rfl, next.trans next1⟩
  by_cases hpc : f.c = .red
  · obtain ⟨f1, rest, rfl, hs⟩ := parent f rest rfl hpc
    obtain ⟨rfl, rfl, -, -, rfl⟩ := ptrs
    by_cases hdir : f.d = f1.d
    · obtain ⟨h2, e2, L2, pay2, next2⟩ := L1.rotate_single rfl rfl hpc hdir
      exact ⟨h1, h2, e1, e2, done L2 ⟨m, rb_insert_single hm hpc hs rbLeaf⟩ pay2 next2⟩
    · have shape : CTree.node h.next .red .nil .nil = .mk f1.d h.next .red .nil .nil := by
        cases f1.d <;> rfl
      rw [shape] at L1 rbLeaf
      obtain ⟨h2, e2, L2, pay2, next2⟩ := L1.rotate_double hpc hdir
      exact ⟨h1, h2, e1, e2, done L2 ⟨m, rb_insert_double hm hpc hs rbLeaf⟩ pay2 next2⟩
  · have hblack := color_ne_red (t := f.fill .nil)
    rw [color_fill] at hblack
    obtain ⟨n, hn, hr⟩ := hm.replace_black (hblack.mp hpc)
    have rot := insertRotate_same_parent (t := t) (g := g) (p := some f.a) last L1.tree
      (by rw [L1.isRed_parent]; simp [hpc])
    exact ⟨h1, h1, e1, rot, done L1 ⟨m, hr _ (rbLeaf n hn)⟩ rfl rfl⟩

/-- The loop finds the place of the new node and keeps the tree red-black. -/
lemma metricInsertLoop_spec (leaf : IsLeaf node)
    (mono : inorder.Pairwise fun a b => dirOf b = true → dirOf a = true) {fuel : Nat}
    (steers : Steers dirOf planSize node.labels inorder h) (D : Descent hd dirOf inorder h ctx q)
    (M : Mode hd dirOf ctx q t g p dir last bump) (hf : 2 * searchDepth dirOf q + bump < fuel) :
    ∃ h', metricInsertLoop planSize node fuel h t g p q.root dir last = some (h', h.next) ∧
        Inserted hd dirOf inorder node h h' h.next := by
  induction fuel generalizing h ctx q t g p dir last bump with
  | zero =>
    cases hf
  | succ fuel ih =>
    cases hq : q.root with
    | none =>
      obtain rfl := root_eq_none.mp hq
      obtain ⟨h1, h2, e1, e2, ins⟩ := insert_last leaf mono D M
      refine ⟨h2, ?_, ins⟩
      simp [metricInsertLoop, alloc_snd, e1, e2]
    | some a =>
      obtain ⟨h1, f, ctx', q', bump', R⟩ := round D M hq
      -- the round left the labels alone, so the comparison still is `dirOf`
      have hlink : links h1 a = some (Link.of f.d f.c q'.root f.sib.root) := by
        rw [← R.addr]
        exact (lies_plug.mp R.descent.lies).1.1
      obtain ⟨n, hn, hlinkn⟩ := view_eq_some.mp hlink
      have hdir : decide (labelsCmp planSize node.labels n.labels = .gt) = f.d := by
        have mem : a ∈ inorder := by
          rw [← R.descent.seq, addrs_plug, ← R.addr]
          have := mem_path_cons.mpr (.inl rfl : f.a = f.a ∨ _ ∨ f.a ∈ Path.addrs ctx')
          simp only [Path.addrs, mem_append] at this ⊢
          tauto
        rw [steers a mem (n.toSeries, n.expireNode)
          (by rw [← R.payload]; exact view_of_get _ hn),
          R.descent.dirs f mem_cons_self, R.addr]
      have hchild : n.child f.d = q'.root := by
        rw [hlinkn, Link.child_of]
      have steers' : Steers dirOf planSize node.labels inorder h1 := by
        intro b hb s hs
        exact steers b hb s (by rw [← R.payload, hs])
      obtain ⟨h', e', ins⟩ := ih steers' R.descent R.mode (by have := R.less; omega)
      have run := R.run
      rw [bind_eq_bind, bind_eq_some_iff] at run
      obtain ⟨h0, run1, run2⟩ := run
      rw [R.next] at e' ins
      refine ⟨h', ?_, ⟨ins.tree, ?_, rfl, by rw [ins.next, R.next]⟩⟩
      · simp only [metricInsertLoop, run1, run2, hn, hdir, hchild, some_bind]
        exact e'
      · rw [ins.payload, R.payload]

end Loop

/-! ## The operation -/

/-- Insertion succeeds on every red-black tree and gives a red-black tree with
the new node right after the nodes that its labels are greater than. -/
lemma metricInsertNode_spec {root : Ptr} {T : CTree} (leaf : IsLeaf node) (t : TreeAt h root T)
    (mono : T.addrs.Pairwise fun a b => greaterAt planSize node.labels h b = true →
      greaterAt planSize node.labels h a = true) :
    ∃ h' T' ret, metricInsertNode planSize h root node = some (h', T'.root, ret) ∧
      TreeAt h' T'.root T' ∧ (∃ l r, T.addrs = l ++ r ∧ T'.addrs = l ++ ret :: r ∧
        (∀ a ∈ l, greaterAt planSize node.labels h a = true) ∧
        (∀ a ∈ r, greaterAt planSize node.labels h a = false)) ∧
      payload h' = update (payload h) ret (some (node.toSeries, node.expireNode)) ∧
      payload h ret = none := by
  cases hroot : root with
  | none =>
    obtain rfl := root_eq_none.mp (t.root_eq.trans hroot)
    have link : links (h.alloc node).1 h.next = some ⟨.red, none, none⟩ := by
      rw [links, view_alloc, update_self, leaf]
    obtain ⟨h', e, hl, hp, -⟩ := setColor_eq link .black
    refine ⟨h', .node h.next .black .nil .nil, h.next, ?_, ⟨⟨?_, trivial, trivial⟩, ?_, rfl, rfl,
      1, .black .nil .nil⟩, ⟨[], [], rfl, rfl, by simp, by simp⟩, ?_, view_next _ _⟩
    · simp only [metricInsertNode, alloc_snd, e, some_bind]
      rfl
    · rw [hl, update_self]
      rfl
    · simp [addrs]
    · rw [hp]
      exact view_alloc _ _ _
  | some r =>
    -- the sentinel
    have hroot' : T.root = some r := t.root_eq.trans hroot
    obtain ⟨h1, e1, pay1, n1, D⟩ := attachHead t
    have D := D (greaterAt planSize node.labels h)
    rw [hroot] at e1
    have M : Mode h.next (greaterAt planSize node.labels h) [] T (some h.next) none none false
        false 1 := by
      refine .onPath ⟨rfl, rfl, rfl⟩ ?_ ?_ (by simp)
      · rintro - rfl
        cases hroot'
      · rw [t.black]
        intro e
        cases e
    have steers : Steers (greaterAt planSize node.labels h) planSize node.labels T.addrs h1 := by
      intro a ha s hs
      rw [pay1, update_of_ne (t.ne_next ha)] at hs
      rw [greaterAt, hs]
    have fuel : 2 * searchDepth (greaterAt planSize node.labels h) T + 1 < 2 * h1.next + 2 := by
      have depth := searchDepth_le (greaterAt planSize node.labels h) T
      have size := t.length_le
      omega
    obtain ⟨h2, e2, ins⟩ := metricInsertLoop_spec leaf mono steers D M fuel
    obtain ⟨T', lies2, ⟨m, rb⟩, l, r', hseq, hseq', hl, hr⟩ := ins.tree
    rw [plug_head] at lies2
    obtain ⟨hlink, lies', -⟩ := lies_mk.mp lies2
    -- the sentinel is not in the tree
    have hnext : h1.next = h.next + 1 := n1
    have beyond : h.next ≤ h1.next := by omega
    have apart : h.next ≠ h1.next := by omega
    have notin : ∀ b ∈ T'.addrs, b ≠ h.next := by
      intro b hb
      rw [hseq', mem_append, mem_cons] at hb
      rcases hb with hb | rfl | hb
      · exact t.ne_next (hseq ▸ mem_append_left _ hb)
      · exact apart.symm
      · exact t.ne_next (hseq ▸ mem_append_right _ hb)
    have nd : T'.addrs.Nodup := by
      have nd := t.nodup
      rw [hseq', nodup_middle, nodup_cons, ← hseq]
      refine ⟨fun hb => ?_, nd⟩
      obtain ⟨s, hs⟩ := t.live hb
      rw [payload, view_fresh _ beyond] at hs
      cases hs
    have free : links (h2.free h.next) = update (links h2) h.next none := view_free _ _ _
    have lies3 : T'.Lies (links (h2.free h.next)) := lies'.congr fun b hb => by
      rw [free, update_of_ne (notin b hb)]
    rcases eq_nil_or_mk false T' with rfl | ⟨a, c, x, y, rfl⟩
    · simp at hseq'
    obtain ⟨h4, e4, t4, w4⟩ := setColor_lies lies3 nd .black
    refine ⟨h4, .mk false a .black x y, h1.next, ?_, ⟨t4, ?_, rfl, rfl, rb.blacken⟩,
      ⟨l, r', hseq, ?_, hl, hr⟩, ?_, ?_⟩
    · have hchild : child h2 (some h.next) true = some (some a) := child_eq hlink true
      simp only [metricInsertNode, alloc_snd, e1, hroot' ▸ e2, hchild, e4,
        some_bind, Option.pure_def]
      rfl
    · rw [addrs_mk_congr (c := c) rfl rfl]
      exact nd
    · rw [addrs_mk_congr (c := c) rfl rfl]
      exact hseq'
    · have pay2 := ins.payload
      rw [w4.payload]
      funext b
      rw [payload, view_free]
      change update (payload h2) h.next none b = _
      rw [pay2, pay1]
      by_cases hb : b = h.next
      · subst hb
        rw [update_self, update_of_ne apart, payload, view_next]
      · rw [update_of_ne hb]
        by_cases hb' : b = h1.next
        · subst hb'
          rw [update_self, update_self]
        · rw [update_of_ne hb', update_of_ne hb', update_of_ne hb]
    · exact view_fresh _ beyond

end Alligator
