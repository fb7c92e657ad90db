import Alligator.Metric.Descent

/-!
# Deletion from the metric tree

The loop of `metric_delete_inner` goes down to the place of the labels and, on
its way, pushes a red node along so that the node where it stops can be taken
out.  It remembers in `f` the last node with equal labels.  `Heavy` is the
invariant: the current node or the child the loop goes to next is red, unless
the loop is at the sentinel or at the root.

`metricDeleteLoop_spec` says that the loop never reads through a null pointer
and keeps the red-black invariant, that it stops at a node without children
next to the place of the labels in the in-order sequence, and that `f` is the
node right of that place if its labels are equal.
-/

namespace Alligator

open Memory RedBlack List Function Option CTree

variable {t o i : CTree} {cs : Color} {rest : Path}

/-- Paint the two children of `top` black. -/
def blackenChildren (h : Nodes) (top : Ptr) : Option Nodes := do
  let left ← child h top false
  let h ← setColor h left .black
  let right ← child h top true
  setColor h right .black

/-- Repaint after a rotation: `q` and the child of `g` red, the children of the
latter black. -/
def deleteRepaint (h : Nodes) (g q : Ptr) (dir2 : Dir) : Option Nodes := do
  let top ← child h g dir2
  let h ← setColor h top .red
  let h ← setColor h q .red
  blackenChildren h top

/-- The sibling of `q` has a red child: rotate at `p` and repaint. -/
def deleteRotate (h : Nodes) (g p q : Ptr) (last : Dir) (redInner redOuter : Bool) :
    Option Nodes := do
  let right ← child h g true
  let dir2 := decide (right = p)
  let h ←
    if redInner then do
      let (h, top) ← metricDouble h p last
      setChild h g dir2 top
    else if redOuter then do
      let (h, top) ← metricSingle h p last
      setChild h g dir2 top
    else
      some h
  deleteRepaint h g q dir2

/-- `q` and both its children are black: take red from the parent `p` or from
the sibling. -/
def deletePush (h : Nodes) (g p q : Ptr) (last : Dir) : Option Nodes := do
  let s ← child h p (!last)
  match s with
  | none => some h
  | some s => do
    let outer ← child h (some s) (!last)
    let inner ← child h (some s) last
    let redOuter ← isRed h outer
    let redInner ← isRed h inner
    if !redOuter && !redInner then do
      let h ← setColor h p .black
      let h ← setColor h (some s) .red
      setColor h q .red
    else
      deleteRotate h g p q last redInner redOuter

/-- One round at `q` under `p` under `g`: the heap, and the parent of `q` now. -/
def deleteFix (h : Nodes) (g p q : Ptr) (dir last : Dir) : Option (Nodes × Ptr) := do
  let redQ ← isRed h q
  let near ← child h q dir
  let redNear ← isRed h near
  if !redQ && !redNear then do
    let far ← child h q (!dir)
    let redFar ← isRed h far
    if redFar then do
      let (h, top) ← metricSingle h q dir
      let h ← setChild h p last top
      return (h, top)
    else do
      let h ← deletePush h g p q last
      return (h, p)
  else
    return (h, p)

/-- The loop of `metric_delete_inner`: the heap, and the final `p`, `q`, `f`. -/
def metricDeleteLoop (planSize : Nat) (labels : Labels) :
    Nat → Nodes → Ptr → Addr → Ptr → Dir → Option (Nodes × Ptr × Addr × Ptr)
  | 0, _, _, _, _, _ => none
  | fuel + 1, h, p, q, f, dir => do
    let next ← child h (some q) dir
    match next with
    | none => return (h, p, q, f)
    | some q' => do
      let n ← h.get q'
      let dir' := decide (labelsCmp planSize labels n.labels = .gt)
      let f := if labelsCmp planSize n.labels labels = .eq then some q' else f
      let (h, p) ← deleteFix h p (some q) (some q') dir' dir
      metricDeleteLoop planSize labels fuel h p q' f dir'

/-- Take the node `q` out from under `p` and free it. -/
def unlinkNode (h : Nodes) (p : Ptr) (q : Addr) : Option Nodes := do
  let right ← child h p true
  let left ← child h (some q) false
  let c ← child h (some q) (decide (left = none))
  let h ← setChild h p (decide (right = some q)) c
  return h.free q

/-- The end of `metric_delete_inner`: free the sentinel and paint the root. -/
def finishRoot (h : Nodes) (head : Addr) : Option (Nodes × Ptr) := do
  let root ← child h (some head) true
  let h := h.free head
  match root with
  | none => return (h, none)
  | some _ => do
    let h ← setColor h root .black
    return (h, root)

/-! ## Repainting -/

variable {h : Nodes}
  {x1 x2 y1 y2 T : CTree} {cx cy : Color} {g : Ptr} {labels : Labels} {planSize : Nat}

lemma blackenChildren_node (ctx : Path) {a x y : Addr} {c : Color}
    (t : Held h (plug ctx (.node a c (.node x cx x1 x2) (.node y cy y1 y2)))) :
    ∃ h', blackenChildren h (some a) = some h' ∧
      Held h' (plug ctx (.node a c (.node x .black x1 x2) (.node y .black y1 y2))) ∧
      SamePayload h h' := by
  have left := child_eq (lies_of_plug ctx t.lies).1 false
  obtain ⟨h1, e1, t1, s1⟩ :=
    setColor_at (d := false) (⟨a, c, false, .node y cy y1 y2⟩ :: ctx) t .black
  have right := child_eq (lies_of_plug ctx t1.lies).1 true
  obtain ⟨h2, e2, t2, s2⟩ :=
    setColor_at (d := false) (⟨a, c, true, .node x .black x1 x2⟩ :: ctx) t1 .black
  refine ⟨h2, ?_, t2, s1.trans s2⟩
  simp only [Link.child, root] at left right
  simp [blackenChildren, left, right, e1, e2]

lemma blackenChildren_at (ctx : Path) {d : Dir} {a x y : Addr} {c : Color}
    (t : Held h (plug ctx (.mk d a c (.mk d x cx x1 x2) (.mk d y cy y1 y2)))) :
    ∃ h', blackenChildren h (some a) = some h' ∧
      Held h' (plug ctx (.mk d a c (.mk d x .black x1 x2) (.mk d y .black y1 y2))) ∧
      SamePayload h h' := by
  cases d with
  | false | true => exact blackenChildren_node ctx t

lemma deleteRepaint_at (f : Frame) (ctx : Path) {d e : Dir} {top p q r : Addr}
    {ct cp cq cr : Color} {x y z r1 r2 : CTree}
    (t : Held h (plug (f :: ctx) (.mk d top ct (.mk d p cp (.mk e q cq x y) z)
      (.mk d r cr r1 r2)))) : ∃ h', deleteRepaint h (some f.a) (some q) f.d = some h' ∧
      Held h' (plug (f :: ctx) (.mk d top .red (.mk d p .black (.mk e q .red x y) z)
        (.mk d r .black r1 r2))) ∧ SamePayload h h' := by
  have htop : child h (some f.a) f.d = some (some top) := by
    rw [child_eq (lies_plug.mp t.lies).1.1, Link.child_of, root_mk]
  obtain ⟨h1, e1, t1, s1⟩ := setColor_at (f :: ctx) t .red
  obtain ⟨h2, e2, t2, s2⟩ :=
    setColor_at (⟨p, cp, d, z⟩ :: ⟨top, .red, d, .mk d r cr r1 r2⟩ :: f :: ctx) t1 .red
  obtain ⟨h3, e3, t3, s3⟩ := blackenChildren_at (f :: ctx) t2
  refine ⟨h3, ?_, t3, (s1.trans s2).trans s3⟩
  simp [deleteRepaint, htop, e1, e2, e3]

/-! ## The sibling of a black node -/

section Sibling

variable {h : Nodes} {f : Frame} {ctx : Path} {d e : Dir} {p q s : Addr} {cp : Color} {x y : CTree}

lemma child_right_parent {c : Color} {u : CTree} (T : Held h (plug (f :: ctx) (.mk d p c t u))) :
    ∃ right, child h (some f.a) true = some right ∧ decide (right = some p) = f.d := by
  have nd : (f.fill (.mk d p c t u)).addrs.Nodup := nodup_of_plug ctx _ T.nodup
  have hlink := (lies_plug.mp T.lies).1.1
  rw [root_mk] at hlink
  refine ⟨_, child_eq hlink true, decide_child_right fun e => ?_⟩
  exact (nodup_mk.mp nd).2.2.2.2 p (root_mem (root_mk ..)) (root_mem e)

/-- The outer child of the sibling is red and the inner one is not. -/
lemma deleteRotate_single {o : Addr} {co : Color} {o1 o2 : CTree}
    (T : Held h (plug (f :: ctx) (.mk d p cp (.mk e q .black x y) (.mk d s cs i (.mk d o co o1 o2))))) :
    ∃ h', deleteRotate h (some f.a) (some p) (some q) d false true = some h' ∧
      Held h' (plug (f :: ctx) (.mk d s .red (.mk d p .black (.mk e q .red x y) i)
        (.mk d o .black o1 o2))) ∧ SamePayload h h' := by
  obtain ⟨right, hright, hdir⟩ := child_right_parent T
  obtain ⟨h1, e1, t1, w1⟩ :=
    metricSingle_lies (lies_of_plug (f :: ctx) T.lies) (nodup_of_plug (f :: ctx) _ T.nodup)
  have seq := addrs_single d p s cp .red cs .black (.mk e q .black x y) i (.mk d o co o1 o2)
  obtain ⟨h2, e2, t2, w2⟩ := setChild_under f ctx T.lies T.nodup
    (w1.mono fun b hb => by simp at hb ⊢; tauto) t1 (by rw [seq]; exact fun _ h => h)
  have nd2 : (plug (f :: ctx) (.mk d s .black (.mk d p .red (.mk e q .black x y) i)
      (.mk d o co o1 o2))).addrs.Nodup := by
    rw [addrs_plug_congr (f :: ctx) seq]
    exact T.nodup
  obtain ⟨h3, e3, t3, s3⟩ := deleteRepaint_at f ctx ⟨t2, nd2⟩
  rw [root_mk] at e2
  refine ⟨h3, ?_, t3, w2.same.trans s3⟩
  simp [deleteRotate, hright, hdir, e1, e2, e3]

/-- The inner child of the sibling is red. -/
lemma deleteRotate_double (redOuter : Bool) {i : Addr} {ci : Color} {i1 i2 : CTree}
    (T : Held h (plug (f :: ctx) (.mk d p cp (.mk e q .black x y) (.mk d s cs (.mk d i ci i1 i2) o)))) :
    ∃ h', deleteRotate h (some f.a) (some p) (some q) d true redOuter = some h' ∧
      Held h' (plug (f :: ctx) (.mk d i .red (.mk d p .black (.mk e q .red x y) i1)
        (.mk d s .black i2 o))) ∧ SamePayload h h' := by
  obtain ⟨right, hright, hdir⟩ := child_right_parent T
  obtain ⟨h1, e1, t1, w1⟩ :=
    metricDouble_lies (lies_of_plug (f :: ctx) T.lies) (nodup_of_plug (f :: ctx) _ T.nodup)
  have seq := addrs_double d p s i cp .red cs .red ci .black (.mk e q .black x y) i1 i2 o
  obtain ⟨h2, e2, t2, w2⟩ := setChild_under f ctx T.lies T.nodup
    (w1.mono fun b hb => by simp at hb ⊢; tauto) t1 (by rw [seq]; exact fun _ h => h)
  have nd2 : (plug (f :: ctx) (.mk d i .black (.mk d p .red (.mk e q .black x y) i1)
      (.mk d s .red i2 o))).addrs.Nodup := by
    rw [addrs_plug_congr (f :: ctx) seq]
    exact T.nodup
  obtain ⟨h3, e3, t3, s3⟩ := deleteRepaint_at f ctx ⟨t2, nd2⟩
  rw [root_mk] at e2
  refine ⟨h3, ?_, t3, w2.same.trans s3⟩
  simp [deleteRotate, hright, hdir, e1, e2, e3]

/-- What is read of the sibling decides between the two. -/
lemma deletePush_mk {c : Color} (T : Held h (plug ctx (.mk d p c t (.mk d s cs i o)))) :
    deletePush h g (some p) (some q) d =
      if i.color = .black ∧ o.color = .black then do
        let h ← setColor h (some p) .black
        let h ← setColor h (some s) .red
        setColor h (some q) .red
      else deleteRotate h g (some p) (some q) d (decide (i.color = .red))
        (decide (o.color = .red)) := by
  obtain ⟨hp, -, hs⟩ := lies_mk.mp (lies_of_plug ctx T.lies)
  obtain ⟨hs, hli, hlo⟩ := lies_mk.mp hs
  have hsib := child_eq hp (!d)
  rw [Link.child_of_not, root_mk] at hsib
  have hinner := child_eq hs d
  have houter := child_eq hs (!d)
  rw [Link.child_of] at hinner
  rw [Link.child_of_not] at houter
  simp only [deletePush, hsib, hinner, houter, isRed_root hli, isRed_root hlo, some_bind]
  cases i.color <;> cases o.color <;> rfl

/-- Both children of the sibling are black: only colours change. -/
lemma deletePush_recolor (hi : i.color = .black) (ho : o.color = .black)
    (T : Held h (plug ctx (.mk d p cp (.mk e q .black x y) (.mk d s .black i o)))) :
    ∃ h', deletePush h g (some p) (some q) d = some h' ∧
      Held h' (plug ctx (.mk d p .black (.mk e q .red x y) (.mk d s .red i o))) ∧
      SamePayload h h' := by
  obtain ⟨h1, e1, t1, s1⟩ := setColor_at ctx T .black
  rw [plug_other] at t1
  obtain ⟨h2, e2, t2, s2⟩ := setColor_at _ t1 .red
  rw [← plug_other] at t2
  obtain ⟨h3, e3, t3, s3⟩ := setColor_at (⟨p, .black, d, .mk d s .red i o⟩ :: ctx) t2 .red
  refine ⟨h3, ?_, t3, (s1.trans s2).trans s3⟩
  simp [deletePush_mk T, hi, ho, e1, e2, e3]

end Sibling

/-! ## One round of the loop -/

def parentOf (hd : Addr) : Path → Ptr
  | [] => none
  | _ :: rest => some (topOf hd rest)

def lastDir : Path → Dir
  | [] => true
  | f :: _ => f.d

/-- Red is on its way: at the current node, at the next one, or not yet needed
because the loop is at the sentinel or at the root. -/
def Heavy : Path → CTree → Prop
  | [], _ => True
  | f :: rest, q => f.c = .red ∨ q.color = .red ∨ (rest = [] ∧ f.sib.color = .black)

variable {f : Frame}

section Round

variable (hd : Addr) (dirOf : Addr → Bool)

/-- What one round leaves: the descent one node deeper, heavy, with the parent
pointer right and with the same nodes to the right of the hole. -/
structure Pushed (inorder : List Addr) (h : Nodes) (P : Path) (q : Addr) (near far : CTree)
    (h' : Nodes) (p' : Ptr) : Prop where
  descent : ∃ c sib rest, Descent hd dirOf inorder h' (⟨q, c, dirOf q, sib⟩ :: rest) near ∧
    Heavy (⟨q, c, dirOf q, sib⟩ :: rest) near ∧ p' = some (topOf hd rest) ∧
    Path.after (⟨q, c, dirOf q, sib⟩ :: rest) =
      (if dirOf q then [] else q :: far.addrs) ++ Path.after P
  same : SamePayload h h'

variable {hd dirOf} {inorder : List Addr} {h : Nodes} {P : Path} {q : Addr} {c : Color}
  {near far : CTree}

/-- What the round reads first. -/
lemma deleteFix_eq {p : Ptr} {last : Dir}
    (L : Located hd dirOf inorder h P (.mk (dirOf q) q c near far)) :
    deleteFix h g p (some q) (dirOf q) last =
      if c = .black ∧ near.color = .black then
        if far.color = .red then do
          let (h, top) ← metricSingle h (some q) (dirOf q)
          let h ← setChild h p last top
          return (h, top)
        else do
          let h ← deletePush h g p (some q) last
          return (h, p)
      else some (h, p) := by
  obtain ⟨hq, hn, hf⟩ := lies_mk.mp L.tree
  have redq := isRed_root L.tree
  rw [root_mk, color_mk] at redq
  have hnear := child_eq hq (dirOf q)
  have hfar := child_eq hq (!dirOf q)
  rw [Link.child_of] at hnear
  rw [Link.child_of_not] at hfar
  simp only [deleteFix, redq, hnear, hfar, isRed_root hn, isRed_root hf, some_bind]
  cases c <;> cases near.color <;> cases far.color <;> rfl

lemma pushed_same (D : Descent hd dirOf inorder h P (.mk (dirOf q) q c near far))
    (hc : c = .red ∨ near.color = .red) :
    Pushed hd dirOf inorder h P q near far h (some (topOf hd P)) where
  descent := by
    refine ⟨c, far, P, ⟨D.down, D.rb⟩, hc.imp id .inl, rfl, ?_⟩
    rw [Path.after]
  same := .refl h

variable (mono : inorder.Pairwise fun a b => dirOf b = true → dirOf a = true)
include mono

/-- The far child is red: a rotation at `q` makes `q` red. -/
lemma pushed_single (D : Descent hd dirOf inorder h P (.mk (dirOf q) q .black near far))
    (hn : near.color = .black) (hf : far.color = .red) : ∃ h' p', (do
      let (h, top) ← metricSingle h (some q) (dirOf q)
      let h ← setChild h (some (topOf hd P)) (lastDir P) top
      return (h, top)) = some (h', p') ∧ Pushed hd dirOf inorder h P q near far h' p' := by
  obtain ⟨s, y, z, rfl⟩ := exists_mk_of_red (dirOf q) hf
  obtain ⟨f, ctx, e, htop⟩ := exists_topOf hd P
  have hlast : lastDir P = f.d := by
    cases P with
    | nil | cons f' P =>
      cases e
      rfl
  have lies := D.lies
  have nd := D.nodup
  rw [e] at lies nd
  obtain ⟨h1, e1, t1, w1⟩ := metricSingle_lies D.tree D.nodup_tree
  have seq := addrs_single (dirOf q) q s .black .red .red .black near y z
  obtain ⟨h2, e2, t2, w2⟩ := setChild_under f ctx lies nd
    (w1.mono fun b hb => by simp at hb ⊢; tauto) t1 (by rw [seq]; exact fun _ h => h)
  rw [← e] at t2
  rw [root_mk] at e2
  refine ⟨h2, some s, ?_, ⟨.red, y, ⟨s, .black, dirOf q, z⟩ :: P, ⟨⟨t2, ?_, ?_, ?_⟩, ?_⟩, .inl rfl,
    rfl, ?_⟩, w2.same⟩
  · rw [htop, ← hlast] at e2
    simp [e1, e2]
  · have := D.nodup
    rw [addrs_plug_congr _ seq.symm] at this
    exact this
  · have hs : dirOf s = dirOf q := D.down.sib_dir mono s (root_mem (root_mk ..))
    exact forall_mem_cons.mpr ⟨rfl, forall_mem_cons.mpr ⟨hs.symm, D.dirs⟩⟩
  · rw [← D.seq]
    exact addrs_plug_congr P seq
  · obtain ⟨m, hm⟩ := D.rb
    obtain ⟨n, hn', hr⟩ := RB.replace P hm
    obtain ⟨k, rfl, bn, bf⟩ := rb_black.mp hn'
    obtain ⟨hy, -, by', bz⟩ := rb_red.mp bf
    exact ⟨m, hr _ (rb_black.mpr ⟨k, rfl, rb_red.mpr ⟨hn, hy, bn, by'⟩, bz⟩)
      (.inr (color_fill _ _))⟩
  · cases dirOf q <;> simp [Path.after, mk, addrs]

omit mono in
/-- Under a red node, or at the root, a tree may lose one black node on every
path together with its sibling. -/
lemma rb_lower {m : Nat} (h : RB (plug (f :: rest) t) m) (hf : f.c = .red ∨ rest = [])
    (ht : t.color = .black) (hne : t ≠ .nil) : ∃ k, RB t (k + 1) ∧ RB f.sib (k + 1) ∧
      ∀ t', RB t' (k + 1) → ∃ m', RB (plug rest t') m' := by
  have succ : ∀ n, RB t n → ∃ k, n = k + 1 := by
    intro n hn
    cases n with
    | zero => exact absurd (hn.eq_nil ht) hne
    | succ k => exact ⟨k, rfl⟩
  obtain ⟨n, hn, hr⟩ := RB.replace rest (t := f.fill t) h
  obtain ⟨p, cp, d, s⟩ := f
  cases cp with
  | red =>
    obtain ⟨-, -, bt, bs⟩ := rb_red.mp hn
    obtain ⟨k, rfl⟩ := succ n bt
    refine ⟨k, bt, bs, fun t' bt' => ⟨m, hr t' bt' ?_⟩⟩
    rw [color_fill]
    cases t'.color
    · exact .inl rfl
    · exact .inr rfl
  | black =>
    obtain ⟨n', rfl, bt, bs⟩ := rb_black.mp hn
    obtain ⟨k, rfl⟩ := succ n' bt
    have hrest : rest = [] := hf.resolve_left (by simp)
    subst hrest
    exact ⟨k, bt, bs, fun t' bt' => ⟨k + 1, bt'⟩⟩

omit mono in
/-- The last step of every push: `q` is red under the black `p`. -/
lemma pushed_under (rest' : Path) {h' : Nodes} {s' : CTree}
    (D : Descent hd dirOf inorder h (f :: rest) (.mk (dirOf q) q .black near far))
    (T : Held h' (plug (rest' ++ [headFrame hd]) (.mk f.d f.a .black (.mk (dirOf q) q .red near far)
      s'))) (same : SamePayload h h') (dirs : ∀ f' ∈ rest', f'.d = dirOf f'.a)
    (seq : (plug rest' (.mk f.d f.a .black (.mk (dirOf q) q .red near far) s')).addrs =
      (plug (f :: rest) (.mk (dirOf q) q .black near far)).addrs)
    (after : Path.after (⟨f.a, .black, f.d, s'⟩ :: rest') = Path.after (f :: rest))
    (rb : ∃ m, RB (plug rest' (.mk f.d f.a .black (.mk (dirOf q) q .red near far) s')) m) :
    Pushed hd dirOf inorder h (f :: rest) q near far h' (some f.a) where
  descent := by
    refine ⟨.red, far, ⟨f.a, .black, f.d, s'⟩ :: rest', ⟨⟨T.lies, T.nodup, ?_, ?_⟩, rb⟩, .inl rfl,
      rfl, ?_⟩
    · have hf := D.dirs f mem_cons_self
      exact forall_mem_cons.mpr ⟨rfl, forall_mem_cons.mpr ⟨hf, dirs⟩⟩
    · rw [← D.seq, ← seq]
      rfl
    · rw [Path.after, after]
  same := same

/-- All of `q`, its children and its sibling's are considered: `q` becomes red. -/
lemma pushed_sibling (D : Descent hd dirOf inorder h (f :: rest) (.mk (dirOf q) q .black near far))
    (hf : f.c = .red ∨ rest = []) (hs : f.sib.color = .black) (hn : near.color = .black)
    (hfar : far.color = .black) :
    ∃ h', deletePush h (parentOf hd (f :: rest)) (some f.a) (some q) f.d = some h' ∧
      Pushed hd dirOf inorder h (f :: rest) q near far h' (some f.a) := by
  obtain ⟨m, hm⟩ := D.rb
  obtain ⟨k, bq, bs, lower⟩ := rb_lower hm hf (color_mk ..) (mk_ne_nil _ _ _ _ _)
  obtain ⟨k', hk', bn, bfar⟩ := rb_black.mp bq
  obtain rfl : k = k' := Nat.succ.inj hk'
  have bq' : RB (.mk (dirOf q) q .red near far) k := rb_red.mpr ⟨hn, hfar, bn, bfar⟩
  have sibDir := D.toLocated.sib_dir mono
  obtain ⟨p, cp, d, sib⟩ := f
  -- the sibling has a black node on its paths, so it is there
  rcases eq_nil_or_mk d sib with rfl | ⟨s, cs, i, o, rfl⟩
  · cases bs
  rw [color_mk] at hs
  subst hs
  obtain ⟨k', hk', bi, bo⟩ := rb_black.mp bs
  obtain rfl : k = k' := Nat.succ.inj hk'
  have dirS : dirOf s = d := sibDir s (root_mem (root_mk ..))
  obtain ⟨f2, ctx, e, htop⟩ := exists_topOf hd rest
  have T : Held h (plug (rest ++ [headFrame hd])
      (.mk d p cp (.mk (dirOf q) q .black near far) (.mk d s .black i o))) := ⟨D.lies, D.nodup⟩
  by_cases hi : i.color = .red
  · -- the inner child of the sibling is red
    obtain ⟨i', i1, i2, rfl⟩ := exists_mk_of_red d hi
    obtain ⟨-, -, bi1, bi2⟩ := rb_red.mp bi
    have dirI : dirOf i' = d := sibDir i' (by simp)
    have T2 := T
    rw [e] at T2
    obtain ⟨h', e', T', same⟩ := deleteRotate_double (decide (o.color = .red)) T2
    rw [← e] at T'
    refine ⟨h', ?_, pushed_under (⟨i', .red, d, .mk d s .black i2 o⟩ :: rest) D T' same ?_
      ?_ ?_ ?_⟩
    · rw [deletePush_mk T, if_neg (by simp [hi]), hi, parentOf, ← htop]
      exact e'
    · exact forall_mem_cons.mpr ⟨dirI.symm, (forall_mem_cons.1 D.dirs).2⟩
    · refine addrs_plug_congr rest ?_
      refine (addrs_double d p s i' cp .black .black .black .red .red _ _ _ _).trans ?_
      exact addrs_mk_congr (addrs_mk_congr rfl rfl) rfl
    · cases d <;> simp [Path.after, mk, addrs]
    · refine lower _ (rb_red.mpr ⟨color_mk .., color_mk .., ?_, ?_⟩)
      · exact rb_black.mpr ⟨k, rfl, bq', bi1⟩
      · exact rb_black.mpr ⟨k, rfl, bi2, bo⟩
  · by_cases ho : o.color = .red
    · -- only the outer child of the sibling is red
      obtain ⟨o', o1, o2, rfl⟩ := exists_mk_of_red d ho
      obtain ⟨-, -, bo1, bo2⟩ := rb_red.mp bo
      have T2 := T
      rw [e] at T2
      obtain ⟨h', e', T', same⟩ := deleteRotate_single T2
      rw [← e] at T'
      refine ⟨h', ?_, pushed_under (⟨s, .red, d, .mk d o' .black o1 o2⟩ :: rest) D T' same
        ?_ ?_ ?_ ?_⟩
      · rw [deletePush_mk T, if_neg (by simp [ho]), ho, decide_eq_false hi, parentOf, ← htop]
        exact e'
      · exact forall_mem_cons.mpr ⟨dirS.symm, (forall_mem_cons.1 D.dirs).2⟩
      · refine addrs_plug_congr rest ?_
        refine (addrs_single d p s cp .black .black .red _ _ _).trans ?_
        exact addrs_mk_congr (addrs_mk_congr rfl rfl)
          (addrs_mk_congr rfl (addrs_mk_congr rfl rfl))
      · cases d <;> simp [Path.after, mk, addrs]
      · refine lower _ (rb_red.mpr ⟨color_mk .., color_mk .., ?_, ?_⟩)
        · exact rb_black.mpr ⟨k, rfl, bq', bi⟩
        · exact rb_black.mpr ⟨k, rfl, bo1, bo2⟩
    · -- neither is red: red comes from above
      have hi' := color_ne_red.mp hi
      have ho' := color_ne_red.mp ho
      obtain ⟨h', e', T', same⟩ :=
        deletePush_recolor (g := parentOf hd (⟨p, cp, d, .mk d s .black i o⟩ :: rest)) hi' ho' T
      refine ⟨h', e', pushed_under rest D T' same (forall_mem_cons.1 D.dirs).2
        ?_ ?_ ?_⟩
      · exact addrs_plug_congr rest
          (addrs_mk_congr (addrs_mk_congr rfl rfl) (addrs_mk_congr rfl rfl))
      · cases d <;> simp [Path.after, mk, addrs]
      · exact lower _ (rb_black.mpr ⟨k, rfl, bq', rb_red.mpr ⟨hi', ho', bi, bo⟩⟩)

/-- One round of the loop. -/
lemma deleteFix_spec (D : Descent hd dirOf inorder h P (.mk (dirOf q) q c near far))
    (H : Heavy P (.mk (dirOf q) q c near far)) :
    ∃ h' p', deleteFix h (parentOf hd P) (some (topOf hd P)) (some q) (dirOf q) (lastDir P) =
        some (h', p') ∧ Pushed hd dirOf inorder h P q near far h' p' := by
  rw [deleteFix_eq D.toLocated]
  by_cases hc : c = .black ∧ near.color = .black
  · obtain ⟨rfl, hn⟩ := hc
    rw [if_pos ⟨rfl, hn⟩]
    by_cases hf : far.color = .red
    · rw [if_pos hf]
      exact pushed_single mono D hn hf
    · rw [if_neg hf]
      have hfar := color_ne_red.mp hf
      cases P with
      | nil =>
        -- at the root there is no sibling
        have hsib : child h (some hd) false = some none := child_eq (lies_plug.mp D.lies).1.1 false
        refine ⟨h, some hd, ?_, ⟨.black, far, [], ⟨D.down, D.rb⟩, ?_, rfl, ?_⟩, .refl h⟩
        · simp [deletePush, topOf, lastDir, hsib]
        · exact .inr (.inr ⟨rfl, hfar⟩)
        · rfl
      | cons f rest =>
        have hup : f.c = .red ∨ rest = [] := by
          rcases H with e | e | e
          · exact .inl e
          · rw [color_mk] at e
            cases e
          · exact .inr e.1
        have hs : f.sib.color = .black := by
          rcases H with e | e | e
          · obtain ⟨m, hm⟩ := D.rb
            obtain ⟨n, hn', -⟩ := RB.replace rest (t := f.fill _) hm
            rw [Frame.fill, e] at hn'
            exact (rb_red.mp hn').2.1
          · rw [color_mk] at e
            cases e
          · exact e.2
        obtain ⟨h', e', pushed⟩ := pushed_sibling mono D hup hs hn hfar
        refine ⟨h', some f.a, ?_, pushed⟩
        simp [topOf, lastDir, e']
  · rw [if_neg hc]
    refine ⟨h, _, rfl, pushed_same D ?_⟩
    rw [not_and_or] at hc
    refine hc.imp (fun e => ?_) fun e => ?_
    · cases c
      · rfl
      · exact absurd rfl e
    · cases hn : near.color
      · rfl
      · exact absurd hn e

end Round

/-! ## The whole loop -/

section Loop

variable {hd : Addr} {dirOf eqOf : Addr → Bool} {inorder : List Addr}

lemma Located.child_top {P : Path} {q : CTree} (L : Located hd dirOf inorder h P q) :
    child h (some (topOf hd P)) (lastDir P) = some q.root := by
  cases P with
  | nil => exact child_eq (lies_plug.mp L.lies).1.1 true
  | cons f P => rw [topOf, lastDir, child_eq (lies_plug.mp L.lies).1.1, Link.child_of]

/-- The node right of the hole, if its labels are equal. -/
def found (eqOf : Addr → Bool) (P : Path) : Ptr := (Path.after P).head?.filter eqOf

/-- How equality of labels sits in the in-order sequence: equal nodes are not
smaller, and a node that is not smaller and comes before an equal one is equal. -/
structure EqualRun (dirOf eqOf : Addr → Bool) (inorder : List Addr) : Prop where
  notLess : ∀ a ∈ inorder, eqOf a = true → dirOf a = false
  block : inorder.Pairwise fun a b => eqOf b = true → dirOf a = false → eqOf a = true

/-- The node that the loop remembers stays the one right of the hole. -/
lemma found_step {P P' : Path} {q : Addr} {near far : CTree} {c : Color}
    (run : EqualRun dirOf eqOf inorder)
    (seq : (plug P (.mk (dirOf q) q c near far)).addrs = inorder)
    (after : Path.after P' = (if dirOf q then [] else q :: far.addrs) ++ Path.after P) :
    found eqOf P' = if eqOf q then some q else found eqOf P := by
  have mem : q ∈ inorder := by
    rw [← seq, addrs_plug]
    simp
  cases hdir : dirOf q with
  | true =>
    have hne : eqOf q = false := by
      cases heq : eqOf q with
      | false => rfl
      | true =>
        rw [run.notLess q mem heq] at hdir
        cases hdir
    rw [hdir, if_pos rfl] at after
    rw [found, after, hne]
    rfl
  | false =>
    rw [hdir, if_neg Bool.false_ne_true, cons_append] at after
    rw [found, after]
    cases heq : eqOf q with
    | true => simp [heq]
    | false =>
      -- nothing equal can follow a node that is greater
      have none' : found eqOf P = none := by
        rw [found, filter_eq_none_iff]
        intro a ha hea
        have hmem : a ∈ Path.after P := mem_of_mem_head? ha
        have block := run.block
        rw [← seq, addrs_plug] at block
        have := (pairwise_append.mp block).2.2 q (by simp) a hmem hea hdir
        rw [heq] at this
        cases this
      rw [none']
      simp [heq]

/-- The loop stops at a node without the child it would go to next. -/
lemma metricDeleteLoop_spec {fuel : Nat}
    (mono : inorder.Pairwise fun a b => dirOf b = true → dirOf a = true)
    (run : EqualRun dirOf eqOf inorder) {P : Path} {q : CTree}
    (reads : ∀ a ∈ inorder, ∀ s, payload h a = some s → decide (labelsCmp planSize labels
      s.1.labels = .gt) = dirOf a ∧ decide (labelsCmp planSize s.1.labels labels = .eq) = eqOf a)
    (D : Descent hd dirOf inorder h P q) (H : Heavy P q) (root : P = [] → q ≠ .nil)
    (hlt : q.addrs.length < fuel) :
    ∃ h' f rest, metricDeleteLoop planSize labels fuel h (parentOf hd P) (topOf hd P)
          (found eqOf P) (lastDir P) =
            some (h', some (topOf hd rest), f.a, found eqOf (f :: rest)) ∧
        Descent hd dirOf inorder h' (f :: rest) .nil ∧ Heavy (f :: rest) .nil ∧
        SamePayload h h' := by
  induction fuel generalizing h P q with
  | zero =>
    cases hlt
  | succ fuel ih =>
    rcases eq_nil_or_mk false q with rfl | ⟨a, c, x, y, hq⟩
    · cases P with
      | nil => exact absurd rfl (root rfl)
      | cons f rest =>
        refine ⟨h, f, rest, ?_, D, H, .refl h⟩
        simp only [metricDeleteLoop, D.child_top]
        rfl
    · -- look at the node from the side the search takes
      obtain ⟨near, far, hq'⟩ : ∃ near far, q = .mk (dirOf a) a c near far := by
        cases hdir : dirOf a with
        | false => exact ⟨x, y, hq⟩
        | true => exact ⟨y, x, hq⟩
      subst hq'
      obtain ⟨h1, p1, e1, pushed⟩ := deleteFix_spec mono D H
      obtain ⟨c', sib, rest, D1, H1, hp1, after⟩ := pushed.descent
      subst hp1
      have mem : a ∈ inorder := by
        rw [← D.seq, addrs_plug]
        simp
      have live : ∃ n, h.get a = some n := by
        obtain ⟨hl, -⟩ := lies_mk.mp D.tree
        obtain ⟨n, hn, -⟩ := Heap.view_eq_some.mp hl
        exact ⟨n, hn⟩
      obtain ⟨n, hn⟩ := live
      obtain ⟨hgt, heq⟩ := reads a mem _ (Heap.view_of_get _ hn)
      have less : near.addrs.length < fuel := by
        have : (mk (dirOf a) a c near far).addrs.length =
            near.addrs.length + far.addrs.length + 1 := by
          cases dirOf a <;> simp [mk, addrs] <;> omega
        omega
      obtain ⟨h', f, rest', e', D', H', same'⟩ := ih
        (fun b hb s hs => reads b hb s (by rw [← pushed.same.payload, hs])) D1 H1
        (by simp) less
      refine ⟨h', f, rest', ?_, D', H', pushed.same.trans same'⟩
      have hf : (if labelsCmp planSize n.labels labels = .eq then some a else found eqOf P) =
          found eqOf (⟨a, c', dirOf a, sib⟩ :: rest) := by
        rw [found_step run D.seq after]
        by_cases hc : labelsCmp planSize n.labels labels = .eq
        · rw [if_pos hc, ← heq, decide_eq_true hc, if_pos rfl]
        · rw [if_neg hc, ← heq, decide_eq_false hc, if_neg Bool.false_ne_true]
      simp only [metricDeleteLoop, D.child_top, root_mk, bind_eq_bind, bind_some, hn, hgt, hf, e1]
      exact e'

end Loop

/-! ## Taking the node out -/

/-- The node at which the loop stops has no children, and without it the tree
is red-black. -/
lemma Descent.leaf {hd : Addr} {dirOf : Addr → Bool} {inorder : List Addr}
    (D : Descent hd dirOf inorder h (f :: rest) .nil) (H : Heavy (f :: rest) .nil) :
    f.sib = .nil ∧ ∃ m, RB (plug rest .nil) m := by
  obtain ⟨m, hm⟩ := D.rb
  obtain ⟨n, hn, hr⟩ := RB.replace rest (t := f.fill .nil) hm
  obtain ⟨a, c, d, sib⟩ := f
  cases c with
  | red =>
    obtain ⟨-, hs, bn, bs⟩ := rb_red.mp hn
    obtain rfl := rb_nil bn
    exact ⟨bs.eq_nil hs, m, hr _ .nil (.inr rfl)⟩
  | black =>
    obtain ⟨k, rfl, bn, bs⟩ := rb_black.mp hn
    obtain rfl := rb_nil bn
    rcases H with e | e | ⟨rfl, hs⟩
    · cases e
    · cases e
    · exact ⟨bs.eq_nil hs, 0, .nil⟩

/-- Take out a node without children. -/
lemma unlinkNode_spec {f1 : Frame} {ctx : Path}
    (T : Held h (plug (f :: f1 :: ctx) .nil)) (hs : f.sib = .nil) :
    ∃ h', unlinkNode h (some f1.a) f.a = some h' ∧ Held h' (plug (f1 :: ctx) .nil) ∧
      payload h' = Function.update (payload h) f.a none ∧ h'.next = h.next := by
  obtain ⟨a, c, d, sib⟩ := f
  subst hs
  have T' : Held h (plug (f1 :: ctx) (.mk d a c .nil .nil)) := T
  obtain ⟨right, hright, hdir⟩ := child_right_parent T'
  have hlink : links h a = some ⟨c, none, none⟩ := by
    have := (lies_plug.mp T.lies).1.1
    rw [this]
    cases d <;> rfl
  have hleft : child h (some a) false = some none := child_eq hlink false
  have hc : child h (some a) true = some none := child_eq hlink true
  obtain ⟨h1, e1, t1, w1⟩ := setChild_under f1 ctx T'.lies T'.nodup (.refl _ h)
    (lies_nil (links h)) (by simp)
  have apart : ∀ b ∈ (plug (f1 :: ctx) .nil).addrs, b ≠ a := by
    rintro b hb rfl
    have nd := T'.nodup
    rw [addrs_plug] at hb nd
    refine path_apart (f1 :: ctx) _ T'.nodup b ?_ (root_mem (root_mk ..))
    simpa [Path.addrs] using hb
  have seq : (plug (f1 :: ctx) .nil).addrs.Sublist (plug (f1 :: ctx) (.mk d a c .nil .nil)).addrs := by
    rw [addrs_plug, addrs_plug, addrs_nil, append_nil, append_assoc]
    exact (List.sublist_append_right _ _).append_left _
  refine ⟨h1.free a, ?_, ⟨t1.congr fun b hb => ?_, T'.nodup.sublist seq⟩, ?_, w1.next⟩
  · rw [root_nil] at e1
    simp [unlinkNode, hright, hleft, hc, hdir, e1]
  · rw [links, Heap.view_free, update_of_ne (apart b hb)]
    rfl
  · rw [payload, Heap.view_free]
    exact congrArg (fun v => Function.update v a none) w1.payload

/-- Free the sentinel and paint the root. -/
lemma finishRoot_spec {hd : Addr} (t : Held h (plug [headFrame hd] T)) (rb : ∃ m, RB T m) :
    ∃ h' T', finishRoot h hd = some (h', T'.root) ∧ TreeAt h' T'.root T' ∧ T'.addrs = T.addrs ∧
      payload h' = Function.update (payload h) hd none ∧ h'.next = h.next := by
  obtain ⟨hlink, lies, -⟩ := lies_mk.mp (plug_head hd T ▸ t.lies)
  obtain ⟨hnot, -, nd, -⟩ := nodup_mk.mp (plug_head hd T ▸ t.nodup)
  have hchild : child h (some hd) true = some T.root := child_eq hlink true
  have lies' : T.Lies (links (h.free hd)) := lies.congr fun b hb => by
    rw [links, Heap.view_free, update_of_ne]
    · rfl
    · rintro rfl
      exact hnot hb
  have pay : payload (h.free hd) = Function.update (payload h) hd none := Heap.view_free _ _ _
  rcases eq_nil_or_mk false T with rfl | ⟨a, c, x, y, rfl⟩
  · refine ⟨h.free hd, .nil, ?_, ⟨trivial, nodup_nil, rfl, rfl, rb⟩, rfl, pay, rfl⟩
    simp [finishRoot, hchild]
  · obtain ⟨h', e', t', w⟩ := setColor_lies lies' nd .black
    have seq : (mk false a .black x y).addrs = (mk false a c x y).addrs :=
      addrs_mk_congr rfl rfl
    obtain ⟨m, hm⟩ := rb
    refine ⟨h', .mk false a .black x y, ?_, ⟨t', by rw [seq]; exact nd, rfl, rfl, hm.blacken⟩, seq,
      w.payload.trans pay, w.next⟩
    simp [finishRoot, hchild, e']

/-! ## The search as a whole -/

/-- The labels are those of the node at `a`. -/
def equalAt (planSize : Nat) (labels : Labels) (h : Nodes) (a : Addr) : Bool :=
  match payload h a with
  | some s => decide (labelsCmp planSize s.1.labels labels = .eq)
  | none => false

/-- The state after the loop, with sentinel `hd`: the sequence is `l ++ q :: r`,
and the tree can be closed as it is or without `q`.  Between the loop and that
only payloads change. -/
structure Searched (h : Nodes) (hd : Addr) (p : Ptr) (q : Addr) (l r : List Addr) : Prop where
  done : ∀ h', links h' = links h → ∃ h'' T', finishRoot h' hd = some (h'', T'.root) ∧
    TreeAt h'' T'.root T' ∧ T'.addrs = l ++ q :: r ∧
    payload h'' = update (payload h') hd none
  cut : ∀ h', links h' = links h → ∃ h1 h'' T', unlinkNode h' p q = some h1 ∧
    finishRoot h1 hd = some (h'', T'.root) ∧ TreeAt h'' T'.root T' ∧ T'.addrs = l ++ r ∧
    payload h'' = update (update (payload h') q none) hd none

lemma Descent.searched {hd : Addr} {dirOf : Addr → Bool} {inorder : List Addr}
    (D : Descent hd dirOf inorder h (f :: rest) .nil) (H : Heavy (f :: rest) .nil) :
    Searched h hd (some (topOf hd rest)) f.a (Path.before rest) (Path.after rest) := by
  obtain ⟨hsib, rb⟩ := D.leaf H
  have seq : (plug (f :: rest) .nil).addrs = Path.before rest ++ f.a :: Path.after rest := by
    rw [plug_cons, addrs_plug, addrs_fill, hsib]
    cases f.d <;> simp
  have seq' : (plug rest .nil).addrs = Path.before rest ++ Path.after rest := by
    rw [addrs_plug]
    simp
  constructor
  · intro h' hl
    have T : Held h' (plug [headFrame hd] (plug (f :: rest) .nil)) := by
      rw [← plug_append]
      exact ⟨hl ▸ D.lies, D.nodup⟩
    obtain ⟨h'', T', e, t, hseq, hp, -⟩ := finishRoot_spec T D.rb
    exact ⟨h'', T', e, t, hseq.trans seq, hp⟩
  · intro h' hl
    obtain ⟨f1, ctx, e, htop⟩ := exists_topOf hd rest
    have T : Held h' (plug (f :: f1 :: ctx) .nil) := by
      rw [← e]
      exact ⟨hl ▸ D.lies, D.nodup⟩
    obtain ⟨h1, e1, T1, p1, -⟩ := unlinkNode_spec T hsib
    rw [← e, plug_append] at T1
    obtain ⟨h'', T', e', t, hseq, hp, -⟩ := finishRoot_spec T1 rb
    exact ⟨h1, h'', T', htop ▸ e1, e', t, hseq.trans seq', by rw [hp, p1]⟩

/-- The loop of `metric_delete_inner` from the sentinel.  It stops at a node `q`.
If `q` has the labels, or the node after it, that one is found; else no node has
them. -/
lemma metricDelete_search {root : Ptr} (t : TreeAt h root T) (hroot : root ≠ none)
    (mono : T.addrs.Pairwise fun a b => greaterAt planSize labels h b = true →
      greaterAt planSize labels h a = true)
    (run : EqualRun (greaterAt planSize labels h) (equalAt planSize labels h) T.addrs) :
    ∃ h1 h2 p q f l r, setChild (h.alloc headNode).1 (some h.next) true root = some h1 ∧
      metricDeleteLoop planSize labels (h1.next + 1) h1 none h.next none true = some (h2, p, q, f) ∧
      payload h2 = update (payload h) h.next (some (headNode.toSeries, none)) ∧
      T.addrs = l ++ q :: r ∧ Searched h2 h.next p q l r ∧
      ((f = none ∧ ∀ a ∈ T.addrs, equalAt planSize labels h a = false) ∨
        (f = some q ∧ equalAt planSize labels h q = true ∧
          ∀ a ∈ l, greaterAt planSize labels h a = true) ∨
        ∃ a r', r = a :: r' ∧ f = some a ∧ equalAt planSize labels h a = true ∧
          ∀ b ∈ l ++ [q], greaterAt planSize labels h b = true) := by
  obtain ⟨h1, e1, pay1, n1, D⟩ := attachHead t
  have D := D (greaterAt planSize labels h)
  have reads : ∀ a ∈ T.addrs, ∀ s, payload h1 a = some s →
      decide (labelsCmp planSize labels s.1.labels = .gt) = greaterAt planSize labels h a ∧
      decide (labelsCmp planSize s.1.labels labels = .eq) = equalAt planSize labels h a := by
    intro a ha s hs
    rw [pay1, update_of_ne (t.ne_next ha)] at hs
    rw [greaterAt, equalAt, hs]
    exact ⟨rfl, rfl⟩
  have hne : T ≠ .nil := by
    rintro rfl
    exact hroot t.root_eq.symm
  have fuel : T.addrs.length < h1.next + 1 := by
    have := t.length_le
    omega
  obtain ⟨h2, f, rest, e2, D2, H2, same⟩ :=
    metricDeleteLoop_spec mono run reads D trivial (fun _ => hne) fuel
  have seq : T.addrs = Path.before rest ++ f.a :: Path.after rest := by
    rw [← D2.seq, plug_cons, addrs_plug, addrs_fill, (D2.leaf H2).1]
    cases f.d <;> simp
  obtain ⟨before, after⟩ := dirs_before_after D2.dirs (D2.seq.symm ▸ mono)
  have hsib := (D2.leaf H2).1
  refine ⟨h1, h2, _, _, _, _, _, e1, e2, same.payload.trans pay1, seq, D2.searched H2, ?_⟩
  -- nothing is found: the first node that is not smaller would be equal too
  have none_equal : found (equalAt planSize labels h) (f :: rest) = none →
      ∀ a ∈ T.addrs, equalAt planSize labels h a = false := by
    intro hf a ha
    by_contra hea
    rw [Bool.not_eq_false] at hea
    have hdir := run.notLess a ha hea
    have hsplit : T.addrs = Path.before (f :: rest) ++ Path.after (f :: rest) := by
      rw [← D2.seq, addrs_plug]
      simp
    rw [hsplit, mem_append] at ha
    have hafter : a ∈ Path.after (f :: rest) := by
      rcases ha with ha | ha
      · rw [before a ha] at hdir
        cases hdir
      · exact ha
    have block := run.block
    rw [hsplit] at block
    have block := (pairwise_append.mp block).2.1
    cases hl : Path.after (f :: rest) with
    | nil => simp [hl] at hafter
    | cons b bs =>
      rw [hl] at hafter block after
      have hb : equalAt planSize labels h b = true := by
        rcases mem_cons.mp hafter with rfl | hmem
        · exact hea
        · exact (pairwise_cons.mp block).1 a hmem hea (after b mem_cons_self)
      rw [found, hl] at hf
      simp [hb] at hf
  cases hfound : found (equalAt planSize labels h) (f :: rest) with
  | none => exact .inl ⟨rfl, none_equal hfound⟩
  | some a =>
    obtain ⟨hhead, hea⟩ := filter_eq_some_iff.mp hfound
    cases hd : f.d with
    | false =>
      have : Path.after (f :: rest) = f.a :: Path.after rest := by
        simp [Path.after, hd, hsib]
      rw [this] at hhead
      cases hhead
      refine .inr (.inl ⟨rfl, hea, fun b hb => before b ?_⟩)
      simpa [Path.before, hd] using hb
    | true =>
      have hafter : Path.after (f :: rest) = Path.after rest := by simp [Path.after, hd]
      rw [hafter] at hhead
      obtain ⟨r', hr⟩ : ∃ r', Path.after rest = a :: r' := by
        cases hr : Path.after rest with
        | nil => simp [hr] at hhead
        | cons b bs =>
          rw [hr] at hhead
          cases hhead
          exact ⟨bs, rfl⟩
      refine .inr (.inr ⟨a, r', hr, rfl, hea, fun b hb => before b ?_⟩)
      simpa [Path.before, hd, hsib] using hb

end Alligator
