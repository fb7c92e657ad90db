import Alligator.Metric.Node

/-!
# Searching the metric tree

Insertion and deletion put a sentinel head above the root and go down from it.
`Located` describes the search at a moment: a tree `q` under a path whose
directions are those of the comparison with the labels searched for.  `Descent`
adds that the tree is red-black but for the colour of its root.

The comparison is a Boolean function `dirOf` of the address.  Along the in-order
sequence it is first true and then false, so the place where the search ends
splits the sequence into the nodes that the labels are greater than and the
others (`dirs_before_after`).
-/

namespace Alligator

open Memory RedBlack List Function Heap

variable {root : Ptr} {T : CTree}

/-- The sentinel head: a node of zeros. -/
def headNode : MetricNode where
  color := .black
  left := none
  right := none
  labels := []
  type := .none
  value := 0
  percentileBuf := none
  expireNode := none

def headFrame (hd : Addr) : Frame := ⟨hd, .black, true, .nil⟩

lemma plug_head (hd : Addr) (t : CTree) : plug [headFrame hd] t = .mk true hd .black t .nil := rfl

/-- The address of the frame above `rest`, the sentinel at the top. -/
def topOf (hd : Addr) : Path → Addr
  | [] => hd
  | f :: _ => f.a

lemma exists_topOf (hd : Addr) (rest : Path) : ∃ f ctx, rest ++ [headFrame hd] = f :: ctx ∧
    f.a = topOf hd rest := by
  cases rest with
  | nil => exact ⟨_, _, rfl, rfl⟩
  | cons f rest => exact ⟨f, _, rfl, rfl⟩

variable {c : Color} {a : Addr}

/-- `t->child[RIGHT] == g` tells the side on which `g` hangs. -/
lemma decide_child_right {d : Dir} {g : Addr} {s : Ptr} (h : s ≠ some g) :
    decide ((Link.of d c (some g) s).child true = some g) = d := by
  cases d with
  | false => exact decide_eq_false h
  | true => exact decide_eq_true rfl

variable {h : Nodes}

section Search

variable (hd : Addr) (dirOf : Addr → Bool)

/-- The tree `q` lies under the path `ctx`, which follows `dirOf` from the
sentinel down.  `inorder` is the in-order sequence of the whole tree. -/
structure Located (inorder : List Addr) (h : Nodes) (ctx : Path) (q : CTree) : Prop where
  lies : (plug (ctx ++ [headFrame hd]) q).Lies (links h)
  nodup : (plug (ctx ++ [headFrame hd]) q).addrs.Nodup
  dirs : ∀ f ∈ ctx, f.d = dirOf f.a
  seq : (plug ctx q).addrs = inorder

/-- What holds at the top of the loop in every situation: the tree is red-black
but for the colour of its root. -/
structure Descent (inorder : List Addr) (h : Nodes) (ctx : Path) (q : CTree) : Prop
    extends Located hd dirOf inorder h ctx q where
  rb : ∃ m, RB (plug ctx q) m

variable {hd dirOf} {f : Frame}

section Located

variable {inorder : List Addr} {h h' : Nodes} {ctx : Path} {q q' : CTree}

section

variable (L : Located hd dirOf inorder h ctx q)
include L

lemma Located.tree : q.Lies (links h) :=
  lies_of_plug _ L.lies

lemma Located.nodup_tree : q.addrs.Nodup :=
  nodup_of_plug _ _ L.nodup

end

lemma Located.down {x y : CTree} (L : Located hd dirOf inorder h ctx (.mk (dirOf a) a c x y)) :
    Located hd dirOf inorder h (⟨a, c, dirOf a, y⟩ :: ctx) x :=
  ⟨L.lies, L.nodup, forall_mem_cons.mpr ⟨rfl, L.dirs⟩, L.seq⟩

lemma Located.isRed_parent (L : Located hd dirOf inorder h (f :: ctx) q) :
    isRed h (some f.a) = some (decide (f.c = .red)) := by
  have hp : (f.fill q).Lies (links h) := lies_of_plug (ctx ++ [headFrame hd]) L.lies
  rw [← root_fill f q, isRed_root hp, color_fill]

lemma Descent.rb_tree (D : Descent hd dirOf inorder h ctx q) : ∃ n, RB q n := by
  obtain ⟨m, hm⟩ := D.rb
  obtain ⟨n, hn, -⟩ := RB.replace ctx hm
  exact ⟨n, hn⟩

end Located

/-- Where the search ended: left of the hole are the nodes that the labels are
greater than, right of it the others. -/
lemma dirs_before_after {ctx : Path} {t : CTree} (dirs : ∀ f ∈ ctx, f.d = dirOf f.a)
    (mono : (plug ctx t).addrs.Pairwise fun a b => dirOf b = true → dirOf a = true) :
    (∀ a ∈ Path.before ctx, dirOf a = true) ∧ (∀ a ∈ Path.after ctx, dirOf a = false) := by
  induction ctx generalizing t with
  | nil => simp [Path.before, Path.after]
  | cons f ctx ih =>
    obtain ⟨hf, hr⟩ := forall_mem_cons.mp dirs
    obtain ⟨hb, ha⟩ := ih hr mono
    have sub : (f.fill t).addrs.Sublist (plug ctx (f.fill t)).addrs := by
      rw [addrs_plug]
      exact (sublist_append_right _ _).trans (sublist_append_left _ _)
    have local' := mono.sublist sub
    rw [addrs_fill] at local'
    cases hd : f.d with
    | true =>
      rw [hd] at hf local'
      simp only [if_true, append_nil] at local'
      have hsib := (pairwise_append.mp (pairwise_append.mp local').1).2.2
      simp only [Path.before, Path.after, hd, if_true, nil_append]
      refine ⟨fun a h => ?_, ha⟩
      rcases mem_append.mp h with h | h
      · exact hb a h
      · rcases mem_append.mp h with h | h
        · exact hsib a h f.a (mem_singleton.mpr rfl) hf.symm
        · rw [mem_singleton.mp h, ← hf]
    | false =>
      rw [hd] at hf local'
      simp only [Bool.false_eq_true, if_false, nil_append] at local'
      have hsib := (pairwise_cons.mp (pairwise_append.mp local').2.1).1
      simp only [Path.before, Path.after, hd, Bool.false_eq_true, if_false, append_nil]
      refine ⟨hb, fun a h => ?_⟩
      rcases mem_append.mp h with h | h
      · rcases mem_cons.mp h with rfl | h
        · exact hf.symm
        · by_contra hne
          have := hsib a h (Bool.not_eq_false _ ▸ hne)
          rw [← hf] at this
          cases this
      · exact ha a h

lemma Located.sib_dir {inorder : List Addr} {ctx : Path} {q : CTree}
    (L : Located hd dirOf inorder h (f :: ctx) q)
    (mono : inorder.Pairwise fun a b => dirOf b = true → dirOf a = true) :
    ∀ b ∈ f.sib.addrs, dirOf b = f.d := by
  intro b hb
  obtain ⟨before, after⟩ := dirs_before_after L.dirs (L.seq ▸ mono)
  cases hd : f.d with
  | true => exact before b (by simp [Path.before, hd, hb])
  | false => exact after b (by simp [Path.after, hd, hb])

end Search

/-! ## Trees at a root pointer -/

/-- A red-black tree in memory: its shape, at a root pointer. -/
structure TreeAt (h : Nodes) (root : Ptr) (T : CTree) : Prop where
  lies : T.Lies (links h)
  nodup : T.addrs.Nodup
  root_eq : T.root = root
  black : T.color = .black
  rb : ∃ m, RB T m

section

variable (t : TreeAt h root T)
include t

lemma TreeAt.live (ha : a ∈ T.addrs) : ∃ s, payload h a = some s := by
  obtain ⟨l, hl⟩ := Option.isSome_iff_exists.mp (t.lies.live a ha)
  obtain ⟨n, hn, -⟩ := view_eq_some.mp hl
  exact ⟨_, view_of_get _ hn⟩

lemma TreeAt.ne_next (ha : a ∈ T.addrs) : a ≠ h.next := by
  rintro rfl
  obtain ⟨s, hs⟩ := t.live ha
  rw [payload, view_next] at hs
  cases hs

lemma TreeAt.length_le : T.addrs.length ≤ h.next := by
  refine length_le_next t.nodup fun a ha => ?_
  have := t.lies.live a ha
  rwa [links, view, Option.isSome_map] at this

/-- The sentinel above a tree. -/
lemma attachHead : ∃ h', setChild (h.alloc headNode).1 (some h.next) true root = some h' ∧
      payload h' = update (payload h) h.next (some (headNode.toSeries, none)) ∧
      h'.next = h.next + 1 ∧ ∀ dirOf, Descent h.next dirOf T.addrs h' [] T := by
  have hlinks : links (h.alloc headNode).1 =
      update (links h) h.next (some headNode.toLink) := view_alloc _ _ _
  have hlink : links (h.alloc headNode).1 h.next = some (Link.of true .black none none) := by
    rw [hlinks, update_self]
    rfl
  obtain ⟨h', e, hl, hp, hn⟩ := setChild_eq hlink true root
  rw [Link.setChild_of] at hl
  refine ⟨h', e, hp.trans (view_alloc _ _ _), hn, fun dirOf => ⟨⟨?_, ?_, by simp, rfl⟩, t.rb⟩⟩
  · rw [nil_append, plug_head]
    refine CTree.lies_mk.mpr ⟨?_, t.lies.congr fun b hb => ?_, trivial⟩
    · rw [hl, t.root_eq]
      exact update_self _ _ _
    · rw [hl, update_of_ne (t.ne_next hb), hlinks, update_of_ne (t.ne_next hb)]
  · rw [nil_append, plug_head]
    exact CTree.nodup_mk.mpr ⟨fun hb => t.ne_next hb rfl, by simp, t.nodup, by simp, by simp⟩

end

/-- The labels are greater than those of the node at `a`. -/
def greaterAt (planSize : Nat) (labels : Labels) (h : Nodes) (a : Addr) : Bool :=
  match payload h a with
  | some s => decide (labelsCmp planSize labels s.1.labels = .gt)
  | none => false

end Alligator
