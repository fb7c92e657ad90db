import Alligator.Lib.Heap

/-!
# Red-black trees laid out in memory

The shape of a red-black tree whose nodes live at addresses.  A node of the
shape carries its address and its colour.  `CTree.Lies v t` says that the links
`v` hold the tree `t`: every node of `t` finds, at its address, its colour and
the addresses of its children.

Top-down algorithms keep a path of pointers while they restructure the tree
around it.  A path is a list of frames, innermost first, and `plug` puts a tree
back under it.  `CTree.lies_replace` replaces a subtree under a path in memory,
`RB.replace` does it for the red-black invariant and `addrs_plug` for the
in-order sequence.

A direction is a Boolean, `false` for left.  `CTree.mk d` builds a node from its
child on side `d` and the other one, so that a statement about one side is the
statement about both.
-/

namespace RedBlack

open Memory List

inductive Color where
  | red
  | black
deriving DecidableEq

/-- A side: `false` is left, `true` is right. -/
abbrev Dir := Bool

/-- What the tree algorithms read and write of a node. -/
structure Link where
  color : Color
  left : Ptr
  right : Ptr
deriving DecidableEq

abbrev Links := Addr → Option Link

variable {d : Dir} {v' : Links} {n : Nat}

/-- The child on side `d`. -/
def Link.child (l : Link) (d : Dir) : Ptr := if d then l.right else l.left

/-- The link with another child on side `d`. -/
def Link.setChild (l : Link) (d : Dir) (p : Ptr) : Link :=
  if d then { l with right := p } else { l with left := p }

/-- The link with child `p` on side `d` and `q` on the other side. -/
def Link.of (d : Dir) (c : Color) (p q : Ptr) : Link :=
  match d with
  | false => ⟨c, p, q⟩
  | true => ⟨c, q, p⟩

@[simp] lemma Link.child_of (d : Dir) (c : Color) (p q : Ptr) : (Link.of d c p q).child d = p := by
  cases d <;> rfl

@[simp] lemma Link.child_of_not (d : Dir) (c : Color) (p q : Ptr) :
    (Link.of d c p q).child (!d) = q := by
  cases d <;> rfl

@[simp] lemma Link.setChild_of (d : Dir) (c : Color) (p q r : Ptr) :
    (Link.of d c p q).setChild d r = Link.of d c r q := by
  cases d <;> rfl

@[simp] lemma Link.setChild_of_not (d : Dir) (c : Color) (p q r : Ptr) :
    (Link.of d c p q).setChild (!d) r = Link.of d c p r := by
  cases d <;> rfl

/-- The shape of a tree: addresses and colours. -/
inductive CTree where
  | nil
  | node (a : Addr) (c : Color) (l r : CTree)
deriving DecidableEq

open CTree

variable {x y t : CTree} {v : Links} {a : Addr} {c : Color} {b : Addr} {x' y' : CTree} {c' : Color}

namespace CTree

/-- The node with child `x` on side `d` and `y` on the other side. -/
def mk (d : Dir) (a : Addr) (c : Color) (x y : CTree) : CTree :=
  match d with
  | false => .node a c x y
  | true => .node a c y x

def root : CTree → Ptr
  | .nil => none
  | .node a _ _ _ => some a

/-- The colour of a tree; the missing tree is black. -/
def color : CTree → Color
  | .nil => .black
  | .node _ c _ _ => c

def addrs : CTree → List Addr
  | .nil => []
  | .node a _ l r => l.addrs ++ a :: r.addrs

@[simp] lemma root_nil : nil.root = none := rfl

@[simp] lemma addrs_nil : nil.addrs = [] := rfl

@[simp] lemma root_mk (d : Dir) (a : Addr) (c : Color) (x y : CTree) :
    (mk d a c x y).root = some a := by
  cases d <;> rfl

@[simp] lemma color_mk (d : Dir) (a : Addr) (c : Color) (x y : CTree) :
    (mk d a c x y).color = c := by
  cases d <;> rfl

lemma mk_not (d : Dir) (a : Addr) (c : Color) (x y : CTree) : mk (!d) a c x y = mk d a c y x := by
  cases d <;> rfl

lemma mk_inj {a' : Addr} (h : mk d a c x y = mk d a' c' x' y') :
    a = a' ∧ c = c' ∧ x = x' ∧ y = y' := by
  cases d with
  | false | true =>
    obtain ⟨ha, hc, hl, hr⟩ := node.inj h
    exact ⟨ha, hc, by assumption, by assumption⟩

lemma mk_ne_nil (d : Dir) (a : Addr) (c : Color) (x y : CTree) : mk d a c x y ≠ .nil := by
  cases d <;> nofun

/-- Every tree but the missing one is a node seen from either side. -/
lemma eq_nil_or_mk (d : Dir) : ∀ t : CTree, t = .nil ∨ ∃ a c x y, t = mk d a c x y
  | .nil => .inl rfl
  | .node a c l r => by
    cases d with
    | false => exact .inr ⟨a, c, l, r, rfl⟩
    | true => exact .inr ⟨a, c, r, l, rfl⟩

lemma exists_mk_of_red (d : Dir) (h : t.color = .red) : ∃ a x y, t = mk d a .red x y := by
  rcases eq_nil_or_mk d t with rfl | ⟨a, c, x, y, rfl⟩
  · cases h
  · rw [color_mk] at h
    subst h
    exact ⟨a, x, y, rfl⟩

lemma color_ne_red : t.color ≠ .red ↔ t.color = .black := by
  cases t.color <;> simp

lemma root_eq_none : t.root = none ↔ t = .nil := by
  cases t <;> simp [root]

lemma root_mem (h : t.root = some a) : a ∈ t.addrs := by
  cases t with
  | nil => cases h
  | node b c l r =>
    cases h
    simp [addrs]

lemma addrs_mk_false (a : Addr) (c : Color) (x y : CTree) :
    (mk false a c x y).addrs = x.addrs ++ a :: y.addrs := rfl

lemma addrs_mk_true (a : Addr) (c : Color) (x y : CTree) :
    (mk true a c x y).addrs = y.addrs ++ a :: x.addrs := rfl

@[simp] lemma mem_addrs_mk : b ∈ (mk d a c x y).addrs ↔ b = a ∨ b ∈ x.addrs ∨ b ∈ y.addrs := by
  cases d with
  | false =>
    rw [addrs_mk_false, mem_append, mem_cons]
    tauto
  | true =>
    rw [addrs_mk_true, mem_append, mem_cons]
    tauto

/-- The addresses of a node are distinct when its own occurs in neither child
and those of the children are distinct. -/
lemma nodup_mk : (mk d a c x y).addrs.Nodup ↔
      a ∉ x.addrs ∧ a ∉ y.addrs ∧ x.addrs.Nodup ∧ y.addrs.Nodup ∧ ∀ b ∈ x.addrs, b ∉ y.addrs := by
  have hleft (x y : CTree) : (mk false a c x y).addrs.Nodup ↔
      a ∉ x.addrs ∧ a ∉ y.addrs ∧ x.addrs.Nodup ∧ y.addrs.Nodup ∧ ∀ b ∈ x.addrs, b ∉ y.addrs := by
    simp only [addrs_mk_false, nodup_append, nodup_cons, mem_cons]
    constructor
    · rintro ⟨hx, ⟨hay, hy⟩, hd⟩
      exact ⟨fun h => hd a h a (.inl rfl) rfl, hay, hx, hy,
        fun b hb hb' => hd b hb b (.inr hb') rfl⟩
    · rintro ⟨hax, hay, hx, hy, hd⟩
      refine ⟨hx, ⟨hay, hy⟩, fun b hb b' hb' e => ?_⟩
      subst e
      rcases hb' with rfl | hb'
      · exact hax hb
      · exact hd b hb hb'
  cases d with
  | false => exact hleft x y
  | true =>
    have hswap : (∀ b ∈ y.addrs, b ∉ x.addrs) ↔ ∀ b ∈ x.addrs, b ∉ y.addrs :=
      ⟨fun h b hb hb' => h b hb' hb, fun h b hb hb' => h b hb' hb⟩
    rw [show mk true a c x y = mk false a c y x from rfl, hleft]
    tauto

/-! ## Trees in memory -/

/-- The links hold the tree. -/
def Lies (v : Links) : CTree → Prop
  | .nil => True
  | .node a c l r => v a = some ⟨c, l.root, r.root⟩ ∧ l.Lies v ∧ r.Lies v

@[simp] lemma lies_nil (v : Links) : nil.Lies v := trivial

/-- A tree in memory whose nodes are good, and fuel for a walk over it. -/
structure Within (v : Links) (Good : Addr → Prop) (fuel : Nat) (t : CTree) : Prop where
  lies : t.Lies v
  good : ∀ a ∈ t.addrs, Good a
  fits : t.addrs.length ≤ fuel

section Within

variable {v : Links} {Good : Addr → Prop} {fuel : Nat} {a : Addr} {c : Color}
  {l r : CTree}

lemma Within.root (h : Within v Good fuel (.node a c l r)) : Good a :=
  h.good a (by simp [addrs])

lemma Within.left (h : Within v Good (fuel + 1) (.node a c l r)) : Within v Good fuel l := by
  obtain ⟨hlies, hgood, hfits⟩ := h
  rw [addrs, length_append, length_cons] at hfits
  exact ⟨hlies.2.1, fun b hb => hgood b (mem_append_left _ hb), by omega⟩

lemma Within.right (h : Within v Good (fuel + 1) (.node a c l r)) : Within v Good fuel r := by
  obtain ⟨hlies, hgood, hfits⟩ := h
  rw [addrs, length_append, length_cons] at hfits
  exact ⟨hlies.2.2, fun b hb => hgood b (mem_append_right _ (mem_cons_of_mem a hb)), by omega⟩

lemma Within.mono {fuel' : Nat} (h : Within v Good fuel t) (hle : fuel ≤ fuel') :
    Within v Good fuel' t :=
  ⟨h.lies, h.good, Nat.le_trans h.fits hle⟩

/-- Induction along a walk. -/
lemma Within.induct {P : Nat → CTree → Prop} (nil : ∀ fuel, P fuel .nil)
    (node : ∀ {fuel a c l r}, Within v Good (fuel + 1) (.node a c l r) → P fuel l → P fuel r →
      P (fuel + 1) (.node a c l r)) :
    ∀ {t : CTree} {fuel : Nat}, Within v Good fuel t → P fuel t
  | .nil, fuel, _ => nil fuel
  | .node a c l r, 0, h => by
    have hfits := h.fits
    simp [addrs] at hfits
  | .node a c l r, fuel + 1, h =>
    node h (Within.induct nil node h.left) (Within.induct nil node h.right)

end Within

lemma lies_mk :
    (mk d a c x y).Lies v ↔ v a = some (Link.of d c x.root y.root) ∧ x.Lies v ∧ y.Lies v := by
  cases d with
  | false => rfl
  | true =>
    constructor
    · rintro ⟨h, hy, hx⟩
      exact ⟨h, hx, hy⟩
    · rintro ⟨h, hx, hy⟩
      exact ⟨h, hy, hx⟩

lemma Lies.congr : ∀ {t : CTree}, t.Lies v → (∀ b ∈ t.addrs, v' b = v b) → t.Lies v'
  | .nil, _, _ => trivial
  | .node a c l r, ⟨h, hl, hr⟩, hs => by
    refine ⟨?_, hl.congr fun b hb => hs b ?_, hr.congr fun b hb => hs b ?_⟩
    · rw [hs a (by simp [addrs]), h]
    · simp [addrs, hb]
    · simp [addrs, hb]

/-- Every node of a tree in memory is a live address. -/
lemma Lies.live : ∀ {t : CTree}, t.Lies v → ∀ b ∈ t.addrs, (v b).isSome
  | .nil, _, b, hb => by simp at hb
  | .node a c l r, ⟨h, hl, hr⟩, b, hb => by
    simp only [addrs, mem_append, mem_cons] at hb
    rcases hb with hb | rfl | hb
    · exact hl.live b hb
    · simp [h]
    · exact hr.live b hb

end CTree

/-! ## The red-black invariant -/

/-- `RB t n`: no red node of `t` has a red child, and every path from the root
to a missing child meets `n` black nodes. -/
inductive RB : CTree → Nat → Prop where
  | nil : RB .nil 0
  | red {a : Addr} {l r : CTree} {n : Nat} (hl : l.color = .black) (hr : r.color = .black)
      (bl : RB l n) (br : RB r n) : RB (.node a .red l r) n
  | black {a : Addr} {l r : CTree} {n : Nat} (bl : RB l n) (br : RB r n) :
      RB (.node a .black l r) (n + 1)

lemma rb_red : RB (.mk d a .red x y) n ↔ x.color = .black ∧ y.color = .black ∧ RB x n ∧ RB y n := by
  cases d with
  | false | true =>
    constructor
    · rintro (_ | ⟨hl, hr, bl, br⟩)
      refine ⟨?_, ?_, ?_, ?_⟩ <;> assumption
    · rintro ⟨hl, hr, bl, br⟩
      constructor <;> assumption

lemma rb_black : RB (.mk d a .black x y) n ↔ ∃ m, n = m + 1 ∧ RB x m ∧ RB y m := by
  cases d with
  | false | true =>
    constructor
    · rintro (_ | _ | ⟨bl, br⟩)
      exact ⟨_, rfl, by assumption, by assumption⟩
    · rintro ⟨m, rfl, bl, br⟩
      constructor <;> assumption

/-- A tree without black nodes on its paths that is not red is missing. -/
lemma RB.eq_nil (h : RB t 0) (hc : t.color = .black) : t = .nil := by
  cases h with
  | nil => rfl
  | red => cases hc

lemma rb_nil (h : RB .nil n) : n = 0 := by
  cases h
  rfl

/-- Painting the root black keeps the invariant. -/
lemma RB.blacken (h : RB (.mk d a c x y) n) : ∃ m, RB (.mk d a .black x y) m := by
  cases c with
  | red =>
    obtain ⟨-, -, hx, hy⟩ := rb_red.mp h
    exact ⟨n + 1, rb_black.mpr ⟨n, rfl, hx, hy⟩⟩
  | black => exact ⟨n, h⟩

/-! ## Paths -/

/-- One node of a path: its address and colour, the side the path goes down,
and the subtree on the other side. -/
structure Frame where
  a : Addr
  c : Color
  d : Dir
  sib : CTree
deriving DecidableEq

def Frame.fill (f : Frame) (t : CTree) : CTree := .mk f.d f.a f.c t f.sib

/-- A path, innermost frame first. -/
abbrev Path := List Frame

variable {ctx : Path}

def plug : Path → CTree → CTree
  | [], t => t
  | f :: ctx, t => plug ctx (f.fill t)

/-- The addresses to the left of a path's hole. -/
def Path.before : Path → List Addr
  | [] => []
  | f :: ctx => Path.before ctx ++ if f.d then f.sib.addrs ++ [f.a] else []

/-- The addresses to the right of a path's hole. -/
def Path.after : Path → List Addr
  | [] => []
  | f :: ctx => (if f.d then [] else f.a :: f.sib.addrs) ++ Path.after ctx

@[simp] lemma plug_nil (t : CTree) : plug [] t = t := rfl

@[simp] lemma plug_cons (f : Frame) (ctx : Path) (t : CTree) :
    plug (f :: ctx) t = plug ctx (f.fill t) := rfl

lemma plug_append : ∀ (ctx ctx' : Path) (t : CTree), plug (ctx ++ ctx') t = plug ctx' (plug ctx t)
  | [], _, _ => rfl
  | f :: ctx, ctx', t => plug_append ctx ctx' (f.fill t)

lemma addrs_fill (f : Frame) (t : CTree) :
    (f.fill t).addrs = (if f.d then f.sib.addrs ++ [f.a] else []) ++ t.addrs ++
      (if f.d then [] else f.a :: f.sib.addrs) := by
  obtain ⟨a, c, d, sib⟩ := f
  cases d <;> simp [Frame.fill, mk, addrs]

/-- The in-order sequence of a tree under a path. -/
lemma addrs_plug : ∀ (ctx : Path) (t : CTree),
    (plug ctx t).addrs = Path.before ctx ++ t.addrs ++ Path.after ctx
  | [], t => by simp [Path.before, Path.after]
  | f :: ctx, t => by
    rw [plug_cons, addrs_plug ctx, addrs_fill, Path.before, Path.after]
    simp

@[simp] lemma root_fill (f : Frame) (t : CTree) : (f.fill t).root = some f.a :=
  root_mk ..

@[simp] lemma color_fill (f : Frame) (t : CTree) : (f.fill t).color = f.c :=
  color_mk ..

def Path.addrs (ctx : Path) : List Addr := Path.before ctx ++ Path.after ctx

variable {f : Frame}

lemma mem_path_cons :
    b ∈ Path.addrs (f :: ctx) ↔ b = f.a ∨ b ∈ f.sib.addrs ∨ b ∈ Path.addrs ctx := by
  obtain ⟨a, c, d, sib⟩ := f
  cases d with
  | false =>
    simp only [Path.addrs, Path.before, Path.after, Bool.false_eq_true, if_false, mem_append, mem_cons]
    tauto
  | true =>
    simp only [Path.addrs, Path.before, if_true, mem_append, mem_cons]
    tauto

/-- A path over distinct addresses is apart from the tree under it. -/
lemma path_apart (ctx : Path) (t : CTree) (nd : (plug ctx t).addrs.Nodup) :
    ∀ b ∈ Path.addrs ctx, b ∉ t.addrs := by
  rw [addrs_plug, nodup_append, nodup_append] at nd
  obtain ⟨⟨-, -, hbt⟩, -, hd⟩ := nd
  intro b hb hbt'
  rcases mem_append.mp hb with h | h
  · exact hbt b h b hbt' rfl
  · exact hd b (mem_append_right _ hbt') b h rfl

lemma nodup_of_plug (ctx : Path) (t : CTree) (nd : (plug ctx t).addrs.Nodup) : t.addrs.Nodup := by
  rw [addrs_plug, nodup_append, nodup_append] at nd
  exact nd.1.2.1

/-- The links hold the frames of a path whose hole is the pointer `p`. -/
def LiesPath (v : Links) : Path → Ptr → Prop
  | [], _ => True
  | f :: ctx, p =>
    v f.a = some (Link.of f.d f.c p f.sib.root) ∧ f.sib.Lies v ∧ LiesPath v ctx (some f.a)

lemma lies_plug : ∀ {ctx : Path} {t : CTree},
    (plug ctx t).Lies v ↔ LiesPath v ctx t.root ∧ t.Lies v
  | [], t => by simp [LiesPath]
  | f :: ctx, t => by
    rw [plug_cons, lies_plug, root_fill, Frame.fill, lies_mk, LiesPath]
    tauto

lemma lies_of_plug (ctx : Path) (h : (plug ctx t).Lies v) : t.Lies v:= (lies_plug.mp h).2

lemma LiesPath.congr : ∀ {ctx : Path} {p : Ptr},
    LiesPath v ctx p → (∀ b ∈ Path.addrs ctx, v' b = v b) → LiesPath v' ctx p
  | [], _, _, _ => trivial
  | f :: ctx, p, ⟨h, hs, hc⟩, hv => by
    refine ⟨?_, hs.congr fun b hb => hv b ?_, hc.congr fun b hb => hv b ?_⟩
    · rw [hv f.a (mem_path_cons.mpr (.inl rfl)), h]
    · exact mem_path_cons.mpr (.inr (.inl hb))
    · exact mem_path_cons.mpr (.inr (.inr hb))

variable {t' : CTree}

/-- Replace the tree under a path in memory.  The new tree lies somewhere off
the path, the parent points to it, and nothing else on the path changed. -/
lemma lies_replace
    (h : (plug (f :: ctx) t).Lies v) (nd : (plug (f :: ctx) t).addrs.Nodup) (ht' : t'.Lies v')
    (hf : v' f.a = some (Link.of f.d f.c t'.root f.sib.root))
    (hv : ∀ b ∈ Path.addrs (f :: ctx), b ≠ f.a → v' b = v b) : (plug (f :: ctx) t').Lies v' := by
  have ndf : (f.fill t).addrs.Nodup := nodup_of_plug ctx _ nd
  have apart := path_apart ctx (f.fill t) nd
  obtain ⟨hp, -⟩ := lies_plug.mp h
  obtain ⟨-, hsib, hctx⟩ := hp
  obtain ⟨-, hna, -⟩ := nodup_mk.mp ndf
  refine lies_plug.mpr ⟨⟨hf, hsib.congr fun b hb => ?_, hctx.congr fun b hb => ?_⟩, ht'⟩
  · exact hv b (mem_path_cons.mpr (.inr (.inl hb))) fun e => hna (e ▸ hb)
  · refine hv b (mem_path_cons.mpr (.inr (.inr hb))) fun e => ?_
    exact apart b hb (e ▸ root_mem (root_fill f t))

/-- Replace the tree under a path in a red-black tree: by one with the same
number of black nodes on its paths that is black or of the old colour. -/
lemma RB.replace : ∀ (ctx : Path) {t : CTree} {m : Nat}, RB (plug ctx t) m →
    ∃ n, RB t n ∧ ∀ t', RB t' n → t'.color = t.color ∨ t'.color = .black → RB (plug ctx t') m
  | [], t, m, h => ⟨m, h, fun _ h' _ => h'⟩
  | f :: ctx, t, m, h => by
    obtain ⟨n, hn, hr⟩ := RB.replace ctx h
    obtain ⟨a, c, d, sib⟩ := f
    cases c with
    | red =>
      obtain ⟨hc, hs, ht, hsib⟩ := rb_red.mp hn
      refine ⟨n, ht, fun t' ht' hcol => hr _ (rb_red.mpr ⟨?_, hs, ht', hsib⟩) (.inl ?_)⟩
      · rcases hcol with e | e
        · rw [e, hc]
        · exact e
      · rw [color_fill, color_fill]
    | black =>
      obtain ⟨k, rfl, ht, hsib⟩ := rb_black.mp hn
      refine ⟨k, ht, fun t' ht' _ => hr _ (rb_black.mpr ⟨k, rfl, ht', hsib⟩) (.inl ?_)⟩
      rw [color_fill, color_fill]

/-- Under a black node a tree may be replaced by one of any colour. -/
lemma RB.replace_black {m : Nat} (h : RB (plug (f :: ctx) t) m) (hf : f.c = .black) :
    ∃ n, RB t n ∧ ∀ t', RB t' n → RB (plug (f :: ctx) t') m := by
  obtain ⟨n, hn, hr⟩ := RB.replace ctx h
  obtain ⟨a, c, d, sib⟩ := f
  subst hf
  obtain ⟨k, rfl, ht, hsib⟩ := rb_black.mp hn
  refine ⟨k, ht, fun t' ht' => hr _ (rb_black.mpr ⟨k, rfl, ht', hsib⟩) (.inl ?_)⟩
  rw [color_fill, color_fill]

/-- The two rotations keep the in-order sequence. -/
lemma CTree.addrs_single (d : Dir) (r s : Addr) (c c' cs cs' : Color) (x y z : CTree) :
    (mk d s cs' (.mk d r c' x y) z).addrs = (mk d r c x (.mk d s cs y z)).addrs := by
  cases d <;> simp [mk, addrs]

lemma CTree.addrs_double (d : Dir) (r s q : Addr) (c c' cs cs' cq cq' : Color)
    (x y z w : CTree) : (mk d q cq' (.mk d r c' x y) (.mk d s cs' z w)).addrs =
      (mk d r c x (.mk d s cs (.mk d q cq y z) w)).addrs := by
  cases d <;> simp [mk, addrs]

/-- The in-order sequence of a node depends on its children's only. -/
lemma CTree.addrs_mk_congr (hx : x'.addrs = x.addrs)
    (hy : y'.addrs = y.addrs) : (mk d a c' x' y').addrs = (mk d a c x y).addrs := by
  cases d <;> simp [mk, addrs, hx, hy]

lemma addrs_plug_congr (ctx : Path) (h : t'.addrs = t.addrs) :
    (plug ctx t').addrs = (plug ctx t).addrs := by
  rw [addrs_plug, addrs_plug, h]

end RedBlack
