import Alligator.Lib.Trie
import Mathlib.Data.BitVec

/-!
# The trees of the access lists

`patricia_insert` walks down a tree of nodes along the bits of a key, as long as the
mask has ones; where a node is missing it creates the rest of the way.  `patricia_find`
keeps the last node with data on the way of an address.  Both are modelled with the
number of bits that are left instead of the cursor, which is the bit below that number
or, with no bit left, zero.

The functions for addresses of 32 and of 128 bits are the same up to the width.
-/

namespace Alligator

/-- The nodes of a tree.  Their data is one byte. -/
abbrev Patricia := BinaryTrie (BitVec 8)

variable (tree : Patricia)

section Width

variable {w : Nat}

/-! ## The operations -/

/-- The second loop of `patricia_insert`: create nodes as long as the mask has ones. -/
def growNodes (key mask : BitVec w) (data : BitVec 8) : Nat → Patricia
  | 0 => .node .nil .nil (some data)
  | n + 1 =>
    if mask.getLsbD n then
      if key.getLsbD n then .node .nil (growNodes key mask data n) none
      else .node (growNodes key mask data n) .nil none
    else .node .nil .nil (some data)

/-- The first loop of `patricia_insert`: follow the nodes as long as the mask has ones. -/
def followNodes (key mask : BitVec w) (data : BitVec 8) : Nat → Patricia → Patricia
  | n, .nil => growNodes key mask data n
  | 0, .node l r _ => .node l r (some data)
  | n + 1, .node l r d =>
    if mask.getLsbD n then
      if key.getLsbD n then .node l (followNodes key mask data n r) d
      else .node (followNodes key mask data n l) r d
    else .node l r (some data)

/-- `patricia_insert` and `patricia_insert128`, by the width. -/
def patriciaInsertBits (key mask : BitVec w) (data : BitVec 8) : Patricia :=
  match tree with
  | .nil => followNodes key mask data w (.node .nil .nil none)
  | .node l r d => followNodes key mask data w (.node l r d)

/-- The loop of `patricia_find`. -/
def patriciaFindLoop (key : BitVec w) : Patricia → Nat → Option (BitVec 8) → Option (BitVec 8)
  | .nil, _, ret => ret
  | .node l _ d, 0, ret => patriciaFindLoop key l 0 (d.or ret)
  | .node l r d, n + 1, ret =>
    if key.getLsbD n then patriciaFindLoop key r n (d.or ret)
    else patriciaFindLoop key l n (d.or ret)

/-- `patricia_find` and `patricia_find128`, by the width: the data of the node it returns. -/
def patriciaFindBits (key : BitVec w) : Option (BitVec 8) :=
  patriciaFindLoop key tree w none

end Width

def patriciaInsert (key mask : BitVec 32) (data : BitVec 8) : Patricia :=
  patriciaInsertBits tree key mask data

def patriciaInsert128 (key mask : BitVec 128) (data : BitVec 8) : Patricia :=
  patriciaInsertBits tree key mask data

def patriciaFind (key : BitVec 32) : Option (BitVec 8) :=
  patriciaFindBits tree key

def patriciaFind128 (key : BitVec 128) : Option (BitVec 8) :=
  patriciaFindBits tree key

section Width

variable {w : Nat}

/-- The loop of `patricia_delete`: the data of the node that the mask leads to. -/
def patriciaDeleteLoop (key mask : BitVec w) : Nat → Patricia → Option (BitVec 8)
  | _, .nil => none
  | 0, .node _ _ d => d
  | n + 1, .node l r d =>
    if mask.getLsbD n then
      if key.getLsbD n then patriciaDeleteLoop key mask n r
      else patriciaDeleteLoop key mask n l
    else d

/-- `patricia_delete` and `patricia_delete128`, by the width.  The node keeps the data that is
returned. -/
def patriciaDeleteBits (key mask : BitVec w) : Option (BitVec 8) :=
  (patriciaDeleteLoop key mask w tree).filter fun _ => decide (key ≠ 0 ∧ mask ≠ 0)

end Width

/-- `patricia_node_duplicate`: a copy of a node and of everything below it. -/
def patriciaNodeDuplicate : Patricia → Patricia
  | .nil => .nil
  | .node l r d => .node (patriciaNodeDuplicate l) (patriciaNodeDuplicate r) d

/-- `patricia_tree_duplicate` of a tree that is there. -/
def patriciaTreeDuplicate : Patricia → Patricia
  | .nil => .nil
  | .node l r d => .node (patriciaNodeDuplicate l) (patriciaNodeDuplicate r) d

variable (t : Patricia)

lemma patriciaNodeDuplicate_eq : patriciaNodeDuplicate t = t := by
  induction t with
  | nil => rfl
  | node l r d ihl ihr => rw [patriciaNodeDuplicate, ihl, ihr]

lemma patriciaTreeDuplicate_eq : patriciaTreeDuplicate t = t := by
  cases t with
  | nil => rfl
  | node l r d => rw [patriciaTreeDuplicate, patriciaNodeDuplicate_eq, patriciaNodeDuplicate_eq]

/-! ## The trees as tries -/

section Width

variable {w : Nat}

open BinaryTrie

/-- The bits of a key under the leading ones of a mask. -/
def maskedBits (key mask : BitVec w) : Nat → List Bool
  | 0 => []
  | n + 1 => if mask.getLsbD n then key.getLsbD n :: maskedBits key mask n else []

/-- The bits of an address, from the top; after its end there are zeros. -/
def keyBits (key : BitVec w) (n i : Nat) : Bool := decide (i < n) && key.getLsbD (n - 1 - i)

lemma keyBits_zero (key : BitVec w) (n : Nat) : keyBits key (n + 1) 0 = key.getLsbD n := by
  simp [keyBits]

lemma keyBits_succ (key : BitVec w) (n : Nat) :
    (fun i => keyBits key (n + 1) (i + 1)) = keyBits key n := by
  funext i
  simp only [keyBits, Nat.add_lt_add_iff_right]
  congr 2
  omega

section

variable (key mask : BitVec w)

lemma growNodes_eq (data : BitVec 8) (n : Nat) :
    growNodes key mask data n = BinaryTrie.nil.insert data (maskedBits key mask n) := by
  induction n with
  | zero => rfl
  | succ n ih =>
    rw [growNodes, maskedBits]
    cases mask.getLsbD n with
    | false => rfl
    | true => cases key.getLsbD n <;> simp [BinaryTrie.insert, ih]

lemma followNodes_eq (data : BitVec 8) (n : Nat) (t) :
    followNodes key mask data n t = t.insert data (maskedBits key mask n) := by
  induction n generalizing t with
  | zero =>
    cases t with
    | nil => exact growNodes_eq key mask data 0
    | node l r d => rfl
  | succ n ih =>
    cases t with
    | nil => exact growNodes_eq key mask data (n + 1)
    | node l r d =>
      rw [followNodes, maskedBits]
      cases mask.getLsbD n with
      | false => rfl
      | true => cases key.getLsbD n <;> simp [BinaryTrie.insert, ih]

lemma patriciaInsertBits_eq (data : BitVec 8) :
    patriciaInsertBits t key mask data = t.insert data (maskedBits key mask w) := by
  cases t with
  | nil => rw [patriciaInsertBits, followNodes_eq, ← insert_nil]
  | node l r d => exact followNodes_eq key mask data w _

end

lemma patriciaDeleteLoop_eq (key mask : BitVec w) (n : Nat) (t : Patricia) :
    patriciaDeleteLoop key mask n t = t.get (maskedBits key mask n) := by
  induction n generalizing t with
  | zero => cases t <;> rfl
  | succ n ih =>
    cases t with
    | nil => rw [patriciaDeleteLoop, get_nil]
    | node l r d =>
      rw [patriciaDeleteLoop, maskedBits]
      cases mask.getLsbD n with
      | false => rfl
      | true => cases key.getLsbD n <;> simp [BinaryTrie.get, ih]

lemma deepest_node_value (l r : Patricia) (d : Option (BitVec 8)) (bits : Nat → Bool) :
    ((BinaryTrie.node l r d).deepest bits).map Prod.snd =
      (((bif bits 0 then r else l).deepest fun i => bits (i + 1)).map Prod.snd).or d := by
  rw [deepest_node]
  cases (bif bits 0 then r else l).deepest fun i => bits (i + 1) with
  | none => cases d <;> rfl
  | some c => rfl

lemma patriciaFindLoop_eq (key : BitVec w) (t : Patricia) (n : Nat) (ret : Option (BitVec 8)) :
    patriciaFindLoop key t n ret = ((t.deepest (keyBits key n)).map Prod.snd).or ret := by
  induction t generalizing n ret with
  | nil => exact rfl
  | node l r d ihl ihr =>
    rw [deepest_node_value, Option.or_assoc]
    cases n with
    | zero =>
      have hnext : (fun i => keyBits key 0 (i + 1)) = keyBits key 0 := by
        funext i
        simp [keyBits]
      rw [patriciaFindLoop, ihl, hnext]
      rfl
    | succ n =>
      rw [patriciaFindLoop, keyBits_zero, keyBits_succ]
      cases key.getLsbD n with
      | false => exact ihl n _
      | true => exact ihr n _

lemma patriciaFindBits_eq (key : BitVec w) :
    patriciaFindBits t key = (t.deepest (keyBits key w)).map Prod.snd := by
  rw [patriciaFindBits, patriciaFindLoop_eq, Option.or_none]

/-! ## Masks of networks -/

section Masks

variable {key mask : BitVec w} {p : Nat} (hmask : ∀ n < w, mask.getLsbD n = decide (w - p ≤ n))
include hmask

lemma length_maskedBits {n : Nat} (hn : n ≤ w) : (maskedBits key mask n).length = n - (w - p) := by
  induction n with
  | zero => simp [maskedBits]
  | succ n ih =>
    rw [maskedBits, hmask n hn]
    by_cases h : w - p ≤ n
    · rw [if_pos (decide_eq_true h), List.length_cons, ih (by omega)]
      omega
    · rw [if_neg (by simpa using h), List.length_nil]
      omega

/-- An address starts with them if its first `p` bits are those of the key. -/
lemma starts_maskedBits
    (a : BitVec w) {n : Nat} (hn : n ≤ w) : starts (maskedBits key mask n) (keyBits a n) = true ↔
      ∀ i, w - p ≤ i → i < n → a.getLsbD i = key.getLsbD i := by
  induction n with
  | zero => simp [maskedBits, starts]
  | succ n ih =>
    rw [maskedBits, hmask n hn]
    by_cases h : w - p ≤ n
    · rw [if_pos (decide_eq_true h), starts, keyBits_succ, Bool.and_eq_true, beq_iff_eq,
        ih (by omega), keyBits_zero]
      constructor
      · rintro ⟨h0, hrest⟩ i hi hlt
        rcases Nat.lt_succ_iff_lt_or_eq.mp hlt with hlt | rfl
        · exact hrest i hi hlt
        · exact h0.symm
      · intro hall
        exact ⟨(hall n h (Nat.lt_succ_self n)).symm, fun i hi hlt => hall i hi (by omega)⟩
    · rw [if_neg (by simpa using h)]
      simp only [starts, true_iff]
      intro i hi hlt
      omega

end Masks

end Width

end Alligator
