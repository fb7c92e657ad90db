import Mathlib.Algebra.Field.ZMod
import Mathlib.Tactic.NormNum.Prime
import Alligator.Lib.Draft
import Alligator.Metric.Labels

/-!
# The Maglev table

A cluster shares out the keys over its servers with a table of slots.  Every server has an order
in which it likes the slots, that two hashes of its name give, and the servers pick slots by
turns.

The number of slots is a prime, so that the order of a server goes through all of them
(`rows_permutation`), and every key belongs to a server (`lookup_build`).
-/

namespace Alligator

open List

/-! ## Hashes -/

/-- A `char` as it is added to an `unsigned int`. -/
def charToUnsigned (c : UInt8) : BitVec 32 := c.toBitVec.signExtend 32

def djbHash (str : Str) : BitVec 32 :=
  str.foldl (fun (hash : BitVec 32) c => hash <<< 5 + hash + charToUnsigned c) 5381 &&&
    0x7fffffff

/-- The multiplier of `murmur2`. -/
def murmurM : BitVec 32 := 0x5bd1e995

/-- The blocks of four bytes and what is left after them. -/
def murmur2Loop : Str → BitVec 32 → BitVec 32
  | d0 :: d1 :: d2 :: d3 :: data, h =>
    let k := charToUnsigned d0 ||| charToUnsigned d1 <<< 8 ||| charToUnsigned d2 <<< 16 |||
      charToUnsigned d3 <<< 24
    let k := k * murmurM
    let k := k ^^^ k >>> 24
    let k := k * murmurM
    murmur2Loop data (h * murmurM ^^^ k)
  | [d0, d1, d2], h =>
    (h ^^^ charToUnsigned d2 <<< 16 ^^^ charToUnsigned d1 <<< 8 ^^^ charToUnsigned d0) * murmurM
  | [d0, d1], h => (h ^^^ charToUnsigned d1 <<< 8 ^^^ charToUnsigned d0) * murmurM
  | [d0], h => (h ^^^ charToUnsigned d0) * murmurM
  | [], h => h

def murmur2 (data : Str) : BitVec 32 :=
  let h := murmur2Loop data (BitVec.ofNat 32 data.length)
  let h := h ^^^ h >>> 13
  let h := h * murmurM
  h ^^^ h >>> 15

/-! ## The table -/

def isMaglevPrime (n : Nat) : Bool :=
  decide (211 ≤ n) && decide (n ≤ 40009) && decide (n % 2 ≠ 0) &&
    (List.range (((n + 1).sqrt - 1) / 2)).all fun k => decide (n % (2 * k + 3) ≠ 0)

/-- The number of slots for some servers: the search starts above a hundred for each server.
Above the largest size it finds nothing until the counter of 64 bits has gone round. -/
def maglevHashSize (servers : Nat) : Nat :=
  ((List.range' (servers * 100 + 1) (40009 - servers * 100)).find? isMaglevPrime).getD 211

/-- What `maglev_add_node` works out from the name of a node. -/
structure MaglevNode where
  offset : Nat
  skip : Nat

def maglevAddNode (m : Nat) (name : Str) : MaglevNode :=
  ⟨(djbHash name).toNat % m, (murmur2 name).toNat % (m - 1) + 1⟩

/-- Row of `permutation`, in the arithmetic of `unsigned int`. -/
def MaglevNode.permutation (m : Nat) (node : MaglevNode) (j : Nat) : Nat :=
  (node.offset + j * node.skip) % 2 ^ 32 % m

def permutation (m : Nat) (nodes : List MaglevNode) (i j : Nat) : Nat :=
  (nodes.getD i ⟨0, 1⟩).permutation m j

/-- `maglev_create_ht`: for every slot the place of its node. -/
def maglevCreateHt (m : Nat) (nodes : List MaglevNode) : Option (List (Option Nat)) :=
  ((Draft.start nodes.length m).draft (permutation m nodes) nodes.length m).map Draft.entry

/-- The table in use. -/
structure MaglevHash where
  hashBucketSize : Nat
  hashEntry : List (Option Nat)

/-- The table that `cluster_push_json` makes for servers of these names. -/
def maglevBuild (names : List Str) : Option MaglevHash :=
  let m := maglevHashSize names.length
  (maglevCreateHt m (names.map (maglevAddNode m))).map (MaglevHash.mk m)

/-- `maglev_lookup_node`: the place of the node of a key. -/
def maglevLookupNode (psrv : MaglevHash) (key : Str) : Option Nat :=
  if psrv.hashBucketSize = 0 then none
  else psrv.hashEntry.getD ((murmur2 key).toNat % psrv.hashBucketSize) none

/-! ## The size is prime -/

lemma prime_of_isMaglevPrime {n : Nat} (h : isMaglevPrime n = true) : n.Prime := by
  simp only [isMaglevPrime, Bool.and_eq_true, decide_eq_true_eq, all_eq_true, mem_range] at h
  obtain ⟨⟨⟨hlow, -⟩, hodd⟩, hall⟩ := h
  by_contra hprime
  have hp : n.minFac.Prime := Nat.minFac_prime (by omega)
  have hdvd : n.minFac ∣ n := n.minFac_dvd
  have hle : n.minFac ≤ (n + 1).sqrt := by
    rw [Nat.le_sqrt, ← pow_two]
    exact (Nat.minFac_sq_le_self (by omega) hprime).trans (Nat.le_succ n)
  have htwo : n.minFac ≠ 2 := by
    intro heq
    rw [heq] at hdvd
    omega
  have hminodd := hp.eq_two_or_odd.resolve_left htwo
  have hthree : 3 ≤ n.minFac := by
    have := hp.two_le
    omega
  have hk : 2 * ((n.minFac - 3) / 2) + 3 = n.minFac := by omega
  refine hall ((n.minFac - 3) / 2) (by omega) ?_
  rw [hk]
  exact Nat.mod_eq_zero_of_dvd hdvd

lemma prime_maglevHashSize (servers : Nat) :
    (maglevHashSize servers).Prime ∧ maglevHashSize servers ≤ 40009 := by
  rw [maglevHashSize]
  cases hfind : (range' (servers * 100 + 1) (40009 - servers * 100)).find? isMaglevPrime with
  | none => exact ⟨by norm_num, by decide⟩
  | some m =>
    have hm := find?_some hfind
    refine ⟨prime_of_isMaglevPrime hm, ?_⟩
    simp only [isMaglevPrime, Bool.and_eq_true, decide_eq_true_eq] at hm
    exact hm.1.1.2

/-! ## Every key has a server -/

variable {c m : Nat} {names : List Str}

/-- Steps of a length that is not a multiple of the prime reach every place. -/
lemma exists_step (hm : m.Prime) {skip : Nat} (hpos : 0 < skip) (hlt : skip < m)
    (offset : Nat) (hc : c < m) : ∃ j, j < m ∧ (offset + j * skip) % m = c := by
  have : Fact m.Prime := ⟨hm⟩
  have hskip : (skip : ZMod m) ≠ 0 := by
    rw [ne_eq, ZMod.natCast_eq_zero_iff]
    exact Nat.not_dvd_of_pos_of_lt hpos hlt
  refine ⟨(((c : ZMod m) - offset) / skip).val, ZMod.val_lt _, ?_⟩
  have hcast : ((offset + (((c : ZMod m) - offset) / skip).val * skip : Nat) : ZMod m) = c := by
    push_cast
    rw [ZMod.natCast_zmod_val, div_mul_cancel₀ _ hskip, add_sub_cancel]
  rw [ZMod.natCast_eq_natCast_iff', Nat.mod_eq_of_lt hc] at hcast
  exact hcast

lemma permutation_onto (hm : m.Prime) (hmax : m ≤ 40009) (name : Str)
    (hc : c < m) : ∃ j, j < m ∧ (maglevAddNode m name).permutation m j = c := by
  have htwo := hm.two_le
  have hskip : (murmur2 name).toNat % (m - 1) < m - 1 := Nat.mod_lt _ (by omega)
  have hoffset : (djbHash name).toNat % m < m := Nat.mod_lt _ hm.pos
  obtain ⟨j, hj, hjc⟩ := exists_step hm (Nat.succ_pos ((murmur2 name).toNat % (m - 1)))
    (by omega) ((djbHash name).toNat % m) hc
  refine ⟨j, hj, ?_⟩
  -- the product stays below the modulus of the machine
  have hsmall : j * ((murmur2 name).toNat % (m - 1) + 1) ≤ 40009 * 40009 :=
    Nat.mul_le_mul (by omega) (by omega)
  rw [MaglevNode.permutation, maglevAddNode]
  dsimp only
  rw [Nat.mod_eq_of_lt (b := 2 ^ 32) (by omega)]
  exact hjc

lemma rows_permutation (hm : m.Prime) (hmax : m ≤ 40009) (names : List Str) :
    Draft.Rows (permutation m (names.map (maglevAddNode m))) names.length m where
  lt := fun _ _ _ => Nat.mod_lt _ hm.pos
  onto := by
    intro i c hi hc
    have hget : (names.map (maglevAddNode m)).getD i ⟨0, 1⟩ = maglevAddNode m names[i] := by
      rw [getD_eq_getElem _ _ (by simpa using hi), getElem_map]
    simp only [permutation, hget]
    exact permutation_onto hm hmax names[i] hc

/-- The table of some servers is made, and all its slots belong to them. -/
lemma maglevBuild_spec (hne : names ≠ []) :
    ∃ psrv, maglevBuild names = some psrv ∧ 0 < psrv.hashBucketSize ∧
      psrv.hashEntry.length = psrv.hashBucketSize ∧
      ∀ c, c < psrv.hashBucketSize → ∃ i, i < names.length ∧ psrv.hashEntry[c]? = some (some i) := by
  obtain ⟨hprime, hmax⟩ := prime_maglevHashSize names.length
  obtain ⟨st, hst, hlen, hfull⟩ := Draft.draft_full (rows_permutation hprime hmax names)
    (length_pos_iff.2 hne) hprime.pos
  refine ⟨⟨maglevHashSize names.length, st.entry⟩, ?_, hprime.pos, hlen, hfull⟩
  rw [maglevBuild, maglevCreateHt, length_map, hst]
  rfl

lemma lookup_build {psrv : MaglevHash} (hne : names ≠ [])
    (hbuild : maglevBuild names = some psrv) (key : Str) :
    ∃ i, i < names.length ∧ maglevLookupNode psrv key = some i := by
  obtain ⟨psrv', hpsrv', hpos, -, hfull⟩ := maglevBuild_spec hne
  obtain rfl : psrv' = psrv := Option.some.inj (hpsrv'.symm.trans hbuild)
  obtain ⟨i, hi, hget⟩ := hfull _ (Nat.mod_lt (murmur2 key).toNat hpos)
  refine ⟨i, hi, ?_⟩
  rw [maglevLookupNode, if_neg (by omega), getD_eq_getElem?_getD, hget]
  rfl

/-! ## Even shares -/

/-- For a size that is accepted the row of every node is a permutation of the slots.  The table
is filled without a read behind the end of a row, all slots belong to nodes, and any two nodes
have the same number of slots up to one. -/
theorem maglev_fill {m : Nat} (hm : isMaglevPrime m = true) {names : List Str} (hne : names ≠ []) :
    (∀ name, ((List.range m).map ((maglevAddNode m name).permutation m)).Perm (List.range m)) ∧
    ∃ st, (Draft.start names.length m).draft (permutation m (names.map (maglevAddNode m)))
        names.length m = some st ∧ maglevCreateHt m (names.map (maglevAddNode m)) = some st.entry ∧
      st.entry.length = m ∧ (∀ i, i < names.length → st.next.getD i 0 ≤ m) ∧
      (∀ c, c < m → ∃ i, i < names.length ∧ st.entry[c]? = some (some i)) ∧
      ∀ i j, i < names.length → j < names.length →
        st.entry.count (some i) ≤ st.entry.count (some j) + 1 := by
  have hprime := prime_of_isMaglevPrime hm
  have hmax : m ≤ 40009 := by
    simp only [isMaglevPrime, Bool.and_eq_true, decide_eq_true_eq] at hm
    exact hm.1.1.2
  refine ⟨fun name => ?_, ?_⟩
  · have hsub : range m ⊆ (range m).map ((maglevAddNode m name).permutation m) := by
      intro c hc
      obtain ⟨j, hj, rfl⟩ := permutation_onto hprime hmax name (mem_range.1 hc)
      exact mem_map_of_mem (mem_range.2 hj)
    exact ((nodup_range.subperm hsub).perm_of_length_le (by simp)).symm
  · have hrows := rows_permutation hprime hmax names
    obtain ⟨st, hst, hlen, hfull⟩ := Draft.draft_full hrows (length_pos_iff.2 hne) hprime.pos
    obtain ⟨hwithin, heven⟩ := Draft.draft_even hrows hprime.pos hst
    refine ⟨st, hst, ?_, hlen, hwithin, hfull, heven⟩
    rw [maglevCreateHt, length_map, hst]
    rfl

/-- Two servers share the smallest table. -/
theorem maglev_fill_two : ∃ st,
    maglevCreateHt 211 ([cstr "a", cstr "b"].map (maglevAddNode 211)) = some st ∧
      st.count (some 0) ≤ st.count (some 1) + 1 := by
  obtain ⟨-, st, -, hst, -, -, -, heven⟩ := maglev_fill (m := 211) (by decide +kernel)
    (cons_ne_nil (cstr "a") [cstr "b"])
  exact ⟨st.entry, hst, heven 0 1 (by decide) (by decide)⟩

/-! ## The size for a number of servers -/

/-- The search for a size ends with one above the number of servers exactly up to 400 servers. -/
theorem maglev_size_iff (servers : Nat) :
    isMaglevPrime (maglevHashSize servers) = true ∧ servers < maglevHashSize servers ↔
      servers ≤ 400 := by
  rw [maglevHashSize]
  cases hfind : (range' (servers * 100 + 1) (40009 - servers * 100)).find? isMaglevPrime with
  | none =>
    rw [Option.getD_none]
    refine ⟨fun h => (by omega : servers ≤ 400), fun h => ?_⟩
    -- the largest size is among the candidates
    refine absurd (find?_eq_none.1 hfind 40009 ?_) (by decide +kernel)
    rw [mem_range'_1]
    omega
  | some m =>
    have hmem := mem_range'_1.1 (mem_of_find?_eq_some hfind)
    rw [Option.getD_some]
    exact ⟨fun _ => (by omega : servers ≤ 400), fun _ => ⟨find?_some hfind, by omega⟩⟩

/-- For 401 servers the search passes the largest size. -/
theorem maglev_size_missed :
    (List.range' (401 * 100 + 1) (40009 - 401 * 100)).find? isMaglevPrime = none ∧
      ¬ 401 < maglevHashSize 401 := by
  decide

end Alligator
