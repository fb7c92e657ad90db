import Alligator.Lib.Number
import Alligator.Metric.Labels
import Alligator.Net.Patricia

/-!
# Access lists

`network_range_push` puts a network into one of two trees, by the family of its address,
and `ip_check_access` looks an address up.  The first push also makes an entry for all
other addresses, with the opposite action.

The text of addresses is read by `ip_to_integer`, group by group.  The group that no
separator follows is the last one, wherever it is.
-/

namespace Alligator

open Text List Option

/-! ## Addresses in text -/

/-- The families that `ip_get_version` tells apart: its 4, 6 and 0. -/
inductive IpVersion where
  | ipv4
  | ipv6
  | unknown
deriving DecidableEq

def ipGetVersion (ip : Str) : IpVersion :=
  match (ip.dropWhile fun c => !(c == 58 || c == 46)).head? with
  | some c => if c = 46 then .ipv4 else .ipv6
  | none => .unknown

def grpow (basis : BitVec 128) : Nat → BitVec 128
  | 0 => 1
  | 1 => basis
  | n + 2 => grpow basis (n + 1) * basis

/-- A group is followed by a separator: `cur[strcspn(cur, ".:")]` is one, with the length
kept in a byte. -/
def separated (cur : Str) : Bool :=
  let sep := (cur.takeWhile fun c => !(c == 46 || c == 58)).length % 256
  cur[sep]? == some 46 || cur[sep]? == some 58

/-- The loop of `ip_to_integer` over the groups that are left. -/
def ipToIntegerLoop (exp : Nat) (blocksize : BitVec 128) :
    Nat → Str → BitVec 128 → BitVec 128 × Str
  | 0, cur, ret => (ret, cur)
  | blocks + 1, cur, ret =>
    let r := Text.strtoull exp cur
    let ochextet := (r.1.setWidth 16).setWidth 128
    if separated r.2 then
      let ret := ret + grpow blocksize blocks * ochextet
      if blocks = 0 then (ret, r.2) else ipToIntegerLoop exp blocksize blocks (r.2.drop 1) ret
    else (ret + grpow blocksize 0 * ochextet, r.2)

/-- `ip_to_integer`: the number, and where its last group ends. -/
def ipToInteger (ip : Str) (version : IpVersion) : BitVec 128 × Str :=
  match version with
  | .ipv6 => ipToIntegerLoop 16 65536 8 ip 0
  | .ipv4 | .unknown => ipToIntegerLoop 10 256 4 ip 0

def ipGetMask (pref : BitVec 8) : BitVec 32 :=
  (0xffffffff#128 - grpow 2 (32 - min pref.toNat 32) + 1).setWidth 32

def ipGetMask128 (pref : BitVec 8) : BitVec 128 :=
  BitVec.allOnes 128 - grpow 2 (128 - min pref.toNat 128) + 1

/-- The length of the network that follows the address, or a default. -/
def readPrefix (pref : Str) (default : BitVec 8) : BitVec 8 :=
  match pref with
  | 47 :: s => (Text.strtoull 10 s).1.setWidth 8
  | _ => default

def cidrToIpAndMask (cidr : Str) : BitVec 32 × BitVec 32 :=
  let r := ipToInteger cidr .ipv4
  (r.1.setWidth 32, ipGetMask (readPrefix r.2 32))

def cidrToIpAndMask128 (cidr : Str) : BitVec 128 × BitVec 128 :=
  let r := ipToInteger cidr .ipv6
  (r.1, ipGetMask128 (readPrefix r.2 128))

/-! ## The lists -/

/-- The trees for the two families, once they are there. -/
abbrev AccessList := Option (Patricia × Patricia)

def networkAddIp (trees : Patricia × Patricia) (ip : Str) (tag : BitVec 8) : Patricia × Patricia :=
  match ipGetVersion ip with
  | .ipv4 =>
    let r := cidrToIpAndMask ip
    (patriciaInsert trees.1 r.1 r.2 tag, trees.2)
  | .ipv6 =>
    let r := cidrToIpAndMask128 ip
    (trees.1, patriciaInsert128 trees.2 r.1 r.2 tag)
  | .unknown => trees

def lnot (a : BitVec 8) : BitVec 8 := if a = 0 then 1 else 0

variable (acl : AccessList)

def networkRangePush (cidr : Str) (action : BitVec 8) : AccessList :=
  let trees := match acl with
    | some trees => trees
    | none =>
      let trees := networkAddIp (.nil, .nil) (cstr "0.0.0.0/0") (lnot action)
      networkAddIp trees (cstr "::0") (lnot action)
  some (networkAddIp trees cidr action)

/-- `ip_check_access`.  Both families are looked up in the first tree. -/
def ipCheckAccess (ip : Str) : BitVec 8 :=
  match acl with
  | none => 1
  | some (tree, _) =>
    match ipGetVersion ip with
    | .ipv6 => (patriciaFind128 tree (cidrToIpAndMask128 ip).1).getD 0
    | .ipv4 => (patriciaFind tree (cidrToIpAndMask ip).1).getD 0
    | .unknown => 0

/-- `patricia_tree_duplicate` of both trees. -/
def duplicateAccess : AccessList :=
  acl.map fun trees => (patriciaTreeDuplicate trees.1, patriciaTreeDuplicate trees.2)

/-! ## Networks -/

/-- A network: an address and the number of its bits that count, all of them if it is not
given. -/
structure Cidr (w : Nat) where
  addr : BitVec w
  slash : Option Nat
  le : ∀ n ∈ slash, n ≤ w

open Cidr

namespace Cidr

variable {w : Nat}

def len (c : Cidr w) : Nat := c.slash.getD w

lemma len_le (c : Cidr w) : c.len ≤ w := by
  rw [len]
  cases h : c.slash with
  | none => exact le_refl w
  | some n => exact c.le n h

def contains (c : Cidr w) (a : BitVec w) : Bool := a >>> (w - c.len) == c.addr >>> (w - c.len)

/-- What follows the address in the text of a network. -/
def slashText (slash : Option Nat) : Str :=
  match slash with
  | none => []
  | some n => 47 :: decimal n

end Cidr

/-- What a list of networks says about an address: the action of the longest network that
contains it, the last one of these, or the fallback. -/
inductive Answer {w : Nat} (fallback : BitVec 8) (rules : List (Cidr w × BitVec 8))
    (a : BitVec w) : BitVec 8 → Prop where
  | longest {l1 l2 : List (Cidr w × BitVec 8)} {r : Cidr w × BitVec 8}
      (split : rules = l1 ++ r :: l2) (fits : r.1.contains a = true)
      (before : ∀ x ∈ l1, x.1.contains a = true → x.1.len ≤ r.1.len)
      (after : ∀ x ∈ l2, x.1.contains a = true → x.1.len < r.1.len) :
      Answer fallback rules a r.2
  | none (missing : ∀ x ∈ rules, x.1.contains a = false) : Answer fallback rules a fallback

/-! ## Reading the text of IPv4 networks -/

def octet (a : BitVec 32) (i : Nat) : Nat := a.toNat / 256 ^ i % 256

def ipv4Text (a : BitVec 32) : Str :=
  decimal (octet a 3) ++ 46 :: (decimal (octet a 2) ++ 46 :: (decimal (octet a 1) ++
    46 :: decimal (octet a 0)))

variable (c : Cidr 32)

def Cidr.text4 : Str := ipv4Text c.addr ++ Cidr.slashText c.slash

lemma noDigit_slashText (slash : Option Nat) : NoDigit (slashText slash) := by
  intro c hc
  cases slash with
  | none => cases hc
  | some n =>
    cases hc
    rfl

lemma noDigit_dot (s : Str) : NoDigit (46 :: s) := by
  intro c hc
  cases hc
  rfl

lemma octet_lt (a : BitVec 32) (i : Nat) : octet a i < 256 := Nat.mod_lt _ (by decide)

variable {n : Nat} {bits : Nat → Bool} {a : BitVec 128} {fallback : BitVec 8}

lemma setWidth_group (h : n < 65536) :
    ((BitVec.ofNat 64 n).setWidth 16).setWidth 128 = BitVec.ofNat 128 n := by
  apply BitVec.eq_of_toNat_eq
  simp only [BitVec.toNat_setWidth, BitVec.toNat_ofNat]
  omega

/-- The loop at a group that a separator follows. -/
lemma ipToIntegerLoop_group {exp b : Nat} {cur s : Str}
    (hread : Text.strtoull exp cur = (BitVec.ofNat 64 n, s)) (hn : n < 65536)
    (hsep : separated s = true) (hb : b ≠ 0) (blocksize ret : BitVec 128) :
    ipToIntegerLoop exp blocksize (b + 1) cur ret =
      ipToIntegerLoop exp blocksize b (s.drop 1) (ret + grpow blocksize b * BitVec.ofNat 128 n) := by
  rw [ipToIntegerLoop, hread]
  dsimp only
  rw [if_pos hsep, if_neg hb, setWidth_group hn]

lemma ipToIntegerLoop_dot {b : Nat} (h : n < 256) (hb : b ≠ 0) (s : Str) (ret : BitVec 128) :
    ipToIntegerLoop 10 256 (b + 1) (decimal n ++ 46 :: s) ret =
      ipToIntegerLoop 10 256 b s (ret + grpow 256 b * BitVec.ofNat 128 n) :=
  ipToIntegerLoop_group (strtoull_decimal (by omega) (noDigit_dot s)) (by omega) rfl hb 256 ret

lemma ipToIntegerLoop_last (h : n < 256) (slash : Option Nat) (ret : BitVec 128) :
    ipToIntegerLoop 10 256 1 (decimal n ++ slashText slash) ret =
      (ret + BitVec.ofNat 128 n, slashText slash) := by
  rw [ipToIntegerLoop, strtoull_decimal (by omega) (noDigit_slashText slash)]
  rw [setWidth_group (by omega), if_pos rfl, grpow, one_mul, ite_self]

lemma ipToInteger_text4 (a : BitVec 32) (slash : Option Nat) :
    ipToInteger (ipv4Text a ++ slashText slash) .ipv4 = (a.setWidth 128, slashText slash) := by
  rw [ipToInteger, ipv4Text]
  simp only [append_assoc, cons_append]
  rw [ipToIntegerLoop_dot (octet_lt a 3) (by decide), ipToIntegerLoop_dot (octet_lt a 2) (by decide),
    ipToIntegerLoop_dot (octet_lt a 1) (by decide), ipToIntegerLoop_last (octet_lt a 0)]
  have h3 : grpow 256 3 = 16777216#128 := by decide
  have h2 : grpow 256 2 = 65536#128 := by decide
  have h1 : grpow 256 1 = 256#128 := rfl
  have hsum : 16777216 * octet a 3 + 65536 * octet a 2 + 256 * octet a 1 + octet a 0 = a.toNat := by
    have ha := a.isLt
    simp only [octet]
    omega
  rw [h3, h2, h1, ← BitVec.ofNat_toNat, ← hsum, zero_add, BitVec.ofNat_add, BitVec.ofNat_add,
    BitVec.ofNat_add, BitVec.ofNat_mul, BitVec.ofNat_mul, BitVec.ofNat_mul]

/-- The family is told by what follows the first digits. -/
lemma ipGetVersion_append {base : Nat} {g : Str} (hg : ∀ c ∈ g, isDigitOf base c = true) (s : Str) :
    ipGetVersion (g ++ s) = ipGetVersion s := by
  rw [ipGetVersion, ipGetVersion, dropWhile_append_of_pos]
  intro c hc
  have hd := hg c hc
  simp [ne_of_isDigitOf hd (d := 58) rfl, ne_of_isDigitOf hd (d := 46) rfl]

lemma ipGetVersion_text4 (a : BitVec 32) (s : Str) : ipGetVersion (ipv4Text a ++ s) = .ipv4 := by
  rw [ipv4Text, append_assoc, ipGetVersion_append fun c hc =>
    (isDigitOf_ten c).trans (isDigit_of_mem_decimal hc)]
  rfl

lemma ipGetMask_getLsbD : ∀ p : Fin 33, ∀ n : Fin 32,
    (ipGetMask (BitVec.ofNat 8 p)).getLsbD n = decide (32 - p.val ≤ n.val) := by
  decide +kernel

lemma readPrefix_slashText : readPrefix (slashText c.slash) 32 = BitVec.ofNat 8 c.len := by
  rw [len]
  cases h : c.slash with
  | none => rfl
  | some n =>
    have hn := c.le n h
    have hread := strtoull_decimal (n := n) (by omega) (s := []) (by simp [NoDigit])
    rw [append_nil] at hread
    rw [slashText, readPrefix, hread]
    apply BitVec.eq_of_toNat_eq
    simp only [getD_some, BitVec.toNat_setWidth, BitVec.toNat_ofNat]
    omega

lemma cidrToIpAndMask_text4 :
    cidrToIpAndMask c.text4 = (c.addr, ipGetMask (BitVec.ofNat 8 c.len)) := by
  rw [cidrToIpAndMask, text4, ipToInteger_text4]
  rw [readPrefix_slashText, BitVec.setWidth_setWidth_of_le _ (by decide), BitVec.setWidth_eq]

/-! ## The tree of IPv4 networks -/

open BinaryTrie

/-- A network is a condition on the bits above its length. -/
lemma Cidr.contains_iff {w : Nat} (c : Cidr w) (a : BitVec w) :
    c.contains a = true ↔ ∀ i, w - c.len ≤ i → i < w → a.getLsbD i = c.addr.getLsbD i := by
  rw [contains, beq_iff_eq]
  constructor
  · intro h i hi hlt
    have := congrArg (fun x => x.getLsbD (i - (w - c.len))) h
    simpa [Nat.add_sub_cancel' hi] using this
  · intro h
    apply BitVec.eq_of_getLsbD_eq
    intro i hi
    rw [BitVec.getLsbD_ushiftRight, BitVec.getLsbD_ushiftRight]
    by_cases hlt : w - c.len + i < w
    · exact h _ (Nat.le_add_right _ _) hlt
    · rw [BitVec.getLsbD_of_ge _ _ (by omega), BitVec.getLsbD_of_ge _ _ (by omega)]

/-- Where the tree keeps the action of a network. -/
def entryBits : List Bool :=
  maskedBits c.addr (ipGetMask (BitVec.ofNat 8 c.len)) 32

lemma mask_getLsbD (n : Nat) (hn : n < 32) :
    (ipGetMask (BitVec.ofNat 8 c.len)).getLsbD n = decide (32 - c.len ≤ n) :=
  ipGetMask_getLsbD ⟨c.len, Nat.lt_succ_of_le c.len_le⟩ ⟨n, hn⟩

lemma length_entryBits : (entryBits c).length = c.len := by
  have := c.len_le
  rw [entryBits, length_maskedBits (mask_getLsbD c) (le_refl 32)]
  omega

lemma starts_entryBits (a : BitVec 32) : starts (entryBits c) (keyBits a 32) = c.contains a := by
  rw [Bool.eq_iff_iff, entryBits, starts_maskedBits (mask_getLsbD c) a (le_refl 32), c.contains_iff]

lemma networkAddIp_text4 (trees : Patricia × Patricia) (c : Cidr 32) (tag : BitVec 8) :
    networkAddIp trees c.text4 tag = (trees.1.insert tag (entryBits c), trees.2) := by
  rw [networkAddIp, show ipGetVersion c.text4 = .ipv4 from ipGetVersion_text4 c.addr _,
    cidrToIpAndMask_text4]
  dsimp only
  rw [patriciaInsert, patriciaInsertBits_eq]
  rfl

def ruleTree (fallback : BitVec 8) (rules : List (Cidr 32 × BitVec 8)) : Patricia :=
  (rules.map fun r => (entryBits r.1, r.2)).foldl (fun t e => t.insert e.2 e.1)
    (BinaryTrie.nil.insert fallback [])

/-- The deepest node on the way of an address has the answer, if the way agrees with the
address on every network. -/
lemma deepest_ruleTree (fallback : BitVec 8) (rules : List (Cidr 32 × BitVec 8)) {a : BitVec 32}
    (hbits : ∀ c : Cidr 32, starts (entryBits c) bits = c.contains a) :
    ∃ d x, (ruleTree fallback rules).deepest bits = some (d, x) ∧ Answer fallback rules a x ∧
      (d = 0 ∨ ∃ r ∈ rules, r.1.contains a = true ∧ r.1.len = d) ∧
      ∀ r ∈ rules, r.1.contains a = true → r.1.len ≤ d := by
  have hroot : (BinaryTrie.nil.insert fallback []).deepest bits = some (0, fallback) := by
    simp [BinaryTrie.insert, deepest, deeper]
  rw [ruleTree, deepest_foldl_insert, hroot]
  rcases foldl_better_cases bits (some (0, fallback)) (rules.map fun r => (entryBits r.1, r.2)) with
    ⟨heq, hall⟩ | ⟨l1, e, l2, hsplit, he, h1, h2, heq⟩
  · have hnone : ∀ r ∈ rules, r.1.contains a = false := by
      intro r hr
      rw [← hbits, Bool.eq_false_iff]
      intro hs
      obtain ⟨c, hc, hlt⟩ := hall _ (mem_map_of_mem hr) hs
      cases hc
      exact absurd hlt (Nat.not_lt_zero _)
    refine ⟨0, fallback, heq, .none hnone, .inl rfl, fun r hr hc => ?_⟩
    rw [hnone r hr] at hc
    cases hc
  · obtain ⟨r1, r', rfl, rfl, hr'⟩ := map_eq_append_iff.mp hsplit
    obtain ⟨r, r2, rfl, rfl, rfl⟩ := map_eq_cons_iff.mp hr'
    have hfits : r.1.contains a = true := hbits r.1 ▸ he
    have hbefore : ∀ x ∈ r1, x.1.contains a = true → x.1.len ≤ r.1.len := fun x hx hc => by
      have := h1 _ (mem_map_of_mem hx) ((hbits x.1).trans hc)
      rwa [length_entryBits, length_entryBits] at this
    have hafter : ∀ x ∈ r2, x.1.contains a = true → x.1.len < r.1.len := fun x hx hc => by
      have := h2 _ (mem_map_of_mem hx) ((hbits x.1).trans hc)
      rwa [length_entryBits, length_entryBits] at this
    refine ⟨r.1.len, r.2, by rw [heq, length_entryBits], .longest rfl hfits hbefore hafter,
      .inr ⟨r, by simp, hfits, rfl⟩, fun x hx hc => ?_⟩
    rcases mem_append.mp hx with hx | hx
    · exact hbefore x hx hc
    · rcases mem_cons.mp hx with rfl | hx
      · exact le_rfl
      · exact (hafter x hx hc).le

lemma read_ipv4Text (a : BitVec 32) :
    ipGetVersion (ipv4Text a) = .ipv4 ∧ (cidrToIpAndMask (ipv4Text a)).1 = a := by
  have hver := ipGetVersion_text4 a []
  have hip := cidrToIpAndMask_text4 ⟨a, none, by simp⟩
  rw [append_nil] at hver
  rw [text4, slashText, append_nil] at hip
  exact ⟨hver, by rw [hip]⟩

/-- The lookup of an IPv4 address in the tree of some networks. -/
lemma ipCheckAccess_ruleTree (fallback : BitVec 8) (rules : List (Cidr 32 × BitVec 8))
    (a : BitVec 32) : ∃ x, (∀ t, ipCheckAccess (some (ruleTree fallback rules, t))
      (ipv4Text a) = x) ∧ Answer fallback rules a x := by
  obtain ⟨hver, hip⟩ := read_ipv4Text a
  obtain ⟨_, x, hx, hanswer, -⟩ := deepest_ruleTree fallback rules fun c => starts_entryBits c a
  refine ⟨x, fun t => ?_, hanswer⟩
  rw [ipCheckAccess, hver]
  rw [hip, patriciaFind, patriciaFindBits_eq, hx]
  rfl

/-! ## IPv6 addresses -/

/-- A group of an IPv6 address: one to four hexadecimal digits. -/
def IsHextet (g : Str) : Prop := g ≠ [] ∧ g.length ≤ 4 ∧ ∀ c ∈ g, isDigitOf 16 c = true

def joinGroups : List Str → Str
  | [] => []
  | [g] => g
  | g :: gs => g ++ 58 :: joinGroups gs

def groupsValue (gs : List Nat) : Nat := gs.foldl (fun acc g => 65536 * acc + g) 0

def hextetValue (g : Str) : Nat := (readBase 16 0 g).1

/-- The texts of an address: all eight groups, or `::` in the place of some groups that
are zero. -/
inductive Ipv6Text : Str → BitVec 128 → Prop where
  | full {gs : List Str} (hextets : ∀ g ∈ gs, IsHextet g) (eight : gs.length = 8) :
      Ipv6Text (joinGroups gs) (BitVec.ofNat 128 (groupsValue (gs.map hextetValue)))
  | short {gs hs : List Str} (hextets : ∀ g ∈ gs ++ hs, IsHextet g)
      (fewer : gs.length + hs.length < 8) :
      Ipv6Text (joinGroups gs ++ 58 :: 58 :: joinGroups hs)
        (BitVec.ofNat 128 (groupsValue (gs.map hextetValue ++
          List.replicate (8 - gs.length - hs.length) 0 ++ hs.map hextetValue)))

/-- The bits of an IPv6 address that are compared with IPv4 networks. -/
def firstWord (a : BitVec 128) : BitVec 32 := (a >>> 96).setWidth 32

/-- What the lookup of an IPv6 address reads of it: its first 32 bits.  A text that starts with `::`
is read as one with two groups that are zero there. -/
def searchedWord (text : Str) (a : BitVec 128) : BitVec 32 :=
  if text.take 2 = [58, 58] then 0 else firstWord a

/-- Up to four hexadecimal digits, which `ip_to_integer` takes for a group. -/
def IsGroup (g : Str) : Prop := g.length ≤ 4 ∧ ∀ c ∈ g, isDigitOf 16 c = true

variable {g ip : Str}

lemma hextetValue_lt (hg : IsGroup g) : hextetValue g < 65536 :=
  calc hextetValue g < 16 ^ g.length * (0 + 1) := readBase_lt hg.2 0
    _ ≤ 16 ^ 4 * (0 + 1) := Nat.mul_le_mul_right _ (Nat.pow_le_pow_right (by decide) hg.1)

/-- A group, which may be empty, is read up to the colon. -/
lemma strtoull_hextet (hg : IsGroup g) (s : Str) :
    Text.strtoull 16 (g ++ 58 :: s) = (BitVec.ofNat 64 (hextetValue g), 58 :: s) := by
  cases g with
  | nil =>
    have hradix : skipRadix 16 (58 :: s) = 58 :: s := by
      rcases s with _ | ⟨x, _ | ⟨y, s⟩⟩ <;> rfl
    have hsign : readSign (58 :: s) = (false, 58 :: s) := rfl
    rw [Text.strtoull, nil_append, dropWhile_cons_of_neg (by decide), hsign]
    dsimp only
    rw [hradix]
    rfl
  | cons c g =>
    have hc := hg.2 c mem_cons_self
    have hlt := hextetValue_lt hg
    have hradix : skipRadix 16 (c :: (g ++ 58 :: s)) = c :: (g ++ 58 :: s) := by
      cases g with
      | nil => exact skipRadix_of_ne (by decide) (by decide) c s
      | cons d g =>
        have hd := hg.2 d (by simp)
        exact skipRadix_of_ne (ne_of_isDigitOf hd rfl) (ne_of_isDigitOf hd rfl) c _
    rw [Text.strtoull, cons_append, dropWhile_cons_of_neg (by simp [isSpace_of_isDigitOf hc]),
      readSign_of_isDigitOf hc]
    dsimp only
    rw [hradix, head?_cons, any_some, hc, if_pos rfl, ← cons_append,
      readBase_append hg.2 (by simp; decide)]
    dsimp only
    rw [hextetValue] at hlt ⊢
    rw [if_neg (by omega), if_neg (by decide)]

lemma firstWord_ofNat {y : Nat} (hy : y < 65536 ^ 6) (w : Nat) :
    firstWord (BitVec.ofNat 128 (65536 ^ 6 * w + y)) = BitVec.ofNat 32 w := by
  apply BitVec.eq_of_toNat_eq
  simp only [firstWord, BitVec.toNat_setWidth, BitVec.toNat_ushiftRight, BitVec.toNat_ofNat,
    Nat.shiftRight_eq_div_pow]
  omega

lemma searchedWord_of_hextet (hg : IsHextet g) (s : Str) (a : BitVec 128) :
    searchedWord (g ++ s) a = firstWord a := by
  cases g with
  | nil => exact absurd rfl hg.1
  | cons c g => exact if_neg fun h => ne_of_isDigitOf (hg.2.2 c mem_cons_self) rfl (cons.inj h).1

lemma pow_mul_add_lt {v x : Nat} (hv : v < 65536) (hx : x < 65536 ^ n) :
    65536 ^ n * v + x < 65536 ^ (n + 1) :=
  calc 65536 ^ n * v + x < 65536 ^ n * v + 65536 ^ n := Nat.add_lt_add_left hx _
    _ ≤ 65536 ^ (n + 1) := Nat.mul_le_mul_left _ hv

lemma groupsValue_foldl (vs : List Nat) (hvs : ∀ v ∈ vs, v < 65536) (acc : Nat) :
    ∃ y < 65536 ^ vs.length,
      vs.foldl (fun acc v => 65536 * acc + v) acc = 65536 ^ vs.length * acc + y := by
  induction vs generalizing acc with
  | nil => exact ⟨0, by simp, by simp⟩
  | cons v vs ih =>
    obtain ⟨hv, hvs⟩ := forall_mem_cons.mp hvs
    obtain ⟨y, hy, e⟩ := ih hvs (65536 * acc + v)
    refine ⟨65536 ^ vs.length * v + y, pow_mul_add_lt hv hy, ?_⟩
    rw [foldl_cons, e, length_cons, pow_succ, mul_add, mul_assoc, add_assoc]

lemma firstWord_groupsValue {v w : Nat} {vs : List Nat}
    (h : (∀ x ∈ v :: w :: vs, x < 65536) ∧ (v :: w :: vs).length = 8) :
    firstWord (BitVec.ofNat 128 (groupsValue (v :: w :: vs))) = BitVec.ofNat 32 (65536 * v + w) := by
  obtain ⟨y, hy, e⟩ := groupsValue_foldl vs (fun x hx => h.1 x (by simp [hx])) (65536 * v + w)
  rw [Nat.add_right_cancel (m := 2) h.2] at hy e
  rw [groupsValue, foldl_cons, foldl_cons, mul_zero, zero_add, e, firstWord_ofNat hy]

/-- The first two groups of a text, which are empty where `::` stands for them. -/
lemma Ipv6Text.groups (h : Ipv6Text ip a) : ∃ g g' t, IsGroup g ∧ IsGroup g' ∧
    ip = g ++ 58 :: (g' ++ 58 :: t) ∧
      searchedWord ip a = BitVec.ofNat 32 (65536 * hextetValue g + hextetValue g') := by
  have hvalue {gs : List Str} (hgs : ∀ g ∈ gs, IsHextet g) : ∀ v ∈ gs.map hextetValue, v < 65536 :=
    forall_mem_map.mpr fun g hg => hextetValue_lt (hgs g hg).2
  cases h with
  | @full gs hextets eight =>
    match gs, eight with
    | g :: g' :: g'' :: gs, eight =>
      have hg := hextets g (by simp)
      refine ⟨g, g', _, hg.2, (hextets g' (by simp)).2, rfl, ?_⟩
      refine (searchedWord_of_hextet hg _ _).trans ?_
      exact firstWord_groupsValue ⟨hvalue hextets, (length_map _).trans eight⟩
  | @short gs hs hextets fewer =>
    obtain ⟨hgs, hhs⟩ := forall_mem_append.mp hextets
    have hvalues : (∀ v ∈ gs.map hextetValue ++ replicate (8 - gs.length - hs.length) 0 ++
        hs.map hextetValue, v < 65536) ∧ (gs.map hextetValue ++
          replicate (8 - gs.length - hs.length) 0 ++ hs.map hextetValue).length = 8 := by
      refine ⟨forall_mem_append.mpr ⟨forall_mem_append.mpr ⟨hvalue hgs, ?_⟩, hvalue hhs⟩, ?_⟩
      · intro v hv
        rw [eq_of_mem_replicate hv]
        decide
      · simp
        omega
    rcases gs with _ | ⟨g, _ | ⟨g', gs⟩⟩
    · exact ⟨[], [], _, by simp [IsGroup], by simp [IsGroup], rfl, rfl⟩
    · have hg := hgs g (by simp)
      have hzero : 8 - [g].length - hs.length = 6 - hs.length + 1 := by
        simp at fewer ⊢
        omega
      refine ⟨g, [], _, hg.2, by simp [IsGroup], rfl, (searchedWord_of_hextet hg _ _).trans ?_⟩
      rw [hzero] at hvalues ⊢
      exact firstWord_groupsValue hvalues
    · have hg := hgs g (by simp)
      obtain ⟨t, ht⟩ : ∃ t, joinGroups (g :: g' :: gs) ++ 58 :: 58 :: joinGroups hs =
          g ++ 58 :: (g' ++ 58 :: t) := by
        cases gs <;> exact ⟨_, by simp [joinGroups]; rfl⟩
      rw [ht]
      refine ⟨g, g', t, hg.2, (hgs g' (by simp)).2, rfl, (searchedWord_of_hextet hg _ _).trans ?_⟩
      exact firstWord_groupsValue hvalues

lemma Ipv6Text.version (h : Ipv6Text ip a) (s : Str) : ipGetVersion (ip ++ s) = .ipv6 := by
  obtain ⟨g, g', t, hg, -, rfl, -⟩ := h.groups
  rw [append_assoc, ipGetVersion_append hg.2]
  rfl

lemma grpow_hextets (n : Nat) : grpow 65536 n = BitVec.ofNat 128 (65536 ^ n) := by
  induction n with
  | zero => rfl
  | succ n ih =>
    cases n with
    | zero => rfl
    | succ n =>
      rw [grpow, ih, pow_succ _ (n + 1), BitVec.ofNat_mul]
      rfl

/-- Groups are read into the places that are left. -/
lemma ipToIntegerLoop_low (b : Nat) (cur : Str) (ret : BitVec 128) : ∃ x < 65536 ^ b,
    (ipToIntegerLoop 16 65536 b cur ret).1 = ret + BitVec.ofNat 128 x := by
  induction b generalizing cur ret with
  | zero => exact ⟨0, by simp, by simp [ipToIntegerLoop]⟩
  | succ b ih =>
    obtain ⟨v, hv, e⟩ : ∃ v < 65536, ((Text.strtoull 16 cur).1.setWidth 16).setWidth 128 =
        BitVec.ofNat 128 v := ⟨_, BitVec.isLt _, (BitVec.ofNat_toNat _ _).symm⟩
    rw [ipToIntegerLoop]
    dsimp only
    rw [e, grpow_hextets, ← BitVec.ofNat_mul]
    split_ifs with hsep hb
    · subst hb
      exact ⟨v, hv, by rw [pow_zero, one_mul]⟩
    · obtain ⟨x, hx, ex⟩ := ih ((Text.strtoull 16 cur).2.drop 1)
        (ret + BitVec.ofNat 128 (65536 ^ b * v))
      refine ⟨65536 ^ b * v + x, pow_mul_add_lt hv hx, ?_⟩
      rw [ex, BitVec.ofNat_add, BitVec.add_assoc]
    · exact ⟨v, hv.trans_le (Nat.le_self_pow (Nat.succ_ne_zero b) _), by rw [grpow, one_mul]⟩

lemma ipToIntegerLoop_colon {b : Nat} (hg : IsGroup g) (hb : b ≠ 0) (s : Str) (ret : BitVec 128) :
    ipToIntegerLoop 16 65536 (b + 1) (g ++ 58 :: s) ret =
      ipToIntegerLoop 16 65536 b s (ret + BitVec.ofNat 128 (65536 ^ b * hextetValue g)) := by
  rw [ipToIntegerLoop_group (strtoull_hextet hg s) (hextetValue_lt hg) rfl hb, grpow_hextets,
    BitVec.ofNat_mul]
  rfl

lemma Ipv6Text.firstWord_ipToInteger (h : Ipv6Text ip a) :
    firstWord (ipToInteger ip .ipv6).1 = searchedWord ip a := by
  obtain ⟨g, g', t, hg, hg', rfl, e⟩ := h.groups
  obtain ⟨x, hx, ex⟩ := ipToIntegerLoop_low 6 t (0 + BitVec.ofNat 128 (65536 ^ 7 * hextetValue g) +
    BitVec.ofNat 128 (65536 ^ 6 * hextetValue g'))
  rw [e, ipToInteger, ipToIntegerLoop_colon hg (by decide), ipToIntegerLoop_colon hg' (by decide),
    ex, zero_add, ← BitVec.ofNat_add, ← BitVec.ofNat_add, ← firstWord_ofNat hx]
  congr 3
  ring

structure Ipv6Cidr extends Cidr 128 where
  text : Str
  form : Ipv6Text text addr

/-- A network of either family. -/
inductive Range where
  | v4 (c : Cidr 32)
  | v6 (c : Ipv6Cidr)

def Range.text : Range → Str
  | .v4 c => c.text4
  | .v6 c => c.text ++ Cidr.slashText c.slash

variable (pushes : List (Range × BitVec 8))

/-- The networks of each family, with their actions. -/
def rules4 : List (Cidr 32 × BitVec 8) :=
  pushes.filterMap fun p =>
    match p.1 with
    | .v4 c => some (c, p.2)
    | .v6 _ => none

def rules6 : List (Cidr 128 × BitVec 8) :=
  pushes.filterMap fun p =>
    match p.1 with
    | .v4 _ => none
    | .v6 c => some (c.toCidr, p.2)

/-! ## Sequences of pushes -/

/-- A sequence of `network_range_push` calls. -/
def pushRanges : AccessList :=
  pushes.foldl (fun acl p => networkRangePush acl p.1.text p.2) none

lemma networkAddIp_fst (trees : Patricia × Patricia) (r : Range) (tag : BitVec 8) :
    (networkAddIp trees r.text tag).1 =
      ((rules4 [(r, tag)]).map fun r => (entryBits r.1, r.2)).foldl
        (fun t e => t.insert e.2 e.1) trees.1 := by
  cases r with
  | v4 c =>
    have hrules : rules4 [(.v4 c, tag)] = [(c, tag)] := rfl
    rw [Range.text, networkAddIp_text4, hrules, map_singleton, foldl_cons, foldl_nil]
  | v6 c =>
    have hrules : rules4 [(.v6 c, tag)] = [] := rfl
    rw [Range.text, networkAddIp, c.form.version, hrules, map_nil, foldl_nil]

/-- Pushes after the first add to the tree of the first family. -/
lemma foldl_push_fst (trees : Patricia × Patricia) : ∃ trees',
      pushes.foldl (fun acl p => networkRangePush acl p.1.text p.2) (some trees) = some trees' ∧
      trees'.1 = ((rules4 pushes).map fun r => (entryBits r.1, r.2)).foldl
        (fun t e => t.insert e.2 e.1) trees.1 := by
  induction pushes generalizing trees with
  | nil => exact ⟨trees, rfl, rfl⟩
  | cons p pushes ih =>
    obtain ⟨trees', e, h⟩ := ih (networkAddIp trees p.1.text p.2)
    refine ⟨trees', e, ?_⟩
    rw [h, networkAddIp_fst, ← foldl_append, ← map_append]
    congr 2
    rw [rules4, rules4, ← filterMap_append]
    rfl

/-- The tree of the first family after any pushes. -/
lemma pushRanges_fst (p : Range × BitVec 8) (pushes : List (Range × BitVec 8)) :
    ∃ tree6, pushRanges (p :: pushes) =
      some (ruleTree (lnot p.2) (rules4 (p :: pushes)), tree6) := by
  obtain ⟨trees', e, h⟩ := foldl_push_fst pushes (networkAddIp (networkAddIp (networkAddIp
    (.nil, .nil) (cstr "0.0.0.0/0") (lnot p.2)) (cstr "::0") (lnot p.2)) p.1.text p.2)
  refine ⟨trees'.2, ?_⟩
  refine e.trans (congrArg some (Prod.ext ?_ rfl))
  rw [h, networkAddIp_fst, ← foldl_append, ← map_append]
  congr 2
  rw [rules4, rules4, ← filterMap_append]
  rfl

/-- IPv4 access lists answer by the longest network: after any pushes of IPv4 networks, an
address gets the action that was pushed last for the longest network that contains it, and
the opposite of the first action if there is none.  Copies of the trees give the same
answers. -/
theorem ipv4_longest_prefix (first : Cidr 32 × BitVec 8) (rest : List (Cidr 32 × BitVec 8))
    (a : BitVec 32) :
    let acl := pushRanges ((first :: rest).map fun r => (.v4 r.1, r.2))
    Answer (lnot first.2) (first :: rest) a (ipCheckAccess acl (ipv4Text a)) ∧
      ipCheckAccess (duplicateAccess acl) (ipv4Text a) = ipCheckAccess acl (ipv4Text a) := by
  intro acl
  have hrules : rules4 ((first :: rest).map fun r => (Range.v4 r.1, r.2)) = first :: rest := by
    rw [rules4, filterMap_map]
    exact filterMap_some
  obtain ⟨tree6, hacl⟩ := pushRanges_fst (.v4 first.1, first.2)
    (rest.map fun r => (Range.v4 r.1, r.2))
  rw [← map_cons (f := fun r : Cidr 32 × BitVec 8 => (Range.v4 r.1, r.2)), hrules] at hacl
  obtain ⟨x, hcheck, hanswer⟩ := ipCheckAccess_ruleTree (lnot first.2) (first :: rest) a
  constructor
  · rw [show acl = _ from hacl, hcheck]
    exact hanswer
  · rw [show acl = _ from hacl, duplicateAccess, map_some, patriciaTreeDuplicate_eq, hcheck, hcheck]

/-! ## IPv6 addresses in the tree of IPv4 networks -/

/-- A list of networks gives one answer. -/
lemma Answer.unique {w : Nat} {rules : List (Cidr w × BitVec 8)}
    {a : BitVec w} {x y : BitVec 8} (hx : Answer fallback rules a x)
    (hy : Answer fallback rules a y) : x = y := by
  cases hx with
  | none missing =>
    cases hy with
    | none _ => rfl
    | longest split fits _ _ =>
      rw [missing _ (by rw [split]; simp)] at fits
      cases fits
  | @longest l1 l2 r split fits before after =>
    cases hy with
    | none missing =>
      rw [missing _ (by rw [split]; simp)] at fits
      cases fits
    | @longest m1 m2 q split' fits' before' after' =>
      -- two places that both win are the same
      rcases append_eq_append_iff.mp (split.symm.trans split') with
        ⟨t, rfl, ht⟩ | ⟨t, rfl, ht⟩
      · cases t with
        | nil => cases ht; rfl
        | cons z t =>
          cases ht
          have h1 := after q (by simp) fits'
          have h2 := before' r (by simp) fits
          omega
      · cases t with
        | nil => cases ht; rfl
        | cons z t =>
          cases ht
          have h1 := after' r (by simp) fits
          have h2 := before q (by simp) fits'
          omega

lemma starts_congr {p : List Bool} {bits' : Nat → Bool}
    (h : ∀ i < p.length, bits i = bits' i) : starts p bits = starts p bits' := by
  induction p generalizing bits bits' with
  | nil => exact rfl
  | cons b p ih =>
    rw [starts, starts, h 0 (by simp), ih fun i hi => h (i + 1) (by simpa using hi)]

lemma starts_entryBits_wide (a : BitVec 128) :
    starts (entryBits c) (keyBits a 128) = c.contains (firstWord a) := by
  rw [← starts_entryBits]
  refine starts_congr fun i hi => ?_
  rw [length_entryBits] at hi
  have hlen := c.len_le
  have hbit : a.getLsbD (128 - 1 - i) = (firstWord a).getLsbD (32 - 1 - i) := by
    rw [firstWord, BitVec.getLsbD_setWidth, BitVec.getLsbD_ushiftRight,
      decide_eq_true (by omega : 32 - 1 - i < 32)]
    congr 1
    omega
  rw [keyBits, keyBits, hbit, decide_eq_true (by omega : i < 128),
    decide_eq_true (by omega : i < 32)]

/-- An IPv6 address is looked up among the IPv4 networks, by its first 32 bits, or by zero if its
text starts with `::`.  So its answer is right exactly if their answer for these bits is. -/
theorem ipv6_answer_iff (p : Range × BitVec 8) (pushes : List (Range × BitVec 8)) {text : Str}
    {a : BitVec 128} (form : Ipv6Text text a) {x : BitVec 8}
    (hx : Answer (lnot p.2) (rules4 (p :: pushes)) (searchedWord text a) x) :
    Answer (lnot p.2) (rules6 (p :: pushes)) a (ipCheckAccess (pushRanges (p :: pushes)) text) ↔
      Answer (lnot p.2) (rules6 (p :: pushes)) a x := by
  obtain ⟨tree6, hacl⟩ := pushRanges_fst p pushes
  obtain ⟨_, y, hy, hanswer, -⟩ := deepest_ruleTree (lnot p.2) (rules4 (p :: pushes))
    fun c => starts_entryBits_wide c (ipToInteger text .ipv6).1
  have hver : ipGetVersion text = .ipv6 := by
    have := form.version []
    rwa [append_nil] at this
  have hcheck : ipCheckAccess (pushRanges (p :: pushes)) text = y := by
    rw [hacl, ipCheckAccess, hver]
    dsimp only [cidrToIpAndMask128]
    rw [patriciaFind128, patriciaFindBits_eq, hy]
    rfl
  rw [form.firstWord_ipToInteger] at hanswer
  rw [hcheck, hanswer.unique hx]

/-- The network `fe80::/10`. -/
def linkLocal : Ipv6Cidr where
  addr := 0xfe800000000000000000000000000000#128
  slash := some 10
  le := by simp
  text := cstr "fe80::"
  form := @Ipv6Text.short [cstr "fe80"] [] (by simp [IsHextet]; decide +kernel) (by decide)

/-- Of `10.0.0.0/8` and `fe80::/10` the second one is allowed, and so is `fe80::1`. -/
theorem ipv6_answer_linkLocal :
    Answer (lnot 0) (rules6 [(.v4 ⟨0x0a000000, some 8, by simp⟩, 0), (.v6 linkLocal, 1)])
      0xfe800000000000000000000000000001#128
      (ipCheckAccess (pushRanges [(.v4 ⟨0x0a000000, some 8, by simp⟩, 0), (.v6 linkLocal, 1)])
        (cstr "fe80::1")) := by
  refine (ipv6_answer_iff (.v4 ⟨0x0a000000, some 8, by simp⟩, 0) [(.v6 linkLocal, 1)]
    (@Ipv6Text.short [cstr "fe80"] [[49]] (by simp [IsHextet]; decide +kernel) (by decide))
    (.none (by
      intro r hr
      cases mem_singleton.mp hr
      decide))).2 ?_
  exact @Answer.longest _ _ _ _ [] [] (linkLocal.toCidr, 1) rfl (by decide) (by simp) (by simp)

/-- Only `fe80::/10` is denied, and `fe80::1` is allowed. -/
theorem ipv6_answer_ignored :
    Ipv6Text (cstr "fe80::1") 0xfe800000000000000000000000000001#128 ∧
      ¬ Answer (lnot 0) (rules6 [(.v6 linkLocal, 0)]) 0xfe800000000000000000000000000001#128
        (ipCheckAccess (pushRanges [(.v6 linkLocal, 0)]) (cstr "fe80::1")) := by
  refine ⟨@Ipv6Text.short [cstr "fe80"] [[49]] (by simp [IsHextet]; decide +kernel) (by decide), ?_⟩
  have hcheck : ipCheckAccess (pushRanges [(.v6 linkLocal, 0)]) (cstr "fe80::1") = 1 := by
    decide
  -- the network contains the address, so the right answer is that it is denied
  have hdeny : Answer (lnot 0) (rules6 [(.v6 linkLocal, 0)])
      0xfe800000000000000000000000000001#128 0 :=
    @Answer.longest _ _ _ _ [] [] (linkLocal.toCidr, 0) rfl (by decide) (by simp) (by simp)
  intro h
  exact absurd (h.unique hdeny) (by decide)

/-! ## Deletion -/

/-- An access list with the nodes of its two trees whose data has been freed.  They keep the
pointer to it. -/
structure AclHeap where
  trees : Patricia × Patricia
  freed : List (List Bool) × List (List Bool)

namespace AclHeap

/-- The data of the node of a network has been freed. -/
def freedNode (st : AclHeap) (cidr : Str) : Bool :=
  match ipGetVersion cidr with
  | .ipv4 => decide (maskedBits (cidrToIpAndMask cidr).1 (cidrToIpAndMask cidr).2 32 ∈ st.freed.1)
  | .ipv6 =>
    decide (maskedBits (cidrToIpAndMask128 cidr).1 (cidrToIpAndMask128 cidr).2 128 ∈ st.freed.2)
  | .unknown => false

/-- `network_range_push` to a list that is there.  The data before is freed, which is undefined
if it has been already. -/
def push (st : AclHeap) (cidr : Str) (action : BitVec 8) : Option AclHeap :=
  if st.freedNode cidr then none else some { st with trees := networkAddIp st.trees cidr action }

/-- Free the data that `patricia_delete` returns, which is undefined for a second time. -/
def release {w : Nat} (tree : Patricia) (key mask : BitVec w) (freed : List (List Bool)) :
    Option (List (List Bool)) :=
  if (patriciaDeleteBits tree key mask).isNone then some freed
  else if maskedBits key mask w ∈ freed then none
  else some (maskedBits key mask w :: freed)

/-- `network_range_delete` -/
def delete (st : AclHeap) (cidr : Str) : Option AclHeap :=
  match ipGetVersion cidr with
  | .ipv4 =>
    let r := cidrToIpAndMask cidr
    (release st.trees.1 r.1 r.2 st.freed.1).map fun freed => ⟨st.trees, freed, st.freed.2⟩
  | .ipv6 =>
    let r := cidrToIpAndMask128 cidr
    (release st.trees.2 r.1 r.2 st.freed.2).map fun freed => ⟨st.trees, st.freed.1, freed⟩
  | .unknown => some st

/-- The node that is found along some bits has freed data. -/
def readsFreedAt (st : AclHeap) (bits : Nat → Bool) : Bool :=
  (st.trees.1.deepest bits).any fun r => decide ((List.range r.1).map bits ∈ st.freed.1)

/-- `ip_check_access` reads freed data. -/
def readsFreed (st : AclHeap) (ip : Str) : Bool :=
  match ipGetVersion ip with
  | .ipv4 => st.readsFreedAt (keyBits (cidrToIpAndMask ip).1 32)
  | .ipv6 => st.readsFreedAt (keyBits (cidrToIpAndMask128 ip).1 128)
  | .unknown => false

end AclHeap

inductive AclCall where
  | push (c : Cidr 32) (action : BitVec 8)
  | delete (c : Cidr 32)

def AclCall.run (st : AclHeap) : AclCall → Option AclHeap
  | .push c action => st.push c.text4 action
  | .delete c => st.delete c.text4

/-- The list after a first push and some calls, unless one of them is undefined. -/
def aclRun (first : Cidr 32 × BitVec 8) (calls : List AclCall) : Option AclHeap := do
  let trees ← networkRangePush none first.1.text4 first.2
  calls.foldlM AclCall.run ⟨trees, [], []⟩

def pushedEntries (calls : List AclCall) : List (Cidr 32 × BitVec 8) :=
  calls.filterMap fun
    | .push c action => some (c, action)
    | .delete _ => none

/-- The entries that were pushed and not deleted since. -/
def leftEntries (entries : List (Cidr 32 × BitVec 8)) (calls : List AclCall) :
    List (Cidr 32 × BitVec 8) :=
  calls.foldl (fun entries call =>
    match call with
    | .push c action => entries ++ [(c, action)]
    | .delete c => entries.filter fun e => decide (entryBits e.1 ≠ entryBits c)) entries

/-- The network of a call. -/
def AclCall.net : AclCall → Cidr 32
  | .push c _ => c
  | .delete c => c

/-- A network that `patricia_delete` does not refuse. -/
def Deletable (c : Cidr 32) : Prop := c.addr ≠ 0 ∧ c.len ≠ 0

/-- The call frees the data of its network, if there is any. -/
def AclCall.Frees : AclCall → Prop
  | .push _ _ => True
  | .delete c => Deletable c

variable (first : Cidr 32 × BitVec 8)

/-- One of the calls deletes a network that was pushed before it. -/
def Released (calls : List AclCall) (net : List Bool) : Prop :=
  ∃ before c, before ++ [.delete c] <+: calls ∧ Deletable c ∧ entryBits c = net ∧
    ∃ e ∈ first :: pushedEntries before, entryBits e.1 = net

/-- No call frees the data of a network that has been deleted before. -/
def FreesOnce (calls : List AclCall) : Prop :=
  ∀ before call, before ++ [call] <+: calls → call.Frees →
    ¬Released first before (entryBits call.net)

variable {first : Cidr 32 × BitVec 8} {calls : List AclCall} {call : AclCall}

/-- What is known of a list after some calls. -/
structure AclHeap.Reached (first : Cidr 32 × BitVec 8) (calls : List AclCall) (st : AclHeap) :
    Prop where
  tree : st.trees.1 = ruleTree (lnot first.2) (first :: pushedEntries calls)
  freed : ∀ net, net ∈ st.freed.1 ↔ Released first calls net

lemma released_append {net : List Bool} :
    Released first (calls ++ [call]) net ↔ Released first calls net ∨
      ∃ c, call = .delete c ∧ Deletable c ∧ entryBits c = net ∧
        ∃ e ∈ first :: pushedEntries calls, entryBits e.1 = net := by
  simp only [Released, prefix_concat_iff, or_and_right, exists_or]
  rw [or_comm]
  refine or_congr Iff.rfl ⟨?_, ?_⟩
  · rintro ⟨before, c, hsplit, h⟩
    obtain ⟨rfl, hc⟩ := append_inj' hsplit rfl
    exact ⟨c, (singleton_inj.mp hc).symm, h⟩
  · rintro ⟨c, rfl, h⟩
    exact ⟨calls, c, rfl, h⟩

lemma freesOnce_append : FreesOnce first (calls ++ [call]) ↔
    FreesOnce first calls ∧ (call.Frees → ¬Released first calls (entryBits call.net)) := by
  simp only [FreesOnce, prefix_concat_iff, or_imp, forall_and]
  rw [and_comm]
  refine and_congr Iff.rfl ⟨fun h => h calls call rfl, ?_⟩
  rintro h before call' hsplit
  obtain ⟨rfl, hcall⟩ := append_inj' hsplit rfl
  exact singleton_inj.mp hcall ▸ h

lemma mask_ne_zero (c : Cidr 32) : ipGetMask (BitVec.ofNat 8 c.len) ≠ 0 ↔ c.len ≠ 0 := by
  have hle := c.len_le
  rw [not_iff_not]
  constructor
  · intro h
    have htop := mask_getLsbD c 31 (by decide)
    rw [h] at htop
    by_contra hlen
    simp at htop
    omega
  · intro h
    rw [h]
    decide

/-- What is deleted is data of a network that was pushed. -/
lemma isSome_patriciaDeleteBits (fallback : BitVec 8) (rules : List (Cidr 32 × BitVec 8))
    (c : Cidr 32) : (patriciaDeleteBits (ruleTree fallback rules) c.addr
        (ipGetMask (BitVec.ofNat 8 c.len))).isSome ↔
      Deletable c ∧ ∃ e ∈ rules, entryBits e.1 = entryBits c := by
  have hget := isSome_get_foldl_insert (rules.map fun r => (entryBits r.1, r.2))
    (BinaryTrie.nil.insert fallback []) (entryBits c)
  rw [get_insert, get_nil] at hget
  have hroot : Deletable c → entryBits c ≠ [] := fun hc h => hc.2 (by
    rw [← length_entryBits, h, length_nil])
  have hdeletable : Deletable c ↔ c.addr ≠ 0 ∧ ipGetMask (BitVec.ofNat 8 c.len) ≠ 0 := by
    rw [Deletable, mask_ne_zero]
  have hmem : (∃ e ∈ rules.map fun r => (entryBits r.1, r.2), e.1 = entryBits c) ↔
      ∃ e ∈ rules, entryBits e.1 = entryBits c := by
    simp only [List.mem_map, exists_exists_and_eq_and]
  rw [patriciaDeleteBits, patriciaDeleteLoop_eq]
  change (((ruleTree fallback rules).get (entryBits c)).filter _).isSome ↔ _
  rw [← hmem]
  by_cases hc : Deletable c
  · rw [if_neg (hroot hc), Option.isSome_none, Bool.false_eq_true, false_or] at hget
    rw [and_iff_right hc, ← hget, decide_eq_true (hdeletable.mp hc), ruleTree]
    cases BinaryTrie.get _ _ <;> rfl
  · rw [decide_eq_false (mt hdeletable.mpr hc)]
    cases BinaryTrie.get _ _ <;> simp [hc]

lemma pushedEntries_append :
    pushedEntries (calls ++ [call]) = pushedEntries calls ++ pushedEntries [call] :=
  filterMap_append ..

lemma mem_pushedEntries_mono {before : List AclCall} (h : before ++ [call] <+: calls)
    {e : Cidr 32 × BitVec 8} (he : e ∈ first :: pushedEntries before) :
    e ∈ first :: pushedEntries calls := by
  have hbefore : before ⊆ calls := fun x hx => h.subset (mem_append_left _ hx)
  exact cons_subset_cons _ (filterMap_subset _ hbefore) he

/-- A push and a deletion, of the text of a network. -/
lemma AclHeap.push_text4 (st : AclHeap) (c : Cidr 32) (action : BitVec 8) :
    st.push c.text4 action = if entryBits c ∈ st.freed.1 then none
      else some { st with trees := (st.trees.1.insert action (entryBits c), st.trees.2) } := by
  rw [AclHeap.push, freedNode, show ipGetVersion c.text4 = .ipv4 from ipGetVersion_text4 c.addr _,
    cidrToIpAndMask_text4, networkAddIp_text4]
  simp only [decide_eq_true_eq]
  rfl

lemma AclHeap.delete_text4 (st : AclHeap) (c : Cidr 32) :
    st.delete c.text4 = if (patriciaDeleteBits st.trees.1 c.addr
        (ipGetMask (BitVec.ofNat 8 c.len))).isSome then
      if entryBits c ∈ st.freed.1 then none
      else some ⟨st.trees, entryBits c :: st.freed.1, st.freed.2⟩ else some st := by
  rw [AclHeap.delete, show ipGetVersion c.text4 = .ipv4 from ipGetVersion_text4 c.addr _,
    cidrToIpAndMask_text4]
  dsimp only
  rw [release, ← entryBits]
  cases patriciaDeleteBits st.trees.1 c.addr (ipGetMask (BitVec.ofNat 8 c.len)) with
  | none => rfl
  | some data =>
    simp only [Option.isNone_some, Bool.false_eq_true, if_false, Option.isSome_some, if_true]
    split_ifs <;> rfl

/-- One more call is defined exactly if it frees nothing a second time. -/
lemma AclHeap.Reached.step {st : AclHeap} (h : st.Reached first calls) (call : AclCall) :
    (call.Frees ∧ Released first calls (entryBits call.net) ∧ call.run st = none) ∨
      (call.Frees → ¬Released first calls (entryBits call.net)) ∧
        ∃ st', call.run st = some st' ∧ st'.Reached first (calls ++ [call]) := by
  cases call with
  | push c action =>
    rw [AclCall.run, AclHeap.push_text4, AclCall.net]
    have htree : st.trees.1.insert action (entryBits c) =
        ruleTree (lnot first.2) (first :: pushedEntries (calls ++ [.push c action])) := by
      rw [h.tree, pushedEntries_append, show pushedEntries [.push c action] = [(c, action)] from rfl,
        ← cons_append, ruleTree, ruleTree, map_append, foldl_append, map_singleton, foldl_cons,
        foldl_nil]
    have hfreed : ∀ net, net ∈ st.freed.1 ↔ Released first (calls ++ [.push c action]) net := by
      simp [h.freed, released_append]
    by_cases hc : entryBits c ∈ st.freed.1
    · exact .inl ⟨trivial, (h.freed _).mp hc, if_pos hc⟩
    · exact .inr ⟨fun _ hrel => hc ((h.freed _).mpr hrel), _, if_neg hc, ⟨htree, hfreed⟩⟩
  | delete c =>
    rw [AclCall.run, AclHeap.delete_text4, AclCall.net]
    have hdelete := isSome_patriciaDeleteBits (lnot first.2) (first :: pushedEntries calls) c
    rw [← h.tree] at hdelete
    have htree : st.trees.1 =
        ruleTree (lnot first.2) (first :: pushedEntries (calls ++ [.delete c])) := by
      rw [h.tree, pushedEntries_append, show pushedEntries [.delete c] = [] from rfl, append_nil]
    by_cases hc : Deletable c ∧ ∃ e ∈ first :: pushedEntries calls, entryBits e.1 = entryBits c
    · rw [if_pos (hdelete.mpr hc)]
      by_cases hfreed : entryBits c ∈ st.freed.1
      · exact .inl ⟨hc.1, (h.freed _).mp hfreed, if_pos hfreed⟩
      refine .inr ⟨fun _ hrel => hfreed ((h.freed _).mpr hrel), _, if_neg hfreed, htree,
        fun net => ?_⟩
      rw [released_append, mem_cons, h.freed, or_comm]
      refine or_congr Iff.rfl ⟨?_, ?_⟩
      · rintro rfl
        exact ⟨c, rfl, hc.1, rfl, hc.2⟩
      · rintro ⟨c', hcc, -, rfl, -⟩
        cases hcc
        rfl
    · -- there is nothing to free
      rw [if_neg (mt hdelete.mp hc)]
      refine .inr ⟨?_, st, rfl, htree, fun net => ?_⟩
      · rintro hdel ⟨before, c', hprefix, -, -, e, he, hbits⟩
        exact hc ⟨hdel, e, mem_pushedEntries_mono hprefix he, hbits⟩
      · rw [released_append, h.freed]
        refine (or_iff_left ?_).symm
        rintro ⟨c', hcc, hdel, rfl, hpushed⟩
        cases hcc
        exact hc ⟨hdel, hpushed⟩

/-- A sequence of calls is defined exactly if it frees nothing a second time. -/
lemma aclRun_cases (first : Cidr 32 × BitVec 8) (calls : List AclCall) :
    (¬FreesOnce first calls ∧ aclRun first calls = none) ∨
      FreesOnce first calls ∧ ∃ st, aclRun first calls = some st ∧ st.Reached first calls := by
  induction calls using List.reverseRecOn with
  | nil =>
    obtain ⟨tree6, hpush⟩ := pushRanges_fst (.v4 first.1, first.2) []
    have hfirst : networkRangePush none first.1.text4 first.2 =
        some (ruleTree (lnot first.2) [first], tree6) := hpush
    have hrun : aclRun first [] = some ⟨(ruleTree (lnot first.2) [first], tree6), [], []⟩ := by
      rw [aclRun, hfirst]
      rfl
    have hnone : ∀ before call, ¬before ++ [call] <+: ([] : List AclCall) := by simp
    refine .inr ⟨fun before call h => absurd h (hnone before call), _, hrun, rfl, fun net => ?_⟩
    simp only [not_mem_nil, false_iff]
    rintro ⟨before, c, h, -⟩
    exact hnone _ _ h
  | append_singleton calls call ih =>
    have hrun : aclRun first (calls ++ [call]) = (aclRun first calls).bind call.run := by
      simp only [aclRun, foldlM_append, foldlM_cons, foldlM_nil]
      cases networkRangePush none first.1.text4 first.2 <;> simp
    rw [hrun, freesOnce_append]
    rcases ih with ⟨hnot, hnone⟩ | ⟨honce, st, hst, hreached⟩
    · exact .inl ⟨fun h => hnot h.1, by rw [hnone]; rfl⟩
    · rw [hst, Option.bind_some]
      rcases hreached.step call with ⟨hfrees, hreleased, hnone⟩ | ⟨hfine, hstep⟩
      · exact .inl ⟨fun h => h.2 hfrees hreleased, hnone⟩
      · exact .inr ⟨⟨honce, hfine⟩, hstep⟩

/-- A lookup reads freed data exactly if a network around the address has been deleted and no
longer one was pushed. -/
lemma AclHeap.Reached.readsFreed_iff {st : AclHeap} (h : st.Reached first calls) (a : BitVec 32) :
    st.readsFreed (ipv4Text a) = true ↔ ∃ c : Cidr 32, Released first calls (entryBits c) ∧
      c.contains a = true ∧
      ∀ e ∈ first :: pushedEntries calls, e.1.contains a = true → e.1.len ≤ c.len := by
  obtain ⟨hver, hip⟩ := read_ipv4Text a
  obtain ⟨d, x, hdeepest, -, hd, hmax⟩ := deepest_ruleTree (lnot first.2)
    (first :: pushedEntries calls) fun c => starts_entryBits c a
  have hreads : st.readsFreed (ipv4Text a) = true ↔
      Released first calls ((List.range d).map (keyBits a 32)) := by
    rw [readsFreed, hver]
    dsimp only
    rw [readsFreedAt, hip, h.tree, hdeepest, Option.any_some, decide_eq_true_eq, h.freed]
  have hbits (c : Cidr 32) : c.contains a = true ↔
      entryBits c = (List.range c.len).map (keyBits a 32) := by
    rw [← starts_entryBits, starts_iff, length_entryBits]
  rw [hreads]
  constructor
  · rintro ⟨before, c, hprefix, hdel, hnet, hpushed⟩
    have hlen : c.len = d := by rw [← length_entryBits, hnet, length_map, length_range]
    have hcontains := (hbits c).mpr (hlen ▸ hnet)
    exact ⟨c, ⟨before, c, hprefix, hdel, rfl, hnet ▸ hpushed⟩, hcontains, hlen ▸ hmax⟩
  · rintro ⟨c, hreleased, hcontains, hlongest⟩
    obtain ⟨before, c', hprefix, hdel, hnet, e, he, hnet'⟩ := id hreleased
    have hlen {c c' : Cidr 32} (h : entryBits c = entryBits c') : c.len = c'.len := by
      rw [← length_entryBits, h, length_entryBits]
    have hcd : c.len ≤ d := by
      rw [← hlen hnet']
      exact hmax e (mem_pushedEntries_mono hprefix he) ((hbits e.1).mpr
        (hnet'.trans (hlen hnet' ▸ (hbits c).mp hcontains)))
    have hdc : d ≤ c.len := by
      rcases hd with rfl | ⟨r, hr, hra, rfl⟩
      · exact Nat.zero_le _
      · exact hlongest r hr hra
    rwa [(hbits c).mp hcontains, le_antisymm hcd hdc] at hreleased

/-- After pushes and deletions an address is answered by the entries that are left, if and only if
no call frees anything twice, the longest network around the address has not been deleted, and its
action is that of the longest one that is left. -/
theorem deleted_answer_iff (first : Cidr 32 × BitVec 8) (calls : List AclCall) (a : BitVec 32) :
    (∃ st, aclRun first calls = some st ∧ st.readsFreed (ipv4Text a) = false ∧
        Answer (lnot first.2) (leftEntries [first] calls) a
          (ipCheckAccess (some st.trees) (ipv4Text a))) ↔
      FreesOnce first calls ∧
        (∀ c : Cidr 32, Released first calls (entryBits c) → c.contains a = true →
          ∃ e ∈ first :: pushedEntries calls, e.1.contains a = true ∧ c.len < e.1.len) ∧
        ∃ x, Answer (lnot first.2) (first :: pushedEntries calls) a x ∧
          Answer (lnot first.2) (leftEntries [first] calls) a x := by
  rcases aclRun_cases first calls with ⟨hnot, hnone⟩ | ⟨honce, st, hst, hreached⟩
  · simp [hnone, hnot]
  obtain ⟨y, hcheck, hanswer⟩ :=
    ipCheckAccess_ruleTree (lnot first.2) (first :: pushedEntries calls) a
  have hy : ipCheckAccess (some st.trees) (ipv4Text a) = y := by
    rw [← hcheck st.trees.2, ← hreached.tree]
  have hreads := hreached.readsFreed_iff a
  simp only [hst, Option.some.injEq, exists_eq_left', honce, true_and, hy, ← Bool.not_eq_true,
    hreads]
  refine and_congr ?_ ⟨fun h => ⟨y, hanswer, h⟩, fun ⟨x, hx, h⟩ => hanswer.unique hx ▸ h⟩
  push Not
  rfl

/-- The network `10.0.0.0/8`. -/
def tenNet : Cidr 32 := ⟨0x0a000000, some 8, by simp⟩

/-- The network `10.0.0.0/8` is pushed and deleted.  The address `10.0.0.1` then reads what has
been freed. -/
theorem deleted_answer_freed :
    (aclRun (tenNet, 1) [.delete tenNet]).map (AclHeap.readsFreed · (ipv4Text 0x0a000001)) =
      some true := by
  decide

end Alligator
