import Alligator.Lib.Number

/-!
# Object identifiers of SNMP

`snmp_oid_dotted_to_ber` writes the arcs of a dotted text as octets and `snmp_oid_ber_to_dotted`
reads them.  An arc is a row of groups of seven bits, the highest first, with a high bit on all but
the last; the first two arcs share one octet.
-/

namespace Alligator

open Text List

/-- The arcs of a text, up to the `room` that is left in `parts`. -/
def oidParts : Nat → List UInt8 → Option (List Nat)
  | 0, _ => some []
  | room + 1, p =>
    if p = [] then some []
    else
      let (x, rest) := Text.strtoull 10 p
      if rest = p then none
      else
        match rest with
        | [] => some [x.toNat % 2 ^ 32]
        | c :: rest => if c = 46 then (oidParts room rest).map (x.toNat % 2 ^ 32 :: ·) else none

/-- The groups of an arc, written from the last one back to the first; `chunks` has `room` for as
many.  All but the last have the `high` bit. -/
def oidChunks : Nat → Nat → Nat → Option (List UInt8)
  | 0, _, _ => none
  | room + 1, v, high => do
    let front ← if v / 128 = 0 then some [] else oidChunks room (v / 128) 128
    return front ++ [UInt8.ofNat (v % 128 + high)]

def oidOctets (outcap : Nat) : List Nat → List UInt8 → Option (List UInt8)
  | [], out => some out
  | v :: parts, out => do
    let chunks ← oidChunks 8 v 0
    if outcap < out.length + chunks.length then none else oidOctets outcap parts (out ++ chunks)

def snmpOidDottedToBer (dotted : List UInt8) (outcap : Nat) : Option (List UInt8) :=
  if dotted = [] then some []
  else do
    match ← oidParts 64 dotted with
    | a :: b :: parts => oidOctets outcap parts [UInt8.ofNat (40 * a + b)]
    | _ => none

/-- Read on with `sub` of an arc read; the buffer of `outs` bytes is looked at after an arc. -/
def oidText (outs : Nat) : List UInt8 → Nat → List UInt8 → List UInt8
  | [], _, text => text
  | b :: o, sub, text =>
    let sub := (sub * 128 + b.toNat % 128) % 2 ^ 32
    if 128 ≤ b.toNat then oidText outs o sub text
    else
      let text := text ++ 46 :: decimal sub
      if text.length + 1 < outs then oidText outs o 0 text else text

def snmpOidBerToDotted : List UInt8 → Nat → List UInt8
  | [], _ => []
  | first :: o, outs =>
    let text := decimal (first.toNat / 40) ++ 46 :: decimal (first.toNat % 40)
    (if text.length + 1 < outs then oidText outs o 0 text else text).take (outs - 1)

/-- Arcs in dotted decimal, each behind its dot. -/
def dottedArcs (arcs : List Nat) : List UInt8 := arcs.flatMap fun v => 46 :: decimal v

variable {a b room v outs outcap : Nat} {parts : List Nat} {o out s text : List UInt8}

lemma oidParts_dotted (ha : a < 2 ^ 32) (hparts : ∀ v ∈ parts, v < 2 ^ 32)
    (hroom : parts.length ≤ room) :
    oidParts (room + 1) (decimal a ++ dottedArcs parts) = some (a :: parts) := by
  have ha64 : a < 2 ^ 64 := by omega
  induction parts generalizing a room with
  | nil =>
    have hread := strtoull_decimal ha64 (s := []) (by rintro c ⟨⟩)
    rw [append_nil] at hread
    simp [oidParts, dottedArcs, hread, decimal_ne_nil]
    omega
  | cons b parts ih =>
    obtain ⟨hb, hparts⟩ := forall_mem_cons.1 hparts
    cases room with
    | zero => contradiction
    | succ room =>
      have hrest := ih hb hparts (Nat.le_of_succ_le_succ hroom) (by omega)
      have hread := strtoull_decimal ha64 (s := dottedArcs (b :: parts)) (by rintro c ⟨⟩; rfl)
      have hdots : dottedArcs (b :: parts) = 46 :: (decimal b ++ dottedArcs parts) := rfl
      rw [hdots] at hread ⊢
      rw [oidParts, hread]
      simp [hrest, decimal_ne_nil]
      omega

/-- All groups but the last leave the part of the arc above it. -/
lemma oidText_chunks (high : Nat) (hv : v < 2 ^ 32) (h : oidChunks room v high = some s) :
    oidText outs (s ++ o) 0 text =
      oidText outs (UInt8.ofNat (v % 128 + high) :: o) (v / 128) text := by
  induction room generalizing v high s o with
  | zero => contradiction
  | succ room ih =>
    rw [oidChunks] at h
    split_ifs at h with h0
    · cases h
      rw [h0]
      rfl
    · obtain ⟨front, hfront, h⟩ := Option.bind_eq_some_iff.1 h
      cases h
      rw [append_assoc, ih 128 (by omega) hfront, oidText, if_pos (by simp; omega)]
      have hsub : (v / 128 / 128 * 128 + (UInt8.ofNat (v / 128 % 128 + 128)).toNat % 128) % 2 ^ 32 =
          v / 128 := by
        simp only [UInt8.toNat_ofNat']
        omega
      rw [hsub]
      rfl

/-- The octets of arcs add their text to what is read before them. -/
lemma oidText_octets (hparts : ∀ v ∈ parts, v < 2 ^ 32)
    (h : oidOctets outcap parts out = some o) :
    ∃ s, o = out ++ s ∧ ∀ outs text, (text ++ dottedArcs parts).length < outs →
      (if text.length + 1 < outs then oidText outs s 0 text else text) =
        text ++ dottedArcs parts := by
  induction parts generalizing out with
  | nil =>
    cases h
    refine ⟨[], (append_nil _).symm, fun outs text _ => ?_⟩
    rw [oidText, ite_self]
    exact (append_nil _).symm
  | cons v parts ih =>
    obtain ⟨hv, hparts⟩ := forall_mem_cons.1 hparts
    obtain ⟨chunks, hchunks, h⟩ := Option.bind_eq_some_iff.1 h
    split_ifs at h
    obtain ⟨s, rfl, hs⟩ := ih hparts h
    refine ⟨chunks ++ s, append_assoc .., fun outs text hfit => ?_⟩
    have htext : text ++ dottedArcs (v :: parts) = text ++ 46 :: decimal v ++ dottedArcs parts := by
      simp [dottedArcs]
    have hsub : (v / 128 * 128 + (UInt8.ofNat (v % 128)).toNat % 128) % 2 ^ 32 = v := by
      simp only [UInt8.toNat_ofNat']
      omega
    rw [htext] at hfit ⊢
    rw [if_pos (by simp at hfit; omega), oidText_chunks 0 hv hchunks, oidText,
      if_neg (by simp; omega), Nat.add_zero, hsub]
    exact hs _ _ hfit

/-- Reading on only adds arcs to the text. -/
lemma oidText_append (outs : Nat) (o : List UInt8) (sub : Nat) (text : List UInt8) :
    ∃ rest, NoDigit rest ∧ oidText outs o sub text = text ++ rest := by
  induction o generalizing sub text with
  | nil => exact ⟨[], by rintro c ⟨⟩, (append_nil _).symm⟩
  | cons b o ih =>
    simp only [oidText]
    split_ifs
    · exact ih _ _
    · obtain ⟨rest, -, hrest⟩ := ih 0 (text ++ 46 :: decimal ((sub * 128 + b.toNat % 128) % 2 ^ 32))
      exact ⟨_, by rintro c ⟨⟩; rfl, hrest.trans (append_assoc ..)⟩
    · exact ⟨_, by rintro c ⟨⟩; rfl, rfl⟩

/-- The second number that is read is a remainder of `40`, cut or not. -/
lemma snmpOidBerToDotted_second {s : List UInt8} (ha : a ≤ 2) (hs : NoDigit s)
    (h : snmpOidBerToDotted o outs = decimal a ++ 46 :: (decimal b ++ s)) : b < 40 := by
  have hone : ∀ d < 10, decimal d = [digit d] := by decide
  cases o with
  | nil => exact absurd h (by simp [snmpOidBerToDotted])
  | cons first o =>
    have hfirst := first.toNat_lt
    obtain ⟨rest, hrest, htext⟩ : ∃ rest, NoDigit rest ∧ snmpOidBerToDotted (first :: o) outs =
        (decimal (first.toNat / 40) ++ 46 :: (decimal (first.toNat % 40) ++ rest)).take
          (outs - 1) := by
      rw [snmpOidBerToDotted]
      split_ifs
      · obtain ⟨rest, hrest, htext⟩ := oidText_append outs o 0
          (decimal (first.toNat / 40) ++ 46 :: decimal (first.toNat % 40))
        exact ⟨rest, hrest, by rw [htext, append_assoc, cons_append]⟩
      · exact ⟨[], by rintro c ⟨⟩, by rw [append_nil]⟩
    rw [htext, hone _ (by omega), hone a (by omega)] at h
    obtain ⟨k, hk⟩ : ∃ k, outs - 1 = k + 2 := by
      have hlen := congrArg List.length h
      simp only [length_take, length_append, length_cons, length_nil] at hlen
      exact ⟨outs - 1 - 2, by omega⟩
    rw [hk, singleton_append, singleton_append, take_succ_cons, take_succ_cons] at h
    -- both sides read as numbers
    have hread := congrArg (fun t => (readDigits 0 t).1) (cons.inj (cons.inj h).2).2
    have hle := readDigits_take_le 0 k (decimal (first.toNat % 40) ++ rest)
    simp only [readDigits_decimal _ hs] at hread
    rw [hread, readDigits_decimal _ hrest] at hle
    exact hle.trans_lt (Nat.mod_lt _ (by decide))

/-- The octet of the first two arcs can be taken apart again if the second one is below `40`. -/
theorem snmp_oid_survives_iff (ha : a ≤ 2) (hparts : ∀ v ∈ b :: parts, v < 2 ^ 32)
    (hlen : parts.length + 2 ≤ 64)
    (hber : snmpOidDottedToBer (decimal a ++ dottedArcs (b :: parts)) 128 = some o)
    (hfit : (decimal a ++ dottedArcs (b :: parts)).length < outs) :
    snmpOidBerToDotted o outs = decimal a ++ dottedArcs (b :: parts) ↔ b < 40 := by
  have htext : dottedArcs (b :: parts) = 46 :: (decimal b ++ dottedArcs parts) := rfl
  refine ⟨fun h => ?_, fun hb => ?_⟩
  · refine snmpOidBerToDotted_second ha ?_ (h.trans (by rw [htext]))
    cases parts <;> rintro c ⟨⟩
    rfl
  have harcs : oidParts 64 (decimal a ++ dottedArcs (b :: parts)) = some (a :: b :: parts) :=
    oidParts_dotted (by omega) hparts (Nat.le_of_succ_le_succ hlen)
  rw [snmpOidDottedToBer, if_neg (by simp [decimal_ne_nil]), harcs] at hber
  obtain ⟨s, rfl, hs⟩ := oidText_octets (forall_mem_cons.1 hparts).2 hber
  rw [htext, ← cons_append, ← append_assoc] at hfit ⊢
  have hfirst : (UInt8.ofNat (40 * a + b)).toNat = 40 * a + b := by
    rw [UInt8.toNat_ofNat']
    omega
  rw [singleton_append, snmpOidBerToDotted, hfirst, show (40 * a + b) / 40 = a by omega,
    show (40 * a + b) % 40 = b by omega, hs _ _ hfit, take_of_length_le (by omega)]

theorem snmp_oid_survives_enterprise :
    snmpOidBerToDotted [43, 6, 1, 4, 1, 143, 101] 64 =
      decimal 1 ++ dottedArcs [3, 6, 1, 4, 1, 2021] :=
  (snmp_oid_survives_iff (by decide) (by decide) (by decide) (by decide +kernel)
    (by decide +kernel)).2 (by decide)

/-- `2.40` is written as `120`, the octet of `3.0`. -/
theorem snmp_oid_third_root : snmpOidDottedToBer (decimal 2 ++ dottedArcs [40]) 128 = some [120] ∧
    snmpOidBerToDotted [120] 64 = decimal 3 ++ dottedArcs [0] ∧
    decimal 3 ++ dottedArcs [0] ≠ decimal 2 ++ dottedArcs [40] := by
  decide +kernel

end Alligator
