import Alligator.Metric.Exposition

/-!
# Numbers in a string buffer

A buffer grows when something is appended to it.  Numbers are first printed into 20 bytes, so
that a text of more than 19 loses its end.  A number keeps its value if the digits before its
point are not cut (`printed_whole_iff`).
-/

namespace Alligator

open Text Binary64 List Option

/-- `string`: the text, which ends before the byte `m` of the buffer or at it. -/
structure StringBuf where
  s : Str
  m : Nat
  fits : s.length ≤ m

variable (str : StringBuf)

namespace StringBuf

/-- `string_new_size` -/
def newSize (len : Nat) : StringBuf :=
  if str.m = 0 then ⟨[], len + 1, Nat.zero_le _⟩
  else ⟨str.s, str.m * 2 + len, by have := str.fits; omega⟩

/-- Append as much of a text as there is room for. -/
def append (num : Str) : StringBuf :=
  ⟨str.s ++ num.take (if str.s.length < str.m then str.m - str.s.length - 1 else 0), str.m, by
    have := str.fits
    rw [length_append, length_take]
    split <;> omega⟩

/-- A number that is printed by way of 20 bytes. -/
def number (text : Str) : StringBuf :=
  (if str.m ≤ str.s.length + 20 then str.newSize 20 else str).append (text.take 19)

/-- `string_uint` -/
def uint (u : BitVec 64) : StringBuf := str.number (decimal u.toNat)

/-- `string_int` -/
def int (i : BitVec 64) : StringBuf := str.number (printInt i.toInt)

/-- `string_double` -/
def double (d : BitVec 64) : StringBuf := str.number (printLf d)

/-- There is room for 19 bytes. -/
lemma number_eq (text : Str) : (str.number text).s = str.s ++ text.take 19 ∧
      (str.number text).s.length < (str.number text).m := by
  have hfits := str.fits
  have hlen : (text.take 19).length ≤ 19 := length_take_le ..
  have happend {r : StringBuf} (hroom : r.s.length + 20 ≤ r.m) :
      (r.append (text.take 19)).s = r.s ++ text.take 19 ∧
        (r.append (text.take 19)).s.length < (r.append (text.take 19)).m := by
    have htake : (text.take 19).take (r.m - r.s.length - 1) = text.take 19 :=
      take_of_length_le (by omega)
    rw [append]
    dsimp only
    rw [if_pos (by omega), htake, length_append]
    exact ⟨rfl, by omega⟩
  rw [number]
  split
  · by_cases hm : str.m = 0
    · have hnil : str.s = [] := length_eq_zero_iff.mp (by omega)
      have hnew : str.newSize 20 = ⟨[], 21, Nat.zero_le _⟩ := if_pos hm
      rw [hnew, hnil]
      exact happend (r := ⟨[], 21, Nat.zero_le _⟩) (by decide)
    · have hnew : (str.newSize 20).s = str.s ∧ (str.newSize 20).m = str.m * 2 + 20 := by
        rw [newSize, if_neg hm]
        exact ⟨rfl, rfl⟩
      have hroom : (str.newSize 20).s.length + 20 ≤ (str.newSize 20).m := by
        rw [hnew.1, hnew.2]
        omega
      rw [← hnew.1]
      exact happend hroom
  · exact happend (by omega)

end StringBuf

/-! ## The number that is read -/

/-- The number that a whole text stands for: digits with or without a sign and a point. -/
def decimalReading (s : Str) : Option ℚ :=
  let (neg, t) := Binary64.readSign s
  match readDecimal t with
  | some ((n, d), []) => some ((if neg then -1 else 1) * (n / d))
  | _ => none

variable (neg : Bool)

/-- A sign, a whole number and perhaps zeros behind a point. -/
def wholeText (n : Nat) (zeros : Option Nat) : Str :=
  (if neg then [45] else []) ++ (decimal n ++ zeros.elim [] fun k => 46 :: List.replicate k 48)

lemma decimalReading_sign {t : Str} {n d : Nat} (hdigit : ∃ c ∈ t.head?, isDigit c)
    (hread : readDecimal t = some ((n, d), [])) : decimalReading ((if neg then [45] else []) ++ t) =
      some ((if neg then -1 else 1) * (n / d : ℚ)) := by
  have hsign : Binary64.readSign ((if neg then [45] else []) ++ t) = (neg, t) := by
    cases neg with
    | true => rfl
    | false =>
      obtain ⟨c, hc, hdigit⟩ := hdigit
      obtain ⟨t, rfl⟩ := List.head?_eq_some_iff.mp hc
      rw [if_neg Bool.false_ne_true, nil_append, Binary64.readSign]
      · rintro _ ⟨⟩
        cases hdigit
      · rintro _ ⟨⟩
        cases hdigit
  rw [decimalReading, hsign]
  simp only [hread]

/-- A text that is cut stands for the number as long as no digit before the point is lost. -/
lemma decimalReading_take (n : Nat) (zeros : Option Nat) {k : Nat} (hk : 1 < k) :
    decimalReading ((wholeText neg n zeros).take k) = some ((if neg then -1 else 1) * (n : ℚ)) ↔
      n < 10 ^ (k - neg.toNat) := by
  obtain ⟨j, hj, rfl⟩ : ∃ j, 0 < j ∧ k = neg.toNat + j := by
    cases neg with
    | true => exact ⟨k - 1, by omega, by rw [Bool.toNat_true]; omega⟩
    | false => exact ⟨k, by omega, by simp⟩
  have hsign : (if neg then ([45] : Str) else []).length = neg.toNat := by cases neg <;> rfl
  rw [wholeText, Nat.add_sub_cancel_left, take_append, hsign, Nat.add_sub_cancel_left,
    take_of_length_le (by omega), ← length_decimal_iff hj]
  obtain ⟨c, s, hcons, hc⟩ := decimal_eq_cons n
  have hhead (t : Str) : ∃ x ∈ ((decimal n ++ t).take j).head?, isDigit x := by
    obtain ⟨j, rfl⟩ := Nat.exists_eq_add_of_lt hj
    rw [hcons]
    exact ⟨c, rfl, hc⟩
  constructor
  · -- the digits that are left stand for a smaller number
    intro hread
    by_contra hlong
    have hlong : j < (decimal n).length := by omega
    have htake (t : Str) : (decimal n ++ t).take j = (decimal n).take j :=
      take_append_of_le_length (by omega)
    have hdigits : ∀ x ∈ (decimal n).take j, isDigit x = true := fun x hx =>
      isDigit_of_mem_decimal (mem_of_mem_take hx)
    have hne : (decimal n).take j ≠ [] := by
      rw [Ne, take_eq_nil_iff, not_or]
      exact ⟨by omega, decimal_ne_nil n⟩
    rw [decimalReading_sign neg (hhead _) (by rw [htake, readDecimal_digits hdigits hne])] at hread
    have hvalue := digitsValue_lt ((decimal n).take j)
    rw [length_take_of_le (by omega)] at hvalue
    have hn : ¬n < 10 ^ j := fun h => absurd ((length_decimal_iff hj).mpr h) (by omega)
    have heq : digitsValue decimalDigit 10 ((decimal n).take j) = n := by
      cases neg <;> simpa using hread
    omega
  · intro hlen
    have hread : ∃ d, 0 < d ∧
        readDecimal ((decimal n ++ zeros.elim [] fun k => 46 :: List.replicate k 48).take j) =
          some ((n * d, d), []) := by
      rw [take_append, take_of_length_le hlen]
      have hwhole : readDecimal (decimal n ++ []) = some ((n * 1, 1), []) := by
        rw [append_nil, mul_one, readDecimal_decimal]
      cases zeros with
      | none =>
        rw [elim_none, take_nil]
        exact ⟨1, one_pos, hwhole⟩
      | some z =>
        cases j - (decimal n).length with
        | zero => exact ⟨1, one_pos, hwhole⟩
        | succ i =>
          rw [elim_some, take_succ_cons, take_replicate]
          exact ⟨_, Nat.pow_pos (by decide), readDecimal_zeros n _⟩
    obtain ⟨d, hd, hread⟩ := hread
    have hd' : (d : ℚ) ≠ 0 := Nat.cast_ne_zero.mpr (Nat.pos_iff_ne_zero.mp hd)
    rw [decimalReading_sign neg (hhead _) hread, Nat.cast_mul, mul_div_cancel_right₀ _ hd']

/-! ## The numbers that are printed whole -/

/-- The second buffer is the first with the text of a number behind it, and is not full. -/
def Appends (before after : StringBuf) (q : ℚ) : Prop :=
  ∃ text, after.s = before.s ++ text ∧ decimalReading text = some q ∧ after.s.length < after.m

lemma appends_number_iff {text : Str} (n : Nat)
    (zeros : Option Nat) (htext : text = wholeText neg n zeros) :
    Appends str (str.number text) ((if neg then -1 else 1) * (n : ℚ)) ↔
      n < 10 ^ (19 - neg.toNat) := by
  obtain ⟨hs, hlen⟩ := str.number_eq text
  rw [← decimalReading_take neg n zeros (by decide), ← htext]
  constructor
  · rintro ⟨t, ht, hread, -⟩
    rw [hs, append_cancel_left_eq] at ht
    rwa [ht]
  · exact fun hread => ⟨_, hs, hread, hlen⟩

lemma ratio_den_pos (d : BitVec 64) : 0 < (ratio d).2 := by
  rw [ratio]
  split_ifs
  · exact pow_pos two_pos 1074
  · exact one_pos
  · exact Nat.two_pow_pos _

/-- The sign of a double that is a whole number is the sign of the number, or the number is
zero. -/
lemma sign_mul_natAbs {d : BitVec 64} {z : Int} (hz : toRat d = z) :
    (if negative d then z ≤ 0 else 0 ≤ z) ∧ (if negative d then -1 else 1) * (z.natAbs : ℚ) = z ∧
      ((ratio d).1 / (ratio d).2 : ℚ) = z.natAbs := by
  have hnonneg : (0 : ℚ) ≤ (ratio d).1 / (ratio d).2 :=
    div_nonneg (Nat.cast_nonneg _) (Nat.cast_nonneg _)
  rw [toRat] at hz
  cases hneg : negative d with
  | true =>
    rw [hneg, if_pos rfl, neg_one_mul] at hz
    have hle : z ≤ 0 := by exact_mod_cast hz ▸ neg_nonpos.mpr hnonneg
    have habs : ((z.natAbs : Int) : ℚ) = -z := by rw [Int.ofNat_natAbs_of_nonpos hle]; simp
    rw [Int.cast_natCast] at habs
    rw [if_pos rfl, if_pos rfl, neg_one_mul, habs, neg_neg, ← hz, neg_neg]
    exact ⟨hle, rfl, rfl⟩
  | false =>
    rw [hneg, if_neg Bool.false_ne_true, one_mul] at hz
    have hle : 0 ≤ z := by exact_mod_cast hz ▸ hnonneg
    have habs : ((z.natAbs : Int) : ℚ) = z := by rw [Int.natAbs_of_nonneg hle]
    rw [Int.cast_natCast] at habs
    rw [if_neg Bool.false_ne_true, if_neg Bool.false_ne_true, one_mul, habs, hz]
    exact ⟨hle, rfl, rfl⟩

lemma isInteger_of_toRat {d : BitVec 64} (hfinite : exponent d ≠ 2047) {z : Int}
    (hz : toRat d = z) : IsInteger d (negative d) z.natAbs := by
  refine ⟨rfl, hfinite, ?_, ratio_den_pos d⟩
  have hden : ((ratio d).2 : ℚ) ≠ 0 :=
    Nat.cast_ne_zero.mpr (Nat.pos_iff_ne_zero.mp (ratio_den_pos d))
  have hquot := (sign_mul_natAbs hz).2.2
  rw [div_eq_iff hden] at hquot
  exact_mod_cast hquot

/-- A number is appended whole if it has at most 19 digits, one less with a sign; the buffer
keeps what it held and is not full. -/
theorem printed_whole_iff (str : StringBuf) :
    (∀ u : BitVec 64, Appends str (str.uint u) u.toNat ↔ u.toNat < 10 ^ 19) ∧
    (∀ i : BitVec 64, Appends str (str.int i) i.toInt ↔ -10 ^ 18 < i.toInt) ∧
    ∀ (d : BitVec 64) (z : Int), exponent d ≠ 2047 → toRat d = z →
      (Appends str (str.double d) z ↔ -10 ^ 18 < z ∧ z < 10 ^ 19) := by
  refine ⟨fun u => ?_, fun i => ?_, fun d z hfinite hz => ?_⟩
  · have h := appends_number_iff str false u.toNat none (append_nil (decimal u.toNat)).symm
    rwa [if_neg Bool.false_ne_true, one_mul] at h
  · have hlt := i.two_mul_toInt_lt
    rw [StringBuf.int]
    generalize i.toInt = j at hlt
    cases j with
    | ofNat n =>
      have h := appends_number_iff str false n none
        (append_nil (printInt (.ofNat n))).symm
      rw [if_neg Bool.false_ne_true, one_mul] at h
      rw [Int.ofNat_eq_natCast, Int.cast_natCast] at *
      rw [h]
      simp only [Bool.toNat_false]
      omega
    | negSucc n =>
      have h := appends_number_iff str true (n + 1) none
        (append_nil (printInt (.negSucc n))).symm
      rw [if_pos rfl, neg_one_mul] at h
      rw [Int.cast_negSucc, h, Bool.toNat_true]
      omega
  · have hint := isInteger_of_toRat hfinite hz
    have htext : printLf d = wholeText (negative d) z.natAbs (some 6) := by
      rw [printLf, hint.printMagnitude_eq, wholeText]
      cases negative d <;> rfl
    have h := appends_number_iff str _ _ _ htext
    obtain ⟨hle, hsign, -⟩ := sign_mul_natAbs hz
    rw [hsign] at h
    rw [StringBuf.double, h]
    cases hneg : negative d with
    | true =>
      rw [hneg, if_pos rfl] at hle
      rw [Bool.toNat_true]
      omega
    | false =>
      rw [hneg, if_neg Bool.false_ne_true] at hle
      rw [Bool.toNat_false]
      omega

/-- The largest number of 64 bits loses its last digit, and so do the least one with a sign and
a double of 20 digits. -/
theorem printed_whole_cut :
    ¬Appends ⟨[], 0, Nat.le_refl 0⟩ (StringBuf.uint ⟨[], 0, Nat.le_refl 0⟩ (BitVec.allOnes 64))
        (2 ^ 64 - 1) ∧
    (StringBuf.uint ⟨[], 0, Nat.le_refl 0⟩ (BitVec.allOnes 64)).s = cstr "1844674407370955161" ∧
    (StringBuf.int ⟨[], 0, Nat.le_refl 0⟩ (BitVec.intMin 64)).s = cstr "-922337203685477580" ∧
    (StringBuf.double ⟨[], 0, Nat.le_refl 0⟩ (ofInt (10 ^ 19))).s = cstr "1000000000000000000" := by
  refine ⟨?_, by decide, by decide, by decide⟩
  rintro ⟨text, htext, hread, -⟩
  have hs : (StringBuf.uint ⟨[], 0, le_refl 0⟩ (BitVec.allOnes 64)).s =
      cstr "1844674407370955161" := by decide
  rw [hs, nil_append] at htext
  subst htext
  have hvalue : decimalReading (cstr "1844674407370955161") = some 1844674407370955161 := by
    decide +kernel
  exact absurd hread (by decide +kernel)

end Alligator
