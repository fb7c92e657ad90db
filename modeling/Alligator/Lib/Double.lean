import Alligator.Lib.Text
import Mathlib.Data.Nat.Log
import Mathlib.Data.Rat.Cast.Order
import Mathlib.Tactic.FieldSimp

/-!
# Doubles

The numbers of the format binary64 as their bits, and how they are printed and read.
`ofRatio` rounds a ratio of numbers to the nearest double, and to the even one of two
that are equally near.  `printLf` prints like `%lf`, and `strtod` reads decimal and
hexadecimal numbers, infinities and NaNs.

An integer below `2 ^ 53` is a double (`toRat_ofInt`).  Printed, with or without a
fraction of zeros, it is read back as itself (`strtod_printInt`, `strtod_zeros`).
The first bytes of what is printed can be read too (`printInt_take`, `printLf_take`).
-/

namespace Binary64

open Text List Option

variable {d m : Nat} {i : Int} {s t : List UInt8}

/-! ## Fields -/

def exponent (d : BitVec 64) : Nat := d.toNat / 2 ^ 52 % 2048

def fraction (d : BitVec 64) : Nat := d.toNat % 2 ^ 52

def negative (d : BitVec 64) : Bool := decide (2 ^ 63 ≤ d.toNat)

/-- The magnitude of a finite double, as a ratio. -/
def ratio (d : BitVec 64) : Nat × Nat :=
  if exponent d = 0 then (fraction d, 2 ^ 1074)
  else if 1075 ≤ exponent d then ((2 ^ 52 + fraction d) * 2 ^ (exponent d - 1075), 1)
  else (2 ^ 52 + fraction d, 2 ^ (1075 - exponent d))

/-- The number that a finite double stands for. -/
def toRat (d : BitVec 64) : ℚ :=
  (if negative d then -1 else 1) * ((ratio d).1 / (ratio d).2 : ℚ)

/-! ## Rounding -/

/-- The quotient, rounded to the nearest number, a tie to the even one. -/
def divRoundEven (n d : Nat) : Nat :=
  if 2 * (n % d) < d then n / d
  else if d < 2 * (n % d) then n / d + 1
  else n / d + n / d % 2

/-- The greatest `k` with `2 ^ k ≤ n / d`. -/
def log2Ratio (n d : Nat) : Int :=
  let k : Int := (n.log2 : Int) - d.log2
  if n * 2 ^ (-k).toNat < d * 2 ^ k.toNat then k - 1 else k

/-- The bits of the nearest double without its sign. -/
def magnitudeOfRatio (n d : Nat) : Nat :=
  if n = 0 then 0
  else
    let e := max (log2Ratio n d) (-1022)
    let mantissa := divRoundEven (n * 2 ^ (52 - e).toNat) (d * 2 ^ (e - 52).toNat)
    min ((e + 1022).toNat * 2 ^ 52 + mantissa) (2047 * 2 ^ 52)

def withSign (neg : Bool) (magnitude : Nat) : BitVec 64 :=
  BitVec.ofNat 64 (magnitude + if neg then 2 ^ 63 else 0)

/-- The double nearest to a ratio. -/
def ofRatio (neg : Bool) (n d : Nat) : BitVec 64 := withSign neg (magnitudeOfRatio n d)

def ofInt (i : Int) : BitVec 64 := ofRatio (decide (i < 0)) i.natAbs 1

def infinity (neg : Bool) : BitVec 64 := withSign neg (2047 * 2 ^ 52)

def nan (neg : Bool) : BitVec 64 := withSign neg (2047 * 2 ^ 52 + 2 ^ 51)

/-! ## Printing -/

/-- The last `k` digits of a number. -/
def padded : Nat → Nat → List UInt8
  | 0, _ => []
  | k + 1, n => padded k (n / 10) ++ [digit (n % 10)]

/-- The text of the magnitude that `%lf` prints. -/
def printMagnitude (d : BitVec 64) : List UInt8 :=
  if exponent d = 2047 then
    if fraction d = 0 then [105, 110, 102] else [110, 97, 110]
  else
    let scaled := divRoundEven ((ratio d).1 * 10 ^ 6) (ratio d).2
    decimal (scaled / 10 ^ 6) ++ 46 :: padded 6 (scaled % 10 ^ 6)

/-- What `%lf` prints. -/
def printLf (d : BitVec 64) : List UInt8 :=
  if negative d then 45 :: printMagnitude d else printMagnitude d

/-- The greatest `x` with `10 ^ x ≤ n / d`. -/
def log10Ratio (n d : Nat) : Int :=
  if d ≤ n then (Nat.log 10 (n / d) : Int) else -(Nat.clog 10 ((d + n - 1) / n) : Int)

/-- Digits after the point without the zeros at their end, the point included. -/
def printFraction (digits : List UInt8) : List UInt8 :=
  let kept := digits.rdropWhile (· == 48)
  if kept = [] then [] else 46 :: kept

/-- The text of the magnitude that `%lg` prints: six digits, with an exponent where the number
is large or small. -/
def printLgMagnitude (d : BitVec 64) : List UInt8 :=
  if exponent d = 2047 then
    if fraction d = 0 then [105, 110, 102] else [110, 97, 110]
  else if (ratio d).1 = 0 then [48]
  else
    let x := log10Ratio (ratio d).1 (ratio d).2
    let scaled := divRoundEven ((ratio d).1 * 10 ^ (5 - x).toNat) ((ratio d).2 * 10 ^ (x - 5).toNat)
    let x := if scaled = 10 ^ 6 then x + 1 else x
    let digits := padded 6 (if scaled = 10 ^ 6 then 10 ^ 5 else scaled)
    if x < -4 ∨ 6 ≤ x then
      digits.take 1 ++ printFraction (digits.drop 1) ++
        101 :: (if x < 0 then 45 else 43) :: (if x.natAbs < 10 then [48] else []) ++
          decimal x.natAbs
    else if 0 ≤ x then digits.take (x.toNat + 1) ++ printFraction (digits.drop (x.toNat + 1))
    else 48 :: printFraction (List.replicate (x.natAbs - 1) 48 ++ digits)

/-- What `%lg` prints. -/
def printLg (d : BitVec 64) : List UInt8 :=
  if negative d then 45 :: printLgMagnitude d else printLgMagnitude d

/-! ## Order -/

def isNan (d : BitVec 64) : Bool := decide (exponent d = 2047 ∧ fraction d ≠ 0)

/-- The place of a double in the order, the two zeros being equal. -/
def order (d : BitVec 64) : Int :=
  if negative d then -((d.toNat - 2 ^ 63 : Nat) : Int) else (d.toNat : Int)

/-- The comparison `<`. -/
def lt (a b : BitVec 64) : Bool := !isNan a && !isNan b && decide (order a < order b)

/-- The comparison `<=`. -/
def le (a b : BitVec 64) : Bool := !isNan a && !isNan b && decide (order a ≤ order b)

/-! ## Reading -/

/-- `tolower` -/
def lower (c : UInt8) : UInt8 := if 65 ≤ c ∧ c ≤ 90 then c + 32 else c

/-- What comes after a word, which may be in upper case. -/
def afterWord (word s : List UInt8) : Option (List UInt8) :=
  if (s.take word.length).map lower = word then some (s.drop word.length) else none

def readSign : List UInt8 → Bool × List UInt8
  | 45 :: s => (true, s)
  | 43 :: s => (false, s)
  | s => (false, s)

def decimalDigit (c : UInt8) : Option Nat := if isDigit c then some (c.toNat - 48) else none

def hexDigit (c : UInt8) : Option Nat :=
  if isDigit c then some (c.toNat - 48)
  else if 97 ≤ lower c ∧ lower c ≤ 102 then some ((lower c).toNat - 87)
  else none

def readExponent (letter : UInt8) (s : List UInt8) : Int × List UInt8 :=
  match s with
  | [] => (0, [])
  | c :: t =>
    if lower c = letter then
      let (neg, u) := readSign t
      if u.head?.any isDigit then
        let r := readDigits 0 u
        (if neg then -(r.1 : Int) else r.1, r.2)
      else (0, c :: t)
    else (0, c :: t)

variable (digitOf : UInt8 → Option Nat)

def digitsValue (base : Nat) (s : List UInt8) : Nat :=
  s.foldl (fun acc c => base * acc + (digitOf c).getD 0) 0

/-- Read the fraction after a point, if there is one. -/
def readFraction : List UInt8 → List UInt8 × List UInt8
  | 46 :: s =>
    (s.takeWhile fun c => (digitOf c).isSome, s.dropWhile fun c => (digitOf c).isSome)
  | s => ([], s)

/-- Read a number: digits with a fraction and an exponent, as a ratio. -/
def readNumber (base expBase : Nat) (letter : UInt8)
    (s : List UInt8) : Option ((Nat × Nat) × List UInt8) :=
  let whole := s.takeWhile fun c => (digitOf c).isSome
  let (frac, t) := readFraction digitOf (s.dropWhile fun c => (digitOf c).isSome)
  if whole = [] ∧ frac = [] then none
  else
    let m := digitsValue digitOf base (whole ++ frac)
    let (e, u) := readExponent letter t
    some ((m * expBase ^ e.toNat, base ^ frac.length * expBase ^ (-e).toNat), u)

def readDecimal (s : List UInt8) : Option ((Nat × Nat) × List UInt8) :=
  readNumber decimalDigit 10 10 101 s

/-- Read a hexadecimal number after its `0x`. -/
def readHex : List UInt8 → Option ((Nat × Nat) × List UInt8)
  | 48 :: c :: s => if lower c = 120 then readNumber hexDigit 16 2 112 s else none
  | _ => none

/-- What comes after the text in brackets that may follow `nan`. -/
def afterNan (s : List UInt8) : List UInt8 :=
  match s with
  | 40 :: t =>
    match t.dropWhile fun c =>
      isDigit c || decide (97 ≤ lower c ∧ lower c ≤ 122) || decide (c = 95) with
    | 41 :: u => u
    | _ => s
  | _ => s

/-- `strtod`: the number and what comes after it, if there is a number. -/
def strtod (s : List UInt8) : Option (BitVec 64 × List UInt8) :=
  let (neg, t) := readSign (s.dropWhile isSpace)
  match afterWord [105, 110, 102, 105, 110, 105, 116, 121] t with
  | some u => some (infinity neg, u)
  | none =>
    match afterWord [105, 110, 102] t with
    | some u => some (infinity neg, u)
    | none =>
      match afterWord [110, 97, 110] t with
      | some u => some (nan neg, afterNan u)
      | none =>
        ((readHex t).or (readDecimal t)).map fun r => (ofRatio neg r.1.1 r.1.2, r.2)

def atof (s : List UInt8) : BitVec 64 := ((strtod s).map Prod.fst).getD 0

/-! ## Integers -/

lemma divRoundEven_mul {n : Nat} (hd : 0 < d) : divRoundEven (n * d) d = n := by
  rw [divRoundEven, Nat.mul_mod_left, if_pos (by omega), Nat.mul_div_cancel _ hd]

lemma log2Ratio_mul (hm : m ≠ 0) (hd : d ≠ 0) : log2Ratio (m * d) d = m.log2 := by
  have hmd : m * d ≠ 0 := Nat.mul_ne_zero hm hd
  have m1 := Nat.log2_self_le hm
  have m2 := Nat.lt_log2_self (n := m)
  have d1 := Nat.log2_self_le hd
  have d2 := Nat.lt_log2_self (n := d)
  have hlow : m.log2 + d.log2 ≤ (m * d).log2 := by
    rw [Nat.le_log2 hmd, pow_add]
    exact Nat.mul_le_mul m1 d1
  have hhigh : (m * d).log2 < m.log2 + d.log2 + 2 := by
    rw [Nat.log2_lt hmd]
    calc m * d < 2 ^ (m.log2 + 1) * 2 ^ (d.log2 + 1) := Nat.mul_lt_mul'' m2 d2
      _ = 2 ^ (m.log2 + d.log2 + 2) := by rw [← pow_add]; congr 1; omega
  have hcases : (m * d).log2 = m.log2 + d.log2 ∨ (m * d).log2 = m.log2 + d.log2 + 1 := by omega
  rw [log2Ratio]
  rcases hcases with h | h
  · have hk : (((m * d).log2 : Int) - d.log2) = (m.log2 : Int) := by omega
    rw [hk]
    simp only [Int.toNat_neg_natCast, pow_zero, mul_one]
    rw [if_neg]
    rw [not_lt, mul_comm]
    exact Nat.mul_le_mul_right _ m1
  · have hk : (((m * d).log2 : Int) - d.log2) = ((m.log2 + 1 : Nat) : Int) := by omega
    rw [hk]
    simp only [Int.toNat_neg_natCast, pow_zero, mul_one]
    rw [if_pos]
    · omega
    · rw [mul_comm]
      exact Nat.mul_lt_mul_of_pos_left m2 (pos_of_ne_zero hd)

lemma mul_pow_lt (hlog : m.log2 < 53) : m * 2 ^ (52 - m.log2) < 2 ^ 53 := by
  calc m * 2 ^ (52 - m.log2) < 2 ^ (m.log2 + 1) * 2 ^ (52 - m.log2) :=
        Nat.mul_lt_mul_of_pos_right Nat.lt_log2_self (Nat.two_pow_pos _)
    _ = 2 ^ 53 := by rw [← pow_add]; congr 1; omega

/-- The bits of an integer, from any ratio that stands for it. -/
lemma magnitudeOfRatio_mul (hm : m ≠ 0) (hlt : m < 2 ^ 53) (hd : d ≠ 0) :
    magnitudeOfRatio (m * d) d = (m.log2 + 1022) * 2 ^ 52 + m * 2 ^ (52 - m.log2) := by
  have hlog : m.log2 < 53 := (Nat.log2_lt hm).mpr hlt
  have hbound := mul_pow_lt hlog
  have he : max (m.log2 : Int) (-1022) = m.log2 := by omega
  have hup : (52 - (m.log2 : Int)).toNat = 52 - m.log2 := by omega
  have hdown : ((m.log2 : Int) - 52).toNat = 0 := by omega
  have hexp : ((m.log2 : Int) + 1022).toNat = m.log2 + 1022 := by omega
  have hmant : m * d * 2 ^ (52 - m.log2) = m * 2 ^ (52 - m.log2) * d := by ring
  rw [magnitudeOfRatio, if_neg (Nat.mul_ne_zero hm hd), log2Ratio_mul hm hd, he]
  simp only [hup, hdown, hexp, pow_zero, mul_one]
  rw [hmant, divRoundEven_mul (Nat.pos_of_ne_zero hd), Nat.min_eq_left]
  omega

lemma ofRatio_mul (neg : Bool) (hlt : m < 2 ^ 53) (hd : d ≠ 0) :
    ofRatio neg (m * d) d = ofRatio neg m 1 := by
  by_cases hm : m = 0
  · rw [hm, zero_mul, ofRatio, ofRatio, magnitudeOfRatio, magnitudeOfRatio, if_pos rfl, if_pos rfl]
  · have hone := magnitudeOfRatio_mul hm hlt Nat.one_ne_zero
    rw [mul_one] at hone
    rw [ofRatio, ofRatio, magnitudeOfRatio_mul hm hlt hd, hone]

section Fields

variable {neg : Bool} {mag : Nat} (h : mag < 2 ^ 63)
include h

lemma toNat_withSign : (withSign neg mag).toNat = mag + if neg then 2 ^ 63 else 0 := by
  rw [withSign, BitVec.toNat_ofNat]
  split_ifs <;> omega

lemma negative_withSign : negative (withSign neg mag) = neg := by
  rw [negative, toNat_withSign h]
  cases neg <;> simp
  exact h

lemma exponent_withSign : exponent (withSign neg mag) = mag / 2 ^ 52 := by
  rw [exponent, toNat_withSign h]
  split_ifs <;> omega

lemma fraction_withSign : fraction (withSign neg mag) = mag % 2 ^ 52 := by
  rw [fraction, toNat_withSign h]
  split_ifs <;> omega

end Fields

structure IsInteger (d : BitVec 64) (neg : Bool) (m : Nat) : Prop where
  sign : negative d = neg
  finite : exponent d ≠ 2047
  whole : (ratio d).1 = m * (ratio d).2
  den : 0 < (ratio d).2

lemma isInteger_ofRatio (neg : Bool) (hlt : m < 2 ^ 53) : IsInteger (ofRatio neg m 1) neg m := by
  by_cases hm : m = 0
  · have hmag : ofRatio neg m 1 = withSign neg 0 := by rw [ofRatio, magnitudeOfRatio, if_pos hm]
    have hratio : ratio (withSign neg 0) = (0, 2 ^ 1074) := by
      rw [ratio, exponent_withSign (by decide), Nat.zero_div, if_pos rfl,
        fraction_withSign (by decide), Nat.zero_mod]
    rw [hmag]
    refine ⟨negative_withSign (by decide), ?_, ?_, ?_⟩
    · rw [exponent_withSign (by decide)]
      decide
    · rw [hratio, hm, zero_mul]
    · rw [hratio]
      exact pow_pos Nat.two_pos _
  · have hmag := magnitudeOfRatio_mul hm hlt Nat.one_ne_zero
    rw [mul_one] at hmag
    have hlog : m.log2 < 53 := (Nat.log2_lt hm).mpr hlt
    have hlow : 2 ^ 52 ≤ m * 2 ^ (52 - m.log2) := by
      calc 2 ^ 52 = 2 ^ m.log2 * 2 ^ (52 - m.log2) := by rw [← pow_add]; congr 1; omega
        _ ≤ m * 2 ^ (52 - m.log2) := Nat.mul_le_mul_right _ (Nat.log2_self_le hm)
    have hhigh := mul_pow_lt hlog
    have hbits : magnitudeOfRatio m 1 < 2 ^ 63 := by omega
    have hexp : exponent (ofRatio neg m 1) = m.log2 + 1023 := by
      rw [ofRatio, exponent_withSign hbits, hmag]
      omega
    have hfrac : 2 ^ 52 + fraction (ofRatio neg m 1) = m * 2 ^ (52 - m.log2) := by
      rw [ofRatio, fraction_withSign hbits, hmag]
      omega
    have hratio : ratio (ofRatio neg m 1) = (m * 2 ^ (52 - m.log2), 2 ^ (52 - m.log2)) := by
      rw [ratio, hexp, if_neg (by omega), hfrac]
      split_ifs with h
      · have hlog' : m.log2 = 52 := by omega
        rw [hlog', pow_zero, mul_one]
      · have hsub : 1075 - (m.log2 + 1023) = 52 - m.log2 := by omega
        rw [hsub]
    refine ⟨by rw [ofRatio, negative_withSign hbits], by omega, ?_, ?_⟩
    · rw [hratio]
    · rw [hratio]
      exact Nat.two_pow_pos _

/-- An integer below `2 ^ 53` is a double. -/
lemma toRat_ofInt (h : i.natAbs < 2 ^ 53) : toRat (ofInt i) = i := by
  have hi := isInteger_ofRatio (decide (i < 0)) h
  have hden : ((ratio (ofInt i)).2 : ℚ) ≠ 0 := Nat.cast_ne_zero.mpr (Nat.pos_iff_ne_zero.mp hi.den)
  have hquot : ((ratio (ofInt i)).1 / (ratio (ofInt i)).2 : ℚ) = i.natAbs := by
    have : (ratio (ofInt i)).1 = i.natAbs * (ratio (ofInt i)).2 := hi.whole
    rw [this, Nat.cast_mul, mul_div_cancel_right₀ _ hden]
  have hsign : negative (ofInt i) = decide (i < 0) := hi.sign
  rw [toRat, hquot, hsign]
  cases i with
  | ofNat n => simp
  | negSucc n =>
    simp [Int.negSucc_lt_zero]

/-- So is `2 ^ 53`, and none of them is too large. -/
lemma ofInt_exact (h : i.natAbs ≤ 2 ^ 53) : toRat (ofInt i) = i ∧ exponent (ofInt i) ≠ 2047 := by
  by_cases hlt : i.natAbs < 2 ^ 53
  · exact ⟨toRat_ofInt hlt, (isInteger_ofRatio (decide (i < 0)) hlt).finite⟩
  · have hcases : i = 2 ^ 53 ∨ i = -2 ^ 53 := by omega
    rcases hcases with rfl | rfl
    · constructor
      · rw [show toRat (ofInt (2 ^ 53)) = 2 ^ 53 by decide +kernel]
        norm_num
      · decide
    · constructor
      · rw [show toRat (ofInt (-2 ^ 53)) = -2 ^ 53 by decide +kernel]
        norm_num
      · decide

/-! ## Printing and reading integers -/

lemma padded_zero (k : Nat) : padded k 0 = List.replicate k 48 := by
  induction k with
  | zero => rfl
  | succ k ih =>
    rw [padded, ih, replicate_succ']
    rfl

variable {neg : Bool}

/-- The magnitude of an integer is printed with a fraction of zeros. -/
lemma IsInteger.printMagnitude_eq {d : BitVec 64} (h : IsInteger d neg m) :
    printMagnitude d = decimal m ++ 46 :: List.replicate 6 48 := by
  have hscaled : divRoundEven ((ratio d).1 * 10 ^ 6) (ratio d).2 = m * 10 ^ 6 := by
    rw [h.whole, Nat.mul_right_comm, divRoundEven_mul h.den]
  rw [printMagnitude, if_neg h.finite]
  simp only [hscaled]
  rw [Nat.mul_div_cancel _ (by decide), Nat.mul_mod_left, padded_zero]

variable {c : UInt8}

lemma isDigit_of_mem_padded {k n : Nat} (h : c ∈ padded k n) : isDigit c = true := by
  induction k generalizing n with
  | zero => exact nomatch h
  | succ k ih =>
    rcases mem_append.1 h with h | h
    · exact ih h
    · rw [mem_singleton.1 h]
      exact isDigit_digit (Nat.mod_lt _ (by decide))

/-- No space is printed. -/
lemma lt_of_mem_printLf {d : BitVec 64} (h : c ∈ printLf d) : 32 < c.toNat := by
  have hdigit : isDigit c = true → 32 < c.toNat := fun hc => by
    rw [isDigit, Bool.and_eq_true, decide_eq_true_eq] at hc
    omega
  have hmagnitude : c ∈ printMagnitude d → 32 < c.toNat := by
    intro hc
    rw [printMagnitude] at hc
    split_ifs at hc
    · have hword : ∀ c ∈ ([105, 110, 102] : List UInt8), 32 < c.toNat := by simp
      exact hword c hc
    · have hword : ∀ c ∈ ([110, 97, 110] : List UInt8), 32 < c.toNat := by simp
      exact hword c hc
    · rcases mem_append.1 hc with hc | hc
      · exact hdigit (isDigit_of_mem_decimal hc)
      · rcases mem_cons.1 hc with rfl | hc
        · decide
        · exact hdigit (isDigit_of_mem_padded hc)
  rw [printLf] at h
  split_ifs at h
  · rcases mem_cons.1 h with rfl | h
    · decide
    · exact hmagnitude h
  · exact hmagnitude h

lemma printLf_ofInt (h : i.natAbs < 2 ^ 53) :
    printLf (ofInt i) = printInt i ++ 46 :: List.replicate 6 48 := by
  have hi : IsInteger (ofInt i) _ _ := isInteger_ofRatio (decide (i < 0)) h
  rw [printLf, hi.sign, hi.printMagnitude_eq]
  cases i with
  | ofNat n => rfl
  | negSucc n =>
    rw [if_pos (decide_eq_true (Int.negSucc_lt_zero n))]
    rfl

lemma takeWhile_decimalDigit (hs : ∀ c ∈ s, isDigit c = true) (ht : NoDigit t) :
    (s ++ t).takeWhile (fun c => (decimalDigit c).isSome) = s ∧
      (s ++ t).dropWhile (fun c => (decimalDigit c).isSome) = t := by
  have hdigit : ∀ c, (decimalDigit c).isSome = isDigit c := by
    intro c
    rw [decimalDigit]
    split_ifs with h
    · rw [h]
      rfl
    · rw [Bool.not_eq_true] at h
      rw [h]
      rfl
  simp only [hdigit]
  rw [takeWhile_append_of_pos hs, dropWhile_append_of_pos hs]
  cases t with
  | nil => simp
  | cons c t =>
    have hc := ht c rfl
    rw [takeWhile_cons_of_neg (by simp [hc]), dropWhile_cons_of_neg (by simp [hc])]
    simp

lemma readDigits_eq (hs : ∀ c ∈ s, isDigit c = true) (acc) : readDigits acc s =
      (s.foldl (fun acc c => 10 * acc + (decimalDigit c).getD 0) acc, []) := by
  induction s generalizing acc with
  | nil =>
    rfl
  | cons c s ih =>
    have hc := hs c mem_cons_self
    rw [readDigits, if_pos hc, ih (forall_mem_cons.1 hs).2, foldl_cons, decimalDigit, if_pos hc]
    rfl

lemma foldl_decimal (n : Nat) :
    (decimal n).foldl (fun acc c => 10 * acc + (decimalDigit c).getD 0) 0 = n := by
  have hread := readDigits_decimal n (s := []) (by intro c hc; cases hc)
  rw [append_nil, readDigits_eq fun c hc => isDigit_of_mem_decimal hc] at hread
  exact congrArg Prod.fst hread

lemma foldl_zeros (n k : Nat) :
    (List.replicate k (48 : UInt8)).foldl (fun acc c => 10 * acc + (decimalDigit c).getD 0) n =
      n * 10 ^ k := by
  induction k generalizing n with
  | zero => simp
  | succ k ih =>
    rw [replicate_succ, foldl_cons, ih]
    show (10 * n + 0) * 10 ^ k = _
    ring

/-- A number with a fraction of zeros. -/
lemma readDecimal_zeros (n k : Nat) :
    readDecimal (decimal n ++ 46 :: List.replicate k 48) = some ((n * 10 ^ k, 10 ^ k), []) := by
  have hdigits : ∀ c ∈ decimal n, isDigit c = true := fun c hc => isDigit_of_mem_decimal hc
  have hzeros : ∀ c ∈ List.replicate k (48 : UInt8), isDigit c = true := by
    intro c hc
    rw [(mem_replicate.mp hc).2]
    rfl
  obtain ⟨htake, hdrop⟩ := takeWhile_decimalDigit hdigits
    (t := 46 :: List.replicate k 48) (by rintro c ⟨⟩; rfl)
  obtain ⟨htake', hdrop'⟩ := takeWhile_decimalDigit hzeros (t := []) (by rintro c ⟨⟩)
  rw [append_nil] at htake' hdrop'
  rw [readDecimal, readNumber]
  simp only [htake, hdrop, readFraction, htake', hdrop', decimal_ne_nil,
    readExponent, digitsValue, foldl_append, foldl_decimal, foldl_zeros]
  simp

lemma readDecimal_digits (hs : ∀ c ∈ s, isDigit c = true) (hne : s ≠ []) :
    readDecimal s = some ((digitsValue decimalDigit 10 s, 1), []) := by
  obtain ⟨htake, hdrop⟩ := takeWhile_decimalDigit (t := []) hs (by rintro c ⟨⟩)
  rw [append_nil] at htake hdrop
  rw [readDecimal, readNumber]
  simp only [htake, hdrop, readFraction, hne, readExponent]
  simp

lemma readDecimal_decimal (n : Nat) : readDecimal (decimal n) = some ((n, 1), []) := by
  rw [readDecimal_digits (fun c hc => isDigit_of_mem_decimal hc) (decimal_ne_nil n), digitsValue,
    foldl_decimal]

/-- Digits stand for a number that has no more of them. -/
lemma digitsValue_lt (s : List UInt8) : digitsValue decimalDigit 10 s < 10 ^ s.length := by
  induction s using List.reverseRecOn with
  | nil => exact one_pos
  | append_singleton s c ih =>
    have hc : (decimalDigit c).getD 0 < 10 := by
      rw [decimalDigit]
      split_ifs with h
      · rw [isDigit, Bool.and_eq_true, decide_eq_true_eq, decide_eq_true_eq] at h
        rw [getD_some]
        omega
      · decide
    rw [digitsValue] at ih ⊢
    rw [foldl_append, foldl_cons, foldl_nil, length_append, length_singleton]
    omega

lemma length_decimal_iff {n k : Nat} (hk : 0 < k) : (decimal n).length ≤ k ↔ n < 10 ^ k := by
  obtain ⟨k, rfl⟩ := Nat.exists_eq_add_of_lt hk
  constructor
  · intro h
    have hlt := digitsValue_lt (decimal n)
    rw [digitsValue, foldl_decimal] at hlt
    exact hlt.trans_le (Nat.pow_le_pow_right (by decide) h)
  · exact length_decimal_le

section Digits

variable {c : UInt8} (hc : isDigit c = true)

include hc

lemma toNat_of_isDigit : 48 ≤ c.toNat ∧ c.toNat ≤ 57 := by
  rw [isDigit, Bool.and_eq_true, decide_eq_true_eq, decide_eq_true_eq] at hc
  exact hc

lemma lower_of_isDigit : lower c = c := by
  have h := toNat_of_isDigit hc
  rw [lower, if_neg]
  rintro ⟨h65, -⟩
  have : (65 : UInt8).toNat ≤ c.toNat := h65
  simp at this
  omega

lemma isSpace_of_isDigit : isSpace c = false := by
  have h := toNat_of_isDigit hc
  rw [isSpace, Bool.or_eq_false_iff, Bool.and_eq_false_iff, beq_eq_false_iff_ne]
  refine ⟨?_, .inr (decide_eq_false (by omega))⟩
  rintro rfl
  simp at h

lemma lower_ne_x_of_isDigit : lower c ≠ 120 := by
  have h := toNat_of_isDigit hc
  rw [lower_of_isDigit hc]
  rintro rfl
  simp at h

end Digits

lemma afterWord_of_isDigit {c w : UInt8} (hc : isDigit c = true) (hw : isDigit w = false)
    (ws s : List UInt8) : afterWord (w :: ws) (c :: s) = none := by
  rw [afterWord, if_neg]
  intro e
  rw [length_cons, take_succ_cons, map_cons, lower_of_isDigit hc, cons.injEq] at e
  rw [e.1, hw] at hc
  cases hc

/-- What begins with a digit is a number. -/
lemma strtod_of_isDigit (hc : isDigit c = true)
    (hsign : readSign t = (neg, c :: s)) (hspace : t.dropWhile isSpace = t) :
    strtod t = ((readHex (c :: s)).or (readDecimal (c :: s))).map fun r =>
      (ofRatio neg r.1.1 r.1.2, r.2) := by
  rw [strtod, hspace, hsign]
  simp only [afterWord_of_isDigit hc (show isDigit 105 = false from rfl),
    afterWord_of_isDigit hc (show isDigit 110 = false from rfl)]

/-- It is a decimal one unless an `x` follows. -/
lemma strtod_digits (hc : isDigit c = true) (hx : ∀ d ∈ s.head?, lower d ≠ 120)
    (hsign : readSign t = (neg, c :: s)) (hspace : t.dropWhile isSpace = t) :
    strtod t = (readDecimal (c :: s)).map fun r => (ofRatio neg r.1.1 r.1.2, r.2) := by
  have hhex : readHex (c :: s) = none := by
    cases s with
    | nil =>
      rw [readHex]
      simp
    | cons d s =>
      by_cases h48 : c = 48
      · subst h48
        rw [readHex, if_neg (hx d rfl)]
      · rw [readHex]
        rintro _ _ e
        cases e
        exact h48 rfl
  rw [strtod_of_isDigit hc hsign hspace, hhex, none_or]

lemma isSome_strtod_of_isDigit (hc : isDigit c = true)
    (hsign : readSign t = (neg, c :: s)) (hspace : t.dropWhile isSpace = t) :
    (strtod t).isSome = true := by
  have hdec : (readDecimal (c :: s)).isSome = true := by
    have hwhole : ¬((c :: s).takeWhile fun c => (decimalDigit c).isSome) = [] := by
      rw [takeWhile_cons_of_pos]
      · exact cons_ne_nil _ _
      · rw [decimalDigit, if_pos hc]
        rfl
    rw [readDecimal, readNumber]
    simp only [hwhole]
    rfl
  rw [strtod_of_isDigit hc hsign hspace, isSome_map, isSome_or, hdec, Bool.or_true]

lemma readSign_printInt (i : Int) (s : List UInt8) :
    readSign (printInt i ++ s) = (decide (i < 0), decimal i.natAbs ++ s) := by
  cases i with
  | ofNat n =>
    obtain ⟨c, t, e, hc⟩ := decimal_eq_cons n
    show readSign (decimal n ++ s) = (false, decimal n ++ s)
    rw [e, readSign]
    · rintro _ ⟨⟩
      cases hc
    · rintro _ ⟨⟩
      cases hc
  | negSucc n =>
    rw [decide_eq_true (Int.negSucc_lt_zero n)]
    rfl

lemma dropWhile_printInt (i : Int) (s : List UInt8) :
    (printInt i ++ s).dropWhile isSpace = printInt i ++ s := by
  cases i with
  | ofNat n =>
    obtain ⟨c, t, e, hc⟩ := decimal_eq_cons n
    show (decimal n ++ s).dropWhile isSpace = decimal n ++ s
    rw [e, cons_append, dropWhile_cons_of_neg (by simp [isSpace_of_isDigit hc])]
  | negSucc n => rfl

/-- What `strtod` does with an integer and what may follow it. -/
lemma strtod_append (i : Int) (hs : ∀ d ∈ s.head?, lower d ≠ 120) :
    strtod (printInt i ++ s) = (readDecimal (decimal i.natAbs ++ s)).map fun r =>
      (ofRatio (decide (i < 0)) r.1.1 r.1.2, r.2) := by
  obtain ⟨c, t, e, hc⟩ := decimal_eq_cons i.natAbs
  have hsign := readSign_printInt i s
  rw [e] at hsign
  rw [e]
  refine strtod_digits hc (fun d hd => ?_) hsign (dropWhile_printInt i s)
  cases t with
  | nil => exact hs d hd
  | cons x t =>
    cases hd
    exact lower_ne_x_of_isDigit (isDigit_of_mem_decimal (n := i.natAbs) (by rw [e]; simp))

/-- An integer is read as the nearest double. -/
lemma strtod_printInt (i : Int) : strtod (printInt i) = some (ofInt i, []) := by
  have h := strtod_append i (s := []) (by rintro d ⟨⟩)
  rw [append_nil, append_nil, readDecimal_decimal] at h
  exact h

/-- A fraction of zeros changes nothing. -/
lemma strtod_zeros (h : i.natAbs < 2 ^ 53) (k : Nat) :
    strtod (printInt i ++ 46 :: List.replicate k 48) = some (ofInt i, []) := by
  rw [strtod_append i (by rintro d ⟨⟩; decide), readDecimal_zeros, map_some,
    ofRatio_mul _ h (pow_ne_zero _ (by decide))]
  rfl

section Prefixes

variable {c : UInt8} (hc : isDigit c = true)

include hc

lemma isSome_strtod_cons (s : List UInt8) : (strtod (c :: s)).isSome = true := by
  have hsign : readSign (c :: s) = (false, c :: s) := by
    rw [readSign]
    · rintro _ ⟨⟩
      cases hc
    · rintro _ ⟨⟩
      cases hc
  refine isSome_strtod_of_isDigit hc hsign ?_
  rw [dropWhile_cons_of_neg (by simp [isSpace_of_isDigit hc])]

lemma isSome_strtod_neg (s : List UInt8) : (strtod (45 :: c :: s)).isSome = true :=
  isSome_strtod_of_isDigit hc (t := 45 :: c :: s) rfl rfl

end Prefixes

def NumberStart (c : UInt8) : Prop := c = 45 ∨ c = 105 ∨ c = 110 ∨ isDigit c = true

/-- The first bytes of what is printed can be read. -/
lemma printInt_take (i : Int) (k : Nat) :
    ∃ c s, (printInt i).take (k + 2) = c :: s ∧ NumberStart c ∧ (strtod (c :: s)).isSome = true := by
  cases i with
  | ofNat n =>
    obtain ⟨c, t, e, hc⟩ := decimal_eq_cons n
    refine ⟨c, t.take (k + 1), ?_, .inr (.inr (.inr hc)), isSome_strtod_cons hc _⟩
    show (decimal n).take (k + 2) = _
    rw [e, take_succ_cons]
  | negSucc n =>
    obtain ⟨c, t, e, hc⟩ := decimal_eq_cons (n + 1)
    refine ⟨45, c :: t.take k, ?_, .inl rfl, isSome_strtod_neg hc _⟩
    show (45 :: decimal (n + 1)).take (k + 2) = _
    rw [e, take_succ_cons, take_succ_cons]

lemma printLf_take (d : BitVec 64) (k : Nat) :
    ∃ c s, (printLf d).take (k + 4) = c :: s ∧ NumberStart c ∧ (strtod (c :: s)).isSome = true := by
  have hmag : printMagnitude d = [105, 110, 102] ∨ printMagnitude d = [110, 97, 110] ∨
      ∃ c s, printMagnitude d = c :: s ∧ isDigit c = true := by
    rw [printMagnitude]
    split_ifs
    · exact .inl rfl
    · exact .inr (.inl rfl)
    · generalize divRoundEven ((ratio d).1 * 10 ^ 6) (ratio d).2 = scaled
      obtain ⟨c, t, e, hc⟩ := decimal_eq_cons (scaled / 10 ^ 6)
      refine .inr (.inr ⟨c, t ++ 46 :: padded 6 (scaled % 10 ^ 6), ?_, hc⟩)
      simp only [e, cons_append]
  rw [printLf]
  rcases hmag with e | e | ⟨c, s, e, hc⟩
  · rw [e]
    split_ifs
    · exact ⟨45, [105, 110, 102], take_of_length_le (by simp), .inl rfl, rfl⟩
    · exact ⟨105, [110, 102], take_of_length_le (by simp), .inr (.inl rfl), rfl⟩
  · rw [e]
    split_ifs
    · exact ⟨45, [110, 97, 110], take_of_length_le (by simp), .inl rfl, rfl⟩
    · exact ⟨110, [97, 110], take_of_length_le (by simp), .inr (.inr (.inl rfl)), rfl⟩
  · rw [e]
    split_ifs
    · exact ⟨45, c :: s.take (k + 2), rfl, .inl rfl, isSome_strtod_neg hc _⟩
    · exact ⟨c, s.take (k + 3), rfl, .inr (.inr (.inr hc)), isSome_strtod_cons hc _⟩

end Binary64
