import Alligator.Lib.Double

/-!
# Digits of a double

`printE` prints a double like `%.*e`: its first digits, rounded, and a power of ten.  `printG`
prints it like `%.*g`, where the power of ten is left out of numbers that are neither large nor
small.
-/

namespace Binary64

open Text

/-- The first digits of a ratio that is not zero, one more than the precision, and the power
of ten that the first of them stands at. -/
def scientific (precision n d : Nat) : Nat × Int :=
  let x := log10Ratio n d
  let scaled := divRoundEven (n * 10 ^ (precision - x).toNat) (d * 10 ^ (x - precision).toNat)
  if scaled = 10 ^ (precision + 1) then (10 ^ precision, x + 1) else (scaled, x)

def printExponent (x : Int) : List UInt8 :=
  101 :: (if x < 0 then 45 else 43) :: (if x.natAbs < 10 then [48] else []) ++ decimal x.natAbs

/-- What `%.*e` prints of a finite double that is not zero. -/
def printE (precision : Nat) (d : BitVec 64) : List UInt8 :=
  let r := scientific precision (ratio d).1 (ratio d).2
  let digits := padded (precision + 1) r.1
  (if negative d then [45] else []) ++ digits.take 1 ++
    (if precision = 0 then [] else 46 :: digits.drop 1) ++ printExponent r.2

/-- The text of the magnitude that `%.*g` prints with some digits, at least one. -/
def printGMagnitude (digits : Nat) (d : BitVec 64) : List UInt8 :=
  if exponent d = 2047 then
    if fraction d = 0 then [105, 110, 102] else [110, 97, 110]
  else if (ratio d).1 = 0 then [48]
  else
    let r := scientific (digits - 1) (ratio d).1 (ratio d).2
    let text := padded digits r.1
    if r.2 < -4 ∨ digits ≤ r.2 then
      text.take 1 ++ printFraction (text.drop 1) ++ printExponent r.2
    else if 0 ≤ r.2 then text.take (r.2.toNat + 1) ++ printFraction (text.drop (r.2.toNat + 1))
    else 48 :: printFraction (List.replicate (r.2.natAbs - 1) 48 ++ text)

/-- What `%.*g` prints. -/
def printG (digits : Nat) (d : BitVec 64) : List UInt8 :=
  if negative d then 45 :: printGMagnitude digits d else printGMagnitude digits d

end Binary64
