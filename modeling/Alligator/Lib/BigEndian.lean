import Mathlib.Data.List.Basic
import Mathlib.Data.List.Induction
import Mathlib.Tactic.Ring

/-!
# Numbers in network order

A number of a fixed width is written as its bytes, the highest one first.  Reading
the bytes gives the number back (`toNat_ofNat`) as long as it fits the width.
-/

namespace BigEndian

/-- The lowest `width` bytes of a number, the highest one first. -/
def ofNat : Nat → Nat → List UInt8
  | 0, _ => []
  | width + 1, n => ofNat width (n / 256) ++ [UInt8.ofNat n]

def toNat (bytes : List UInt8) : Nat := bytes.foldl (fun n b => n * 256 + b.toNat) 0

@[simp] lemma length_ofNat (width n : Nat) : (ofNat width n).length = width := by
  induction width generalizing n with
  | zero => rfl
  | succ width ih => rw [ofNat, List.length_append, ih, List.length_singleton]

lemma toNat_concat (bytes : List UInt8) (b : UInt8) :
    toNat (bytes ++ [b]) = toNat bytes * 256 + b.toNat := by
  rw [toNat, List.foldl_append]
  rfl

lemma toNat_ofNat {width n : Nat} (h : n < 256 ^ width) : toNat (ofNat width n) = n := by
  induction width generalizing n with
  | zero =>
    rw [pow_zero, Nat.lt_one_iff] at h
    rw [h]
    rfl
  | succ width ih =>
    have hdiv : n / 256 < 256 ^ width := by
      rw [pow_succ] at h
      exact Nat.div_lt_of_lt_mul (by rwa [mul_comm])
    rw [ofNat, toNat_concat, ih hdiv, UInt8.toNat_ofNat']
    omega

end BigEndian
