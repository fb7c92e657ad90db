import Mathlib.Data.List.DropRight
import Mathlib.Tactic.Ring

/-!
# Text as lists of bytes

Decimal numbers and lines.  A number printed and followed by something that is not
a digit is read back as itself (`readDigits_decimal`, `readInt_printInt`), and text
made of lines falls apart into these lines (`splitLines_unlines`).
-/

namespace Text

open List

variable {d fuel : Nat} {s : List UInt8}

/-! ## Decimal numbers -/

def digit (d : Nat) : UInt8 := UInt8.ofNat (48 + d)

def isDigit (c : UInt8) : Bool := decide (48 ≤ c.toNat) && decide (c.toNat ≤ 57)

/-- The digits of a number, most significant first, as long as the fuel lasts. -/
def decimalAux : Nat → Nat → List UInt8
  | 0, _ => []
  | fuel + 1, n => if n < 10 then [digit n] else decimalAux fuel (n / 10) ++ [digit (n % 10)]

def decimal (n : Nat) : List UInt8 := decimalAux (n + 1) n

/-- Read digits, with the number read so far. -/
def readDigits : Nat → List UInt8 → Nat × List UInt8
  | acc, [] => (acc, [])
  | acc, c :: s => if isDigit c then readDigits (10 * acc + (c.toNat - 48)) s else (acc, c :: s)

def NoDigit (s : List UInt8) : Prop := ∀ c ∈ s.head?, isDigit c = false

lemma append_eq_iff {α : Type*} {s s' t t' : List α} (hs : s'.length ≤ s.length)
    (ht : t'.length ≤ t.length) : s ++ t = s' ++ t' ↔ s = s' ∧ t = t' := by
  refine ⟨fun h => append_inj h ?_, fun ⟨h, h'⟩ => h ▸ h' ▸ rfl⟩
  have hlen := congrArg List.length h
  simp only [length_append] at hlen
  omega

lemma digit_toNat (h : d < 10) : (digit d).toNat = 48 + d := by
  rw [digit, UInt8.toNat_ofNat']
  omega

lemma isDigit_digit (h : d < 10) : isDigit (digit d) = true := by
  rw [isDigit, digit_toNat h, Bool.and_eq_true, decide_eq_true_eq, decide_eq_true_eq]
  omega

lemma readDigits_of_noDigit (h : NoDigit s) (acc : Nat) : readDigits acc s = (acc, s) := by
  cases s with
  | nil => rfl
  | cons c s => rw [readDigits, if_neg (by rw [h c rfl]; decide)]

lemma readDigits_digit (h : d < 10) (acc : Nat) (s : List UInt8) :
    readDigits acc (digit d :: s) = readDigits (10 * acc + d) s := by
  rw [readDigits, if_pos (isDigit_digit h), digit_toNat h, Nat.add_sub_cancel_left]

variable {n k : Nat}

lemma readDigits_decimalAux (h : n < fuel) : ∀ s : List UInt8,
    readDigits 0 (decimalAux fuel n ++ s) = readDigits n s := by
  induction fuel generalizing n with
  | zero =>
    omega
  | succ fuel ih =>
    intro s
    rw [decimalAux]
    split_ifs with hn
    · rw [singleton_append, readDigits_digit hn, mul_zero, zero_add]
    · rw [append_assoc, ih (by omega), singleton_append,
        readDigits_digit (Nat.mod_lt _ (by decide))]
      congr 1
      omega

/-- A number is read back. -/
lemma readDigits_decimal (n : Nat) (h : NoDigit s) : readDigits 0 (decimal n ++ s) = (n, s) := by
  rw [decimal, readDigits_decimalAux (Nat.lt_succ_self n), readDigits_of_noDigit h]

/-- Reading less of a text gives no larger number. -/
lemma readDigits_take_le (acc k : Nat) (s : List UInt8) :
    (readDigits acc (s.take k)).1 ≤ (readDigits acc s).1 := by
  induction s generalizing acc k with
  | nil => rw [take_nil]
  | cons c s ih =>
    cases k with
    | zero =>
      rw [take_zero, readDigits, readDigits]
      split_ifs
      · have hle := ih (10 * acc + (c.toNat - 48)) 0
        rw [take_zero, readDigits] at hle
        omega
      · exact le_rfl
    | succ k =>
      rw [take_succ_cons, readDigits, readDigits]
      split_ifs
      · exact ih _ k
      · exact le_rfl

lemma isDigit_of_mem_decimalAux : ∀ {n : Nat}, ∀ c ∈ decimalAux fuel n, isDigit c = true := by
  induction fuel with
  | zero =>
    intro n c hc
    cases hc
  | succ fuel ih =>
    intro n c hc
    rw [decimalAux] at hc
    split_ifs at hc with hn
    · rw [mem_singleton.mp hc]
      exact isDigit_digit hn
    · rcases mem_append.mp hc with hc | hc
      · exact ih c hc
      · rw [mem_singleton.mp hc]
        exact isDigit_digit (Nat.mod_lt _ (by decide))

lemma isDigit_of_mem_decimal {c : UInt8} (h : c ∈ decimal n) : isDigit c = true :=
  isDigit_of_mem_decimalAux c h

lemma decimal_ne_nil (n : Nat) : decimal n ≠ [] := by
  rw [decimal, decimalAux]
  split_ifs
  · exact cons_ne_nil _ _
  · simp

/-- A number starts with a digit. -/
lemma decimal_eq_cons (n : Nat) : ∃ c s, decimal n = c :: s ∧ isDigit c = true := by
  cases h : decimal n with
  | nil => exact absurd h (decimal_ne_nil n)
  | cons c s => exact ⟨c, s, rfl, isDigit_of_mem_decimal (h ▸ mem_cons_self)⟩

lemma length_decimalAux_le (h : n < 10 ^ (k + 1)) : (decimalAux fuel n).length ≤ k + 1 := by
  induction fuel generalizing n k with
  | zero =>
    exact Nat.zero_le _
  | succ fuel ih =>
    rw [decimalAux]
    split_ifs with hn
    · exact Nat.succ_le_succ (Nat.zero_le _)
    · cases k with
      | zero => omega
      | succ k =>
        rw [length_append, length_singleton]
        refine Nat.succ_le_succ (ih ?_)
        rw [Nat.pow_succ] at h
        omega

/-- A number below `10 ^ (k + 1)` has at most `k + 1` digits. -/
lemma length_decimal_le (h : n < 10 ^ (k + 1)) : (decimal n).length ≤ k + 1 :=
  length_decimalAux_le h

/-- A signed number, with `-` in front of a negative one. -/
def printInt (i : Int) : List UInt8 :=
  match i with
  | .ofNat n => decimal n
  | .negSucc n => 45 :: decimal (n + 1)

def readInt (s : List UInt8) : Option (Int × List UInt8) :=
  match s with
  | [] => none
  | c :: s' =>
    if c = 45 then
      match s' with
      | [] => none
      | d :: _ =>
        if isDigit d then
          let r := readDigits 0 s'
          some (-(r.1 : Int), r.2)
        else none
    else if isDigit c then
      let r := readDigits 0 (c :: s')
      some ((r.1 : Int), r.2)
    else none

lemma readInt_printInt (i : Int) (h : NoDigit s) : readInt (printInt i ++ s) = some (i, s) := by
  cases i with
  | ofNat n =>
    obtain ⟨c, t, e, hc⟩ := decimal_eq_cons n
    have hread := readDigits_decimal n h
    have hne : c ≠ 45 := by
      rintro rfl
      cases hc
    show readInt (decimal n ++ s) = _
    rw [e, cons_append] at hread ⊢
    simp only [readInt, if_neg hne, hc, if_true, hread]
    rfl
  | negSucc n =>
    obtain ⟨c, t, e, hc⟩ := decimal_eq_cons (n + 1)
    have hread := readDigits_decimal (n + 1) h
    show readInt (45 :: (decimal (n + 1) ++ s)) = _
    rw [e, cons_append] at hread ⊢
    simp only [readInt, if_true, hc, hread]
    rfl

/-! ## Lines -/

/-- The parts of a text between line feeds. -/
def splitLines : List UInt8 → List (List UInt8)
  | [] => [[]]
  | c :: s =>
    if c = 10 then [] :: splitLines s
    else
      match splitLines s with
      | [] => [[c]]
      | l :: ls => (c :: l) :: ls

/-- Lines, each with a line feed at its end. -/
def unlines (ls : List (List UInt8)) : List UInt8 := ls.flatMap fun l => l ++ [10]

lemma splitLines_cons {l : List UInt8} (h : 10 ∉ l) (s : List UInt8) :
    splitLines (l ++ 10 :: s) = l :: splitLines s := by
  induction l with
  | nil => rfl
  | cons c l ih =>
    rw [mem_cons, not_or] at h
    rw [cons_append, splitLines, if_neg (Ne.symm h.1), ih h.2]

/-- Lines fall apart into themselves, and an empty rest. -/
lemma splitLines_unlines {ls : List (List UInt8)} (h : ∀ l ∈ ls, 10 ∉ l) :
    splitLines (unlines ls) = ls ++ [[]] := by
  induction ls with
  | nil => rfl
  | cons l ls ih =>
    rw [unlines, flatMap_cons, append_assoc, singleton_append, splitLines_cons (h l mem_cons_self)]
    exact congrArg (l :: ·) (ih (forall_mem_cons.1 h).2)

def isSpace (c : UInt8) : Bool := c == 32 || (decide (9 ≤ c.toNat) && decide (c.toNat ≤ 13))

def trim (s : List UInt8) : List UInt8 := (s.dropWhile isSpace).rdropWhile isSpace

lemma trim_eq (hh : ∀ c ∈ s.head?, isSpace c = false) (hl : ∀ c ∈ s.getLast?, isSpace c = false) :
    trim s = s := by
  cases s with
  | nil => rfl
  | cons c s =>
    have hdrop : (c :: s).dropWhile isSpace = c :: s := by
      rw [dropWhile_cons, hh c rfl]
      rfl
    rw [trim, hdrop, rdropWhile_eq_self_iff]
    intro hne
    rw [hl _ (List.getLast?_eq_some_getLast hne)]
    decide

end Text
