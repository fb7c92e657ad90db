import Alligator.Lib.Text

/-!
# JSON

Rows are objects of depth two.  Their values are strings, integers of 64 bits, reals of 64
bits, and objects of these.  `Codec` is what a JSON library promises
about rows: what it prints is one line, and it reads it back; what is not valid
UTF-8 it does not print.

`compact` is such a library.  It prints as the compact form of JSON is printed, but
for reals, for which any text that determines the number would do.

`Tree` is a value of any depth, as a library gives it to a program that reads it.
-/

namespace Json

open Text List Option

/-! ## UTF-8 -/

variable (c : UInt8)

/-- A byte that continues a code point. -/
def isCont : Bool := decide (128 ≤ c.toNat) && decide (c.toNat ≤ 191)

/-- The byte lies between two others. -/
def between (lo hi : Nat) (c : UInt8) : Bool := decide (lo ≤ c.toNat) && decide (c.toNat ≤ hi)

/-- The text is valid UTF-8: no overlong forms, no surrogates, nothing above the
last code point. -/
def validUtf8 : List UInt8 → Bool
  | [] => true
  | a :: s =>
    if a.toNat < 128 then validUtf8 s
    else
      match s with
      | [] => false
      | b :: s =>
        if between 194 223 a then isCont b && validUtf8 s
        else
          match s with
          | [] => false
          | c :: s =>
            if a.toNat = 224 then between 160 191 b && isCont c && validUtf8 s
            else if a.toNat = 237 then between 128 159 b && isCont c && validUtf8 s
            else if between 225 239 a then isCont b && isCont c && validUtf8 s
            else
              match s with
              | [] => false
              | d :: s =>
                (if a.toNat = 240 then between 144 191 b
                  else if a.toNat = 244 then between 128 143 b
                  else between 241 243 a && isCont b) &&
                  isCont c && isCont d && validUtf8 s

/-! ## Rows -/

/-- A value that is no object. -/
inductive Scalar where
  | string (s : List UInt8)
  | integer (n : BitVec 64)
  | real (d : BitVec 64)
deriving DecidableEq

/-- A value of a row. -/
inductive Value where
  | scalar (x : Scalar)
  | object (members : List (List UInt8 × Scalar))
deriving DecidableEq

/-- The members of an object, in their order. -/
abbrev Row := List (List UInt8 × Value)

/-- Only a string can be invalid. -/
def Scalar.valid : Scalar → Bool
  | .string s => validUtf8 s
  | _ => true

/-- All keys and strings of the value are UTF-8. -/
def Value.valid : Value → Bool
  | .scalar x => x.valid
  | .object members => members.all fun m => validUtf8 m.1 && m.2.valid

/-- All keys and strings of the row are UTF-8. -/
def Row.valid (r : Row) : Bool := r.all fun m => validUtf8 m.1 && m.2.valid

/-- No key occurs twice in an object. -/
def Value.distinct : Value → Prop
  | .scalar _ => True
  | .object members => (members.map Prod.fst).Nodup

/-- No key occurs twice in the row or in an object in it. -/
def Row.distinct (r : Row) : Prop := (r.map Prod.fst).Nodup ∧ ∀ m ∈ r, m.2.distinct

/-- What a JSON library promises about rows. -/
structure Codec where
  dumps : Row → Option (List UInt8)
  loadb : List UInt8 → Option Row
  loadb_dumps : ∀ r, r.distinct → r.valid = true → ∃ line, dumps r = some line ∧
    loadb line = some r ∧ 10 ∉ line ∧ line.head? = some 123 ∧ line.getLast? = some 125
  dumps_invalid : ∀ r, r.valid = false → dumps r = none

/-! ## Printing -/

/-- A digit of base 16, with capital letters. -/
def hexDigit (d : Nat) : UInt8 := if d < 10 then UInt8.ofNat (48 + d) else UInt8.ofNat (55 + d)

/-- The value of a digit that `hexDigit` prints. -/
def hexVal : Nat := if c.toNat ≤ 57 then c.toNat - 48 else c.toNat - 55

/-- The two-letter escapes: the byte and the letter after the backslash. -/
def escapes : List (UInt8 × UInt8) :=
  [(34, 34), (92, 92), (8, 98), (12, 102), (10, 110), (13, 114), (9, 116)]

/-- A byte as it stands in a string. -/
def escape : List UInt8 :=
  match escapes.lookup c with
  | some e => [92, e]
  | none =>
    if c.toNat < 32 then [92, 117, 48, 48, hexDigit (c.toNat / 16), hexDigit (c.toNat % 16)]
    else [c]

/-- A string in its quotes. -/
def printString (s : List UInt8) : List UInt8 := 34 :: (s.flatMap escape ++ [34])

/-- A real is printed as the integer of its bits, with a fraction that tells it apart. -/
def printScalar : Scalar → List UInt8
  | .string s => printString s
  | .integer n => printInt n.toInt
  | .real d => printInt d.toInt ++ [46, 48]

section Members

variable {α : Type}

/-- The members of an object up to its closing brace. -/
def printMembers (printV : α → List UInt8) : List (List UInt8 × α) → List UInt8
  | [] => [125]
  | m :: ms =>
    printString m.1 ++ 58 :: (printV m.2 ++
      match ms with
      | [] => [125]
      | _ :: _ => 44 :: printMembers printV ms)

end Members

/-- A scalar or an object of scalars. -/
def printValue : Value → List UInt8
  | .scalar x => printScalar x
  | .object ms => 123 :: printMembers printScalar ms

/-- A row as one object. -/
def printRow (r : Row) : List UInt8 := 123 :: printMembers printValue r

/-! ## Reading -/

/-- The byte after a backslash and this letter. -/
def unescape (e : UInt8) : Option UInt8 := (escapes.find? fun p => p.2 == e).map Prod.fst

/-- Read a byte of a string, which may be escaped. -/
def readChar : List UInt8 → Option (UInt8 × List UInt8)
  | [] => none
  | c :: s =>
    if c = 92 then
      match s with
      | [] => none
      | e :: s =>
        if e = 117 then
          match s with
          | _ :: _ :: a :: b :: s => some (UInt8.ofNat (16 * hexVal a + hexVal b), s)
          | _ => none
        else (unescape e).map fun c => (c, s)
    else some (c, s)

/-- Read the bytes of a string up to the closing quote. -/
def readStringLoop : Nat → List UInt8 → Option (List UInt8 × List UInt8)
  | 0, _ => none
  | fuel + 1, s =>
    match s with
    | [] => none
    | c :: t =>
      if c = 34 then some ([], t)
      else do
        let (a, s) ← readChar (c :: t)
        let (r, s) ← readStringLoop fuel s
        return (a :: r, s)

/-- Read a string from its opening quote on. -/
def readString : List UInt8 → Option (List UInt8 × List UInt8)
  | [] => none
  | c :: s => if c = 34 then readStringLoop (s.length + 1) s else none

/-- Read a string, or a number, which is a real if it has a fraction. -/
def readScalar (s : List UInt8) : Option (Scalar × List UInt8) :=
  match s with
  | [] => none
  | c :: _ =>
    if c = 34 then (readString s).map fun r => (.string r.1, r.2)
    else
      match readInt s with
      | none => none
      | some (i, 46 :: 48 :: s) => some (.real (BitVec.ofInt 64 i), s)
      | some (i, s) => some (.integer (BitVec.ofInt 64 i), s)

section Members

variable {α : Type}

/-- Read the members of an object, at least one. -/
def readMembersLoop (readV : List UInt8 → Option (α × List UInt8)) :
    Nat → List UInt8 → Option (List (List UInt8 × α) × List UInt8)
  | 0, _ => none
  | fuel + 1, s => do
    let (k, s) ← readString s
    match s with
    | 58 :: s => do
      let (v, s) ← readV s
      match s with
      | 44 :: s => do
        let (ms, s) ← readMembersLoop readV fuel s
        return ((k, v) :: ms, s)
      | 125 :: s => some ([(k, v)], s)
      | _ => none
    | _ => none

/-- Read the members of an object after its opening brace. -/
def readMembers (readV : List UInt8 → Option (α × List UInt8)) (s : List UInt8) :
    Option (List (List UInt8 × α) × List UInt8) :=
  match s with
  | 125 :: s => some ([], s)
  | s => readMembersLoop readV s.length s

end Members

/-- Read an object or a scalar. -/
def readValue (s : List UInt8) : Option (Value × List UInt8) :=
  match s with
  | 123 :: s => (readMembers readScalar s).map fun r => (.object r.1, r.2)
  | s => (readScalar s).map fun r => (.scalar r.1, r.2)

/-- Read an object as a row, whatever comes after it. -/
def readRow (s : List UInt8) : Option Row :=
  match s with
  | 123 :: s => (readMembers readValue s).map Prod.fst
  | _ => none

/-! ## Reading what was printed -/

lemma hexVal_hexDigit : ∀ d < 16, hexVal (hexDigit d) = d := by decide

lemma unescape_of_lookup : ∀ p ∈ escapes, unescape p.2 = some p.1 ∧ p.2 ≠ 117 := by
  simp [escapes, unescape]

lemma mem_of_lookup {c e : UInt8} (h : escapes.lookup c = some e) : (c, e) ∈ escapes := by
  obtain ⟨l1, l2, hl, -⟩ := lookup_eq_some_iff.mp h
  rw [hl]
  simp

lemma readChar_escape (s : List UInt8) : readChar (escape c ++ s) = some (c, s) := by
  rw [escape]
  cases h : escapes.lookup c with
  | some e =>
    obtain ⟨he, hne⟩ := unescape_of_lookup _ (mem_of_lookup h)
    simp only [cons_append, readChar, if_neg hne, he]
    rfl
  | none =>
    have hne : c ≠ 92 := by
      rintro rfl
      cases h
    by_cases hc : c.toNat < 32
    · simp only [if_pos hc, cons_append, nil_append, readChar, if_true]
      rw [hexVal_hexDigit _ (by omega), hexVal_hexDigit _ (by omega), Nat.div_add_mod,
        UInt8.ofNat_toNat]
    · simp [if_neg hc, readChar, if_neg hne]

/-- An escaped byte does not start with a quote. -/
lemma escape_eq_cons : ∃ a t, escape c = a :: t ∧ a ≠ 34 := by
  rw [escape]
  cases h : escapes.lookup c with
  | some e => exact ⟨92, [e], rfl, by decide⟩
  | none =>
    by_cases hc : c.toNat < 32
    · exact ⟨92, _, by rw [if_pos hc], by decide⟩
    · refine ⟨c, [], by rw [if_neg hc], ?_⟩
      rintro rfl
      cases h

variable {s : List UInt8} {fuel : Nat}

lemma readStringLoop_escape (h : s.length < fuel) : ∀ t,
    readStringLoop fuel (s.flatMap escape ++ 34 :: t) = some (s, t) := by
  induction fuel generalizing s with
  | zero =>
    omega
  | succ fuel ih =>
    intro t
    cases s with
    | nil => rfl
    | cons c s =>
      obtain ⟨a, r, e, ha⟩ := escape_eq_cons c
      have hread := readChar_escape c (s.flatMap escape ++ 34 :: t)
      have hrest := ih (Nat.lt_of_succ_lt_succ h) t
      rw [flatMap_cons]
      rw [e, cons_append] at hread ⊢
      simp [readStringLoop, if_neg ha, hread, hrest]

lemma length_le_flatMap_escape (s : List UInt8) : s.length ≤ (s.flatMap escape).length := by
  induction s with
  | nil => exact le_refl _
  | cons c s ih =>
    obtain ⟨a, r, e, -⟩ := escape_eq_cons c
    rw [flatMap_cons, length_append, e, length_cons, length_cons]
    omega

lemma readString_printString (s t : List UInt8) :
    readString (printString s ++ t) = some (s, t) := by
  have hlen := length_le_flatMap_escape s
  rw [printString, cons_append, append_assoc, singleton_append, readString]
  refine readStringLoop_escape ?_ t
  rw [length_append]
  omega

/-- What follows a value in an object. -/
def Stop (s : List UInt8) : Prop := ∃ c t, s = c :: t ∧ (c = 44 ∨ c = 125)

lemma Stop.noDigit (h : Stop s) : NoDigit s := by
  obtain ⟨c, t, rfl, rfl | rfl⟩ := h
  · rintro c ⟨⟩
    rfl
  · rintro c ⟨⟩
    rfl

/-- A printed integer starts with a digit or a minus. -/
lemma printInt_eq_cons (i : Int) : ∃ c t, printInt i = c :: t ∧ c ≠ 34 ∧ c ≠ 123 ∧ c ≠ 125 := by
  cases i with
  | ofNat n =>
    obtain ⟨c, t, e, hc⟩ := decimal_eq_cons n
    refine ⟨c, t, e, ?_, ?_, ?_⟩ <;>
    · rintro rfl
      cases hc
  | negSucc n => exact ⟨45, _, rfl, by decide, by decide, by decide⟩

lemma readScalar_printScalar (x : Scalar) (hs : Stop s) :
    readScalar (printScalar x ++ s) = some (x, s) := by
  cases x with
  | string r =>
    have h := readString_printString r s
    rw [printString, cons_append] at h
    rw [printScalar, printString, cons_append, readScalar, h]
    rfl
  | integer n =>
    obtain ⟨c, t, e, hc, -⟩ := printInt_eq_cons n.toInt
    have h := readInt_printInt n.toInt hs.noDigit
    rw [printScalar]
    rw [e, cons_append] at h ⊢
    simp only [readScalar, if_neg hc, h]
    obtain ⟨c', t', rfl, rfl | rfl⟩ := hs <;> simp
  | real d =>
    obtain ⟨c, t, e, hc, -⟩ := printInt_eq_cons d.toInt
    have hno : NoDigit (46 :: 48 :: s) := by
      rintro c ⟨⟩
      rfl
    have h := readInt_printInt d.toInt hno
    rw [printScalar, append_assoc]
    rw [e, cons_append] at h ⊢
    simp only [readScalar, if_neg hc, cons_append, nil_append, h]
    simp

section Members

variable {α : Type} {printV : α → List UInt8} {readV : List UInt8 → Option (α × List UInt8)}
  {ms : List (List UInt8 × α)}

lemma readMembersLoop_printMembers (hne : ms ≠ []) (hlen : ms.length ≤ fuel) :
    (∀ m ∈ ms, ∀ s, Stop s → readV (printV m.2 ++ s) = some (m.2, s)) → ∀ t,
    readMembersLoop readV fuel (printMembers printV ms ++ t) = some (ms, t) := by
  induction fuel generalizing ms with
  | zero =>
    exact absurd (eq_nil_of_length_eq_zero (Nat.le_zero.mp hlen)) hne
  | succ fuel ih =>
    intro hread t
    cases ms with
    | nil => exact absurd rfl hne
    | cons m ms =>
      obtain ⟨k, v⟩ := m
      cases ms with
      | nil =>
        have hv := hread _ mem_cons_self (125 :: t) ⟨125, t, rfl, .inr rfl⟩
        simp [printMembers, readMembersLoop, readString_printString, hv]
      | cons m' ms =>
        obtain ⟨rest, hrest⟩ : ∃ rest, rest = printMembers printV (m' :: ms) ++ t := ⟨_, rfl⟩
        have hv := hread _ mem_cons_self (44 :: rest) ⟨44, rest, rfl, .inl rfl⟩
        have hms := ih (cons_ne_nil m' ms) (Nat.le_of_succ_le_succ hlen)
          (forall_mem_cons.1 hread).2 t
        have hprint : printMembers printV ((k, v) :: m' :: ms) ++ t =
            printString k ++ 58 :: (printV v ++ 44 :: rest) := by
          rw [printMembers, hrest]
          simp
        rw [← hrest] at hms
        simp [hprint, readMembersLoop, readString_printString, hv, hms]

lemma length_le_printMembers (printV : α → List UInt8) (ms : List (List UInt8 × α)) :
    ms.length ≤ (printMembers printV ms).length := by
  induction ms with
  | nil => exact Nat.zero_le _
  | cons m ms ih =>
    cases ms with
    | nil =>
      rw [printMembers]
      simp only [length_append, length_cons]
      omega
    | cons m' ms =>
      rw [printMembers]
      simp only [length_append, length_cons] at ih ⊢
      omega

lemma readMembers_printMembers
    (hread : ∀ m ∈ ms, ∀ s, Stop s → readV (printV m.2 ++ s) = some (m.2, s)) (t : List UInt8) :
    readMembers readV (printMembers printV ms ++ t) = some (ms, t) := by
  cases ms with
  | nil => rfl
  | cons m ms =>
    have hlen := length_le_printMembers printV (m :: ms)
    have hfuel : (m :: ms).length ≤ (printMembers printV (m :: ms) ++ t).length := by
      rw [length_append]
      omega
    have hloop := readMembersLoop_printMembers (cons_ne_nil m ms) hfuel hread t
    -- the members start with a quote, so the object is not empty
    have hcons : ∃ r, printMembers printV (m :: ms) ++ t = 34 :: r := ⟨_, rfl⟩
    obtain ⟨r, hr⟩ := hcons
    exact hloop

end Members

lemma readValue_printValue (v : Value) (hs : Stop s) :
    readValue (printValue v ++ s) = some (v, s) := by
  cases v with
  | scalar x =>
    have h := readScalar_printScalar x hs
    have hcons : ∃ c r, printScalar x ++ s = c :: r ∧ c ≠ 123 := by
      cases x with
      | string r => exact ⟨34, _, rfl, by decide⟩
      | integer n | real n =>
        obtain ⟨c, t, e, -, hc, -⟩ := printInt_eq_cons n.toInt
        exact ⟨c, _, by rw [printScalar, e]; rfl, hc⟩
    obtain ⟨c, r, e, hc⟩ := hcons
    show readValue (printScalar x ++ s) = _
    rw [e] at h ⊢
    rw [readValue, h]
    · rfl
    · rintro t ⟨⟩
      exact hc rfl
  | object ms =>
    have h : readMembers readScalar (printMembers printScalar ms ++ s) = some (ms, s) :=
      readMembers_printMembers (fun m _ s hs => readScalar_printScalar m.2 hs) s
    rw [printValue, cons_append, readValue, h]
    rfl

lemma readRow_printRow (r : Row) : readRow (printRow r) = some r := by
  have h : readMembers readValue (printMembers printValue r ++ []) = some (r, []) :=
    readMembers_printMembers (fun m _ s hs => readValue_printValue m.2 hs) []
  rw [append_nil] at h
  rw [printRow, readRow, h]
  rfl

/-! ## A printed row is one line -/

lemma no_lf_hexDigit : ∀ d < 16, hexDigit d ≠ 10 := by decide

lemma no_lf_escapes : ∀ p ∈ escapes, p.2 ≠ 10 := by simp [escapes]

lemma no_lf_escape : 10 ∉ escape c := by
  rw [escape]
  cases h : escapes.lookup c with
  | some e => simp [(no_lf_escapes _ (mem_of_lookup h)).symm]
  | none =>
    have hne : c ≠ 10 := by
      rintro rfl
      cases h
    have hlt := c.toNat_lt
    by_cases hc : c.toNat < 32
    · simp [if_pos hc, (no_lf_hexDigit (c.toNat / 16) (by omega)).symm,
        (no_lf_hexDigit (c.toNat % 16) (by omega)).symm]
    · simp [if_neg hc, hne.symm]

lemma no_lf_printString (s : List UInt8) : 10 ∉ printString s := by
  simp [printString, no_lf_escape]

lemma no_lf_decimal (n : Nat) : 10 ∉ decimal n := by
  intro h
  cases isDigit_of_mem_decimal h

lemma no_lf_printInt (i : Int) : 10 ∉ printInt i := by
  cases i with
  | ofNat n => exact no_lf_decimal n
  | negSucc n => simp [printInt, no_lf_decimal]

lemma no_lf_printScalar (x : Scalar) : 10 ∉ printScalar x := by
  cases x with
  | string s => exact no_lf_printString s
  | integer n => exact no_lf_printInt n.toInt
  | real d => simp [printScalar, no_lf_printInt]

section Members

variable {α : Type} {printV : α → List UInt8}

lemma no_lf_printMembers (h : ∀ v, 10 ∉ printV v) (ms : List (List UInt8 × α)) :
    10 ∉ printMembers printV ms := by
  induction ms with
  | nil => simp [printMembers]
  | cons m ms ih =>
    cases ms with
    | nil => simp [printMembers, no_lf_printString, h]
    | cons m' ms =>
      rw [printMembers]
      simp [no_lf_printString, h, ih]

/-- An object ends with its closing brace. -/
lemma getLast_printMembers (ms : List (List UInt8 × α)) :
    ∃ t, printMembers printV ms = t ++ [125] := by
  induction ms with
  | nil => exact ⟨[], rfl⟩
  | cons m ms ih =>
    cases ms with
    | nil => exact ⟨printString m.1 ++ 58 :: printV m.2, by simp [printMembers]⟩
    | cons m' ms =>
      obtain ⟨t, e⟩ := ih
      refine ⟨printString m.1 ++ 58 :: (printV m.2 ++ 44 :: t), ?_⟩
      rw [printMembers, e]
      simp

end Members

lemma no_lf_printValue (v : Value) : 10 ∉ printValue v := by
  cases v with
  | scalar x => exact no_lf_printScalar x
  | object ms => simp [printValue, no_lf_printMembers no_lf_printScalar]

/-- The library that prints without blanks. -/
def compact : Codec where
  dumps r := if r.valid then some (printRow r) else none
  loadb := readRow
  loadb_dumps r _ hv := by
    obtain ⟨t, ht⟩ : ∃ t, printMembers printValue r = t ++ [125] := getLast_printMembers r
    refine ⟨printRow r, if_pos hv, readRow_printRow r, ?_, rfl, ?_⟩
    · simp [printRow, no_lf_printMembers no_lf_printValue]
    · rw [printRow, ht, ← cons_append, List.getLast?_concat]
  dumps_invalid r hv := by rw [hv]; rfl

/-! ## Trees -/

/-- A JSON value. -/
inductive Tree where
  | null
  | bool (b : Bool)
  | integer (n : BitVec 64)
  | real (d : BitVec 64)
  | string (s : List UInt8)
  | array (items : List Tree)
  | object (members : List (List UInt8 × Tree))

/-- `json_object_get`: what is not an object has no members. -/
def Tree.get (t : Tree) (key : List UInt8) : Option Tree :=
  match t with
  | .object members => members.lookup key
  | _ => none

end Json
