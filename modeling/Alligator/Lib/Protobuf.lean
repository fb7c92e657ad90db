import Mathlib.Data.Nat.Bitwise
import Mathlib.Tactic.Ring

/-!
# Protocol buffers

The wire format: a message is a list of fields, and a field is a tag and a value.  The tag
holds the number of the field and the kind of the value.

`foldFields` is the loop of a reader: it folds a step over the fields of a text of bytes, and
fails with the first field that cannot be read.  `readFields` is for a reader that goes as far
as it can: the fields up to there, and whether this was the end.

A list of fields can be written in many ways, since a varint may have more bytes than it
needs; `Encodes` is any of them, and a reader sees the fields that were written
(`foldFields_encodes`, `readFields_encodes`).  `encode` writes each varint as short as it can be
(`encodes_encode`).
-/

namespace Protobuf

open List

/-- A value on the wire, one for each kind. -/
inductive Value where
  | varint (n : Nat)
  | fixed64 (bits : BitVec 64)
  | len (bytes : List UInt8)
  | fixed32 (bytes : List UInt8)
deriving DecidableEq

/-- A field: its number and its value. -/
structure Field where
  num : Nat
  value : Value
deriving DecidableEq

variable {n : Nat} {s : List UInt8} {fs : List Field}

/-! ## Reading -/

/-- The loop over the groups of seven bits, of which ten have room. -/
def readVarintFrom (shift v : Nat) : List UInt8 → Option (Nat × List UInt8)
  | [] => none
  | b :: s =>
    if shift < 64 then
      let v := v ||| (b.toNat % 128) <<< shift % 2 ^ 64
      if b.toNat < 128 then some (v, s) else readVarintFrom (shift + 7) v s
    else none

/-- Read a varint: the number and what comes after it. -/
def readVarint (s : List UInt8) : Option (Nat × List UInt8) := readVarintFrom 0 0 s

/-- The number whose bytes, the lowest first, are given. -/
def littleEndian : List UInt8 → Nat
  | [] => 0
  | b :: s => b.toNat + 256 * littleEndian s

/-- Read eight bytes. -/
def readFixed64 (s : List UInt8) : Option (BitVec 64 × List UInt8) :=
  if s.length < 8 then none else some (BitVec.ofNat 64 (littleEndian (s.take 8)), s.drop 8)

/-- Read a length and as many bytes. -/
def readLen (s : List UInt8) : Option (List UInt8 × List UInt8) := do
  let (l, s) ← readVarint s
  if s.length < l then none else some (s.take l, s.drop l)

/-- Read a tag: a number of a field, which is not zero, and the kind of the value. -/
def readTag (s : List UInt8) : Option ((Nat × Nat) × List UInt8) := do
  let (tag, s) ← readVarint s
  if tag / 8 % 2 ^ 32 = 0 then none else some ((tag / 8 % 2 ^ 32, tag % 8), s)

/-- Read a value of the kind that the tag has named. -/
def readValue (wire : Nat) (s : List UInt8) : Option (Value × List UInt8) :=
  match wire with
  | 0 => (readVarint s).map fun r => (.varint r.1, r.2)
  | 1 => (readFixed64 s).map fun r => (.fixed64 r.1, r.2)
  | 2 => (readLen s).map fun r => (.len r.1, r.2)
  | 5 => if s.length < 4 then none else some (.fixed32 (s.take 4), s.drop 4)
  | _ => none

/-- Read a tag and its value. -/
def readField (s : List UInt8) : Option (Field × List UInt8) := do
  let (tag, s) ← readTag s
  let (value, s) ← readValue tag.2 s
  return (⟨tag.1, value⟩, s)

/-- The loop over the fields, of which there are no more than bytes. -/
def foldFieldsFrom {σ : Type} (step : σ → Field → Option σ) : Nat → σ → List UInt8 → Option σ
  | _, st, [] => some st
  | 0, _, _ :: _ => none
  | fuel + 1, st, s => do
    let (f, rest) ← readField s
    foldFieldsFrom step fuel (← step st f) rest

/-- Fold a step over the fields of a message. -/
def foldFields {σ : Type} (step : σ → Field → Option σ) (st : σ) (s : List UInt8) : Option σ :=
  foldFieldsFrom step s.length st s

/-- Read a field whose number may be zero. -/
def readAnyField (s : List UInt8) : Option (Field × List UInt8) := do
  let (tag, s) ← readVarint s
  let (value, s) ← readValue (tag % 8) s
  return (⟨tag / 8 % 2 ^ 32, value⟩, s)

/-- The loop that reads fields, of which there are no more than bytes. -/
def readFieldsFrom : Nat → List UInt8 → List Field × Bool
  | _, [] => ([], true)
  | 0, _ :: _ => ([], false)
  | fuel + 1, s =>
    match readAnyField s with
    | none => ([], false)
    | some (f, rest) =>
      let r := readFieldsFrom fuel rest
      (f :: r.1, r.2)

/-- The fields of a message up to the first that cannot be read, and whether there is none. -/
def readFields (s : List UInt8) : List Field × Bool := readFieldsFrom s.length s

/-! ## Writing -/

/-- The loop that writes a varint into a buffer with room for some bytes. -/
def writeVarintFrom : Nat → Nat → List UInt8
  | 0, _ => []
  | room + 1, n =>
    if n / 128 = 0 then [UInt8.ofNat (n % 128)]
    else UInt8.ofNat (n % 128 + 128) :: writeVarintFrom room (n / 128)

/-- Write a number of 64 bits as a varint. -/
def writeVarint (n : Nat) : List UInt8 := writeVarintFrom 10 (n % 2 ^ 64)

/-- Write some bytes of a number, the lowest first. -/
def writeLittleEndian : Nat → Nat → List UInt8
  | 0, _ => []
  | k + 1, n => UInt8.ofNat (n % 256) :: writeLittleEndian k (n / 256)

/-- Write eight bytes. -/
def writeFixed64 (bits : BitVec 64) : List UInt8 := writeLittleEndian 8 bits.toNat

/-- The kind of a value in its tag. -/
def Value.wire : Value → Nat
  | .varint _ => 0
  | .fixed64 _ => 1
  | .len _ => 2
  | .fixed32 _ => 5

/-- Write a value without its tag. -/
def writeValue : Value → List UInt8
  | .varint n => writeVarint n
  | .fixed64 bits => writeFixed64 bits
  | .len bytes => writeVarint bytes.length ++ bytes
  | .fixed32 bytes => bytes

/-- Write a tag and its value. -/
def writeField (f : Field) : List UInt8 :=
  writeVarint (8 * f.num + f.value.wire) ++ writeValue f.value

/-- Write a message. -/
def encode (fs : List Field) : List UInt8 := fs.flatMap writeField

/-! ## Bytes of a message -/

/-- The bytes of a varint, of any length. -/
inductive IsVarint : Nat → List UInt8 → Prop
  | last {b : UInt8} : b.toNat < 128 → IsVarint b.toNat [b]
  | more {b : UInt8} {n : Nat} {s : List UInt8} :
      128 ≤ b.toNat → IsVarint n s → IsVarint (b.toNat % 128 + 128 * n) (b :: s)

/-- The bytes of a varint that a reader accepts. -/
structure Varint (n : Nat) (s : List UInt8) : Prop where
  groups : IsVarint n s
  length : s.length ≤ 10
  bound : n < 2 ^ 64

/-- The bytes of a value, with its kind. -/
inductive WireValue : Value → Nat → List UInt8 → Prop
  | varint {n : Nat} {s : List UInt8} : Varint n s → WireValue (.varint n) 0 s
  | fixed64 {s : List UInt8} : s.length = 8 →
      WireValue (.fixed64 (BitVec.ofNat 64 (littleEndian s))) 1 s
  | len {s bytes : List UInt8} : Varint bytes.length s → WireValue (.len bytes) 2 (s ++ bytes)
  | fixed32 {s : List UInt8} : s.length = 4 → WireValue (.fixed32 s) 5 s

/-- The bytes of a message, with varints of any length. -/
inductive Encodes : List Field → List UInt8 → Prop
  | nil : Encodes [] []
  | cons {f : Field} {fs : List Field} {wire : Nat} {tag s rest : List UInt8} :
      0 < f.num → f.num < 2 ^ 29 → Varint (8 * f.num + wire) tag → WireValue f.value wire s →
      Encodes fs rest → Encodes (f :: fs) (tag ++ (s ++ rest))

/-! ## Reading what was written -/

lemma or_shiftLeft {v a k : Nat} (hv : v < 2 ^ k) : v ||| a <<< k = v + a * 2 ^ k := by
  rw [Nat.or_comm, ← Nat.shiftLeft_add_eq_or_of_lt hv, Nat.shiftLeft_eq, add_comm]

/-- The loop over the groups of a varint. -/
lemma readVarintFrom_eq (h : IsVarint n s) (t : List UInt8) {k v : Nat} (hv : v < 2 ^ (7 * k))
    (hlen : k + s.length ≤ 10) (hbound : v + n * 2 ^ (7 * k) < 2 ^ 64) :
    readVarintFrom (7 * k) v (s ++ t) = some (v + n * 2 ^ (7 * k), t) := by
  induction h generalizing k v with
  | @last b hb =>
    rw [length_singleton] at hlen
    rw [singleton_append, readVarintFrom, if_pos (by omega)]
    have hmod : b.toNat % 128 = b.toNat := Nat.mod_eq_of_lt hb
    have hshift : b.toNat <<< (7 * k) % 2 ^ 64 = b.toNat <<< (7 * k) := by
      exact Nat.mod_eq_of_lt (by omega)
    rw [if_pos hb, hmod, hshift, or_shiftLeft hv]
  | @more b n s hb _ ih =>
    rw [length_cons] at hlen
    have hpow : 2 ^ (7 * (k + 1)) = 128 * 2 ^ (7 * k) := by
      ring
    have hsum : v + (b.toNat % 128 + 128 * n) * 2 ^ (7 * k) =
        v + b.toNat % 128 * 2 ^ (7 * k) + n * 2 ^ (7 * (k + 1)) := by
      ring
    have hgroup : b.toNat % 128 < 128 := Nat.mod_lt _ (by decide)
    have hv' : v + b.toNat % 128 * 2 ^ (7 * k) < 2 ^ (7 * (k + 1)) := by
      have : b.toNat % 128 * 2 ^ (7 * k) ≤ 127 * 2 ^ (7 * k) := Nat.mul_le_mul_right _ (by omega)
      omega
    have hshift : (b.toNat % 128) <<< (7 * k) % 2 ^ 64 = (b.toNat % 128) <<< (7 * k) := by
      exact Nat.mod_eq_of_lt (by omega)
    rw [cons_append, readVarintFrom, if_pos (by omega)]
    rw [if_neg (by omega), hshift, or_shiftLeft hv, hsum]
    exact ih hv' (by omega) (by omega)

lemma Varint.read (h : Varint n s) (t : List UInt8) : readVarint (s ++ t) = some (n, t) := by
  have hread := readVarintFrom_eq h.groups t (k := 0) (v := 0) (by decide)
    (by have := h.length; omega) (by have := h.bound; omega)
  rw [readVarint]
  simpa using hread

lemma Varint.ne_nil (h : Varint n s) : s ≠ [] := by
  obtain ⟨hgroups, -, -⟩ := h
  cases hgroups <;> simp

variable {wire : Nat} {v : Value} {bytes : List UInt8}

lemma WireValue.kind (h : WireValue v wire s) : wire < 8 := by
  cases h <;> decide

lemma WireValue.read (h : WireValue v wire s) (t : List UInt8) :
    readValue wire (s ++ t) = some (v, t) := by
  cases h with
  | varint h =>
    rw [readValue, h.read t]
    rfl
  | fixed64 h =>
    rw [readValue, readFixed64, if_neg (by rw [length_append]; omega), ← h, take_left, drop_left]
    rfl
  | @len s bytes h =>
    rw [readValue, readLen, append_assoc, h.read (bytes ++ t)]
    simp
  | fixed32 h =>
    rw [readValue, if_neg (by rw [length_append]; omega), ← h, take_left, drop_left]

lemma tag_fields {num : Nat} (hlt : num < 2 ^ 29) (hwire : wire < 8) :
    (8 * num + wire) / 8 % 2 ^ 32 = num ∧ (8 * num + wire) % 8 = wire := by
  omega

lemma readAnyField_encodes {f : Field} {tag : List UInt8} (hlt : f.num < 2 ^ 29)
    (htag : Varint (8 * f.num + wire) tag) (hs : WireValue f.value wire s) (rest : List UInt8) :
    readAnyField (tag ++ (s ++ rest)) = some (f, rest) := by
  obtain ⟨hnum, hkind⟩ := tag_fields hlt hs.kind
  rw [readAnyField, htag.read]
  simp only [Option.bind_eq_bind, Option.bind_some, hnum, hkind, hs.read]
  rfl

lemma readFieldsFrom_encodes (h : Encodes fs s) (fuel) (hfuel : s.length ≤ fuel) :
    readFieldsFrom fuel s = (fs, true) := by
  induction h generalizing fuel with
  | nil =>
    rw [readFieldsFrom]
  | @cons f fs wire tag s rest _ hlt htag hs _ ih =>
    have hread := readAnyField_encodes hlt htag hs rest
    have htagLen := length_pos_iff.mpr htag.ne_nil
    simp only [length_append] at hfuel
    obtain ⟨fuel, rfl⟩ : ∃ n, fuel = n + 1 := ⟨fuel - 1, by omega⟩
    rw [readFieldsFrom, hread]
    · simp only [ih fuel (by omega)]
    · intro hnil
      exact htag.ne_nil (append_eq_nil_iff.mp hnil).1

/-- So does a reader that goes as far as it can. -/
lemma readFields_encodes (h : Encodes fs s) : readFields s = (fs, true) :=
  readFieldsFrom_encodes h s.length (le_refl _)

/-! ## Writing what can be read -/

lemma isVarint_writeVarintFrom {room : Nat} {n : Nat} (hn : n < 2 ^ (7 * (room + 1))) :
    IsVarint n (writeVarintFrom (room + 1) n) ∧ (writeVarintFrom (room + 1) n).length ≤ room + 1 :=
      by
  induction room generalizing n with
  | zero =>
    have hbyte : (UInt8.ofNat (n % 128)).toNat = n := by
      rw [UInt8.toNat_ofNat']
      omega
    rw [writeVarintFrom, if_pos (by omega)]
    refine ⟨?_, le_refl _⟩
    have hlast := @IsVarint.last (UInt8.ofNat (n % 128)) (by omega)
    rwa [hbyte] at hlast
  | succ room ih =>
    rw [writeVarintFrom]
    split
    · have hbyte : (UInt8.ofNat (n % 128)).toNat = n := by
        rw [UInt8.toNat_ofNat']
        omega
      have hlast := @IsVarint.last (UInt8.ofNat (n % 128)) (by omega)
      rw [hbyte] at hlast
      exact ⟨hlast, by simp⟩
    · have hpow : 2 ^ (7 * (room + 1 + 1)) = 128 * 2 ^ (7 * (room + 1)) := by
        ring
      obtain ⟨hrest, hlen⟩ := @ih (n / 128) (by omega)
      have hbyte : (UInt8.ofNat (n % 128 + 128)).toNat = n % 128 + 128 := by
        rw [UInt8.toNat_ofNat']
        omega
      have hmore := @IsVarint.more (UInt8.ofNat (n % 128 + 128)) (n / 128) _ (by omega) hrest
      rw [hbyte, show (n % 128 + 128) % 128 + 128 * (n / 128) = n by omega] at hmore
      refine ⟨hmore, ?_⟩
      rw [length_cons]
      omega

lemma varint_writeVarint (h : n < 2 ^ 64) : Varint n (writeVarint n) := by
  obtain ⟨hgroups, hlen⟩ := @isVarint_writeVarintFrom 9 n (h.trans (by decide))
  rw [writeVarint, Nat.mod_eq_of_lt h]
  exact ⟨hgroups, hlen, h⟩

lemma length_writeVarint (n : Nat) : (writeVarint n).length ≤ 10 := by
  have hlt : n % 2 ^ 64 < 2 ^ 64 := Nat.mod_lt _ (by decide)
  exact (@isVarint_writeVarintFrom 9 _ (hlt.trans (by decide))).2

lemma littleEndian_write (k : Nat) {n : Nat} (hn : n < 256 ^ k) :
    littleEndian (writeLittleEndian k n) = n ∧ (writeLittleEndian k n).length = k := by
  induction k generalizing n with
  | zero =>
    exact ⟨by rw [writeLittleEndian, littleEndian]; omega, rfl⟩
  | succ k ih =>
    obtain ⟨hvalue, hlen⟩ := @ih (n / 256) (by omega)
    rw [writeLittleEndian, littleEndian, length_cons, hlen, UInt8.toNat_ofNat']
    omega

lemma wireValue_fixed64 (bits : BitVec 64) : WireValue (.fixed64 bits) 1 (writeFixed64 bits) := by
  obtain ⟨hvalue, hlen⟩ := @littleEndian_write 8 bits.toNat bits.isLt
  have h := WireValue.fixed64 hlen
  rwa [hvalue, BitVec.ofNat_toNat] at h

/-- The value can be written. -/
def Value.Fits : Value → Prop
  | .varint n => n < 2 ^ 64
  | .fixed64 _ => True
  | .len bytes => bytes.length < 2 ^ 64
  | .fixed32 bytes => bytes.length = 4

/-- The number and the value of the field can be written. -/
structure Field.Fits (f : Field) : Prop where
  pos : 0 < f.num
  bound : f.num < 2 ^ 29
  value : f.value.Fits

variable {num : Nat}

section

variable (hnum : 0 < num ∧ num < 2 ^ 29)
include hnum

lemma Field.fits_len
    (h : bytes.length < 2 ^ 64) : Field.Fits ⟨num, .len bytes⟩ := ⟨hnum.1, hnum.2, h⟩

lemma Field.fits_fixed64 (bits : BitVec 64) :
    Field.Fits ⟨num, .fixed64 bits⟩ := ⟨hnum.1, hnum.2, trivial⟩

lemma Field.fits_varint (h : n < 2 ^ 64) : Field.Fits ⟨num, .varint n⟩:= ⟨hnum.1, hnum.2, h⟩

end

lemma wireValue_writeValue (h : v.Fits) : WireValue v v.wire (writeValue v) := by
  cases v with
  | varint n => exact .varint (varint_writeVarint h)
  | fixed64 bits => exact wireValue_fixed64 bits
  | len bytes => exact .len (varint_writeVarint h)
  | fixed32 bytes => exact .fixed32 h

/-- A message is written as its fields. -/
lemma encodes_encode (h : ∀ f ∈ fs, f.Fits) : Encodes fs (encode fs) := by
  induction fs with
  | nil => exact .nil
  | cons f fs ih =>
    obtain ⟨hpos, hlt, hvalue⟩ := h f mem_cons_self
    have hwire : f.value.wire < 8 := (wireValue_writeValue hvalue).kind
    rw [encode, flatMap_cons, writeField, append_assoc]
    exact .cons hpos hlt (varint_writeVarint (by omega)) (wireValue_writeValue hvalue)
      (ih (forall_mem_cons.1 h).2)

/-- What was written is read. -/
lemma readFields_encode (h : ∀ f ∈ fs, f.Fits) : readFields (encode fs) = (fs, true) :=
  readFields_encodes (encodes_encode h)

/-- The bytes of a value that are not a varint. -/
def Value.payload : Value → Nat
  | .varint _ => 0
  | .fixed64 _ => 8
  | .len bytes => bytes.length
  | .fixed32 bytes => bytes.length

lemma length_writeField (f : Field) : (writeField f).length ≤ 20 + f.value.payload := by
  have htag := length_writeVarint (8 * f.num + f.value.wire)
  rw [writeField, length_append]
  cases hv : f.value with
  | varint n =>
    have hn := length_writeVarint n
    rw [hv] at htag
    simp only [writeValue]
    omega
  | fixed64 bits =>
    have hbits := (@littleEndian_write 8 bits.toNat bits.isLt).2
    rw [hv] at htag
    simp only [writeValue, writeFixed64]
    omega
  | len bytes =>
    have hlen := length_writeVarint bytes.length
    rw [hv] at htag
    simp only [writeValue, length_append, Value.payload]
    omega
  | fixed32 bytes =>
    rw [hv] at htag
    simp only [writeValue, Value.payload]
    omega

/-- A message is not much longer than what is in its fields. -/
lemma length_encode (fs : List Field) :
    (encode fs).length ≤ (fs.map fun f => 20 + f.value.payload).sum := by
  induction fs with
  | nil => exact le_refl 0
  | cons f fs ih =>
    have hf := length_writeField f
    rw [encode, flatMap_cons, length_append, map_cons]
    exact Nat.add_le_add hf ih

lemma encode_append (fs gs : List Field) : encode (fs ++ gs) = encode fs ++ encode gs :=
  flatMap_append

end Protobuf
