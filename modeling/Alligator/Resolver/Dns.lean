import Alligator.Metric.Labels
import Alligator.Lib.BigEndian

/-!
# DNS messages

`dns_pack` writes a header and four sections of records one after another, and
`dns_unpack` reads them back.  A name is written as its labels, each behind its
length, and ends with an empty one.  When a name is read, a length with both high
bits set is a jump to an earlier place of the message.

The two sides decide differently whether a record has a time to live and data.
The packer writes them when there is data.  The unpacker expects them in every
section but the first.  So a record without data is written six bytes too short.
Messages without such records are read back as they were (`dnsUnpack_dnsPack`), and
a message that ends with one is refused (`dnsUnpack_short`).
-/

variable {labels : List Str}

namespace Alligator

open List Option BigEndian

variable {msg : Str} {p len : Nat}

/-! ## The message -/

/-- `dnshdr_t`.  The bit fields are kept as the two bytes they fill. -/
structure DnsHdr where
  transactionId : UInt16
  bitsLow : UInt8
  bitsHigh : UInt8
  nquestion : UInt16
  nanswer : UInt16
  nauthority : UInt16
  naddtional : UInt16
deriving DecidableEq

/-- `dns_rr_t`, with the bytes that `data` points to. -/
structure DnsRr where
  name : Str
  rtype : UInt16
  rclass : UInt16
  ttl : UInt32
  datalen : UInt16
  data : Option Str
deriving DecidableEq

/-- `dns_t` -/
structure Dns where
  hdr : DnsHdr
  questions : List DnsRr
  answers : List DnsRr
  authorities : List DnsRr
  addtionals : List DnsRr
deriving DecidableEq

variable {rr : DnsRr} {rrs : List DnsRr} {dns : Dns}

/-- `htons`, as the bytes in memory. -/
def htons (n : UInt16) : Str := BigEndian.ofNat 2 n.toNat

/-- `htonl`, as the bytes in memory. -/
def htonl (n : UInt32) : Str := BigEndian.ofNat 4 n.toNat

/-- `ntohs` of two bytes in memory. -/
def ntohs (bytes : Str) : UInt16 := UInt16.ofNat (BigEndian.toNat bytes)

/-- `ntohl` of four bytes in memory. -/
def ntohl (bytes : Str) : UInt32 := UInt32.ofNat (BigEndian.toNat bytes)

/-! ## Packing -/

/-- The loop of `dns_name_encode`, with the bytes of the label it is in.  The place
for the length is in front of the label, and is filled at its end. -/
def dnsNameEncodeLoop : Str → Str → Str
  | label, [] => UInt8.ofNat label.length :: label ++ if label.length ≠ 0 then [0] else []
  | label, c :: p =>
    if c ≠ 46 then dnsNameEncodeLoop (label ++ [c]) p
    else UInt8.ofNat label.length :: label ++ dnsNameEncodeLoop [] p

def dnsNameEncode (domain : Str) : Str := dnsNameEncodeLoop [] domain

/-- What `dns_rr_pack` writes behind the class, under `rr->datalen && rr->data`. -/
def dnsRrPackData (rr : DnsRr) : Str :=
  match rr.data with
  | none => []
  | some data =>
    if rr.datalen ≠ 0 then htonl rr.ttl ++ htons rr.datalen ++ data.take rr.datalen.toNat
    else []

/-- `dns_rr_pack`: the bytes written, or `none` for `-1`. -/
def dnsRrPack (rr : DnsRr) (len : Nat) : Option Str :=
  let encodedName := dnsNameEncode rr.name
  let packetlen :=
    encodedName.length + 2 + 2 + if rr.data.isSome then 4 + 2 + rr.datalen.toNat else 0
  if len < packetlen then none
  else some (encodedName ++ htons rr.rtype ++ htons rr.rclass ++ dnsRrPackData rr)

/-- The loop of `dns_pack` over one section. -/
def dnsPackRrs : List DnsRr → Nat → Option Str
  | [], _ => some []
  | rr :: rrs, len => do
    let packet ← dnsRrPack rr len
    let rest ← dnsPackRrs rrs (len - packet.length)
    return packet ++ rest

/-- The header as `dns_pack` copies it. -/
def dnsPackHdr (hdr : DnsHdr) : Str :=
  htons hdr.transactionId ++ [hdr.bitsLow, hdr.bitsHigh] ++ htons hdr.nquestion ++
    htons hdr.nanswer ++ htons hdr.nauthority ++ htons hdr.naddtional

/-- `dns_pack` with a buffer of `len` bytes: the bytes written, or `none` for `-1`. -/
def dnsPack (dns : Dns) (len : Nat) : Option Str :=
  if len < 12 then none
  else do
    let hdr := dnsPackHdr dns.hdr
    let questions ← dnsPackRrs (dns.questions.take dns.hdr.nquestion.toNat) (len - hdr.length)
    let out := hdr ++ questions
    let answers ← dnsPackRrs (dns.answers.take dns.hdr.nanswer.toNat) (len - out.length)
    let out := out ++ answers
    let authorities ←
      dnsPackRrs (dns.authorities.take dns.hdr.nauthority.toNat) (len - out.length)
    let out := out ++ authorities
    let addtionals ← dnsPackRrs (dns.addtionals.take dns.hdr.naddtional.toNat) (len - out.length)
    return out ++ addtionals

/-! ## Unpacking -/

/-- Why there is no message: `-1` is returned, or memory outside the buffer is
read. -/
inductive DnsFault where
  | rejected
  | wild
deriving DecidableEq

/-- The `n` bytes at the place `p`. -/
def readBytes (msg : Str) (p n : Nat) : Except DnsFault Str :=
  if p + n ≤ msg.length then .ok ((msg.drop p).take n) else .error .wild

def dnsNameMaxlen : Nat := 256

/-- The loop of `dns_name_decode_msg` over a name that starts at `start`, with what
is left of the 128 steps.  The name is what was written before the final NUL. -/
def dnsNameDecodeLoop (msg : Str) (start : Nat) :
    Nat → Nat → Str → Nat → Nat → Bool → Except DnsFault (Str × Nat)
  | 0, _, _, _, _, _ => .error .rejected
  | steps + 1, p, out, outLeft, consumed, jumped => do
    let head ← readBytes msg p 1
    let b := head.headD 0
    if b &&& 0xc0 = 0xc0 then do
      let low ← readBytes msg (p + 1) 1
      let offset := (b &&& 0x3f).toNat * 256 + (low.headD 0).toNat
      if !jumped && decide (start ≤ offset) then .error .rejected
      else
        dnsNameDecodeLoop msg start steps offset out outLeft
          (if jumped then consumed else consumed + 2) true
    else
      let len := b.toNat
      let consumed := if jumped then consumed else consumed + 1
      if len = 0 then .ok (out.dropLast, consumed)
      else if 63 < len then .error .rejected
      else if outLeft < len + 2 then .error .rejected
      else do
        let label ← readBytes msg (p + 1) len
        dnsNameDecodeLoop msg start steps (p + 1 + len) (out ++ label ++ [46])
          (outLeft - len - 1) (if jumped then consumed else consumed + len) jumped

/-- `dns_name_decode_msg`: the name at a place of the message, and how many bytes it
takes there. -/
def dnsNameDecodeMsg (msg : Str) (start : Nat) : Except DnsFault (Str × Nat) :=
  dnsNameDecodeLoop msg start 128 start [] dnsNameMaxlen 0 false

/-- `dns_rr_unpack` of the record at a place of the message, and how many bytes it
takes. -/
def dnsRrUnpack (msg : Str) (start : Nat) (isQuestion : Bool) :
    Except DnsFault (DnsRr × Nat) := do
  let len := msg.length - start
  let (name, off) ← dnsNameDecodeMsg msg start
  if len < off + 4 then .error .rejected
  else do
    let rtype ← readBytes msg (start + off) 2
    let rclass ← readBytes msg (start + off + 2) 2
    if isQuestion then return (⟨name, ntohs rtype, ntohs rclass, 0, 0, none⟩, off + 4)
    else if len < off + 4 + 6 then .error .rejected
    else do
      let ttl ← readBytes msg (start + off + 4) 4
      let datalen ← readBytes msg (start + off + 8) 2
      let datalen := ntohs datalen
      if len < off + 10 + datalen.toNat then .error .rejected
      else do
        let data ← readBytes msg (start + off + 10) datalen.toNat
        return (⟨name, ntohs rtype, ntohs rclass, ntohl ttl, datalen, some data⟩,
          off + 10 + datalen.toNat)

/-- The loop of `dns_unpack` over one section: the records and the place behind
them. -/
def dnsUnpackRrs (msg : Str) (isQuestion : Bool) :
    Nat → Nat → Except DnsFault (List DnsRr × Nat)
  | 0, off => .ok ([], off)
  | n + 1, off => do
    let (rr, packetlen) ← dnsRrUnpack msg off isQuestion
    let (rrs, off) ← dnsUnpackRrs msg isQuestion n (off + packetlen)
    return (rr :: rrs, off)

/-- The header as `dns_unpack` copies it. -/
def dnsUnpackHdr (msg : Str) : DnsHdr where
  transactionId := ntohs (msg.take 2)
  bitsLow := msg.getD 2 0
  bitsHigh := msg.getD 3 0
  nquestion := ntohs ((msg.drop 4).take 2)
  nanswer := ntohs ((msg.drop 6).take 2)
  nauthority := ntohs ((msg.drop 8).take 2)
  naddtional := ntohs ((msg.drop 10).take 2)

/-- `dns_unpack`: the message and what is returned. -/
def dnsUnpack (msg : Str) : Except DnsFault (Dns × Nat) :=
  if msg.length < 12 then .error .rejected
  else do
    let hdr := dnsUnpackHdr msg
    let (questions, off) ← dnsUnpackRrs msg true hdr.nquestion.toNat 12
    let (answers, off) ← dnsUnpackRrs msg false hdr.nanswer.toNat off
    let (authorities, off) ← dnsUnpackRrs msg false hdr.nauthority.toNat off
    let (addtionals, off) ← dnsUnpackRrs msg false hdr.naddtional.toNat off
    return (⟨hdr, questions, answers, authorities, addtionals⟩, off)

/-! ## Names -/

/-- A domain name: labels of 1 to 63 bytes that are neither dots nor NULs, and at
most 253 bytes with the dots between them. -/
structure DnsName where
  labels : List Str
  label_length : ∀ l ∈ labels, 1 ≤ l.length ∧ l.length ≤ 63
  label_bytes : ∀ l ∈ labels, 46 ∉ l ∧ 0 ∉ l
  text_length : ([46].intercalate labels).length ≤ 253

variable {n : DnsName}

def DnsName.text (n : DnsName) : Str := [46].intercalate n.labels

def wireLabels (labels : List Str) : Str := labels.flatMap fun l => UInt8.ofNat l.length :: l

def DnsName.wire (n : DnsName) : Str := wireLabels n.labels ++ [0]

variable {l a b data : Str}

lemma dnsNameEncodeLoop_label (h : 46 ∉ l) (label s : Str) :
    dnsNameEncodeLoop label (l ++ s) = dnsNameEncodeLoop (label ++ l) s := by
  induction l generalizing label with
  | nil => rw [nil_append, append_nil]
  | cons c l ih =>
    obtain ⟨hc, hl⟩ := not_or.mp (mt mem_cons.mpr h)
    rw [cons_append, dnsNameEncodeLoop, if_pos (Ne.symm hc), ih hl, append_assoc]
    rfl

lemma dnsNameEncode_labels (h : ∀ x ∈ l :: labels, 1 ≤ x.length ∧ 46 ∉ x) :
    dnsNameEncode ([46].intercalate (l :: labels)) = wireLabels (l :: labels) ++ [0] := by
  induction labels generalizing l with
  | nil =>
    obtain ⟨hlen, hl⟩ := h l mem_cons_self
    have hencode := dnsNameEncodeLoop_label hl [] []
    rw [append_nil, nil_append, dnsNameEncodeLoop, if_pos (by omega)] at hencode
    rw [intercalate_singleton, dnsNameEncode, hencode]
    simp [wireLabels]
  | cons l' labels ih =>
    rw [intercalate_cons_cons, dnsNameEncode, append_assoc,
      dnsNameEncodeLoop_label (h l mem_cons_self).2, singleton_append, dnsNameEncodeLoop]
    have hrest := ih (forall_mem_cons.1 h).2
    rw [dnsNameEncode] at hrest
    rw [hrest]
    simp [wireLabels]

lemma DnsName.encode (n : DnsName) : dnsNameEncode n.text = n.wire := by
  cases hn : n.labels with
  | nil =>
    rw [text, wire, hn]
    rfl
  | cons l labels =>
    rw [text, wire, hn]
    refine dnsNameEncode_labels fun x hx => ?_
    rw [← hn] at hx
    exact ⟨(n.label_length x hx).1, (n.label_bytes x hx).1⟩

/-! ## Reading what stands at a place -/

/-- The bytes stand in the message from the place on. -/
def BytesAt (msg : Str) (p : Nat) (bytes : Str) : Prop := bytes <+: msg.drop p

lemma BytesAt.left (h : BytesAt msg p (a ++ b)) : BytesAt msg p a :=
  (prefix_append a b).trans h

lemma BytesAt.right (h : BytesAt msg p (a ++ b)) : BytesAt msg (p + a.length) b := by
  obtain ⟨post, hpost⟩ := h
  refine ⟨post, ?_⟩
  rw [← drop_drop, ← hpost, append_assoc, drop_left]

lemma BytesAt.length_le {bytes : Str} (h : BytesAt msg p bytes) (hp : p ≤ msg.length) :
    p + bytes.length ≤ msg.length := by
  have := List.IsPrefix.length_le h
  rw [length_drop] at this
  omega

lemma BytesAt.read {bytes : Str} {n : Nat} (h : BytesAt msg p bytes) (hp : p ≤ msg.length)
    (hn : bytes.length = n) : readBytes msg p n = .ok bytes := by
  subst hn
  rw [readBytes, if_pos (h.length_le hp), ← prefix_iff_eq_take.mp h]

/-! ## Names read back -/

/-- The length of a label is not a jump. -/
lemma length_octet {n : Nat} (h : n ≤ 63) :
    ¬UInt8.ofNat n &&& 0xc0 = 0xc0 ∧ (UInt8.ofNat n).toNat = n := by
  have hall : ∀ n < 64, ¬UInt8.ofNat n &&& 0xc0 = 0xc0 ∧ (UInt8.ofNat n).toNat = n := by decide
  exact hall n (by omega)

/-- The induction is on the labels.  Every one of them takes one step and its length
and one more from what is left of the buffer. -/
lemma dnsNameDecodeLoop_labels {start : Nat} {steps outLeft : Nat}
    (out : Str) (consumed : Nat) (hl : ∀ l ∈ labels, 1 ≤ l.length ∧ l.length ≤ 63)
    (hsteps : labels.length < steps) (hleft : (labels.flatMap (· ++ [46])).length < outLeft)
    (hp : p ≤ msg.length) (hat : BytesAt msg p (wireLabels labels ++ [0])) :
    dnsNameDecodeLoop msg start steps p out outLeft consumed false =
        .ok ((out ++ labels.flatMap (· ++ [46])).dropLast,
          consumed + (wireLabels labels ++ [0]).length) := by
  induction labels generalizing steps p outLeft out consumed with
  | nil =>
    obtain ⟨steps, rfl⟩ : ∃ k, steps = k + 1 := ⟨steps - 1, by simp at hsteps; omega⟩
    have hread : readBytes msg p 1 = .ok [0] := hat.read hp rfl
    simp only [dnsNameDecodeLoop, hread, bind, Except.bind]
    simp [wireLabels]
  | cons l labels ih =>
    obtain ⟨steps, rfl⟩ : ∃ k, steps = k + 1 := ⟨steps - 1, by simp at hsteps; omega⟩
    obtain ⟨hpos, hmax⟩ := hl l mem_cons_self
    have hsplit : wireLabels (l :: labels) ++ [0] =
        [UInt8.ofNat l.length] ++ (l ++ (wireLabels labels ++ [0])) := by
      simp [wireLabels]
    rw [hsplit] at hat
    have hread : readBytes msg p 1 = .ok [UInt8.ofNat l.length] := hat.left.read hp rfl
    have hp' := hat.left.length_le hp
    have hlabel : readBytes msg (p + 1) l.length = .ok l := hat.right.left.read hp' rfl
    obtain ⟨hjump, hlen⟩ := length_octet hmax
    rw [flatMap_cons, length_append, length_append, length_singleton] at hleft
    have hrest := ih (out ++ l ++ [46]) (consumed + 1 + l.length)
      (forall_mem_cons.1 hl).2 (Nat.lt_of_succ_lt_succ hsteps)
      (show _ < outLeft - l.length - 1 by omega) (hat.right.left.length_le hp') hat.right.right
    rw [dnsNameDecodeLoop, hread]
    dsimp only [bind, Except.bind]
    rw [headD_cons, if_neg hjump, hlen, if_neg (by omega), if_neg (by omega), if_neg (by omega),
      hlabel]
    simp only [Bool.false_eq_true, if_false]
    rw [length_singleton] at hrest
    rw [hrest, hsplit, flatMap_cons]
    simp only [append_assoc, length_append, length_singleton, add_assoc]

lemma intercalate_eq_dropLast (labels : List Str) :
    (labels.flatMap (· ++ [46])).dropLast = [46].intercalate labels := by
  induction labels with
  | nil => rfl
  | cons l labels ih =>
    cases labels with
    | nil => simp
    | cons l' labels =>
      rw [intercalate_cons_cons, ← ih, flatMap_cons, dropLast_append_of_ne_nil (by simp)]

lemma length_flatMap_dots (labels : List Str) :
    (labels.flatMap (· ++ [46])).length ≤ ([46].intercalate labels).length + 1 := by
  rw [← intercalate_eq_dropLast, length_dropLast]
  omega

lemma two_mul_length_le (h : ∀ l ∈ labels, 1 ≤ l.length) :
    2 * labels.length ≤ (labels.flatMap (· ++ [46])).length := by
  induction labels with
  | nil => exact le_refl _
  | cons l labels ih =>
    have hl := h l mem_cons_self
    have hrest := ih (forall_mem_cons.1 h).2
    rw [flatMap_cons, length_append, length_append, length_cons, length_singleton]
    omega

lemma DnsName.decode (n : DnsName) (hp : p ≤ msg.length) (hat : BytesAt msg p n.wire) :
    dnsNameDecodeMsg msg p = .ok (n.text, n.wire.length) := by
  have htext := n.text_length
  have hdots := length_flatMap_dots n.labels
  have hlabels := two_mul_length_le fun l hl => (n.label_length l hl).1
  rw [dnsNameDecodeMsg, dnsNameDecodeLoop_labels [] 0 n.label_length (by omega)
    (by rw [dnsNameMaxlen]; omega) hp hat, nil_append, intercalate_eq_dropLast, zero_add]
  rfl

/-! ## Records -/

lemma ntohs_htons (n : UInt16) : ntohs (htons n) = n := by
  rw [ntohs, htons, toNat_ofNat n.toNat_lt, UInt16.ofNat_toNat]

lemma ntohl_htonl (n : UInt32) : ntohl (htonl n) = n := by
  rw [ntohl, htonl, toNat_ofNat n.toNat_lt, UInt32.ofNat_toNat]

@[simp] lemma length_htons (n : UInt16) : (htons n).length = 2 := length_ofNat 2 _

@[simp] lemma length_htonl (n : UInt32) : (htonl n).length = 4 := length_ofNat 4 _

def DnsRr.bytes (rr : DnsRr) : Str := rr.data.getD []

/-- A record of a message: it has a name, and as many bytes of data as it says. -/
structure DnsRr.WellFormed (rr : DnsRr) : Prop where
  name : ∃ n : DnsName, rr.name = n.text
  datalen : rr.bytes.length = rr.datalen.toNat

/-- A question of a message: a record with neither a time to live nor data. -/
structure DnsRr.IsQuestion (rr : DnsRr) : Prop extends rr.WellFormed where
  ttl : rr.ttl = 0
  data : rr.data = none

/-- The part of a record that the packer always writes. -/
def DnsName.start (n : DnsName) (rr : DnsRr) : Str := n.wire ++ (htons rr.rtype ++ htons rr.rclass)

lemma DnsRr.WellFormed.datalen_pos (h : rr.WellFormed) (hpos : rr.datalen ≠ 0) :
    ∃ data, rr.data = some data ∧ data.length = rr.datalen.toNat := by
  have hlen := h.datalen
  cases hdata : rr.data with
  | none =>
    rw [bytes, hdata] at hlen
    exact absurd (UInt16.toNat_inj.mp hlen.symm) hpos
  | some data =>
    rw [bytes, hdata] at hlen
    exact ⟨data, rfl, hlen⟩

lemma dnsRrPack_eq {packet : Str} (hname : rr.name = n.text) (h : dnsRrPack rr len = some packet) :
    packet = n.start rr ++ dnsRrPackData rr := by
  obtain ⟨-, h⟩ := ite_none_left_eq_some.mp h
  rw [← some.inj h, hname, n.encode, DnsName.start, append_assoc n.wire]

lemma dnsRrPackData_full (hdata : rr.data = some data)
    (hlen : data.length = rr.datalen.toNat) (hpos : rr.datalen ≠ 0) :
    dnsRrPackData rr = htonl rr.ttl ++ (htons rr.datalen ++ data) := by
  simp only [dnsRrPackData, hdata]
  rw [if_pos hpos, ← hlen, take_length, append_assoc]

lemma dnsRrPackData_none (hdata : rr.data = none) : dnsRrPackData rr = [] := by
  simp only [dnsRrPackData, hdata]

lemma dnsRrPackData_zero (hzero : rr.datalen = 0) : dnsRrPackData rr = [] := by
  rw [dnsRrPackData]
  split
  · rfl
  · exact if_neg (not_not_intro hzero)

lemma DnsName.length_start (n : DnsName) (rr : DnsRr) :
    (n.start rr).length = n.wire.length + 4 := by
  rw [start, length_append, length_append, length_htons, length_htons]

lemma DnsName.read_start (n : DnsName) (hp : p ≤ msg.length) (hat : BytesAt msg p (n.start rr)) :
    dnsNameDecodeMsg msg p = .ok (n.text, n.wire.length) ∧
      readBytes msg (p + n.wire.length) 2 = .ok (htons rr.rtype) ∧
      readBytes msg (p + n.wire.length + 2) 2 = .ok (htons rr.rclass) := by
  have hp1 := hat.left.length_le hp
  have hp2 := hat.right.left.length_le hp1
  have hclass := hat.right.right.read hp2 (length_htons rr.rclass)
  exact ⟨n.decode hp hat.left, hat.right.left.read hp1 (length_htons rr.rtype), hclass⟩

lemma dnsRrUnpack_question (hp : p ≤ msg.length) (hat : BytesAt msg p (n.start rr)) :
    dnsRrUnpack msg p true =
      .ok (⟨n.text, rr.rtype, rr.rclass, 0, 0, none⟩, (n.start rr).length) := by
  obtain ⟨hname, htype, hclass⟩ := n.read_start hp hat
  have hle := hat.length_le hp
  rw [n.length_start] at hle
  rw [dnsRrUnpack, hname]
  dsimp only [bind, Except.bind]
  rw [if_neg (by omega), htype]
  rw [hclass]
  dsimp only [pure, Except.pure]
  rw [if_pos rfl, ntohs_htons, ntohs_htons, n.length_start]

lemma dnsRrUnpack_full (hp : p ≤ msg.length) (hlen : data.length = rr.datalen.toNat)
    (hat : BytesAt msg p (n.start rr ++ (htonl rr.ttl ++ (htons rr.datalen ++ data)))) :
    dnsRrUnpack msg p false = .ok (⟨n.text, rr.rtype, rr.rclass, rr.ttl, rr.datalen, some data⟩,
        (n.start rr ++ (htonl rr.ttl ++ (htons rr.datalen ++ data))).length) := by
  obtain ⟨hname, htype, hclass⟩ := n.read_start hp hat.left
  have hle := hat.length_le hp
  have hp1 := hat.left.length_le hp
  have hp2 := hat.right.left.length_le hp1
  have hp3 := hat.right.right.left.length_le hp2
  have httl := hat.right.left.read hp1 (length_htonl rr.ttl)
  have hdatalen := hat.right.right.left.read hp2 (length_htons rr.datalen)
  have hdata := hat.right.right.right.read hp3 hlen
  rw [n.length_start, length_htonl] at hdatalen
  rw [n.length_start] at httl
  rw [n.length_start, length_htonl, length_htons] at hdata
  simp only [length_append, n.length_start, length_htonl, length_htons, hlen] at hle ⊢
  rw [dnsRrUnpack, hname]
  dsimp only [bind, Except.bind]
  rw [if_neg (by omega), htype]
  rw [hclass]
  dsimp only
  rw [if_neg Bool.false_ne_true, if_neg (by omega), add_assoc p, httl]
  rw [add_assoc p, show n.wire.length + 8 = n.wire.length + 4 + 4 from rfl, ← add_assoc p, hdatalen]
  dsimp only
  rw [ntohs_htons, if_neg (by omega), add_assoc p,
    show n.wire.length + 10 = n.wire.length + 4 + 4 + 2 from rfl, ← add_assoc p,
    ← add_assoc p, hdata]
  dsimp only [pure, Except.pure]
  rw [ntohs_htons, ntohs_htons, ntohl_htonl]
  simp only [add_assoc]

/-- A record that ends behind its class is refused at the end of the message. -/
lemma dnsRrUnpack_short (hp : p ≤ msg.length) (hat : BytesAt msg p (n.start rr))
    (hend : msg.length < p + (n.start rr).length + 6) :
    dnsRrUnpack msg p false = .error .rejected := by
  obtain ⟨hname, htype, hclass⟩ := n.read_start hp hat
  have hle := hat.length_le hp
  rw [n.length_start] at hle hend
  rw [dnsRrUnpack, hname]
  dsimp only [bind, Except.bind]
  rw [if_neg (by omega), htype]
  rw [hclass]
  dsimp only
  rw [if_neg Bool.false_ne_true, if_pos (by omega)]

/-! ## Sections -/

/-- Wherever the record was packed, it is unpacked as it was. -/
def DnsRr.ReadsBack (isQuestion : Bool) (rr : DnsRr) : Prop :=
  ∀ (msg packet : Str) (p len : Nat), dnsRrPack rr len = some packet → p ≤ msg.length →
    BytesAt msg p packet → dnsRrUnpack msg p isQuestion = .ok (rr, packet.length)

lemma DnsRr.IsQuestion.readsBack (h : rr.IsQuestion) : rr.ReadsBack true := by
  intro msg packet p len hpack hp hat
  obtain ⟨n, hname⟩ := h.name
  have hzero : rr.datalen = 0 := by
    have hlen := h.datalen
    rw [bytes, h.data] at hlen
    exact UInt16.toNat_inj.mp hlen.symm
  rw [dnsRrPack_eq hname hpack, dnsRrPackData_none h.data, append_nil] at hat ⊢
  rw [dnsRrUnpack_question hp hat, ← hname, ← h.ttl, ← hzero, ← h.data]

lemma DnsRr.WellFormed.readsBack (h : rr.WellFormed) (hpos : rr.datalen ≠ 0) :
    rr.ReadsBack false := by
  intro msg packet p len hpack hp hat
  obtain ⟨n, hname⟩ := h.name
  obtain ⟨data, hdata, hlen⟩ := h.datalen_pos hpos
  rw [dnsRrPack_eq hname hpack, dnsRrPackData_full hdata hlen hpos] at hat ⊢
  rw [dnsRrUnpack_full hp hlen hat, ← hname, ← hdata]

lemma dnsPackRrs_cons {bytes : Str} (h : dnsPackRrs (rr :: rrs) len = some bytes) :
    ∃ packet rest, dnsRrPack rr len = some packet ∧
      dnsPackRrs rrs (len - packet.length) = some rest ∧ bytes = packet ++ rest := by
  obtain ⟨packet, hpacket, h⟩ := bind_eq_some_iff.mp h
  obtain ⟨rest, hrest, h⟩ := bind_eq_some_iff.mp h
  exact ⟨packet, rest, hpacket, hrest, (some.inj h).symm⟩

lemma dnsUnpackRrs_pack {isQuestion : Bool} {bytes : Str}
    (hrrs : ∀ rr ∈ rrs, rr.ReadsBack isQuestion) (hpack : dnsPackRrs rrs len = some bytes)
    (hp : p ≤ msg.length) (hat : BytesAt msg p bytes) :
    dnsUnpackRrs msg isQuestion rrs.length p = .ok (rrs, p + bytes.length) := by
  induction rrs generalizing bytes p len with
  | nil =>
    cases hpack
    rfl
  | cons rr rrs ih =>
    obtain ⟨packet, rest, hpacket, hrest, rfl⟩ := dnsPackRrs_cons hpack
    have hone := hrrs rr mem_cons_self msg packet p len hpacket hp hat.left
    have hall := ih (forall_mem_cons.1 hrrs).2 hrest
      (hat.left.length_le hp) hat.right
    rw [length_cons, dnsUnpackRrs, hone]
    dsimp only [bind, Except.bind]
    rw [hall, length_append, ← add_assoc]
    rfl

variable {last : DnsRr}

/-- A section is refused if its last record has no data and ends the message. -/
lemma dnsUnpackRrs_short (hlast : last.WellFormed) (hzero : last.datalen = 0)
    {bytes : Str} (hrrs : ∀ rr ∈ rrs, rr.ReadsBack false)
    (hpack : dnsPackRrs (rrs ++ [last]) len = some bytes) (hp : p ≤ msg.length)
    (hat : BytesAt msg p bytes) (hend : msg.length = p + bytes.length) :
    dnsUnpackRrs msg false (rrs ++ [last]).length p = .error .rejected := by
  induction rrs generalizing bytes p len with
  | nil =>
    obtain ⟨packet, rest, hpacket, hrest, rfl⟩ := dnsPackRrs_cons hpack
    cases hrest
    obtain ⟨n, hname⟩ := hlast.name
    rw [append_nil, dnsRrPack_eq hname hpacket, dnsRrPackData_zero hzero, append_nil] at hat hend
    rw [nil_append, length_singleton, dnsUnpackRrs, dnsRrUnpack_short hp hat (by omega)]
    rfl
  | cons rr rrs ih =>
    obtain ⟨packet, rest, hpacket, hrest, rfl⟩ := dnsPackRrs_cons hpack
    have hone := hrrs rr mem_cons_self msg packet p len hpacket hp hat.left
    have hall := ih (forall_mem_cons.1 hrrs).2 hrest
      (hat.left.length_le hp) hat.right (by rw [hend, length_append, add_assoc])
    rw [cons_append, length_cons, dnsUnpackRrs, hone]
    dsimp only [bind, Except.bind]
    rw [hall]

/-! ## Messages -/

def Dns.records (dns : Dns) : List DnsRr := dns.answers ++ (dns.authorities ++ dns.addtionals)

/-- A message: the header counts the records of each section. -/
structure Dns.WellFormed (dns : Dns) : Prop where
  nquestion : dns.questions.length = dns.hdr.nquestion.toNat
  nanswer : dns.answers.length = dns.hdr.nanswer.toNat
  nauthority : dns.authorities.length = dns.hdr.nauthority.toNat
  naddtional : dns.addtionals.length = dns.hdr.naddtional.toNat
  questions : ∀ rr ∈ dns.questions, rr.IsQuestion
  records : ∀ rr ∈ dns.records, rr.WellFormed

@[simp] lemma length_dnsPackHdr (hdr : DnsHdr) : (dnsPackHdr hdr).length = 12 := by
  simp only [dnsPackHdr, length_append, length_htons, length_cons, length_nil]

lemma dnsUnpackHdr_pack (hdr : DnsHdr) (rest : Str) :
    dnsUnpackHdr (dnsPackHdr hdr ++ rest) = hdr := by
  have hpair : ∀ n : UInt16, ntohs [UInt8.ofNat (n.toNat / 256), UInt8.ofNat n.toNat] = n :=
    ntohs_htons
  simp only [dnsUnpackHdr, dnsPackHdr, htons, ofNat, nil_append, cons_append,
    take_succ_cons, take_zero, drop_succ_cons, drop_zero, getD_cons_succ, getD_cons_zero, hpair]

/-- The parts of a packed message, in their order. -/
lemma Dns.WellFormed.packed (h : dns.WellFormed) (hpack : dnsPack dns len = some msg) :
    ∃ q a u d lq la lu ld, dnsPackRrs dns.questions lq = some q ∧
      dnsPackRrs dns.answers la = some a ∧ dnsPackRrs dns.authorities lu = some u ∧
      dnsPackRrs dns.addtionals ld = some d ∧
      msg = dnsPackHdr dns.hdr ++ (q ++ (a ++ (u ++ d))) := by
  obtain ⟨-, hpack⟩ := ite_none_left_eq_some.mp hpack
  obtain ⟨q, hq, hpack⟩ := bind_eq_some_iff.mp hpack
  obtain ⟨a, ha, hpack⟩ := bind_eq_some_iff.mp hpack
  obtain ⟨u, hu, hpack⟩ := bind_eq_some_iff.mp hpack
  obtain ⟨d, hd, hpack⟩ := bind_eq_some_iff.mp hpack
  rw [← h.nquestion, take_length] at hq
  rw [← h.nanswer, take_length] at ha
  rw [← h.nauthority, take_length] at hu
  rw [← h.naddtional, take_length] at hd
  refine ⟨q, a, u, d, _, _, _, _, hq, ha, hu, hd, ?_⟩
  rw [← some.inj hpack]
  simp only [append_assoc]

/-- Where the sections of a packed message stand. -/
lemma bytesAt_sections (hdr : DnsHdr) (q a u d : Str) :
    let msg := dnsPackHdr hdr ++ (q ++ (a ++ (u ++ d)))
    (BytesAt msg 12 q ∧ 12 ≤ msg.length) ∧
      (BytesAt msg (12 + q.length) a ∧ 12 + q.length ≤ msg.length) ∧
      (BytesAt msg (12 + q.length + a.length) u ∧ 12 + q.length + a.length ≤ msg.length) ∧
      BytesAt msg (12 + q.length + a.length + u.length) d ∧
      12 + q.length + a.length + u.length ≤ msg.length := by
  intro msg
  have hat : BytesAt msg 0 (dnsPackHdr hdr ++ (q ++ (a ++ (u ++ d)))) := prefix_rfl
  have hq := hat.right
  have hlen : msg.length = 12 + (q.length + (a.length + (u.length + d.length))) := by
    simp only [msg, length_append, length_dnsPackHdr]
  exact ⟨⟨hq.left, by omega⟩, ⟨hq.right.left, by omega⟩, ⟨hq.right.right.left, by omega⟩,
    hq.right.right.right, by omega⟩

/-- A message whose records all have data is unpacked as it was. -/
lemma dnsUnpack_dnsPack (h : dns.WellFormed) (hdata : ∀ rr ∈ dns.records, rr.datalen ≠ 0)
    (hpack : dnsPack dns len = some msg) : dnsUnpack msg = .ok (dns, msg.length) := by
  obtain ⟨q, a, u, d, lq, la, lu, ld, hq, ha, hu, hd, rfl⟩ := h.packed hpack
  obtain ⟨⟨atq, leq⟩, ⟨ata, lea⟩, ⟨atu, leu⟩, atd, led⟩ := bytesAt_sections dns.hdr q a u d
  have hrecord : ∀ rr ∈ dns.records, rr.ReadsBack false :=
    fun rr hrr => (h.records rr hrr).readsBack (hdata rr hrr)
  have eq := dnsUnpackRrs_pack (fun rr hrr => (h.questions rr hrr).readsBack) hq leq atq
  have ea := dnsUnpackRrs_pack
    (fun rr hrr => hrecord rr (mem_append_left _ hrr)) ha lea ata
  have eu := dnsUnpackRrs_pack
    (fun rr hrr => hrecord rr (mem_append_right _ (mem_append_left _ hrr))) hu leu atu
  have ed := dnsUnpackRrs_pack
    (fun rr hrr => hrecord rr (mem_append_right _ (mem_append_right _ hrr))) hd led atd
  rw [h.nquestion] at eq
  rw [h.nanswer] at ea
  rw [h.nauthority] at eu
  rw [h.naddtional] at ed
  rw [dnsUnpack, if_neg (by omega)]
  simp only [dnsUnpackHdr_pack, eq, ea, eu, ed, bind, Except.bind, pure, Except.pure]
  simp only [length_append, length_dnsPackHdr, add_assoc]

/-- A message that ends with a record without data is refused. -/
lemma dnsUnpack_short (h : dns.WellFormed) (hrecords : dns.records = rrs ++ [last])
    (hdata : ∀ rr ∈ rrs, rr.datalen ≠ 0) (hzero : last.datalen = 0)
    (hpack : dnsPack dns len = some msg) : dnsUnpack msg = .error .rejected := by
  obtain ⟨q, a, u, d, lq, la, lu, ld, hq, ha, hu, hd, rfl⟩ := h.packed hpack
  obtain ⟨⟨atq, leq⟩, ⟨ata, lea⟩, ⟨atu, leu⟩, atd, led⟩ := bytesAt_sections dns.hdr q a u d
  have hlast : last.WellFormed := h.records last (by rw [hrecords]; simp)
  have hback : ∀ rr ∈ rrs, rr.ReadsBack false := fun rr hrr =>
    (h.records rr (by rw [hrecords]; exact mem_append_left _ hrr)).readsBack (hdata rr hrr)
  have eq := dnsUnpackRrs_pack (fun rr hrr => (h.questions rr hrr).readsBack) hq leq atq
  rw [h.nquestion] at eq
  have hend : (dnsPackHdr dns.hdr ++ (q ++ (a ++ (u ++ d)))).length =
      12 + q.length + a.length + u.length + d.length := by
    simp only [length_append, length_dnsPackHdr, add_assoc]
  rw [dnsUnpack, if_neg (by omega)]
  simp only [dnsUnpackHdr_pack, eq, bind, Except.bind, pure]
  rw [← h.nanswer, ← h.nauthority, ← h.naddtional]
  -- the last record is in the last section that is not empty
  rcases eq_nil_or_concat dns.addtionals with hnod | ⟨l, x, hd'⟩
  · rw [hnod] at hd
    cases hd
    rcases eq_nil_or_concat dns.authorities with hnou | ⟨l, x, hu'⟩
    · rw [hnou] at hu
      cases hu
      have hanswers : dns.answers = rrs ++ [last] := by
        rw [← hrecords, Dns.records, hnou, hnod, append_nil, append_nil]
      rw [hanswers] at ha ⊢
      rw [dnsUnpackRrs_short hlast hzero hback ha lea ata (by simpa using hend)]
    · obtain ⟨rfl, hx⟩ : dns.answers ++ l = rrs ∧ [x] = [last] := by
        refine append_inj' ?_ rfl
        rw [← hrecords, Dns.records, hnod, hu', append_nil, append_assoc, concat_eq_append]
      cases hx
      have ea := dnsUnpackRrs_pack
        (fun rr hrr => hback rr (mem_append_left _ hrr)) ha lea ata
      rw [hu', concat_eq_append] at hu ⊢
      rw [ea]
      dsimp only
      rw [dnsUnpackRrs_short hlast hzero (fun rr hrr => hback rr (mem_append_right _ hrr)) hu
        leu atu (by simpa using hend)]
  · obtain ⟨rfl, hx⟩ : dns.answers ++ (dns.authorities ++ l) = rrs ∧ [x] = [last] := by
      refine append_inj' ?_ rfl
      rw [← hrecords, Dns.records, hd', concat_eq_append]
      simp only [append_assoc]
    cases hx
    have ea := dnsUnpackRrs_pack
      (fun rr hrr => hback rr (mem_append_left _ hrr)) ha lea ata
    have eu := dnsUnpackRrs_pack
      (fun rr hrr => hback rr (mem_append_right _ (mem_append_left _ hrr))) hu leu atu
    rw [hd', concat_eq_append] at hd ⊢
    rw [ea]
    dsimp only
    rw [eu]
    dsimp only
    rw [dnsUnpackRrs_short hlast hzero
      (fun rr hrr => hback rr (mem_append_right _ (mem_append_right _ hrr))) hd led atd
      hend]

/-! ## Round trips -/

/-- Records with the same name, type, class, time to live and data. -/
structure DnsRr.Same (a b : DnsRr) : Prop where
  name : a.name = b.name
  rtype : a.rtype = b.rtype
  rclass : a.rclass = b.rclass
  ttl : a.ttl = b.ttl
  datalen : a.datalen = b.datalen
  bytes : a.bytes = b.bytes

/-- Messages with the same header and the same records. -/
structure Dns.Same (a b : Dns) : Prop where
  hdr : a.hdr = b.hdr
  questions : List.Forall₂ DnsRr.Same a.questions b.questions
  answers : List.Forall₂ DnsRr.Same a.answers b.answers
  authorities : List.Forall₂ DnsRr.Same a.authorities b.authorities
  addtionals : List.Forall₂ DnsRr.Same a.addtionals b.addtionals

lemma DnsRr.Same.refl (a : DnsRr) : a.Same a := ⟨rfl, rfl, rfl, rfl, rfl, rfl⟩

lemma Dns.Same.refl (a : Dns) : a.Same a :=
  have refl : ∀ rrs : List DnsRr, List.Forall₂ DnsRr.Same rrs rrs := fun _ =>
    forall₂_same.mpr fun rr _ => .refl rr
  ⟨rfl, refl _, refl _, refl _, refl _⟩

/-- Whenever the message can be packed, the bytes are unpacked to the same message, all
of them. -/
def Dns.RoundTrips (dns : Dns) : Prop :=
  ∀ (len : Nat) (msg : Str), dnsPack dns len = some msg →
    ∃ dns', dnsUnpack msg = .ok (dns', msg.length) ∧ dns'.Same dns

/-- The message with its first `k` records only. -/
def Dns.upTo (dns : Dns) (k : Nat) : Dns :=
  let answers := dns.answers.take k
  let authorities := dns.authorities.take (k - dns.answers.length)
  let addtionals := dns.addtionals.take (k - dns.answers.length - dns.authorities.length)
  { dns with
    hdr := { dns.hdr with
      nanswer := UInt16.ofNat answers.length
      nauthority := UInt16.ofNat authorities.length
      naddtional := UInt16.ofNat addtionals.length }
    answers := answers
    authorities := authorities
    addtionals := addtionals }

lemma Dns.records_upTo (dns : Dns) (k : Nat) : (dns.upTo k).records = dns.records.take k := by
  rw [records, records, take_append, take_append]
  rfl

lemma count_take {n : UInt16} (h : rrs.length = n.toNat) (k : Nat) :
    (rrs.take k).length = (UInt16.ofNat (rrs.take k).length).toNat := by
  have hlt := n.toNat_lt
  have hle := length_take_le' k rrs
  exact (UInt16.toNat_ofNat_of_lt' (show _ < 65536 by omega)).symm

lemma Dns.WellFormed.upTo (h : dns.WellFormed) (k : Nat) : (dns.upTo k).WellFormed where
  nquestion := h.nquestion
  nanswer := count_take h.nanswer _
  nauthority := count_take h.nauthority _
  naddtional := count_take h.naddtional _
  questions := h.questions
  records := by
    intro rr hrr
    rw [Dns.records_upTo] at hrr
    exact h.records rr (mem_of_mem_take hrr)

/-- The room that `dns_rr_pack` asks for. -/
def DnsRr.packetlen (rr : DnsRr) : Nat :=
  (dnsNameEncode rr.name).length + 2 + 2 + if rr.data.isSome then 4 + 2 + rr.datalen.toNat else 0

lemma dnsRrPack_room (h : rr.packetlen ≤ len) :
    ∃ packet, dnsRrPack rr len = some packet ∧ packet.length ≤ rr.packetlen := by
  have hdata : (dnsRrPackData rr).length ≤
      if rr.data.isSome then 4 + 2 + rr.datalen.toNat else 0 := by
    rw [dnsRrPackData]
    split
    · exact Nat.zero_le _
    · rename_i data hdata
      split
      · simp [hdata]
        omega
      · exact Nat.zero_le _
  refine ⟨_, if_neg (not_lt.mpr h), ?_⟩
  simp only [length_append, length_htons, DnsRr.packetlen]
  omega

/-- The room that a section asks for. -/
def packetlens (rrs : List DnsRr) : Nat := (rrs.map DnsRr.packetlen).sum

lemma dnsPackRrs_room (hlen : packetlens rrs ≤ len) :
    ∃ bytes, dnsPackRrs rrs len = some bytes ∧ bytes.length ≤ packetlens rrs := by
  induction rrs generalizing len with
  | nil => exact ⟨[], rfl, Nat.zero_le _⟩
  | cons rr rrs ih =>
    rw [packetlens, map_cons, sum_cons, ← packetlens] at hlen ⊢
    obtain ⟨packet, hpacket, hle⟩ := dnsRrPack_room (le_trans (Nat.le_add_right _ _) hlen)
    obtain ⟨rest, hrest, hrestle⟩ := ih (show _ ≤ len - packet.length by omega)
    refine ⟨packet ++ rest, ?_, ?_⟩
    · rw [dnsPackRrs, hpacket, bind_eq_bind, bind_some, hrest]
      rfl
    · rw [length_append]
      omega

/-- With enough room, a message is packed. -/
lemma Dns.WellFormed.room (h : dns.WellFormed) : ∃ len msg, dnsPack dns len = some msg := by
  obtain ⟨len, hlen⟩ : ∃ len, len = 12 + (packetlens dns.questions + packetlens dns.answers +
      packetlens dns.authorities + packetlens dns.addtionals) := ⟨_, rfl⟩
  obtain ⟨q, hq, hqle⟩ := dnsPackRrs_room (show packetlens dns.questions ≤ len - 12 by omega)
  obtain ⟨a, ha, hale⟩ :=
    dnsPackRrs_room (show packetlens dns.answers ≤ len - (12 + q.length) by omega)
  obtain ⟨u, hu, hule⟩ :=
    dnsPackRrs_room (show packetlens dns.authorities ≤ len - (12 + q.length + a.length) by omega)
  obtain ⟨d, hd, hdle⟩ := dnsPackRrs_room
    (show packetlens dns.addtionals ≤ len - (12 + q.length + a.length + u.length) by omega)
  refine ⟨len, dnsPackHdr dns.hdr ++ q ++ a ++ u ++ d, ?_⟩
  rw [dnsPack, if_neg (by omega)]
  simp only [← h.nquestion, ← h.nanswer, ← h.nauthority, ← h.naddtional, take_length,
    length_append, length_dnsPackHdr, hq, ha, hu, hd, bind_eq_bind, bind_some, Option.pure_def]

/-- A message and all its initial parts are read back as they were exactly if every
record behind the questions has data.  Of the message alone this cannot be said: the
six bytes that a record without data lacks may by chance be supplied by the records
behind it. -/
theorem dns_roundTrips_iff {dns : Dns} (h : dns.WellFormed) :
    (dns.RoundTrips ∧ ∀ k, (dns.upTo k).RoundTrips) ↔ ∀ rr ∈ dns.records, rr.datalen ≠ 0 := by
  constructor
  · rintro ⟨-, hall⟩ rr hrr hzero
    -- up to the first record without data
    obtain ⟨last, hfind⟩ : ∃ last, dns.records.find? (fun rr => rr.datalen = 0) = some last :=
      isSome_iff_exists.mp (List.find?_isSome.mpr ⟨rr, hrr, decide_eq_true hzero⟩)
    obtain ⟨hlast, pre, post, hrecords, hpre⟩ := List.find?_eq_some_iff_append.mp hfind
    have htake : (dns.upTo (pre.length + 1)).records = pre ++ [last] := by
      rw [dns.records_upTo, hrecords, take_append]
      simp
    obtain ⟨len, msg, hpack⟩ := (h.upTo (pre.length + 1)).room
    obtain ⟨dns', hok, -⟩ := hall _ len msg hpack
    rw [dnsUnpack_short (h.upTo _) htake (fun x hx => by simpa using hpre x hx)
      (of_decide_eq_true hlast) hpack] at hok
    cases hok
  · intro hdata
    refine ⟨fun len msg hpack => ⟨dns, dnsUnpack_dnsPack h hdata hpack, .refl _⟩,
      fun k len msg hpack => ?_⟩
    refine ⟨dns.upTo k, dnsUnpack_dnsPack (h.upTo k) (fun rr hrr => ?_) hpack, .refl _⟩
    rw [dns.records_upTo] at hrr
    exact hdata rr (mem_of_mem_take hrr)

/-- The name `a`. -/
def nameA : DnsName where
  labels := [cstr "a"]
  label_length := by decide
  label_bytes := by decide
  text_length := by decide

/-- A response with one question and one answer with the given data. -/
def dnsReply (data : Str) : Dns where
  hdr := ⟨7, 0x81, 0x80, 1, 1, 0, 0⟩
  questions := [⟨cstr "a", 1, 1, 0, 0, none⟩]
  answers := [⟨cstr "a", 1, 1, 60, UInt16.ofNat data.length, some data⟩]
  authorities := []
  addtionals := []

lemma dnsReply_wellFormed (h : data.length < 65536) : (dnsReply data).WellFormed where
  nquestion := rfl
  nanswer := rfl
  nauthority := rfl
  naddtional := rfl
  questions := by
    intro rr hrr
    rw [mem_singleton.mp hrr]
    exact ⟨⟨⟨nameA, rfl⟩, rfl⟩, rfl, rfl⟩
  records := by
    intro rr hrr
    rw [mem_singleton.mp hrr]
    exact ⟨⟨nameA, rfl⟩, (UInt16.toNat_ofNat_of_lt' h).symm⟩

/-- An address in the answer is read back. -/
theorem dns_roundTrips_address :
    ((dnsReply [127, 0, 0, 1]).RoundTrips ∧ ∀ k, ((dnsReply [127, 0, 0, 1]).upTo k).RoundTrips) ↔
      ∀ rr ∈ (dnsReply [127, 0, 0, 1]).records, rr.datalen ≠ 0 :=
  dns_roundTrips_iff (dnsReply_wellFormed (by decide))

/-- An answer without data is packed, but what was packed is refused. -/
theorem dns_empty_answer_refused : (dnsReply []).WellFormed ∧ (dnsPack (dnsReply []) 512).isSome ∧
      (dnsPack (dnsReply []) 512).map dnsUnpack = some (.error .rejected) ∧
      ¬(dnsReply []).RoundTrips := by
  have hpack : dnsPack (dnsReply []) 512 = some [0, 7, 0x81, 0x80, 0, 1, 0, 1, 0, 0, 0, 0,
      1, 97, 0, 0, 1, 0, 1, 1, 97, 0, 0, 1, 0, 1] := by decide
  have hunpack : dnsUnpack [0, 7, 0x81, 0x80, 0, 1, 0, 1, 0, 0, 0, 0,
      1, 97, 0, 0, 1, 0, 1, 1, 97, 0, 0, 1, 0, 1] = .error .rejected := by decide
  refine ⟨dnsReply_wellFormed (by decide), by rw [hpack]; rfl, ?_, fun hall => ?_⟩
  · rw [hpack, map_some, hunpack]
  · obtain ⟨dns', hok, -⟩ := hall 512 _ hpack
    cases hok

end Alligator
