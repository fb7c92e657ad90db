import Alligator.Resolver.Dns
import Mathlib.Data.List.TakeWhile

/-!
# Names in answers

A name of a message may end with a jump to another name of it.  `NameAt` says which labels
stand at a place, with the jumps.  The decoder is not told how long the message is.  `NameWalk` is
the way that it takes from byte to byte, as long as it is inside, and it stays inside exactly when
there is such a way from each record that it comes to (`dnsUnpack_inside_iff`).
-/

namespace Alligator

open List

/-- The labels of the name at a place. -/
inductive NameAt (msg : Str) : Nat → List Str → Prop where
  | root {p} : readBytes msg p 1 = .ok [0] → NameAt msg p []
  | label {p l labels} : 1 ≤ l.length → l.length ≤ 63 →
      readBytes msg p 1 = .ok [UInt8.ofNat l.length] → readBytes msg (p + 1) l.length = .ok l →
      NameAt msg (p + 1 + l.length) labels → NameAt msg p (l :: labels)
  | jump {p b low labels} : b &&& 0xc0 = 0xc0 → readBytes msg p 1 = .ok [b] →
      readBytes msg (p + 1) 1 = .ok [low] →
      NameAt msg ((b &&& 0x3f).toNat * 256 + low.toNat) labels → NameAt msg p labels

variable {msg : Str} {p start off n k : Nat} {labels : List Str} {q : Bool} {next : Nat → Prop}

/-- A name is read as its labels, or refused.  The induction is on the name. -/
lemma NameAt.decodeLoop (h : NameAt msg p labels) (start steps : Nat) (out : Str)
    (outLeft consumed : Nat) (jumped : Bool) :
    (∃ n, dnsNameDecodeLoop msg start steps p out outLeft consumed jumped =
        .ok ((out ++ labels.flatMap (· ++ [46])).dropLast, n)) ∨
      dnsNameDecodeLoop msg start steps p out outLeft consumed jumped = .error .rejected := by
  induction h generalizing steps out outLeft consumed jumped with
  | root hread =>
    cases steps with
    | zero => exact .inr rfl
    | succ steps =>
      rw [dnsNameDecodeLoop, hread]
      exact .inl ⟨_, by rw [flatMap_nil, append_nil]; rfl⟩
  | @label p l labels hpos hmax hread hlabel _ ih =>
    cases steps with
    | zero => exact .inr rfl
    | succ steps =>
      obtain ⟨hjump, hlen⟩ := length_octet hmax
      rw [dnsNameDecodeLoop, hread]
      dsimp only [bind, Except.bind]
      rw [headD_cons, if_neg hjump, hlen, if_neg (by omega), if_neg (by omega), hlabel]
      split_ifs
      · exact .inr rfl
      all_goals
        rw [flatMap_cons, ← append_assoc, ← append_assoc]
        exact ih ..
  | @jump p b low labels hb hread hlow _ ih =>
    cases steps with
    | zero => exact .inr rfl
    | succ steps =>
      rw [dnsNameDecodeLoop, hread]
      dsimp only [bind, Except.bind]
      rw [if_pos (show [b].headD 0 &&& 0xc0 = 0xc0 from hb), hlow]
      dsimp only
      split_ifs
      · exact .inr rfl
      all_goals exact ih ..

lemma NameAt.decodeMsg (h : NameAt msg p labels) :
    (∃ n, dnsNameDecodeMsg msg p = .ok ([46].intercalate labels, n)) ∨
      dnsNameDecodeMsg msg p = .error .rejected := by
  have hloop := h.decodeLoop p 128 [] dnsNameMaxlen 0 false
  rw [nil_append, intercalate_eq_dropLast] at hloop
  exact hloop

/-! ## Reads inside the message -/

/-- The way of the decoder over the bytes of a message, for a name that starts at `start`: with what
is left of its steps and of its buffer, from a place, before or after the first jump, to the number
of bytes that the name takes and its labels, or to a refusal. -/
inductive NameWalk (msg : Str) (start : Nat) :
    Nat → Nat → Nat → Bool → Option (Nat × List Str) → Prop where
  | stop {p left jumped} : NameWalk msg start 0 p left jumped none
  | root {steps p left jumped} : readBytes msg p 1 = .ok [0] →
      NameWalk msg start (steps + 1) p left jumped (some (1, []))
  | refused {steps p left jumped b} : readBytes msg p 1 = .ok [b] → b &&& 0xc0 ≠ 0xc0 →
      b.toNat ≠ 0 → 63 < b.toNat ∨ left < b.toNat + 2 → NameWalk msg start (steps + 1) p left jumped none
  | label {steps p left jumped b l r} : readBytes msg p 1 = .ok [b] → b &&& 0xc0 ≠ 0xc0 →
      b.toNat ≠ 0 → b.toNat ≤ 63 → b.toNat + 2 ≤ left → readBytes msg (p + 1) b.toNat = .ok l →
      NameWalk msg start steps (p + 1 + b.toNat) (left - b.toNat - 1) jumped r →
      NameWalk msg start (steps + 1) p left jumped
        (r.map fun r => (1 + b.toNat + r.1, l :: r.2))
  | forward {steps p left b low} : b &&& 0xc0 = 0xc0 → readBytes msg p 1 = .ok [b] →
      readBytes msg (p + 1) 1 = .ok [low] → start ≤ (b &&& 0x3f).toNat * 256 + low.toNat →
      NameWalk msg start (steps + 1) p left false none
  | jump {steps p left jumped b low r} : b &&& 0xc0 = 0xc0 → readBytes msg p 1 = .ok [b] →
      readBytes msg (p + 1) 1 = .ok [low] →
      jumped = true ∨ (b &&& 0x3f).toNat * 256 + low.toNat < start →
      NameWalk msg start steps ((b &&& 0x3f).toNat * 256 + low.toNat) left true r →
      NameWalk msg start (steps + 1) p left jumped (r.map fun r => (2, r.2))

variable {steps left consumed : Nat} {jumped : Bool} {r : Option (Nat × List Str)}

/-- What the loop makes of a way. -/
def walkResult (out : Str) (consumed : Nat) (jumped : Bool) :
    Option (Nat × List Str) → Except DnsFault (Str × Nat)
  | none => .error .rejected
  | some (n, labels) => .ok ((out ++ labels.flatMap (· ++ [46])).dropLast,
      if jumped then consumed else consumed + n)

lemma NameWalk.decodeLoop (h : NameWalk msg start steps p left jumped r) (out : Str)
    (consumed : Nat) : dnsNameDecodeLoop msg start steps p out left consumed jumped =
      walkResult out consumed jumped r := by
  induction h generalizing out consumed with
  | stop => rfl
  | root hread =>
    rw [dnsNameDecodeLoop, hread]
    simp [bind, Except.bind, walkResult]
  | @refused steps p left jumped b hread hjump hpos hfull =>
    rw [dnsNameDecodeLoop, hread]
    dsimp only [bind, Except.bind]
    rw [headD_cons, if_neg hjump, if_neg hpos]
    by_cases h63 : 63 < b.toNat
    · rw [if_pos h63]
      rfl
    · rw [if_neg h63, if_pos (hfull.resolve_left h63)]
      rfl
  | @label steps p left jumped b l r hread hjump hpos hmax hroom hlabel _ ih =>
    rw [dnsNameDecodeLoop, hread]
    dsimp only [bind, Except.bind]
    rw [headD_cons, if_neg hjump, if_neg hpos, if_neg (by omega), if_neg (by omega), hlabel]
    dsimp only
    rw [ih]
    cases r with
    | none => rfl
    | some r => cases jumped <;> simp [walkResult, add_assoc]
  | forward hb hread hlow hforward =>
    rw [dnsNameDecodeLoop, hread]
    dsimp only [bind, Except.bind]
    rw [headD_cons, if_pos hb, hlow]
    dsimp only
    rw [headD_cons, decide_eq_true hforward]
    rfl
  | @jump steps p left jumped b low r hb hread hlow hback _ ih =>
    rw [dnsNameDecodeLoop, hread]
    dsimp only [bind, Except.bind]
    rw [headD_cons, if_pos hb, hlow]
    dsimp only
    have hnot : ¬(!jumped && decide (start ≤ (b &&& 0x3f).toNat * 256 + low.toNat)) = true := by
      rw [Bool.and_eq_true, decide_eq_true_eq, Bool.not_eq_true', not_and, not_le]
      exact fun hfirst => hback.resolve_left (by simp [hfirst])
    rw [headD_cons, ih, if_neg hnot]
    cases r with
    | none => rfl
    | some r => cases jumped <;> simp [walkResult]

lemma readBytes_inside (h : p + n ≤ msg.length) :
    readBytes msg p n = .ok ((msg.drop p).take n) := if_pos h

/-- A byte that is read. -/
lemma readBytes_one (h : readBytes msg p 1 ≠ .error .wild) : ∃ b, readBytes msg p 1 = .ok [b] := by
  rw [readBytes] at h ⊢
  split_ifs at h ⊢ with hp
  · refine ⟨msg.get ⟨p, hp⟩, ?_⟩
    rw [drop_eq_getElem_cons hp]
    rfl
  · exact absurd rfl h

/-- The loop that reads nothing outside goes such a way. -/
lemma exists_nameWalk {out : Str} (h : dnsNameDecodeLoop msg start steps p out left consumed jumped ≠
    .error .wild) : ∃ r, NameWalk msg start steps p left jumped r := by
  induction steps generalizing p out left consumed jumped with
  | zero => exact ⟨none, .stop⟩
  | succ steps ih =>
    rw [dnsNameDecodeLoop] at h
    obtain ⟨b, hread⟩ : ∃ b, readBytes msg p 1 = .ok [b] :=
      readBytes_one fun hwild => h (by rw [hwild]; rfl)
    rw [hread] at h
    dsimp only [bind, Except.bind] at h
    rw [headD_cons] at h
    by_cases hb : b &&& 0xc0 = 0xc0
    · rw [if_pos hb] at h
      obtain ⟨low, hlow⟩ : ∃ low, readBytes msg (p + 1) 1 = .ok [low] :=
        readBytes_one fun hwild => h (by rw [hwild])
      rw [hlow] at h
      dsimp only at h
      rw [headD_cons] at h
      by_cases hforward : jumped = false ∧ start ≤ (b &&& 0x3f).toNat * 256 + low.toNat
      · obtain ⟨rfl, hforward⟩ := hforward
        exact ⟨none, .forward hb hread hlow hforward⟩
      · have hnot : ¬(!jumped && decide (start ≤ (b &&& 0x3f).toNat * 256 + low.toNat)) = true := by
          simpa [not_and] using hforward
        rw [if_neg hnot] at h
        obtain ⟨r, hr⟩ := ih h
        refine ⟨_, .jump hb hread hlow ?_ hr⟩
        cases jumped <;> simp_all
    · rw [if_neg hb] at h
      by_cases h0 : b.toNat = 0
      · obtain rfl : b = 0 := UInt8.toNat_inj.mp h0
        exact ⟨_, .root hread⟩
      by_cases hfull : 63 < b.toNat ∨ left < b.toNat + 2
      · exact ⟨none, .refused hread hb h0 hfull⟩
      obtain ⟨h63, hroom⟩ := not_or.mp hfull
      rw [if_neg h0, if_neg h63, if_neg hroom] at h
      by_cases hlabel : p + 1 + b.toNat ≤ msg.length
      · rw [readBytes_inside hlabel] at h
        obtain ⟨r, hr⟩ := ih h
        exact ⟨_, .label hread hb h0 (by omega) (by omega) (readBytes_inside hlabel) hr⟩
      · rw [readBytes, if_neg hlabel] at h
        exact absurd rfl h

/-- The way over a name stays inside. -/
def NameInside (msg : Str) (off : Nat) (r : Option (Nat × List Str)) : Prop :=
  NameWalk msg off 128 off dnsNameMaxlen false r

lemma NameInside.decodeMsg (h : NameInside msg off r) :
    dnsNameDecodeMsg msg off = walkResult [] 0 false r :=
  NameWalk.decodeLoop h [] 0

lemma exists_nameInside (h : dnsNameDecodeMsg msg off ≠ .error .wild) :
    ∃ r, NameInside msg off r := exists_nameWalk h

/-- How many bytes the fields behind a name take, unless the message ends before them. -/
def fieldsLength (msg : Str) (q : Bool) (p : Nat) : Option Nat :=
  if msg.length < p + 4 then none
  else if q then some 4
  else if msg.length < p + 10 then none
  else
    let datalen := (ntohs ((msg.drop (p + 8)).take 2)).toNat
    if msg.length < p + 10 + datalen then none else some (10 + datalen)

/-- Behind a name that is inside, the fields are held against the length of the message. -/
lemma NameInside.dnsRrUnpack (h : NameInside msg off r) (q : Bool) :
    dnsRrUnpack msg off q = .error .rejected ∧
        (∀ n labels, r = some (n, labels) → fieldsLength msg q (off + n) = none) ∨
      ∃ rr n labels len, dnsRrUnpack msg off q = .ok (rr, n + len) ∧ r = some (n, labels) ∧
        fieldsLength msg q (off + n) = some len := by
  rw [Alligator.dnsRrUnpack, h.decodeMsg]
  cases r with
  | none => exact .inl ⟨rfl, by simp⟩
  | some r =>
    obtain ⟨n, labels⟩ := r
    have hnone (hlen : fieldsLength msg q (off + n) = none) (n' labels')
        (heq : some (n, labels) = some (n', labels')) : fieldsLength msg q (off + n') = none := by
      cases heq
      exact hlen
    dsimp only [walkResult, bind, Except.bind]
    rw [if_neg Bool.false_ne_true, zero_add]
    by_cases h4 : msg.length < off + n + 4
    · rw [if_pos (by omega)]
      exact .inl ⟨rfl, hnone (if_pos h4)⟩
    rw [if_neg (by omega), readBytes_inside (by omega), readBytes_inside (by omega)]
    dsimp only [pure, Except.pure]
    cases q with
    | true => exact .inr ⟨_, n, labels, 4, rfl, rfl, if_neg h4⟩
    | false =>
      have hfields : fieldsLength msg false (off + n) = if msg.length < off + n + 10 then none
          else if msg.length < off + n + 10 + (ntohs ((msg.drop (off + n + 8)).take 2)).toNat then none
          else some (10 + (ntohs ((msg.drop (off + n + 8)).take 2)).toNat) := if_neg h4
      rw [if_neg Bool.false_ne_true]
      by_cases h10 : msg.length < off + n + 10
      · rw [if_pos (by omega)]
        exact .inl ⟨rfl, hnone (hfields.trans (if_pos h10))⟩
      rw [if_neg (by omega), readBytes_inside (by omega), readBytes_inside (by omega)]
      rw [if_neg h10] at hfields
      dsimp only
      by_cases hdata : msg.length <
          off + n + 10 + (ntohs ((msg.drop (off + n + 8)).take 2)).toNat
      · rw [if_pos (by omega)]
        exact .inl ⟨rfl, hnone (hfields.trans (if_pos hdata))⟩
      · rw [if_neg (by omega), readBytes_inside (by omega)]
        exact .inr ⟨_, n, labels, _, by rw [add_assoc n 10], rfl, hfields.trans (if_neg hdata)⟩

/-- The ways over the names of the next records are inside, and what is said of the place behind
them. -/
def RecordsInside (msg : Str) (q : Bool) : Nat → (Nat → Prop) → Nat → Prop
  | 0, next, off => next off
  | n + 1, next, off => ∃ r, NameInside msg off r ∧ ∀ taken labels len,
      r = some (taken, labels) → fieldsLength msg q (off + taken) = some len →
      RecordsInside msg q n next (off + (taken + len))

/-- The way over the name of each record that the header counts is inside, as far as no record is
refused. -/
def MessageInside (msg : Str) : Prop :=
  let hdr := dnsUnpackHdr msg
  RecordsInside msg true hdr.nquestion.toNat
    (RecordsInside msg false hdr.nanswer.toNat
      (RecordsInside msg false hdr.nauthority.toNat
        (RecordsInside msg false hdr.naddtional.toNat fun _ => True))) 12

/-- A section is read inside the message exactly if the ways are, and so is what follows it. -/
lemma recordsInside_bind {β : Type} {f : List DnsRr × Nat → Except DnsFault β}
    (hf : ∀ rrs off, f (rrs, off) ≠ .error .wild ↔ next off) (n off : Nat) :
    dnsUnpackRrs msg q n off >>= f ≠ .error .wild ↔ RecordsInside msg q n next off := by
  induction n generalizing off f with
  | zero => exact hf [] off
  | succ n ih =>
    rw [dnsUnpackRrs, bind_assoc, RecordsInside]
    have hrest (rr : DnsRr) (packetlen : Nat) :
        ((fun x : DnsRr × Nat => (dnsUnpackRrs msg q n (off + x.2) >>= fun y =>
          pure (x.1 :: y.1, y.2)) >>= f) (rr, packetlen)) ≠ .error .wild ↔
          RecordsInside msg q n next (off + packetlen) := by
      dsimp only
      rw [bind_assoc]
      exact ih (fun rrs off => hf (rr :: rrs) off) _
    constructor
    · intro h
      obtain ⟨r, hr⟩ : ∃ r, NameInside msg off r := by
        refine exists_nameInside fun hwild => h ?_
        rw [dnsRrUnpack, hwild]
        rfl
      refine ⟨r, hr, fun taken labels len htaken hlen => ?_⟩
      obtain ⟨-, hnone⟩ | ⟨rr, n', labels', len', hok, hr', hlen'⟩ := hr.dnsRrUnpack q
      · rw [hnone taken labels htaken] at hlen
        cases hlen
      · cases hr'.symm.trans htaken
        cases hlen'.symm.trans hlen
        rw [hok] at h
        exact (hrest rr _).mp h
    · rintro ⟨r, hr, hnext⟩
      obtain ⟨hrejected, -⟩ | ⟨rr, n', labels', len', hok, hr', hlen'⟩ := hr.dnsRrUnpack q
      · rw [hrejected]
        exact fun h => by cases h
      · rw [hok]
        exact (hrest rr _).mpr (hnext n' labels' len' hr' hlen')

/-- Nothing outside the message is read if and only if, from each record that the header counts and
that is come to, there is a way of at most 128 steps over its name inside the message. -/
theorem dnsUnpack_inside_iff (msg : Str) :
    dnsUnpack msg ≠ .error .wild ↔ (12 ≤ msg.length → MessageInside msg) := by
  rw [dnsUnpack]
  split_ifs with hlen
  · exact iff_of_true (by simp) fun h => absurd h (by omega)
  · refine Iff.trans ?_ (forall_prop_of_true (by omega : 12 ≤ msg.length)).symm
    refine recordsInside_bind (fun _ off => ?_) _ _
    refine recordsInside_bind (fun _ off => ?_) _ _
    refine recordsInside_bind (fun _ off => ?_) _ _
    exact recordsInside_bind (fun _ off => iff_of_true (fun h => by cases h) trivial) _ _

/-- A header that counts a question and nothing behind it. -/
theorem dnsUnpack_behind : dnsUnpack (dnsPackHdr ⟨7, 1, 0, 1, 0, 0, 0⟩) = .error .wild := by
  decide

/-! ## Answers -/

/-- A way that ends with labels goes over a name. -/
lemma NameWalk.nameAt (h : NameWalk msg start steps p left jumped r) (hr : r = some (n, labels)) :
    NameAt msg p labels := by
  induction h generalizing n labels with
  | stop => cases hr
  | root hread =>
    cases hr
    exact .root hread
  | refused => cases hr
  | @label steps p left jumped b l r hread _ hpos hmax _ hlabel _ ih =>
    obtain ⟨⟨n', labels'⟩, rfl, heq⟩ := Option.map_eq_some_iff.mp hr
    cases heq
    have hlen : l.length = b.toNat := by
      rw [readBytes] at hlabel
      split_ifs at hlabel with hinside
      cases hlabel
      rw [length_take, length_drop]
      omega
    rw [← hlen] at hpos hmax hlabel
    refine .label (by omega) hmax ?_ hlabel (hlen ▸ ih rfl)
    rw [hread, hlen, UInt8.ofNat_toNat]
  | forward => cases hr
  | jump hb hread hlow _ _ ih =>
    obtain ⟨⟨n', labels'⟩, rfl, heq⟩ := Option.map_eq_some_iff.mp hr
    cases heq
    exact .jump hb hread hlow (ih rfl)

end Alligator
