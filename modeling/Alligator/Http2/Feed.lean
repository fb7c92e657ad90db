import Alligator.Http2.Model

/-!
# Control frames take effect once

On every read the buffer is parsed from its start, and only the frame at the frontier takes
effect.  A frame in front of it has been dealt with, and one behind it has to wait until the
ACK of a SETTINGS frame could be written.  Such a frame is applied when it is first met, and
its offset is remembered, so that only the ACK is tried again.

After any reads, the frames in front of the frontier have been applied once each and in their
order, and so has the frame at the frontier if it waits for its ACK (`Free`, `Awaiting`).  Between
them, pending data may have been sent, which lowers the send windows (`Applied`).  Without
pending data the windows are those of applying the frames one after another
(`h2_frames_applied_once`).
-/

namespace Alligator

open Framing List Option BigEndian H2Windows

variable {f : H2Frame} {c : H2Carg} {r : H2Read}

/-! ## Frames in the buffer -/

namespace H2Frame

def Fits (f : H2Frame) : Prop := f.payload.length < 256 ^ 3

lemma length_wire (f : H2Frame) : f.wire.length = 9 + f.payload.length := by
  simp only [wire, length_append, length_ofNat, length_cons, length_nil]

lemma wire_pos (f : H2Frame) : 0 < f.wire.length := by
  rw [f.length_wire]
  omega

lemma wire_ne_nil (f : H2Frame) : f.wire ≠ [] := by
  refine length_pos_iff.mp ?_
  rw [f.length_wire]
  omega

def head (f : H2Frame) : Str :=
  BigEndian.ofNat 3 f.payload.length ++ [f.type, f.flags] ++ BigEndian.ofNat 4 f.stream.toNat

lemma wire_eq (f : H2Frame) : f.wire = f.head ++ f.payload := rfl

lemma length_head (f : H2Frame) : f.head.length = 9 := by
  simp only [head, length_append, length_ofNat, length_cons, length_nil]

end H2Frame

/-- What is read once the header is there. -/
lemma h2ReadFrame_head (hf : f.Fits) (tail : Str) : h2ReadFrame (f.head ++ tail) =
      if tail.length < f.payload.length then none
      else some { f with payload := tail.take f.payload.length } := by
  have hlen : toNat ((f.head ++ tail).take 3) = f.payload.length := by
    rw [H2Frame.head, append_assoc, append_assoc, take_left' (length_ofNat 3 _), toNat_ofNat hf]
  have hstream : ((f.head ++ tail).drop 5).take 4 = ofNat 4 f.stream.toNat := by
    have hfive : (ofNat 3 f.payload.length ++ [f.type, f.flags]).length = 5 := by
      simp only [length_append, length_ofNat, length_cons, length_nil]
    rw [H2Frame.head, append_assoc, drop_left' hfive, take_left' (length_ofNat 4 _)]
  have htype : (f.head ++ tail).getD 3 0 = f.type := rfl
  have hflags : (f.head ++ tail).getD 4 0 = f.flags := rfl
  have htotal : (f.head ++ tail).length = 9 + tail.length := by
    rw [length_append, f.length_head]
  rw [h2ReadFrame, if_neg (by omega)]
  rw [hlen, hstream, toNat_ofNat f.stream.toNat_lt, UInt32.ofNat_toNat, htype, hflags,
    drop_left' f.length_head]
  by_cases h : tail.length < f.payload.length
  · rw [if_pos h, if_pos (by omega)]
  · rw [if_neg h, if_neg (by omega)]

lemma h2ReadFrame_wire (hf : f.Fits) (rest : Str) : h2ReadFrame (f.wire ++ rest) = some f := by
  rw [f.wire_eq, append_assoc, h2ReadFrame_head hf, length_append, if_neg (by omega), take_left]

lemma h2ReadFrame_cut (hf : f.Fits) {b : Str} (hb : b <+: f.wire) (hne : b ≠ f.wire) :
    h2ReadFrame b = none := by
  have hlt : b.length < f.wire.length := by
    refine lt_of_le_of_ne (List.IsPrefix.length_le hb) fun heq => hne ?_
    exact List.IsPrefix.eq_of_length hb heq
  rw [f.length_wire] at hlt
  by_cases hshort : b.length < 9
  · rw [h2ReadFrame, if_pos hshort]
  · have hhead : f.head <+: b := prefix_of_prefix_length_le (prefix_append f.head _) hb
      (by rw [f.length_head]; omega)
    obtain ⟨tail, rfl⟩ := hhead
    rw [length_append, f.length_head] at hlt
    rw [h2ReadFrame_head hf, if_pos (by omega)]

/-- A frame whose padding and priority fit it. -/
def H2Frame.Intact (f : H2Frame) : Prop :=
  (f.type = h2Headers → f.sid = 1 → (h2HeaderBlock f).isSome) ∧
    (f.type = h2Data → f.sid = 1 → (h2DataPart f).isSome)

lemma H2Frame.Intact.resp (h : f.Intact) {δ : Type} (hpack : HpackDecoder δ) (st : H2RespState δ)
    (refused : Bool) : ∃ st', h2RespFrame hpack st f refused = some st' := by
  rw [h2RespFrame]
  repeat' split
  all_goals try exact ⟨_, rfl⟩
  · rename_i hh
    obtain ⟨block, hblock⟩ := isSome_iff_exists.mp (h.1 hh.1 hh.2)
    exact ⟨_, by rw [hblock]; rfl⟩
  · rename_i hd
    obtain ⟨data, hdata⟩ := isSome_iff_exists.mp (h.2 hd.1 hd.2)
    exact ⟨_, by rw [hdata]; rfl⟩

variable {fs : List H2Frame} {c : H2Carg}

section Step

variable {δ : Type} (hpack : HpackDecoder δ) (io : H2Io)

def h2Step (s : H2Feed δ) (f : H2Frame) : H2Feed δ := (h2FeedFrame hpack io s f).getD s

lemma h2FeedFrame_intact (h : f.Intact) (s : H2Feed δ) :
    h2FeedFrame hpack io s f = some (h2Step hpack io s f) := by
  have hsome : ∃ s', h2FeedFrame hpack io s f = some s' := by
    rw [h2FeedFrame]
    dsimp only
    split
    · obtain ⟨st, hst⟩ := h.resp hpack s.st false
      exact ⟨_, by rw [hst]; rfl⟩
    · split
      · rename_i c _ _
        obtain ⟨st, hst⟩ := h.resp hpack s.st (h2Frontier io s.off f c).2.2
        exact ⟨_, by rw [hst]; rfl⟩
      · obtain ⟨st, hst⟩ := h.resp hpack s.st false
        exact ⟨_, by rw [hst]; rfl⟩
  obtain ⟨s', hs'⟩ := hsome
  rw [h2Step, hs']
  rfl

lemma h2FeedOne_reads : Reads (h2FeedOne hpack io) H2Frame.wire (h2Step hpack io)
    fun _ f => f.Fits ∧ f.Intact where
  whole := by
    intro s f hok rest
    rw [h2FeedOne, h2ReadFrame_wire hok.1, f.length_wire]
    dsimp only
    rw [h2FeedFrame_intact hpack io hok.2]
  cut := by
    intro s f b hok hb hne
    rw [h2FeedOne, h2ReadFrame_cut hok.1 hb hne]
  nothing _ := rfl
  wire_ne := H2Frame.wire_ne_nil

lemma h2Step_off (h : f.Intact) {s : H2Feed δ} (hc : s.carg = some c) (hoff : s.off ≠ s.commit) :
    (h2Step hpack io s f).off = s.off + f.wire.length ∧ (h2Step hpack io s f).carg = some c ∧
      (h2Step hpack io s f).commit = s.commit := by
  obtain ⟨st, hst⟩ := h.resp hpack s.st false
  rw [h2Step, h2FeedFrame, hc]
  dsimp only
  rw [if_neg hoff, hst, f.length_wire, ← add_assoc]
  exact ⟨rfl, rfl, rfl⟩

lemma h2Step_frontier (h : f.Intact) {s : H2Feed δ}
    (hc : s.carg = some c) (hoff : s.off = s.commit) :
    (h2Step hpack io s f).off = s.off + f.wire.length ∧
      (h2Step hpack io s f).carg = some (h2Frontier io s.off f c).1 ∧ (h2Step hpack io s f).commit =
        if (h2Frontier io s.off f c).2.1 then s.commit else s.off + f.wire.length := by
  obtain ⟨st, hst⟩ := h.resp hpack s.st (h2Frontier io s.off f c).2.2
  rw [h2Step, h2FeedFrame, hc]
  dsimp only
  rw [if_pos hoff, hst, f.length_wire, ← add_assoc]
  exact ⟨rfl, rfl, rfl⟩

def wireLength (fs : List H2Frame) : Nat := (fs.flatMap H2Frame.wire).length

lemma wireLength_cons (f : H2Frame) (fs : List H2Frame) :
    wireLength (f :: fs) = f.wire.length + wireLength fs := by
  rw [wireLength, flatMap_cons, length_append]
  rfl

lemma wireLength_append (fs gs : List H2Frame) :
    wireLength (fs ++ gs) = wireLength fs + wireLength gs := by
  rw [wireLength, flatMap_append, length_append]
  rfl

/-- Frames in front of the frontier or behind it. -/
lemma foldl_h2Step_off {s : H2Feed δ} (hfs : ∀ f ∈ fs, f.Intact) (hc : s.carg = some c)
    (hoff : s.off + wireLength fs ≤ s.commit ∨ s.commit < s.off) :
    (fs.foldl (h2Step hpack io) s).off = s.off + wireLength fs ∧
      (fs.foldl (h2Step hpack io) s).carg = some c ∧
      (fs.foldl (h2Step hpack io) s).commit = s.commit := by
  induction fs generalizing s c with
  | nil => exact ⟨rfl, hc, rfl⟩
  | cons f fs ih =>
    have hpos := f.wire_pos
    rw [wireLength_cons] at hoff
    obtain ⟨h1, h2, h3⟩ := h2Step_off hpack io (hfs f mem_cons_self) hc (by omega)
    have := ih (forall_mem_cons.1 hfs).2 h2 (by rw [h1, h3]; omega)
    rw [h1, h3] at this
    rwa [wireLength_cons, ← add_assoc]

end Step

/-! ## What frames do to the windows -/

def H2Frame.increment (f : H2Frame) : Nat := BigEndian.toNat (f.payload.take 4) % 2 ^ 31

/-- The windows after a frame, taken for itself. -/
def H2Windows.applyFrame (w : H2Windows) (f : H2Frame) : H2Windows :=
  if f.type = h2Settings ∧ f.sid = 0 then
    if f.has h2EndStream then w else (h2ApplyPeerSettings w f.payload).1
  else if f.type = h2WindowUpdate then
    if f.payload.length < 4 then w
    else if f.sid = 0 then
      { w with connSend := (h2WindowAdd w.connSend f.increment).getD w.connSend }
    else if f.sid = 1 then
      { w with streamSend := (h2WindowAdd w.streamSend f.increment).getD w.streamSend }
    else w
  else if f.type = h2Data ∧ f.sid = 1 then
    if w.connRecv < f.payload.length ∨ w.streamRecv < f.payload.length then w
    else
      { w with
        connRecv := w.connRecv - f.payload.length
        streamRecv := w.streamRecv - f.payload.length }
  else w

/-- The bytes of an event that count against the windows. -/
def H2Event.sent : H2Event → Nat
  | .wrote f _ => if f.type = h2Data then f.payload.length else 0
  | .increment _ _ => 0

def sentBytes (events : List H2Event) : Nat := (events.map H2Event.sent).sum

lemma sentBytes_append (a b : List H2Event) : sentBytes (a ++ b) = sentBytes a + sentBytes b := by
  rw [sentBytes, map_append, sum_append]
  rfl

/-- A frame that waits for its ACK to be written. -/
def H2Frame.Awaits (f : H2Frame) : Prop :=
  f.type = h2Settings ∧ f.sid = 0 ∧ f.has h2EndStream = false

/-- What the frames at the frontier leave alone: the body, the buffer, and what was sent of
the body. -/
structure SameBody (c c' : H2Carg) : Prop where
  sendBody : c'.sendBody = c.sendBody
  sendBodyOff : c'.sendBodyOff = c.sendBodyOff
  fullBody : c'.fullBody = c.fullBody
  inited : c'.recvWindowInited = c.recvWindowInited
  sent : sentBytes c'.events = sentBytes c.events

lemma SameBody.refl (c : H2Carg) : SameBody c c := ⟨rfl, rfl, rfl, rfl, rfl⟩

lemma SameBody.trans {c1 c2 : H2Carg} (h : SameBody c c1) (h' : SameBody c1 c2) : SameBody c c2 :=
  ⟨h'.sendBody.trans h.sendBody, h'.sendBodyOff.trans h.sendBodyOff, h'.fullBody.trans h.fullBody,
    h'.inited.trans h.inited, h'.sent.trans h.sent⟩

lemma SameBody.wrote (c : H2Carg) (hf : f.type ≠ h2Data) : SameBody c (c.wrote f) := by
  refine ⟨rfl, rfl, rfl, rfl, ?_⟩
  rw [H2Carg.wrote, sentBytes_append]
  simp [sentBytes, H2Event.sent, hf]

/-- A frame at the frontier that has no ACK to wait for. -/
structure Passed (f : H2Frame) (c c' : H2Carg) : Prop where
  same : SameBody c c'
  win : c'.win = c.win.applyFrame f
  valid : c'.settingsApplyValid = c.settingsApplyValid
  place : c'.settingsApplyOff = c.settingsApplyOff

lemma h2FeedPing_passed (io : H2Io) (off : Nat) (hf : f.type = h2Ping) (c : H2Carg) :
    Passed f c (h2FeedPing io off f c) := by
  have hwin : c.win.applyFrame f = c.win := by
    rw [applyFrame, hf, if_neg (fun h => absurd h.1 (by decide)), if_neg (by decide),
      if_neg (fun h => absurd h.1 (by decide))]
  rw [h2FeedPing]
  split
  · exact ⟨.refl c, hwin.symm, rfl, rfl⟩
  · split
    · exact ⟨.wrote c (show h2Ping ≠ h2Data by decide), hwin.symm, rfl, rfl⟩
    · exact ⟨.refl c, hwin.symm, rfl, rfl⟩

lemma SameBody.increment (c : H2Carg) (w : H2Windows) (sid n : Nat) :
    SameBody c { c with win := w, events := c.events ++ [.increment sid n] } := by
  refine ⟨rfl, rfl, rfl, rfl, ?_⟩
  rw [sentBytes_append]
  rfl

lemma h2FeedWindowUpdate_passed (hf : f.type = h2WindowUpdate) (c : H2Carg) :
    Passed f c (h2FeedWindowUpdate f c).1 := by
  have hwin : c.win.applyFrame f =
      if f.payload.length < 4 then c.win
      else if f.sid = 0 then
        { c.win with connSend := (h2WindowAdd c.win.connSend f.increment).getD c.win.connSend }
      else if f.sid = 1 then
        { c.win with
          streamSend := (h2WindowAdd c.win.streamSend f.increment).getD c.win.streamSend }
      else c.win := by
    rw [applyFrame, hf, if_neg (fun h => absurd h.1 (by decide)), if_pos rfl]
  have hzero : ∀ win, f.increment = 0 → (h2WindowAdd win f.increment).getD win = win := by
    intro win h
    rw [h2WindowAdd, if_pos h]
    rfl
  rw [h2FeedWindowUpdate]
  by_cases hlen : f.payload.length < 4
  · rw [if_pos hlen] at hwin ⊢
    exact ⟨.refl c, hwin.symm, rfl, rfl⟩
  · rw [if_neg hlen] at hwin ⊢
    rw [← H2Frame.increment]
    by_cases hincr : f.increment = 0
    · rw [hzero _ hincr, hzero _ hincr] at hwin
      rw [if_pos hincr]
      refine ⟨.refl c, ?_, rfl, rfl⟩
      rw [hwin]
      split
      · rfl
      · split <;> rfl
    · rw [if_neg hincr]
      by_cases h0 : f.sid = 0
      · rw [if_pos h0] at hwin ⊢
        split <;> rename_i hadd <;> rw [hadd] at hwin
        all_goals exact ⟨.increment c _ _ _, hwin.symm, rfl, rfl⟩
      · rw [if_neg h0] at hwin ⊢
        by_cases h1 : f.sid = 1
        · rw [if_pos h1] at hwin ⊢
          split <;> rename_i hadd <;> rw [hadd] at hwin
          all_goals exact ⟨.increment c _ _ _, hwin.symm, rfl, rfl⟩
        · rw [if_neg h1] at hwin ⊢
          exact ⟨.refl c, hwin.symm, rfl, rfl⟩

lemma h2FeedData_passed (hf : f.type = h2Data) (hsid : f.sid = 1) (c : H2Carg) :
    Passed f c (h2FeedData f c).1 := by
  have hwin : c.win.applyFrame f =
      if c.win.connRecv < f.payload.length ∨ c.win.streamRecv < f.payload.length then c.win
      else
        { c.win with
          connRecv := c.win.connRecv - f.payload.length
          streamRecv := c.win.streamRecv - f.payload.length } := by
    rw [applyFrame, hf, if_neg (fun h => absurd h.1 (by decide)), if_neg (by decide),
      if_pos ⟨rfl, hsid⟩]
  rw [h2FeedData]
  by_cases hzero : f.payload.length = 0
  · rw [if_pos hzero]
    refine ⟨.refl c, ?_, rfl, rfl⟩
    rw [hwin, hzero]
    split
    · rfl
    · rw [Int.natCast_zero, sub_zero, sub_zero]
  · rw [if_neg hzero]
    split
    · rename_i hover
      rw [if_pos hover] at hwin
      exact ⟨.refl c, hwin.symm, rfl, rfl⟩
    · rename_i hover
      rw [if_neg hover] at hwin
      exact ⟨⟨rfl, rfl, rfl, rfl, rfl⟩, hwin.symm, rfl, rfl⟩

/-- A frame without ACK to wait for passes the frontier. -/
lemma h2Frontier_passed (io : H2Io) (off : Nat) (hf : ¬f.Awaits) (c : H2Carg) :
    Passed f c (h2Frontier io off f c).1 ∧ (h2Frontier io off f c).2.1 = false := by
  rw [h2Frontier]
  by_cases hset : f.type = h2Settings ∧ f.sid = 0
  · have hack : f.has h2EndStream = true := by
      by_contra h
      exact hf ⟨hset.1, hset.2, Bool.eq_false_iff.mpr h⟩
    rw [if_pos hset, h2FeedSettings, if_pos hack]
    refine ⟨⟨.refl c, ?_, rfl, rfl⟩, rfl⟩
    rw [applyFrame, if_pos hset, if_pos hack]
  · rw [if_neg hset]
    by_cases hping : f.type = h2Ping ∧ f.sid = 0
    · rw [if_pos hping]
      exact ⟨h2FeedPing_passed io off hping.1 c, rfl⟩
    · rw [if_neg hping]
      by_cases hupd : f.type = h2WindowUpdate
      · rw [if_pos hupd]
        exact ⟨h2FeedWindowUpdate_passed hupd c, rfl⟩
      · rw [if_neg hupd]
        by_cases hdata : f.type = h2Data ∧ f.sid = 1
        · rw [if_pos hdata]
          exact ⟨h2FeedData_passed hdata.1 hdata.2 c, rfl⟩
        · rw [if_neg hdata]
          refine ⟨⟨.refl c, ?_, rfl, rfl⟩, rfl⟩
          rw [applyFrame, if_neg hset, if_neg hupd, if_neg hdata]

/-- A SETTINGS frame at the frontier: it is applied unless it already was, and passes if its
ACK could be written. -/
lemma h2Frontier_awaits (io : H2Io) (off : Nat) (hf : f.Awaits) (c : H2Carg) :
    let c' := (h2Frontier io off f c).1
    SameBody c c' ∧ c'.settingsApplyValid = true ∧ c'.settingsApplyOff = off ∧
      (h2Frontier io off f c).2.1 = !io.ack off ∧
      c'.win = if c.settingsApplyValid = true ∧ c.settingsApplyOff = off then c.win
        else c.win.applyFrame f := by
  obtain ⟨htype, hsid, hack⟩ := hf
  have hwin : c.win.applyFrame f = (h2ApplyPeerSettings c.win f.payload).1 := by
    rw [applyFrame, if_pos ⟨htype, hsid⟩, if_neg (by rw [hack]; decide)]
  have hwrote : ∀ c : H2Carg, SameBody c (h2SendSettingsAck io off c).1 ∧
      (h2SendSettingsAck io off c).1.settingsApplyValid = c.settingsApplyValid ∧
      (h2SendSettingsAck io off c).1.settingsApplyOff = c.settingsApplyOff ∧
      (h2SendSettingsAck io off c).1.win = c.win ∧ (h2SendSettingsAck io off c).2 = io.ack off := by
    intro c
    rw [h2SendSettingsAck]
    cases h : io.ack off with
    | true =>
      obtain ⟨h1, h2, h3, h4, h5⟩ := SameBody.wrote c
        (show (⟨h2Settings, h2EndStream, 0, []⟩ : H2Frame).type ≠ h2Data by decide)
      exact ⟨⟨h1, h2, h3, h4, h5⟩, rfl, rfl, rfl, rfl⟩
    | false => exact ⟨.refl c, rfl, rfl, rfl, rfl⟩
  rw [h2Frontier, if_pos ⟨htype, hsid⟩, h2FeedSettings, if_neg (by rw [hack]; decide)]
  by_cases happlied : c.settingsApplyValid = true ∧ c.settingsApplyOff = off
  · obtain ⟨hsame, hvalid, hplace, hw, hsent⟩ := hwrote c
    have hcond : ¬(!c.settingsApplyValid || c.settingsApplyOff != off) = true := by
      rw [happlied.1, happlied.2]
      simp
    simp only [if_neg hcond, if_pos happlied]
    exact ⟨hsame, hvalid.trans happlied.1, hplace.trans happlied.2, congrArg _ hsent, hw⟩
  · obtain ⟨hsame, hvalid, hplace, hw, hsent⟩ := hwrote { c with
      win := (h2ApplyPeerSettings c.win f.payload).1
      settingsApplyValid := true
      settingsApplyOff := off }
    have hcond : (!c.settingsApplyValid || c.settingsApplyOff != off) = true := by
      rw [Bool.or_eq_true, Bool.not_eq_true', bne_iff_ne]
      by_contra h
      rw [not_or, not_not, Bool.not_eq_false] at h
      exact happlied h
    simp only [if_pos hcond, if_neg happlied]
    refine ⟨⟨hsame.sendBody, hsame.sendBodyOff, hsame.fullBody, hsame.inited, hsame.sent⟩, hvalid,
      hplace, congrArg _ hsent, ?_⟩
    rw [hw, hwin]

/-! ## The frontier -/

/-- The windows after some data was sent. -/
def H2Windows.lower (w : H2Windows) (k : Nat) : H2Windows :=
  { w with connSend := w.connSend - k, streamSend := w.streamSend - k }

lemma H2Windows.lower_zero (w : H2Windows) : w.lower 0 = w := by
  rw [lower, Int.natCast_zero, sub_zero, sub_zero]

lemma H2Windows.lower_lower (w : H2Windows) (k l : Nat) :
    (w.lower k).lower l = w.lower (k + l) := by
  simp only [lower, Int.natCast_add, Int.sub_sub]

/-- The windows after frames that were applied once each and in their order, with data sent
in between. -/
inductive Applied (w : H2Windows) : List H2Frame → H2Windows → Nat → Prop where
  | start : Applied w [] w 0
  | frame {fs : List H2Frame} {w' : H2Windows} {n : Nat} (f : H2Frame) (h : Applied w fs w' n) :
      Applied w (fs ++ [f]) (w'.applyFrame f) n
  | sent {fs : List H2Frame} {w' : H2Windows} {n : Nat} (k : Nat) (h : Applied w fs w' n) :
      Applied w fs (w'.lower k) (n + k)

lemma Applied.eq_foldl {w w' : H2Windows} {n : Nat} (h : Applied w fs w' n)
    (hn : n = 0) : w' = fs.foldl applyFrame w := by
  induction h with
  | start => rfl
  | frame f _ ih => rw [foldl_append, ← ih hn, foldl_cons, foldl_nil]
  | sent k _ ih =>
    obtain ⟨hn, rfl⟩ := Nat.add_eq_zero_iff.mp hn
    rw [← ih hn, lower_zero]

/-- All frames in front of the frontier are applied, and no other one. -/
structure Free (w : H2Windows) (n : Nat) (done : List H2Frame) (c : H2Carg) (commit : Nat) :
    Prop where
  applied : Applied w done c.win n
  place : c.settingsApplyValid = true → c.settingsApplyOff < commit

/-- The frame at the frontier is applied too, but its ACK is missing. -/
structure Awaiting (w : H2Windows) (n : Nat) (done : List H2Frame) (f : H2Frame) (c : H2Carg)
    (commit : Nat) : Prop where
  awaits : f.Awaits
  applied : Applied w (done ++ [f]) c.win n
  valid : c.settingsApplyValid = true
  place : c.settingsApplyOff = commit

/-- How far the frames `done ++ rest` in the buffer have been dealt with. -/
def Standing (w : H2Windows) (n : Nat) (done rest : List H2Frame) (c : H2Carg) (commit : Nat) :
    Prop :=
  match rest with
  | [] => Free w n done c commit
  | f :: _ => Awaiting w n done f c commit

section Frontier

variable {δ : Type} (hpack : HpackDecoder δ) (io : H2Io) {w : H2Windows} {n : Nat}

/-- Of the frames `fs` behind `done` some are dealt with in `s`, all if every ACK is sent. -/
def Passes (io : H2Io) (w : H2Windows) (n : Nat) (done fs : List H2Frame) (c : H2Carg)
    (commit : Nat) (s : H2Feed δ) : Prop :=
  ∃ taken rest c', fs = taken ++ rest ∧ s.carg = some c' ∧ s.commit = commit + wireLength taken ∧
    SameBody c c' ∧ Standing w n (done ++ taken) rest c' (commit + wireLength taken) ∧
    ((∀ off, io.ack off = true) → rest = [])

variable {io} in
/-- The frontier moves behind a frame. -/
lemma Passes.cons {s : H2Feed δ} {done : List H2Frame} {c1 : H2Carg} {commit : Nat}
    (hsame : SameBody c c1) (h : Passes io w n (done ++ [f]) fs c1 (commit + f.wire.length) s) :
    Passes io w n done (f :: fs) c commit s := by
  obtain ⟨taken, rest, c', rfl, hc', hcommit, hsame', hstand, hall⟩ := h
  rw [add_assoc, ← wireLength_cons] at hcommit hstand
  rw [append_assoc] at hstand
  exact ⟨f :: taken, rest, c', rfl, hc', hcommit, hsame.trans hsame', hstand, hall⟩

/-- A frame that is answered: with the answer sent it is passed, else it stands at the frontier. -/
lemma passes_awaits {s : H2Feed δ} {done : List H2Frame} (hf : f.Awaits)
    (hfs : ∀ g ∈ f :: fs, g.Intact) (hc : s.carg = some c) (hoff : s.off = s.commit)
    (happlied : Applied w (done ++ [f]) (h2Frontier io s.off f c).1.win n)
    (hrest : ∀ {s : H2Feed δ} {c}, s.carg = some c → s.off = s.commit →
      Free w n (done ++ [f]) c s.commit →
      Passes io w n (done ++ [f]) fs c s.commit (fs.foldl (h2Step hpack io) s)) :
    Passes io w n done (f :: fs) c s.commit ((f :: fs).foldl (h2Step hpack io) s) := by
  have hpos := f.wire_pos
  obtain ⟨h1, h2, h3⟩ := h2Step_frontier hpack io (hfs f mem_cons_self) hc hoff
  obtain ⟨hsame, hvalid, hplace, hblock, -⟩ := h2Frontier_awaits io s.off hf c
  cases hack : io.ack s.off with
  | true =>
    rw [hblock, hack, Bool.not_true, if_neg Bool.false_ne_true] at h3
    have hrest := hrest h2 (h1.trans h3.symm) ⟨happlied, fun _ => by rw [h3]; omega⟩
    rw [h3, hoff] at hrest
    exact hrest.cons (hoff ▸ hsame)
  | false =>
    rw [hblock, hack, Bool.not_false, if_pos rfl] at h3
    obtain ⟨-, h4, h5⟩ := foldl_h2Step_off hpack io (forall_mem_cons.1 hfs).2 h2
      (.inr (by rw [h1, h3]; omega))
    refine ⟨[], f :: fs, _, rfl, h4, h5.trans h3, hsame, ?_, fun hall => ?_⟩
    · rw [append_nil]
      exact ⟨hf, happlied, hvalid, hplace.trans hoff⟩
    · rw [hall] at hack
      cases hack

/-- From a free frontier on, the frames take effect up to the first whose ACK fails. -/
lemma foldl_h2Step_free {s : H2Feed δ} {done : List H2Frame}
    (hfs : ∀ f ∈ fs, f.Intact) (hc : s.carg = some c) (hoff : s.off = s.commit)
    (hfree : Free w n done c s.commit) :
    Passes io w n done fs c s.commit (fs.foldl (h2Step hpack io) s) := by
  induction fs generalizing s c done with
  | nil =>
    refine ⟨[], [], c, rfl, hc, rfl, .refl c, ?_, fun _ => rfl⟩
    rw [append_nil]
    exact hfree
  | cons f fs ih =>
    have hfs' : ∀ g ∈ fs, g.Intact := (forall_mem_cons.1 hfs).2
    by_cases hf : f.Awaits
    · obtain ⟨-, -, -, -, hwin⟩ := h2Frontier_awaits io s.off hf c
      have hnew : ¬(c.settingsApplyValid = true ∧ c.settingsApplyOff = s.off) := by
        rintro ⟨hv, hp⟩
        have := hfree.place hv
        omega
      rw [if_neg hnew] at hwin
      refine passes_awaits hpack io hf hfs hc hoff ?_ (ih hfs')
      rw [hwin]
      exact hfree.applied.frame f
    · -- the frontier moves behind the frame
      obtain ⟨h1, h2, h3⟩ := h2Step_frontier hpack io (hfs f mem_cons_self) hc hoff
      obtain ⟨hpassed, hblock⟩ := h2Frontier_passed io s.off hf c
      rw [hblock, if_neg Bool.false_ne_true] at h3
      have hfree' : Free w n (done ++ [f]) (h2Frontier io s.off f c).1
          (h2Step hpack io s f).commit := by
        refine ⟨?_, fun hv => ?_⟩
        · rw [hpassed.win]
          exact hfree.applied.frame f
        · rw [hpassed.valid] at hv
          have := hfree.place hv
          rw [hpassed.place, h3]
          omega
      have hrest := ih hfs' h2 (h1.trans h3.symm) hfree'
      rw [h3, hoff] at hrest
      exact hrest.cons (hoff ▸ hpassed.same)

/-- From the frontier on, whether it is free or held. -/
lemma foldl_h2Step_standing {s : H2Feed δ}
    {done rest more : List H2Frame} (hfs : fs = rest ++ more) (hintact : ∀ f ∈ fs, f.Intact)
    (hc : s.carg = some c) (hoff : s.off = s.commit) (hstand : Standing w n done rest c s.commit) :
    Passes io w n done fs c s.commit (fs.foldl (h2Step hpack io) s) := by
  cases rest with
  | nil => exact foldl_h2Step_free hpack io hintact hc hoff hstand
  | cons f rest =>
    subst hfs
    obtain ⟨-, -, -, -, hwin⟩ := h2Frontier_awaits io s.off hstand.awaits c
    rw [if_pos ⟨hstand.valid, hstand.place.trans hoff.symm⟩] at hwin
    refine passes_awaits hpack io hstand.awaits hintact hc hoff ?_
      (foldl_h2Step_free hpack io (forall_mem_cons.1 hintact).2)
    rw [hwin]
    exact hstand.applied

end Frontier

/-! ## Sending -/

/-- What sending some of the body does. -/
structure Flushed (k : Nat) (c c' : H2Carg) : Prop where
  win : c'.win = c.win.lower k
  sent : sentBytes c'.events = sentBytes c.events + k
  fullBody : c'.fullBody = c.fullBody
  feedOffset : c'.feedOffset = c.feedOffset
  inited : c'.recvWindowInited = c.recvWindowInited
  valid : c'.settingsApplyValid = c.settingsApplyValid
  place : c'.settingsApplyOff = c.settingsApplyOff

lemma Flushed.refl (c : H2Carg) : Flushed 0 c c := by
  exact ⟨c.win.lower_zero.symm, rfl, rfl, rfl, rfl, rfl, rfl⟩

lemma h2FlushLoop_flushed (io : H2Io) (body : Str) (maxFrame fuel : Nat) (c : H2Carg) :
    ∃ k, Flushed k c (h2FlushLoop io body maxFrame fuel c) := by
  induction fuel generalizing c with
  | zero => exact ⟨0, .refl c⟩
  | succ fuel ih =>
    rw [h2FlushLoop]
    by_cases hoff : c.sendBodyOff < body.length
    · rw [if_pos hoff]
      by_cases havail : min c.win.connSend c.win.streamSend ≤ 0
      · rw [if_pos havail]
        exact ⟨0, .refl c⟩
      · rw [if_neg havail]
        by_cases hio : io.data c.sendBodyOff = true
        · rw [if_pos hio]
          generalize hchunk : min (min (body.length - c.sendBodyOff)
            (min c.win.connSend c.win.streamSend).toNat) maxFrame = chunk
          obtain ⟨k, h⟩ := ih { c.wrote ⟨h2Data,
            if body.length ≤ c.sendBodyOff + chunk then h2EndStream else 0, 1,
            (body.drop c.sendBodyOff).take chunk⟩ with
              sendBodyOff := c.sendBodyOff + chunk
              win := c.win.lower chunk }
          have hlen : ((body.drop c.sendBodyOff).take chunk).length = chunk := by
            rw [length_take, length_drop]
            omega
          refine ⟨chunk + k, ?_, ?_, h.fullBody, h.feedOffset, h.inited, h.valid, h.place⟩
          · exact h.win.trans (c.win.lower_lower chunk k)
          · refine h.sent.trans ?_
            dsimp only [H2Carg.wrote]
            rw [sentBytes_append, add_assoc]
            simp [sentBytes, H2Event.sent, hlen]
        · rw [if_neg hio]
          exact ⟨0, .refl c⟩
    · rw [if_neg hoff]
      exact ⟨0, .refl c⟩

lemma h2FlushPendingData_flushed (io : H2Io) (c : H2Carg) :
    ∃ k, Flushed k c (h2FlushPendingData io c) ∧
      (c.sendBody = none → k = 0 ∧ (h2FlushPendingData io c).sendBody = none) := by
  rw [h2FlushPendingData]
  cases hbody : c.sendBody with
  | none => exact ⟨0, .refl c, fun _ => ⟨rfl, hbody⟩⟩
  | some body =>
    dsimp only
    cases hlive : io.live with
    | false => exact ⟨0, .refl c, fun h => by cases h⟩
    | true =>
      rw [Bool.not_true, if_neg Bool.false_ne_true]
      generalize min (if c.win.peerMaxFrame = 0 then h2DefaultMaxFrameSize
        else c.win.peerMaxFrame) h2DefaultMaxFrameSize = maxFrame
      obtain ⟨k, h⟩ := h2FlushLoop_flushed io body maxFrame (body.length + 1) c
      split
      · exact ⟨k, ⟨h.win, h.sent, h.fullBody, h.feedOffset, h.inited, h.valid, h.place⟩,
          fun h => by cases h⟩
      · exact ⟨k, h, fun h => by cases h⟩

/-! ## Reads -/

/-- How far the frames `fs` have been received and dealt with: those in `done` are, and those
in `rest` wait for the first of them. -/
structure Caught (w : H2Windows) (c0 : H2Carg) (fs done rest : List H2Frame) (c : H2Carg) :
    Prop where
  buffer : ∃ todo part, fs = done ++ rest ++ todo ∧
    c.fullBody = (done ++ rest).flatMap H2Frame.wire ++ part ∧ Waits H2Frame.wire todo part
  feedOffset : c.feedOffset = wireLength done
  standing : ∃ n, Standing w n done rest c (wireLength done) ∧
    sentBytes c.events = sentBytes c0.events + n ∧ (c0.sendBody = none → c.sendBody = none ∧ n = 0)
  inited : c.recvWindowInited = true

lemma H2Carg.initWindows_of_inited (h : c.recvWindowInited = true) : c.initWindows = c := by
  rw [initWindows, if_pos h]

variable {done rest : List H2Frame}

lemma Standing.flushed {w : H2Windows} {n k : Nat} {c' : H2Carg}
    {commit : Nat} (h : Standing w n done rest c commit) (hf : Flushed k c c') :
    Standing w (n + k) done rest c' commit := by
  cases rest with
  | nil =>
    refine ⟨?_, fun hv => ?_⟩
    · rw [hf.win]
      exact h.applied.sent k
    · rw [hf.valid] at hv
      rw [hf.place]
      exact h.place hv
  | cons f rest =>
    refine ⟨h.awaits, ?_, hf.valid.trans h.valid, hf.place.trans h.place⟩
    rw [hf.win]
    exact h.applied.sent k

section Run

variable {δ : Type} (hpack : HpackDecoder δ) {w : H2Windows} {c0 : H2Carg} {fs : List H2Frame}

lemma Caught.read (h : Caught w c0 fs done rest c)
    (hfs : ∀ f ∈ fs, f.Fits ∧ f.Intact) (hb : c.fullBody ++ r.bytes <+: fs.flatMap H2Frame.wire)
    (hcap : (c.fullBody ++ r.bytes).length ≤ h2MaxResponseWire) :
    ∃ done' rest', Caught w c0 fs done' rest' (c.read hpack r) ∧ done <+: done' ∧
      (c.read hpack r).fullBody = c.fullBody ++ r.bytes ∧
      ((∀ off, r.io.ack off = true) → rest' = []) := by
  obtain ⟨todo, part, hsplit, hbuf, hw⟩ := h.buffer
  obtain ⟨n, hstand, hsent, hnone⟩ := h.standing
  obtain ⟨c1, hc1⟩ : ∃ c1, c1 = { c with fullBody := c.fullBody ++ r.bytes } := ⟨_, rfl⟩
  obtain ⟨s0, hs0⟩ : ∃ s0 : H2Feed δ, s0 = ⟨0, .init hpack none, some c1, c1.feedOffset⟩ := ⟨_, rfl⟩
  obtain ⟨done2, todo2, part2, hsplit2, hbuf2, hw2, hdrain⟩ := drain_frames
    (h2FeedOne_reads hpack r.io) (AllOk.of_forall hfs s0) hb (le_refl _)
  -- the frames seen before are whole again
  obtain ⟨more, rfl⟩ : done ++ rest <+: done2 := by
    refine hw2.covers (by rw [← hsplit2, hsplit]; exact prefix_append _ _) ?_
    rw [← hbuf2, hbuf, length_append, length_append]
    omega
  have hintact : ∀ f ∈ done ++ rest ++ more, f.Intact := by
    intro f hf
    exact (hfs f (by rw [hsplit2]; exact mem_append_left _ hf)).2
  have hcommit0 : s0.commit = wireLength done := by
    rw [hs0, hc1, ← h.feedOffset]
  have hoff0 : s0.off + wireLength done = wireLength done := by
    rw [hs0, zero_add]
  obtain ⟨hoff, hcarg, hcommit⟩ := foldl_h2Step_off hpack r.io
    (fun f hf => hintact f (mem_append_left _ (mem_append_left _ hf)))
    (show s0.carg = some c1 by rw [hs0]) (.inl (by rw [hoff0, hcommit0]))
  rw [hoff0] at hoff
  rw [hcommit0] at hcommit
  obtain ⟨taken, rest', c', hmore, hc', hcommit', hsame, hstand', hall⟩ :=
    foldl_h2Step_standing hpack r.io (show rest ++ more = rest ++ more from rfl)
      (fun f hf => hintact f (by rw [append_assoc]; exact mem_append_right _ hf)) hcarg
      (hoff.trans hcommit.symm) (show Standing w n done rest c1 _ by
        rw [hcommit, hc1]
        cases rest with
        | nil => exact ⟨hstand.applied, hstand.place⟩
        | cons f rest => exact ⟨hstand.awaits, hstand.applied, hstand.valid, hstand.place⟩)
  rw [hcommit, ← wireLength_append] at hcommit' hstand'
  rw [append_assoc, foldl_append] at hdrain
  obtain ⟨k, hflushed, hflushnone⟩ := h2FlushPendingData_flushed r.io
    { c' with feedOffset := wireLength (done ++ taken) }
  have hall2 : done ++ rest ++ more = done ++ taken ++ rest' := by
    rw [append_assoc, hmore, append_assoc]
  have hread : c.read hpack r =
      h2FlushPendingData r.io { c' with feedOffset := wireLength (done ++ taken) } := by
    rw [H2Carg.read, ← hc1, otlpGrpcExpectComplete, if_neg (by rw [hc1]; exact not_lt.mpr hcap)]
    dsimp only
    rw [H2Carg.initWindows_of_inited (by rw [hc1]; exact h.inited), h2FeedFrames, ← hs0, hc1]
    rw [hdrain]
    rw [hc', hcommit', if_pos rfl]
    rfl
  have hbody : (c.read hpack r).fullBody = c.fullBody ++ r.bytes := by
    rw [hread, hflushed.fullBody]
    rw [hsame.fullBody, hc1]
  refine ⟨done ++ taken, rest', ⟨⟨todo2, part2, ?_, ?_, hw2⟩, ?_, ⟨n + k, ?_, ?_, ?_⟩, ?_⟩,
    prefix_append _ _, hbody, hall⟩
  · rw [hsplit2, hall2]
  · rw [hbody, hbuf2, hall2]
  · rw [hread, hflushed.feedOffset]
  · rw [hread]
    refine Standing.flushed ?_ hflushed
    cases rest' with
    | nil => exact ⟨hstand'.applied, hstand'.place⟩
    | cons f rest' => exact ⟨hstand'.awaits, hstand'.applied, hstand'.valid, hstand'.place⟩
  · rw [hread, hflushed.sent, ← add_assoc, ← hsent]
    rw [hsame.sent, hc1]
  · intro hno
    obtain ⟨hsend, rfl⟩ := hnone hno
    have hsend' : c'.sendBody = none := by
      rw [hsame.sendBody, hc1]
      exact hsend
    obtain ⟨rfl, hflush⟩ := hflushnone hsend'
    exact ⟨hread ▸ hflush, rfl⟩
  · rw [hread, hflushed.inited]
    rw [hsame.inited, hc1]
    exact h.inited

lemma Caught.reads (hfs : ∀ f ∈ fs, f.Fits ∧ f.Intact)
    (hcap : wireLength fs ≤ h2MaxResponseWire) {rs : List H2Read} (h : Caught w c0 fs done rest c)
    (hb : c.fullBody ++ rs.flatMap H2Read.bytes <+: fs.flatMap H2Frame.wire) :
    ∃ done' rest', Caught w c0 fs done' rest' (c.reads hpack rs) ∧ done <+: done' ∧
        (c.reads hpack rs).fullBody = c.fullBody ++ rs.flatMap H2Read.bytes := by
  induction rs generalizing done rest c with
  | nil =>
    exact ⟨done, rest, h, prefix_rfl, (append_nil _).symm⟩
  | cons r rs ih =>
    rw [flatMap_cons, ← append_assoc] at hb
    have hb1 : c.fullBody ++ r.bytes <+: fs.flatMap H2Frame.wire := (prefix_append _ _).trans hb
    obtain ⟨done1, rest1, h1, hle1, hbody1, -⟩ := h.read hpack hfs hb1
      ((List.IsPrefix.length_le hb1).trans hcap)
    obtain ⟨done', rest', h', hle', hbody'⟩ := ih h1 (by rw [hbody1]; exact hb)
    refine ⟨done', rest', h', hle1.trans hle', ?_⟩
    rw [hbody1] at hbody'
    rw [flatMap_cons, ← append_assoc]
    exact hbody'

/-- A connection that has received nothing yet. -/
lemma caught_start (hbody : c.fullBody = []) (hoff : c.feedOffset = 0)
    (hvalid : c.settingsApplyValid = false) :
    Caught c.initWindows.win c fs [] [] c.initWindows := by
  have hsame : c.initWindows.fullBody = c.fullBody ∧ c.initWindows.feedOffset = c.feedOffset ∧
      c.initWindows.settingsApplyValid = c.settingsApplyValid ∧
      c.initWindows.events = c.events ∧ c.initWindows.sendBody = c.sendBody ∧
      c.initWindows.recvWindowInited = true := by
    rw [H2Carg.initWindows]
    split
    · rename_i h
      exact ⟨rfl, rfl, rfl, rfl, rfl, h⟩
    · exact ⟨rfl, rfl, rfl, rfl, rfl, rfl⟩
  obtain ⟨hb, ho, hv, he, hs, hi⟩ := hsame
  refine ⟨⟨fs, [], rfl, hb.trans hbody, ?_⟩, ho.trans hoff,
    ⟨0, ⟨.start, fun h => ?_⟩, ?_, fun hn => ?_⟩, hi⟩
  · cases fs with
    | nil => rfl
    | cons f fs => exact ⟨List.nil_prefix, f.wire_ne_nil.symm⟩
  · rw [hv, hvalid] at h
    cases h
  · rw [he]
    rfl
  · exact ⟨hs.trans hn, rfl⟩

lemma H2Carg.initWindows_twice (c : H2Carg) : c.initWindows.initWindows = c.initWindows := by
  refine initWindows_of_inited ?_
  rw [initWindows]
  split
  · assumption
  · rfl

lemma H2Carg.fullBody_initWindows (c : H2Carg) : c.initWindows.fullBody = c.fullBody := by
  rw [initWindows]
  split <;> rfl

lemma read_initWindows (hcap : (c.fullBody ++ r.bytes).length ≤ h2MaxResponseWire) :
    c.initWindows.read hpack r = c.read hpack r := by
  have hinit : { c.initWindows with fullBody := c.initWindows.fullBody ++ r.bytes } =
      ({ c with fullBody := c.fullBody ++ r.bytes } : H2Carg).initWindows := by
    by_cases h : c.recvWindowInited = true
    · have h' : ({ c with fullBody := c.fullBody ++ r.bytes } : H2Carg).recvWindowInited = true := h
      rw [H2Carg.initWindows_of_inited h, H2Carg.initWindows_of_inited h']
    · simp only [H2Carg.initWindows, if_neg h]
  have hexpect : ∀ c : H2Carg, c.fullBody.length ≤ h2MaxResponseWire →
      otlpGrpcExpectComplete hpack r.io c.initWindows = otlpGrpcExpectComplete hpack r.io c := by
    intro c hc
    unfold otlpGrpcExpectComplete
    rw [c.initWindows_twice, c.fullBody_initWindows]
    rw [if_neg (not_lt.mpr hc), if_neg (not_lt.mpr hc)]
  rw [H2Carg.read, hinit, hexpect _ hcap]
  rfl

/-- A read that completes the frames and whose ACKs succeed leaves no frame waiting, and
neither do reads of nothing behind it. -/
lemma caught_all (hbody : c.fullBody = []) (hoff : c.feedOffset = 0)
    (hvalid : c.settingsApplyValid = false) (hfs : ∀ f ∈ fs, f.Fits ∧ f.Intact)
    (hcap : wireLength fs ≤ h2MaxResponseWire) {before after : List H2Read}
    (hack : ∀ off, r.io.ack off = true)
    (hbytes : (before ++ [r]).flatMap H2Read.bytes = fs.flatMap H2Frame.wire)
    (hafter : after.flatMap H2Read.bytes = []) :
    Caught c.initWindows.win c fs fs [] (c.reads hpack (before ++ r :: after)) := by
  rw [flatMap_append, flatMap_cons, flatMap_nil, append_nil] at hbytes
  have hstart : Caught c.initWindows.win c fs [] [] c.initWindows := caught_start hbody hoff hvalid
  have hinit : c.initWindows.fullBody = [] := c.fullBody_initWindows.trans hbody
  -- the first read does what `initWindows` does
  have hreads : c.reads hpack (before ++ r :: after) =
      c.initWindows.reads hpack (before ++ r :: after) := by
    have hfirst : ∀ q : H2Read, q.bytes <+: fs.flatMap H2Frame.wire →
        c.initWindows.read hpack q = c.read hpack q := by
      intro q hq
      refine read_initWindows hpack ?_
      rw [hbody]
      exact (List.IsPrefix.length_le hq).trans hcap
    cases before with
    | nil =>
      rw [nil_append, H2Carg.reads, H2Carg.reads, foldl_cons, foldl_cons,
        hfirst r (by rw [← hbytes]; exact prefix_rfl)]
    | cons q before =>
      rw [cons_append, H2Carg.reads, H2Carg.reads, foldl_cons, foldl_cons, hfirst q]
      rw [← hbytes, flatMap_cons, append_assoc]
      exact prefix_append _ _
  have hprefix : c.initWindows.fullBody ++ before.flatMap H2Read.bytes <+:
      fs.flatMap H2Frame.wire := by
    rw [hinit, ← hbytes]
    exact prefix_append _ _
  obtain ⟨done1, rest1, h1, -, hbody1⟩ := hstart.reads hpack hfs hcap hprefix
  rw [hinit, nil_append] at hbody1
  have hfull : (c.initWindows.reads hpack before).fullBody ++ r.bytes =
      fs.flatMap H2Frame.wire := by
    rw [hbody1, hbytes]
  obtain ⟨done2, rest2, h2, -, hbody2, hall⟩ := h1.read hpack hfs (r := r)
    (by rw [hfull]) (by rw [hfull]; exact hcap)
  obtain rfl := hall hack
  obtain rfl : fs = done2 := by
    obtain ⟨todo, part, hsplit, hpart, hw⟩ := h2.buffer
    rw [append_nil] at hsplit hpart
    rw [hbody2, hfull, hsplit, flatMap_append, append_cancel_left_eq] at hpart
    rw [hsplit, hw.all hpart.symm, append_nil]
  have hprefix' : ((c.initWindows.reads hpack before).read hpack r).fullBody ++
      after.flatMap H2Read.bytes <+: fs.flatMap H2Frame.wire := by
    rw [hbody2, hfull, hafter, append_nil]
  obtain ⟨done3, rest3, h3, hle, -⟩ := h2.reads hpack hfs hcap hprefix'
  obtain ⟨more, rfl⟩ := hle
  obtain ⟨todo, part, hsplit, -, -⟩ := h3.buffer
  rw [append_assoc, append_assoc] at hsplit
  have hnil := self_eq_append_right.mp hsplit
  rw [append_eq_nil_iff, append_eq_nil_iff] at hnil
  obtain ⟨rfl, rfl, rfl⟩ := hnil
  rw [append_nil] at h3
  rw [hreads, H2Carg.reads, foldl_append]
  exact h3

end Run

/-! ## Without refusals -/

/-- The windows do not refuse what a frame grants. -/
structure H2Windows.Takes (w : H2Windows) (f : H2Frame) : Prop where
  settings : f.Awaits → (h2ApplyPeerSettings w f.payload).2 = true
  conn : f.type = h2WindowUpdate → f.sid = 0 → w.connSend + f.increment ≤ 0x7fffffff
  stream : f.type = h2WindowUpdate → f.sid = 1 → w.streamSend + f.increment ≤ 0x7fffffff

lemma h2ApplySettings_lower {es : List (Nat × Nat)} (k : Nat) : ∀ {w : H2Windows},
    (h2ApplySettings w es).2 = true →
    (h2ApplySettings (w.lower k) es).1 = (h2ApplySettings w es).1.lower k := by
  induction es with
  | nil => exact fun _ => rfl
  | cons e es ih =>
    obtain ⟨id, val⟩ := e
    intro w h
    rw [h2ApplySettings] at h ⊢
    rw [h2ApplySettings]
    by_cases h4 : id = 0x4
    · rw [if_pos h4] at h ⊢
      rw [if_pos h4]
      by_cases hval : 0x7fffffff < val
      · rw [if_pos hval] at h
        cases h
      · rw [if_neg hval] at h ⊢
        rw [if_neg hval]
        by_cases hnext : 0x7fffffff < w.streamSend + ((val : Int) - w.peerInitWindow)
        · rw [if_pos hnext] at h
          cases h
        · rw [if_neg hnext] at h ⊢
          rw [if_neg (by simp only [lower]; omega), ← ih h]
          congr 2
          simp only [lower, mk.injEq, and_true, true_and]
          omega
    · rw [if_neg h4] at h ⊢
      rw [if_neg h4]
      by_cases h5 : id = 0x5 ∧ 16384 ≤ val ∧ val ≤ 16777215
      · rw [if_pos h5] at h ⊢
        rw [if_pos h5, ← ih h]
        rfl
      · rw [if_neg h5] at h ⊢
        rw [if_neg h5, ih h]

lemma h2WindowAdd_lower {win : Int} {increment : Nat} (k : Nat)
    (h : win + increment ≤ 0x7fffffff) : (h2WindowAdd (win - k) increment).getD (win - k) =
      (h2WindowAdd win increment).getD win - k := by
  rw [h2WindowAdd, h2WindowAdd]
  by_cases hzero : increment = 0
  · rw [if_pos hzero, if_pos hzero]
    rfl
  · rw [if_neg hzero, if_neg hzero]
    rw [if_neg (by omega), if_neg (by omega)]
    simp only [getD_some]
    omega

/-- What a frame grants is granted alike after data was sent. -/
lemma H2Windows.Takes.lower {w : H2Windows} (h : w.Takes f) (k : Nat) :
    (w.lower k).applyFrame f = (w.applyFrame f).lower k := by
  rw [applyFrame, applyFrame]
  by_cases hset : f.type = h2Settings ∧ f.sid = 0
  · rw [if_pos hset, if_pos hset]
    cases hack : f.has h2EndStream with
    | true => rfl
    | false =>
      have hs := h.settings ⟨hset.1, hset.2, hack⟩
      rw [if_neg Bool.false_ne_true, if_neg Bool.false_ne_true]
      rw [h2ApplyPeerSettings] at hs ⊢
      rw [h2ApplyPeerSettings]
      split at hs
      · rename_i hlen
        rw [if_pos hlen, if_pos hlen]
      · rename_i hlen
        rw [if_neg hlen, if_neg hlen, h2ApplySettings_lower k hs]
  · rw [if_neg hset, if_neg hset]
    by_cases hupd : f.type = h2WindowUpdate
    · rw [if_pos hupd, if_pos hupd]
      by_cases hlen : f.payload.length < 4
      · rw [if_pos hlen, if_pos hlen]
      · rw [if_neg hlen, if_neg hlen]
        by_cases h0 : f.sid = 0
        · rw [if_pos h0, if_pos h0]
          simp only [H2Windows.lower, h2WindowAdd_lower k (h.conn hupd h0)]
        · rw [if_neg h0, if_neg h0]
          by_cases h1 : f.sid = 1
          · rw [if_pos h1, if_pos h1]
            simp only [H2Windows.lower, h2WindowAdd_lower k (h.stream hupd h1)]
          · rw [if_neg h1, if_neg h1]
    · rw [if_neg hupd, if_neg hupd]
      by_cases hdata : f.type = h2Data ∧ f.sid = 1
      · rw [if_pos hdata, if_pos hdata]
        by_cases hover : w.connRecv < f.payload.length ∨ w.streamRecv < f.payload.length
        · rw [if_pos hover, if_pos (show (w.lower k).connRecv < f.payload.length ∨
            (w.lower k).streamRecv < f.payload.length from hover)]
        · rw [if_neg hover, if_neg (show ¬((w.lower k).connRecv < f.payload.length ∨
            (w.lower k).streamRecv < f.payload.length) from hover)]
          rfl
      · rw [if_neg hdata, if_neg hdata]

lemma Applied.eq_lower {w w' : H2Windows} {n : Nat} (h : Applied w fs w' n)
    (hok : AllOk applyFrame H2Windows.Takes w fs) : w' = (fs.foldl applyFrame w).lower n := by
  induction h with
  | start => exact w.lower_zero.symm
  | frame f _ ih =>
    obtain ⟨hfs, hf⟩ := AllOk.append.mp hok
    rw [ih hfs, hf.1.lower, foldl_append]
    rfl
  | sent k _ ih => rw [ih hok, lower_lower]

/-- Whole frames, received in any pieces and with any failing ACKs that succeed in the end,
are applied once each and in their order.  Without pending data the windows are those of
applying the frames one after another.  With pending data they are lower by what was sent,
unless an update is refused. -/
theorem h2_frames_applied_once {δ : Type} (hpack : HpackDecoder δ) {c : H2Carg}
    (hbody : c.fullBody = []) (hoff : c.feedOffset = 0) (hvalid : c.settingsApplyValid = false)
    {fs : List H2Frame} (hfs : ∀ f ∈ fs, f.Fits ∧ f.Intact)
    (hcap : wireLength fs ≤ h2MaxResponseWire) {before after : List H2Read} {r : H2Read}
    (hack : ∀ off, r.io.ack off = true)
    (hbytes : (before ++ [r]).flatMap H2Read.bytes = fs.flatMap H2Frame.wire)
    (hafter : after.flatMap H2Read.bytes = []) :
    let c' := c.reads hpack (before ++ r :: after)
    let seq := fs.foldl H2Windows.applyFrame c.initWindows.win
    ∃ n, Applied c.initWindows.win fs c'.win n ∧
      sentBytes c'.events = sentBytes c.events + n ∧ (c.sendBody = none → c'.win = seq) ∧
      (AllOk H2Windows.applyFrame H2Windows.Takes c.initWindows.win fs → c'.win = seq.lower n) := by
  obtain ⟨n, hfree, hsent, hnone⟩ :=
    (caught_all hpack hbody hoff hvalid hfs hcap hack hbytes hafter).standing
  exact ⟨n, hfree.applied, hsent, fun h => hfree.applied.eq_foldl (hnone h).2,
    fun h => hfree.applied.eq_lower h⟩

def noHeaders : HpackDecoder Unit := ⟨(), fun _ _ => ([], true, ())⟩

def allWrites : H2Io := ⟨true, fun _ => true, fun _ => true, fun _ => true⟩

def newCarg : H2Carg :=
  ⟨⟨65535, 65535, 0, 0, 65535, 16384⟩, none, 0, false, false, false, 0, 0, [], []⟩

/-- A SETTINGS frame with an initial window of 1000, and a WINDOW_UPDATE of 5 for the stream. -/
def grants : List H2Frame :=
  [⟨h2Settings, 0, 0, [0, 4, 0, 0, 3, 232]⟩, ⟨h2WindowUpdate, 0, 1, [0, 0, 0, 5]⟩]

lemma grants_inOrder : ∀ f ∈ grants, f.Fits ∧ f.Intact := by
  unfold H2Frame.Fits H2Frame.Intact
  decide

/-- The ACK fails when the first frame is there, and succeeds with the rest. -/
theorem h2_frames_applied_once_retry :
    let c' := newCarg.reads noHeaders
      ([⟨(grants.flatMap H2Frame.wire).take 20, { allWrites with ack := fun _ => false }⟩] ++
        ⟨(grants.flatMap H2Frame.wire).drop 20, allWrites⟩ :: [])
    let seq := grants.foldl H2Windows.applyFrame newCarg.initWindows.win
    ∃ n, Applied newCarg.initWindows.win grants c'.win n ∧
      sentBytes c'.events = sentBytes newCarg.events + n ∧
      (newCarg.sendBody = none → c'.win = seq) ∧
      (AllOk H2Windows.applyFrame H2Windows.Takes newCarg.initWindows.win grants →
        c'.win = seq.lower n) :=
  h2_frames_applied_once noHeaders rfl rfl rfl grants_inOrder (by decide) (fun _ => rfl)
    (by decide) rfl

/-- With two bytes of data pending and no credit, the windows are granted two bytes for the
connection and one for the stream, and then one less for the stream.  If the grants come first,
a byte is sent in between.  If all comes at once, nothing is sent. -/
def pendingCarg : H2Carg :=
  { otlpGrpcHttp2FlowAttach newCarg (some [1, 2]) 65535 with recvWindowInited := false }

def pendingFrames : List H2Frame :=
  [⟨h2WindowUpdate, 0, 0, [0, 0, 0, 2]⟩, ⟨h2WindowUpdate, 0, 1, [0, 0, 0, 1]⟩,
    ⟨h2Settings, 0, 0, [0, 4, 0, 0, 255, 254]⟩]

/-- The final windows depend on where the reads end. -/
theorem h2_windows_depend_on_reads :
    let wire := pendingFrames.flatMap H2Frame.wire
    let seq := pendingFrames.foldl H2Windows.applyFrame pendingCarg.initWindows.win
    (∀ f ∈ pendingFrames, f.Fits ∧ f.Intact) ∧
      (pendingCarg.reads noHeaders [⟨wire, allWrites⟩]).win = seq ∧
      (pendingCarg.reads noHeaders [⟨wire.take 26, allWrites⟩, ⟨wire.drop 26, allWrites⟩]).win ≠
        seq := by
  refine ⟨?_, by decide, by decide⟩
  unfold H2Frame.Fits H2Frame.Intact
  decide

end Alligator
