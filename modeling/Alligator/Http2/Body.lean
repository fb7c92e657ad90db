import Alligator.Http2.Feed

/-!
# The body of a request is sent once and within the windows

The body is sent in two ways: a first part with the request, and the rest from the pending
buffer whenever the peer has granted more.  What is kept by everything that can happen to the
connection is stated over the events so far (`Flows`): the data frames are a beginning of the
body cut into pieces (`Cuts`), every one of them was covered when it was written (`Covered`),
and the send windows are at most what was granted and not used.

The stream window may be negative: a SETTINGS frame changes it together with the initial
window, so their difference stays the same (`h2ApplySettings_slack`).
-/

namespace Alligator

open Framing List Option

variable {body : Str} {fs : List H2Frame} {f : H2Frame} {fuel : Nat} {c : H2Carg}

/-! ## Data frames as pieces of the body -/

def dataOf (fs : List H2Frame) : Str := fs.flatMap H2Frame.payload

/-- The frames are a beginning of the body cut into pieces of at most 16384 bytes, and the
end of the stream is marked exactly where the body ends. -/
structure Cuts (body : Str) (fs : List H2Frame) : Prop where
  part : dataOf fs <+: body
  size : ∀ f ∈ fs, f.payload.length ≤ h2DefaultMaxFrameSize
  ends : ∀ before f, before ++ [f] <+: fs →
    (f.has h2EndStream = true ↔ dataOf (before ++ [f]) = body)

lemma dataOf_concat (fs : List H2Frame) (f : H2Frame) :
    dataOf (fs ++ [f]) = dataOf fs ++ f.payload := by
  rw [dataOf, flatMap_append, flatMap_cons, flatMap_nil, append_nil]
  rfl

lemma Cuts.nil (body : Str) : Cuts body [] where
  part := nil_prefix
  size f hf := by cases hf
  ends before f h := by
    have := prefix_nil.mp h
    simp at this

/-- One more piece. -/
lemma Cuts.concat (h : Cuts body fs) (hpart : dataOf fs ++ f.payload <+: body)
    (hsize : f.payload.length ≤ h2DefaultMaxFrameSize)
    (hend : f.has h2EndStream = true ↔ dataOf fs ++ f.payload = body) : Cuts body (fs ++ [f]) where
  part := by
    rw [dataOf_concat]
    exact hpart
  size g hg := by
    rcases mem_append.mp hg with hg | hg
    · exact h.size g hg
    · rw [mem_singleton.mp hg]
      exact hsize
  ends before g hg := by
    rcases prefix_concat_iff.mp hg with heq | hle
    · obtain ⟨rfl, hfg⟩ := append_inj' heq rfl
      cases hfg
      rw [dataOf_concat]
      exact hend
    · exact h.ends before g hle

lemma has_endStream (p : Prop) [Decidable p] (payload : Str) :
    (⟨h2Data, if p then h2EndStream else 0, 1, payload⟩ : H2Frame).has h2EndStream = true ↔ p := by
  by_cases h : p <;> simp [H2Frame.has, h2EndStream, h]

lemma Cuts.request {tail : Str} {part : Str}
    (h : Cuts (dataOf fs ++ (part ++ tail)) fs) (hlen : part.length ≤ fuel) :
    Cuts (dataOf fs ++ (part ++ tail)) (fs ++ h2RequestData tail.length fuel part) ∧
      dataOf (fs ++ h2RequestData tail.length fuel part) = dataOf fs ++ part := by
  induction fuel generalizing part fs with
  | zero =>
    obtain rfl := length_eq_zero_iff.mp (Nat.le_zero.mp hlen)
    rw [h2RequestData, append_nil, append_nil]
    exact ⟨h, rfl⟩
  | succ fuel ih =>
    rw [h2RequestData]
    by_cases hnil : part = []
    · rw [if_pos hnil, hnil, append_nil, append_nil]
      rw [hnil] at h
      exact ⟨h, rfl⟩
    · rw [if_neg hnil]
      dsimp only
      generalize hchunk : part.take h2DefaultMaxFrameSize = chunk
      generalize hrest : part.drop h2DefaultMaxFrameSize = rest
      have hpart : chunk ++ rest = part := by
        rw [← hchunk, ← hrest, take_append_drop]
      have hpos : 0 < chunk.length := by
        rw [← hchunk, length_take]
        have := length_pos_iff.mpr hnil
        rw [h2DefaultMaxFrameSize]
        omega
      have hsum : chunk.length + rest.length = part.length := by
        rw [← hpart, length_append]
      generalize hf : (⟨h2Data, if tail.length = 0 ∧ rest = [] then h2EndStream else 0, 1,
        chunk⟩ : H2Frame) = f
      have hpayload : f.payload = chunk := by rw [← hf]
      have hnext : Cuts (dataOf fs ++ (part ++ tail)) (fs ++ [f]) := by
        refine h.concat ?_ ?_ ?_
        · rw [hpayload, ← hpart, append_assoc, ← append_assoc (dataOf fs)]
          exact prefix_append _ _
        · rw [hpayload, ← hchunk]
          exact length_take_le _ _
        · rw [← hf, has_endStream, append_cancel_left_eq, ← hpart, append_assoc]
          rw [self_eq_append_right, append_eq_nil_iff, ← length_eq_zero_iff (l := tail)]
          exact and_comm
      rw [show dataOf fs ++ (part ++ tail) = dataOf (fs ++ [f]) ++ (rest ++ tail) by
        rw [dataOf_concat, hpayload, ← hpart]
        simp only [append_assoc]] at hnext ⊢
      obtain ⟨h1, h2⟩ := ih hnext (by omega)
      rw [append_assoc] at h1 h2
      refine ⟨h1, h2.trans ?_⟩
      rw [dataOf_concat, hpayload, ← hpart, append_assoc]

/-! ## Events -/

def H2Event.data : H2Event → Option H2Frame
  | .wrote f _ => if f.type = h2Data then some f else none
  | .increment _ _ => none

open H2Event

def dataFrames (events : List H2Event) : List H2Frame := events.filterMap H2Event.data

/-- What an event grants to a stream, or to the connection. -/
def H2Event.grants (sid : Nat) : H2Event → Nat
  | .increment i n => if i = sid then n else 0
  | .wrote _ _ => 0

/-- What was granted to a stream, or to the connection. -/
def granted (sid : Nat) (events : List H2Event) : Nat := (events.map (H2Event.grants sid)).sum

/-- Every data frame was covered by the windows when it was written: with it, no more was sent
than the connection was granted beyond its 65535 bytes, and no more than the stream was granted
beyond the initial window at that time. -/
def Covered (events : List H2Event) : Prop :=
  ∀ before f w, before ++ [.wrote f w] <+: events → f.type = h2Data →
    sentBytes before + f.payload.length ≤ h2DefaultWindowSize + granted 0 before ∧
      sentBytes before + f.payload.length ≤ w + granted 1 before

lemma dataFrames_append (a b : List H2Event) : dataFrames (a ++ b) = dataFrames a ++ dataFrames b :=
  filterMap_append

lemma granted_append (sid : Nat) (a b : List H2Event) :
    granted sid (a ++ b) = granted sid a + granted sid b := by
  rw [granted, map_append, sum_append]
  rfl

lemma sentBytes_eq (events : List H2Event) :
    sentBytes events = (dataOf (dataFrames events)).length := by
  induction events with
  | nil => rfl
  | cons e events ih =>
    rw [← singleton_append, sentBytes_append, dataFrames_append, dataOf, flatMap_append,
      length_append, ih]
    cases e with
    | increment sid n => rfl
    | wrote f w =>
      by_cases hf : f.type = h2Data
      · simp [sentBytes, sent, dataFrames, data, dataOf, hf]
      · simp [sentBytes, sent, dataFrames, data, dataOf, hf]

variable {events : List H2Event}

lemma Covered.concat (h : Covered events) {w : Nat} (hf : f.type = h2Data →
      sentBytes events + f.payload.length ≤ h2DefaultWindowSize + granted 0 events ∧
      sentBytes events + f.payload.length ≤ w + granted 1 events) :
    Covered (events ++ [.wrote f w]) := by
  intro before g w' hle
  rcases prefix_concat_iff.mp hle with heq | hle
  · obtain ⟨rfl, hfg⟩ := append_inj' heq rfl
    cases hfg
    exact hf
  · exact h before g w' hle

lemma Covered.increment (h : Covered events) (sid n : Nat) :
    Covered (events ++ [.increment sid n]) := by
  intro before g w hle
  rcases prefix_concat_iff.mp hle with heq | hle
  · obtain ⟨-, hfg⟩ := append_inj' heq rfl
    cases hfg
  · exact h before g w hle

/-- Frames that fit the windows of a new connection. -/
lemma Covered.request (h : Covered events)
    (hsent : sentBytes (events ++ fs.map (.wrote · h2DefaultWindowSize)) ≤ h2DefaultWindowSize) :
    Covered (events ++ fs.map (.wrote · h2DefaultWindowSize)) := by
  induction fs generalizing events with
  | nil =>
    rw [map_nil, append_nil]
    exact h
  | cons f fs ih =>
    rw [map_cons, ← singleton_append, ← append_assoc] at hsent ⊢
    refine ih (h.concat fun hf => ?_) hsent
    rw [sentBytes_append, sentBytes_append] at hsent
    have hone : sentBytes [.wrote f h2DefaultWindowSize] = f.payload.length := by
      simp [sentBytes, sent, hf]
    omega

/-! ## The invariant -/

/-- What holds for a connection that sends the body. -/
structure Flows (body : Str) (c : H2Carg) : Prop where
  cuts : Cuts body (dataFrames c.events)
  covered : Covered c.events
  pending : match c.sendBody with
    | none => dataOf (dataFrames c.events) = body
    | some rest => ∃ front, body = front ++ rest ∧
        dataOf (dataFrames c.events) = front ++ rest.take c.sendBodyOff ∧
        c.sendBodyOff ≤ rest.length
  conn : c.win.connSend ≤ (h2DefaultWindowSize : Int) + granted 0 c.events - sentBytes c.events
  stream : c.win.streamSend ≤ (c.win.peerInitWindow : Int) + granted 1 c.events - sentBytes c.events

lemma granted_wrote (sid : Nat) : granted sid (c.wrote f).events = granted sid c.events := by
  rw [H2Carg.wrote, granted_append]
  rfl

/-- Writing a frame that is no data. -/
lemma Flows.wrote (h : Flows body c) (hf : f.type ≠ h2Data) : Flows body (c.wrote f) := by
  have hdata : dataFrames (c.wrote f).events = dataFrames c.events := by
    rw [H2Carg.wrote, dataFrames_append]
    simp [dataFrames, data, hf]
  have hsent : sentBytes (c.wrote f).events = sentBytes c.events := by
    rw [sentBytes_eq, sentBytes_eq, hdata]
  refine ⟨?_, h.covered.concat fun hd => absurd hd hf, ?_, ?_, ?_⟩
  · rw [hdata]
    exact h.cuts
  · rw [hdata]
    exact h.pending
  · rw [granted_wrote, hsent]
    exact h.conn
  · rw [granted_wrote, hsent]
    exact h.stream

lemma Flows.congr {c' : H2Carg} (h : Flows body c) (hevents : c'.events = c.events)
    (hbody : c'.sendBody = c.sendBody) (hoff : c'.sendBodyOff = c.sendBodyOff)
    (hconn : c'.win.connSend ≤ c.win.connSend)
    (hstream : c'.win.streamSend - c'.win.peerInitWindow ≤ c.win.streamSend - c.win.peerInitWindow) :
    Flows body c' := by
  have hc := h.conn
  have hs := h.stream
  refine ⟨?_, ?_, ?_, ?_, ?_⟩
  · rw [hevents]
    exact h.cuts
  · rw [hevents]
    exact h.covered
  · rw [hevents, hbody, hoff]
    exact h.pending
  · rw [hevents]
    omega
  · rw [hevents]
    omega

/-- A window is increased, at most by what was granted. -/
lemma Flows.increment (h : Flows body c) {w : H2Windows} (sid n : Nat)
    (hconn : w.connSend ≤ c.win.connSend + if sid = 0 then n else 0)
    (hstream : w.streamSend - w.peerInitWindow ≤ c.win.streamSend - c.win.peerInitWindow +
      if sid = 1 then n else 0) :
    Flows body { c with win := w, events := c.events ++ [.increment sid n] } := by
  have hc := h.conn
  have hs := h.stream
  have hdata : dataFrames (c.events ++ [.increment sid n]) = dataFrames c.events := by
    rw [dataFrames_append]
    exact append_nil _
  have hsent : sentBytes (c.events ++ [.increment sid n]) = sentBytes c.events := by
    rw [sentBytes_eq, sentBytes_eq, hdata]
  have hgranted : ∀ i, granted i (c.events ++ [.increment sid n]) =
      granted i c.events + if sid = i then n else 0 := by
    intro i
    rw [granted_append]
    rfl
  refine ⟨?_, h.covered.increment sid n, ?_, ?_, ?_⟩
  · rw [hdata]
    exact h.cuts
  · rw [hdata]
    exact h.pending
  · rw [hsent, hgranted]
    dsimp only
    omega
  · rw [hsent, hgranted]
    dsimp only
    omega

/-! ## Frames of the peer -/

/-- A SETTINGS frame moves the stream window with the initial window. -/
lemma h2ApplySettings_slack (es : List (Nat × Nat)) : ∀ w : H2Windows,
    (h2ApplySettings w es).1.connSend = w.connSend ∧
      (h2ApplySettings w es).1.streamSend - (h2ApplySettings w es).1.peerInitWindow =
        w.streamSend - w.peerInitWindow := by
  induction es with
  | nil => exact fun _ => ⟨rfl, rfl⟩
  | cons e es ih =>
    obtain ⟨id, val⟩ := e
    intro w
    rw [h2ApplySettings]
    split
    · split
      · exact ⟨rfl, rfl⟩
      · dsimp only
        split
        · exact ⟨rfl, rfl⟩
        · obtain ⟨h1, h2⟩ := ih { w with
            peerInitWindow := val
            streamSend := w.streamSend + ((val : Int) - w.peerInitWindow) }
          refine ⟨h1, h2.trans ?_⟩
          dsimp only
          omega
    · split
      · exact ih _
      · exact ih w

lemma Flows.settings (h : Flows body c) (io : H2Io) (off : Nat) (f : H2Frame) :
    Flows body (h2FeedSettings io off f c).1 := by
  rw [h2FeedSettings]
  split
  · exact h
  · have hack : ∀ {c : H2Carg}, Flows body c → Flows body (h2SendSettingsAck io off c).1 := by
      intro c hc
      rw [h2SendSettingsAck]
      split
      · have hw : Flows body (c.wrote ⟨h2Settings, h2EndStream, 0, []⟩) := hc.wrote (by decide)
        exact hw.congr rfl rfl rfl le_rfl le_rfl
      · exact hc
    apply hack
    split
    · have hslack : (h2ApplyPeerSettings c.win f.payload).1.connSend = c.win.connSend ∧
          (h2ApplyPeerSettings c.win f.payload).1.streamSend -
              (h2ApplyPeerSettings c.win f.payload).1.peerInitWindow =
            c.win.streamSend - c.win.peerInitWindow := by
        rw [h2ApplyPeerSettings]
        split
        · exact ⟨rfl, rfl⟩
        · exact h2ApplySettings_slack _ _
      exact h.congr rfl rfl rfl hslack.1.le hslack.2.le
    · exact h

lemma h2WindowAdd_le {win next : Int} {n : Nat} (h : h2WindowAdd win n = some next) :
    next = win + n := by
  rw [h2WindowAdd] at h
  split at h
  · cases h
  · dsimp only at h
    split at h
    · cases h
    · exact (some.inj h).symm

/-- A WINDOW_UPDATE frame: the increment is noted also if it is refused. -/
lemma Flows.windowUpdate (h : Flows body c) (f : H2Frame) :
    Flows body (h2FeedWindowUpdate f c).1 := by
  rw [h2FeedWindowUpdate]
  split
  · exact h
  · dsimp only
    split
    · exact h
    · generalize BigEndian.toNat (f.payload.take 4) % 2 ^ 31 = n
      have hlogged : ∀ sid, Flows body { c with events := c.events ++ [.increment sid n] } :=
        fun sid => h.increment sid n (by omega) (by omega)
      split
      · rename_i hsid
        cases hadd : h2WindowAdd c.win.connSend n with
        | none => exact hlogged f.sid
        | some next =>
          refine h.increment f.sid n ?_ (by dsimp only; omega)
          rw [if_pos hsid]
          exact (h2WindowAdd_le hadd).le
      · split
        · rename_i hsid
          cases hadd : h2WindowAdd c.win.streamSend n with
          | none => exact hlogged f.sid
          | some next =>
            refine h.increment f.sid n (by dsimp only; omega) ?_
            have := h2WindowAdd_le hadd
            rw [if_pos hsid]
            dsimp only
            omega
        · exact h

lemma Flows.frontier (h : Flows body c) (io : H2Io) (off : Nat) (f : H2Frame) :
    Flows body (h2Frontier io off f c).1 := by
  rw [h2Frontier]
  split
  · exact h.settings io off f
  · split
    · rw [h2FeedPing]
      split
      · exact h
      · split
        · exact h.wrote (show h2Ping ≠ h2Data by decide)
        · exact h
    · split
      · exact h.windowUpdate f
      · split
        · rw [h2FeedData]
          split
          · exact h
          · split
            · exact h
            · exact h.congr rfl rfl rfl le_rfl le_rfl
        · exact h

/-! ## Pending data -/

/-- A chunk of the pending data is written. -/
lemma Flows.chunk {rest : Str} (h : Flows body c) (hrest : c.sendBody = some rest) {chunk : Nat}
    {flags : UInt8} (hpos : 0 < chunk) (hfits : c.sendBodyOff + chunk ≤ rest.length)
    (hsize : chunk ≤ h2DefaultMaxFrameSize) (hconn : (chunk : Int) ≤ c.win.connSend)
    (hstream : (chunk : Int) ≤ c.win.streamSend)
    (hflags : flags = if rest.length ≤ c.sendBodyOff + chunk then h2EndStream else 0) :
    Flows body { c.wrote ⟨h2Data, flags, 1, (rest.drop c.sendBodyOff).take chunk⟩ with
      sendBodyOff := c.sendBodyOff + chunk
      win := { c.win with connSend := c.win.connSend - chunk
                          streamSend := c.win.streamSend - chunk } } := by
  obtain ⟨front, hbody, hdata, -⟩ : ∃ front, body = front ++ rest ∧
      dataOf (dataFrames c.events) = front ++ rest.take c.sendBodyOff ∧
      c.sendBodyOff ≤ rest.length := by
    have := h.pending
    rw [hrest] at this
    exact this
  have hc := h.conn
  have hs := h.stream
  obtain ⟨f, hf⟩ : ∃ f : H2Frame, f = ⟨h2Data, flags, 1, (rest.drop c.sendBodyOff).take chunk⟩ :=
    ⟨_, rfl⟩
  have hpayload : f.payload = (rest.drop c.sendBodyOff).take chunk := by rw [hf]
  have hlen : f.payload.length = chunk := by
    rw [hpayload, length_take, length_drop]
    omega
  have hnext : dataOf (dataFrames c.events) ++ f.payload =
      front ++ rest.take (c.sendBodyOff + chunk) := by
    rw [hdata, hpayload, append_assoc, ← take_add]
  have hframes : dataFrames (c.wrote f).events = dataFrames c.events ++ [f] := by
    rw [H2Carg.wrote, dataFrames_append, hf]
    rfl
  have hsent : sentBytes (c.wrote f).events = sentBytes c.events + chunk := by
    rw [sentBytes_eq, sentBytes_eq, hframes, dataOf_concat, length_append, hlen]
  rw [← hf]
  refine ⟨?_, ?_, ?_, ?_, ?_⟩
  · rw [hframes]
    refine h.cuts.concat ?_ (hlen.trans_le hsize) ?_
    · rw [hnext, hbody]
      exact (prefix_append_right_inj front).mpr (List.take_prefix _ _)
    · rw [hnext, hf, hflags, has_endStream, hbody, append_cancel_left_eq, take_eq_self_iff]
  · refine h.covered.concat fun _ => ?_
    rw [hlen]
    omega
  · show match c.sendBody with
      | none | some rest => _
    rw [hrest]
    refine ⟨front, hbody, ?_, hfits⟩
    rw [hframes, dataOf_concat, hnext]
  · rw [hsent, granted_wrote]
    dsimp only
    omega
  · rw [hsent, granted_wrote]
    dsimp only
    omega

lemma Flows.flushLoop {rest : Str} {maxFrame : Nat} (hmax : maxFrame ≤ h2DefaultMaxFrameSize)
    (hpos : 0 < maxFrame) (io : H2Io) (h : Flows body c)
    (hrest : c.sendBody = some rest) : Flows body (h2FlushLoop io rest maxFrame fuel c) ∧
      (h2FlushLoop io rest maxFrame fuel c).sendBody = some rest := by
  induction fuel generalizing c with
  | zero => exact ⟨h, hrest⟩
  | succ fuel ih =>
    rw [h2FlushLoop]
    split
    · dsimp only
      split
      · exact ⟨h, hrest⟩
      · split
        · generalize hchunk : min (min (rest.length - c.sendBodyOff)
            (min c.win.connSend c.win.streamSend).toNat) maxFrame = chunk
          refine ih (h.chunk hrest ?_ ?_ ?_ ?_ ?_ rfl) hrest <;> omega
        · exact ⟨h, hrest⟩
    · exact ⟨h, hrest⟩

lemma Flows.flush (h : Flows body c) (io : H2Io) : Flows body (h2FlushPendingData io c) := by
  rw [h2FlushPendingData]
  cases hrest : c.sendBody with
  | none => exact h
  | some rest =>
    dsimp only
    split
    · exact h
    · generalize hmax : min (if c.win.peerMaxFrame = 0 then h2DefaultMaxFrameSize
        else c.win.peerMaxFrame) h2DefaultMaxFrameSize = maxFrame
      have hmax' : maxFrame ≤ h2DefaultMaxFrameSize := by omega
      have hpos : 0 < maxFrame := by
        rw [← hmax, h2DefaultMaxFrameSize]
        split <;> omega
      obtain ⟨hflows, hsend⟩ : Flows body (h2FlushLoop io rest maxFrame (rest.length + 1) c) ∧ _ :=
        Flows.flushLoop hmax' hpos io h hrest
      split
      · -- the buffer is released when its last byte was sent
        rename_i hdone
        obtain ⟨front, hbody, hdata, -⟩ : ∃ front, body = front ++ rest ∧ _ ∧ _ := by
          have := hflows.pending
          rw [hsend] at this
          exact this
        refine ⟨hflows.cuts, hflows.covered, ?_, hflows.conn, hflows.stream⟩
        rw [hdata, hbody, take_of_length_le hdone]
      · exact hflows

/-! ## Reads -/

lemma Flows.initWindows (h : Flows body c) : Flows body c.initWindows := by
  rw [H2Carg.initWindows]
  split
  · exact h
  · refine h.congr rfl rfl rfl le_rfl ?_
    dsimp only
    split <;> omega

section Reads

variable {δ : Type} (hpack : HpackDecoder δ)

lemma Flows.feedFrame (io : H2Io) {s s' : H2Feed δ} (h : ∀ c, s.carg = some c → Flows body c)
    (hs : h2FeedFrame hpack io s f = some s') : ∀ c, s'.carg = some c → Flows body c := by
  rw [h2FeedFrame] at hs
  cases hc : s.carg with
  | none =>
    rw [hc] at hs
    obtain ⟨st, -, rfl⟩ := map_eq_some_iff.mp hs
    exact fun c hc => by cases hc
  | some c =>
    rw [hc] at hs
    dsimp only at hs
    split at hs
    · obtain ⟨st, -, rfl⟩ := map_eq_some_iff.mp hs
      intro c' hc'
      obtain rfl := some.inj hc'
      exact (h c hc).frontier io _ f
    · obtain ⟨st, -, rfl⟩ := map_eq_some_iff.mp hs
      intro c' hc'
      obtain rfl := some.inj hc'
      exact h c hc

lemma Flows.feedFrames (h : Flows body c) (io : H2Io) (buf : Str) (st : H2RespState δ)
    (commit : Nat) :
    ∀ c', (h2FeedFrames hpack io buf st (some c) commit).1.carg = some c' → Flows body c' := by
  have hone : ∀ {s : H2Feed δ} {buf : Str} {s' : H2Feed δ} {size : Nat},
      (∀ c, s.carg = some c → Flows body c) → h2FeedOne hpack io s buf = .frame s' size →
      ∀ c, s'.carg = some c → Flows body c := by
    intro s buf s' size hs hframe
    rw [h2FeedOne] at hframe
    cases hread : h2ReadFrame buf with
    | none =>
      rw [hread] at hframe
      cases hframe
    | some f =>
      rw [hread] at hframe
      dsimp only at hframe
      cases hfeed : h2FeedFrame hpack io s f with
      | none =>
        rw [hfeed] at hframe
        cases hframe
      | some next =>
        rw [hfeed] at hframe
        cases hframe
        exact Flows.feedFrame hpack io hs hfeed
  refine drain_invariant hone ?_
  intro c' hc'
  obtain rfl := some.inj hc'
  exact h

/-- A read keeps the invariant, whatever its bytes are and whichever writes succeed. -/
lemma Flows.read (h : Flows body c) (r : H2Read) : Flows body (c.read hpack r) := by
  have hread : Flows body { c with fullBody := c.fullBody ++ r.bytes } :=
    h.congr rfl rfl rfl le_rfl le_rfl
  rw [H2Carg.read, otlpGrpcExpectComplete]
  split
  · exact hread
  · have hinit := hread.initWindows
    dsimp only
    generalize H2Carg.initWindows _ = c1 at hinit ⊢
    have hfed := hinit.feedFrames hpack r.io c1.fullBody (.init hpack none) c1.feedOffset
    generalize h2FeedFrames hpack r.io c1.fullBody _ _ _ = fed at hfed ⊢
    have hnext : Flows body { fed.1.carg.getD c1 with feedOffset := fed.1.commit } := by
      cases hcarg : fed.1.carg with
      | none => exact hinit.congr rfl rfl rfl le_rfl le_rfl
      | some c2 => exact (hfed c2 hcarg).congr rfl rfl rfl le_rfl le_rfl
    split
    · exact hnext.flush r.io
    · exact hnext

lemma Flows.reads (rs : List H2Read) (h : Flows body c) : Flows body (c.reads hpack rs) := by
  induction rs generalizing c with
  | nil => exact h
  | cons r rs ih => exact ih (h.read hpack r)

end Reads

/-! ## The request -/

lemma type_of_mem_h2RequestData {rem : Nat} :
    ∀ {part : Str}, ∀ f ∈ h2RequestData rem fuel part, f.type = h2Data := by
  induction fuel with
  | zero =>
    intro part f hf
    cases hf
  | succ fuel ih =>
    intro part f hf
    rw [h2RequestData] at hf
    split at hf
    · cases hf
    · rcases mem_cons.mp hf with rfl | hf
      · rfl
      · exact ih f hf

lemma dataFrames_wrote (w : Nat) (h : ∀ f ∈ fs, f.type = h2Data) :
    dataFrames (fs.map (.wrote · w)) = fs := by
  induction fs with
  | nil => rfl
  | cons f fs ih =>
    rw [map_cons, dataFrames, filterMap_cons, data, if_pos (h f mem_cons_self)]
    exact congrArg (f :: ·) (ih (forall_mem_cons.1 h).2)

def requestEvents (authority path : Str) (https : Bool) (env : List (Str × Str)) (framed : Str) :
    List H2Event :=
  (h2RequestFrames authority path https env framed).map (.wrote · h2DefaultWindowSize)

/-- A request was built and sent over a connection, and its body is attached to it. -/
def H2Carg.request (c : H2Carg) (authority path : Str) (https : Bool) (env : List (Str × Str))
    (framed : Str) : H2Carg :=
  let pending := (otlpGrpcHttp2RequestBuild authority path https env framed).2
  otlpGrpcHttp2FlowAttach { c with events := requestEvents authority path https env framed } pending
    (framed.length - (pending.getD []).length)

section Request

variable (authority path : Str) (https : Bool) (env : List (Str × Str)) (framed : Str)

/-- The frames of the request carry the first 65535 bytes. -/
lemma cuts_requestEvents :
    Cuts framed (dataFrames (requestEvents authority path https env framed)) ∧
      dataOf (dataFrames (requestEvents authority path https env framed)) =
        framed.take h2DefaultWindowSize := by
  obtain ⟨frames, hdef⟩ : ∃ frames, frames =
      h2RequestData (framed.length - (framed.take h2DefaultWindowSize).length) framed.length
        (framed.take h2DefaultWindowSize) ++
          if framed = [] then [⟨h2Data, h2EndStream, 1, []⟩] else [] := ⟨_, rfl⟩
  have htype : ∀ f ∈ frames, f.type = h2Data := by
    intro f hf
    rw [hdef] at hf
    rcases mem_append.mp hf with hf | hf
    · exact type_of_mem_h2RequestData f hf
    · split at hf
      · rw [mem_singleton.mp hf]
      · cases hf
  have hframes : dataFrames (requestEvents authority path https env framed) = frames := by
    rw [← dataFrames_wrote h2DefaultWindowSize htype, hdef]
    rfl
  rw [hframes, hdef]
  by_cases hnil : framed = []
  · -- an empty body is one empty frame that ends the stream
    rw [hnil]
    exact ⟨(Cuts.nil []).concat prefix_rfl (by decide) (by decide), rfl⟩
  · have hrem : framed.length - (framed.take h2DefaultWindowSize).length =
        (framed.drop h2DefaultWindowSize).length := by
      rw [length_take, length_drop]
      omega
    have hrequest := (Cuts.nil (dataOf [] ++ (framed.take h2DefaultWindowSize ++
      framed.drop h2DefaultWindowSize))).request (length_take_le' h2DefaultWindowSize framed)
    rw [take_append_drop] at hrequest
    rw [if_neg hnil, append_nil, hrem]
    exact hrequest

lemma sentBytes_requestEvents : sentBytes (requestEvents authority path https env framed) =
    min h2DefaultWindowSize framed.length := by
  rw [sentBytes_eq, (cuts_requestEvents authority path https env framed).2, length_take]

lemma covered_requestEvents : Covered (requestEvents authority path https env framed) := by
  have hnone : Covered [] := by
    intro before f w h
    have := prefix_nil.mp h
    simp at this
  have hsent := sentBytes_requestEvents authority path https env framed
  rw [requestEvents, ← nil_append (List.map _ _)] at hsent ⊢
  exact hnone.request (hsent.trans_le (min_le_left _ _))

/-- The attached connection: what of the body is not in the request is pending. -/
lemma request_eq (c : H2Carg) : c.request authority path https env framed = { c with
      events := requestEvents authority path https env framed
      sendBody := if framed.drop h2DefaultWindowSize = [] then none
        else some (framed.drop h2DefaultWindowSize)
      sendBodyOff := 0
      win := ⟨h2DefaultWindowSize - sentBytes (requestEvents authority path https env framed),
        h2DefaultWindowSize - sentBytes (requestEvents authority path https env framed),
        2 ^ 20, 2 ^ 20, h2DefaultWindowSize, h2DefaultMaxFrameSize⟩
      recvWindowInited := true } := by
  have hsent := sentBytes_requestEvents authority path https env framed
  have hwindow : max ((h2DefaultWindowSize : Int) - (framed.length -
      ((if framed.drop h2DefaultWindowSize = [] then none
        else some (framed.drop h2DefaultWindowSize)).getD []).length : Nat)) 0 =
      h2DefaultWindowSize - sentBytes (requestEvents authority path https env framed) := by
    split
    · rename_i hrest
      have := drop_eq_nil_iff.mp hrest
      rw [getD_none, length_nil]
      omega
    · rw [getD_some, length_drop]
      omega
  rw [H2Carg.request, otlpGrpcHttp2RequestBuild, otlpGrpcHttp2FlowAttach]
  rw [hwindow]

lemma Flows.request (c : H2Carg) : Flows framed (c.request authority path https env framed) := by
  obtain ⟨hcuts, hdata⟩ := cuts_requestEvents authority path https env framed
  rw [request_eq]
  refine ⟨hcuts, covered_requestEvents authority path https env framed, ?_, ?_, ?_⟩
  · by_cases hrest : framed.drop h2DefaultWindowSize = []
    · rw [if_pos hrest]
      exact hdata.trans (take_of_length_le (drop_eq_nil_iff.mp hrest))
    · rw [if_neg hrest]
      refine ⟨framed.take h2DefaultWindowSize, (take_append_drop _ _).symm, ?_, Nat.zero_le _⟩
      rw [take_zero, append_nil]
      exact hdata
  · dsimp only
    omega
  · dsimp only
    omega

end Request

/-- The body of a request is sent once, in order and within the windows.  After any reads,
with any writes that succeed, the data frames are a beginning of the body in pieces of at most
16384 bytes, of which the one at the end of the body and no other ends the stream, and every
one of them was covered by both windows when it was written. -/
theorem h2_body_sent_in_order {δ : Type} (hpack : HpackDecoder δ) (c : H2Carg)
    (authority path : Str) (https : Bool) (env : List (Str × Str)) (framed : Str)
    (rs : List H2Read) :
    let events := ((c.request authority path https env framed).reads hpack rs).events
    dataOf (dataFrames events) <+: framed ∧
      (∀ f ∈ dataFrames events, f.payload.length ≤ 16384) ∧
      (∀ before f, before ++ [f] <+: dataFrames events →
        (f.has h2EndStream = true ↔ dataOf (before ++ [f]) = framed)) ∧
      ∀ before f initWindow, before ++ [.wrote f initWindow] <+: events → f.type = h2Data →
        sentBytes before + f.payload.length ≤ 65535 + granted 0 before ∧
          sentBytes before + f.payload.length ≤ initWindow + granted 1 before := by
  have h := (Flows.request authority path https env framed c).reads hpack rs
  exact ⟨h.cuts.part, h.cuts.size, h.cuts.ends, h.covered⟩

end Alligator
