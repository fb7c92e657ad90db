import Alligator.Http.Request
import Alligator.Parsers.Multicollector
import Alligator.Lib.BigEndian
import Alligator.Lib.Framing

/-!
# The WebSocket client

`ws_read_cb` appends what was read to a buffer and takes whole frames from its front.
The payloads of the frames of one message are collected in a second buffer, and the
message is handed to `on_message` with its last frame.  Pings are answered in between.

The buffers are bounded.  A read that does not fit is dropped, and a frame or message
that does not fit makes the reader drop the buffer.  Frames below 2 MiB, messages below
8 MiB and reads of at most 64 KiB always fit (`wsReadCb_frames`), so that the messages
arrive as they were sent, however the bytes are cut into reads (`ws_messages_intact`).
-/

namespace Alligator

open Framing List

/-! ## The connection -/

inductive WsState where
  | init
  | connecting
  | handshake
  | opened
  | closing
  | closed
deriving DecidableEq

/-- `ws_conn`: its buffers with their capacities, what was passed to `ws_raw_send`, and
what was passed to `on_message`. -/
structure WsConn where
  state : WsState
  rbuf : Str
  rbufCap : Nat
  fbuf : Str
  fbufCap : Nat
  sent : List Str
  messages : List Str
deriving DecidableEq

def wsRbufMax : Nat := 8 * 1024 * 1024

variable (ws : WsConn)

def wsRawSend (data : Str) : WsConn := { ws with sent := ws.sent ++ [data] }

/-! ## One frame -/

/-- The first part of `ws_parse_one_frame`: the size of the header without a mask and
the length of the payload, once the header is there. -/
def wsFrameHeader (buf : Str) : Option (Nat × Nat) :=
  if buf.length < 2 then none
  else
    let payloadLen := (buf.getD 1 0 &&& 0x7f).toNat
    if payloadLen = 126 then
      if buf.length < 4 then none else some (4, BigEndian.toNat ((buf.drop 2).take 2))
    else if payloadLen = 127 then
      if buf.length < 10 then none else some (10, BigEndian.toNat ((buf.drop 2).take 8))
    else some (2, payloadLen)

/-- The end of `ws_parse_one_frame`, for text, binary and continuation frames. -/
def wsCollect (fin : Bool) (opcode : UInt8) (payload : Str) (total : Nat) : Parsed WsConn :=
  let fbuf := if opcode ≠ 0x0 then [] else ws.fbuf
  let needed := fbuf.length + payload.length + 1
  if wsRbufMax < needed then .malformed
  else
    let fbufCap := if ws.fbufCap < needed then min (needed * 2) wsRbufMax else ws.fbufCap
    let fbuf := fbuf ++ payload
    if fin then
      .frame { ws with fbuf := [], fbufCap := fbufCap, messages := ws.messages ++ [fbuf] } total
    else .frame { ws with fbuf := fbuf, fbufCap := fbufCap } total

def wsParseOneFrame (buf : Str) : Parsed WsConn :=
  match wsFrameHeader buf with
  | none => .incomplete
  | some (hdr, payloadLen) =>
    let b0 := buf.getD 0 0
    let b1 := buf.getD 1 0
    let fin := (b0 >>> 7) &&& 1 = 1
    let opcode := b0 &&& 0x0f
    let masked := (b1 >>> 7) &&& 1 = 1
    let hdr := if masked then hdr + 4 else hdr
    if wsRbufMax < payloadLen then .malformed
    else
      let total := hdr + payloadLen
      if buf.length < total then .incomplete
      else if wsRbufMax < total then .malformed
      else
        let payload := (buf.drop hdr).take payloadLen
        if opcode = 0x9 then
          .frame (wsRawSend ws (0x8a :: UInt8.ofNat payloadLen :: payload)) total
        else if opcode = 0x8 then
          if ws.state = .opened then
            .frame (wsRawSend { ws with state := .closing } [0x88, 0x00]) total
          else .frame ws total
        else if opcode ≠ 0x1 ∧ opcode ≠ 0x2 ∧ opcode ≠ 0x0 then .frame ws total
        else wsCollect ws fin opcode payload total

/-! ## Reads -/

/-- `ws_close`, up to the callback of the closed handle. -/
def wsClose : WsConn :=
  match ws.state with
  | .closed | .closing => ws
  | .opened => wsRawSend { ws with state := .closing } [0x88, 0x00]
  | _ => { ws with state := .closing }

/-- `ws_parse_handshake`.  The buffer does not end with NUL, so `strstr` also sees the
bytes `behind` it.  `none` for `-1`. -/
def wsParseHandshake (behind : Str) : Option WsConn :=
  match memmem [13, 10, 13, 10] ws.rbuf with
  | none => some ws
  | some (_, extra) =>
    if strstr ((ws.rbuf ++ behind).takeWhile (· ≠ 0)) (cstr " 101 ") then
      some { ws with state := .opened, rbuf := extra }
    else none

/-- The loop of `ws_read_cb`.  After a malformed frame the length of the buffer is set to
zero, and then the bytes of the frames before it are subtracted: with such frames it wraps
around, and there is no next state. -/
def wsDrain : Option WsConn :=
  match drain wsParseOneFrame (ws.rbuf.length + 1) ws ws.rbuf with
  | (ws', rest, true) => some { ws' with rbuf := rest }
  | (ws', rest, false) =>
    if rest.length < ws.rbuf.length then none else some { ws' with rbuf := [] }

/-- What was read, and the bytes behind the buffer then. -/
structure WsRead where
  bytes : Str
  behind : Str

/-- `ws_read_cb` with a positive `nread` -/
def wsReadCb (read : WsRead) : Option WsConn :=
  let needed := ws.rbuf.length + read.bytes.length + 1
  if ws.rbufCap < needed ∧ wsRbufMax < needed * 2 then some ws
  else
    let rbufCap := if ws.rbufCap < needed then needed * 2 else ws.rbufCap
    let ws := { ws with rbuf := ws.rbuf ++ read.bytes, rbufCap := rbufCap }
    if ws.state = .handshake then
      match wsParseHandshake ws read.behind with
      | none => some (wsClose ws)
      | some ws =>
        if ws.rbuf = [] then some ws
        else if ws.state ≠ .opened ∧ ws.state ≠ .closing then some ws
        else wsDrain ws
    else if ws.state ≠ .opened ∧ ws.state ≠ .closing then some ws
    else wsDrain ws

def wsRun : WsConn → List WsRead → Option WsConn
  | ws, [] => some ws
  | ws, read :: reads => do
    let ws ← wsReadCb ws read
    wsRun ws reads

/-! ## Frames on the wire -/

inductive LengthForm where
  | short
  | medium
  | long
deriving DecidableEq

def LengthForm.Fits : LengthForm → Nat → Prop
  | .short, n => n < 126
  | .medium, n => n < 256 ^ 2
  | .long, n => n < 256 ^ 8

def LengthForm.bytes : LengthForm → Nat → Str
  | .short, n => [UInt8.ofNat n]
  | .medium, n => 126 :: BigEndian.ofNat 2 n
  | .long, n => 127 :: BigEndian.ofNat 8 n

/-- The kinds of frames that carry messages, and pings. -/
inductive WsKind where
  | continuation
  | text
  | binary
  | ping
deriving DecidableEq

def WsKind.opcode : WsKind → UInt8
  | .continuation => 0x0
  | .text => 0x1
  | .binary => 0x2
  | .ping => 0x9

structure WsFrame where
  kind : WsKind
  fin : Bool
  form : LengthForm
  payload : Str
  fits : form.Fits payload.length

open WsFrame

def WsFrame.first (f : WsFrame) : UInt8 := (if f.fin then 0x80 else 0) ||| f.kind.opcode

def WsFrame.head (f : WsFrame) : Str := f.first :: f.form.bytes f.payload.length

def WsFrame.wire (f : WsFrame) : Str := f.head ++ f.payload

lemma WsFrame.first_spec (f : WsFrame) :
    f.first &&& 0x0f = f.kind.opcode ∧ ((f.first >>> 7) &&& 1 = 1 ↔ f.fin = true) := by
  have h : ∀ (k : WsKind) (fin : Bool),
      (((if fin then 0x80 else 0) ||| k.opcode) &&& 0x0f = k.opcode) ∧
        ((((if fin then 0x80 else 0) ||| k.opcode) >>> 7) &&& 1 = 1 ↔ fin = true) := by
    intro k fin
    cases k <;> cases fin <;> decide
  exact h f.kind f.fin

variable {n size : Nat} {fin : Bool}

lemma short_length (h : n < 126) :
    (UInt8.ofNat n &&& 0x7f).toNat = n ∧ ¬(UInt8.ofNat n >>> 7) &&& 1 = 1 := by
  have hall : ∀ n < 126, (UInt8.ofNat n &&& 0x7f).toNat = n ∧ ¬(UInt8.ofNat n >>> 7) &&& 1 = 1 := by
    decide
  exact hall n h

lemma LengthForm.unmasked {form : LengthForm} (h : form.Fits n) :
    ∃ b rest, form.bytes n = b :: rest ∧ ¬(b >>> 7) &&& 1 = 1 := by
  cases form with
  | short => exact ⟨_, _, rfl, (short_length h).2⟩
  | medium => exact ⟨126, _, rfl, by decide⟩
  | long => exact ⟨127, _, rfl, by decide⟩

/-- A whole header is understood. -/
lemma wsFrameHeader_head (f : WsFrame) (rest : Str) :
    wsFrameHeader (f.head ++ rest) = some (f.head.length, f.payload.length) := by
  have hfits := f.fits
  rw [WsFrame.head]
  cases hform : f.form with
  | short =>
    rw [hform] at hfits
    have hlen := (short_length hfits).1
    have hpos := hfits
    simp only [LengthForm.Fits] at hpos
    simp only [LengthForm.bytes, wsFrameHeader, cons_append, length_cons,
      getD_cons_succ, getD_cons_zero, hlen]
    rw [if_neg (by omega), if_neg (by omega), if_neg (by omega)]
    rfl
  | medium | long =>
    rw [hform] at hfits
    have hback := BigEndian.toNat_ofNat hfits
    have hsize := fun k => BigEndian.length_ofNat k f.payload.length
    simp only [LengthForm.bytes, wsFrameHeader, cons_append, length_cons,
      getD_cons_succ, getD_cons_zero, length_append, hsize, drop_succ_cons,
      drop_zero, take_left' (hsize _), hback]
    rw [if_neg (by omega)]
    first
    | rw [if_pos (by decide), if_neg (by omega)]
    | rw [if_neg (by decide), if_pos (by decide), if_neg (by omega)]

/-- A part of a header is not. -/
lemma wsFrameHeader_cut (f : WsFrame) {b : Str} (hb : b <+: f.head) (hne : b ≠ f.head) :
    wsFrameHeader b = none := by
  have hlt : b.length < f.head.length := by
    refine lt_of_le_of_ne (List.IsPrefix.length_le hb) fun heq => hne ?_
    exact List.IsPrefix.eq_of_length hb heq
  rw [wsFrameHeader]
  by_cases hshort : b.length < 2
  · rw [if_pos hshort]
  · rw [if_neg hshort]
    obtain ⟨b0, b1, b', rfl⟩ : ∃ b0 b1 b', b = b0 :: b1 :: b' := by
      match b, hshort with
      | b0 :: b1 :: b', _ => exact ⟨b0, b1, b', rfl⟩
      | [_], h => exact absurd Nat.one_lt_two h
      | [], h => exact absurd Nat.zero_lt_two h
    rw [WsFrame.head] at hb hlt
    have hb1 := (cons_prefix_cons.mp hb).2
    cases hform : f.form with
    | short =>
      rw [hform] at hlt
      simp only [LengthForm.bytes, length_cons, length_nil] at hlt
      omega
    | medium | long =>
      rw [hform] at hlt hb1
      obtain ⟨rfl, -⟩ := cons_prefix_cons.mp hb1
      simp only [LengthForm.bytes, length_cons, BigEndian.length_ofNat] at hlt
      simp only [getD_cons_succ, getD_cons_zero]
      first
      | rw [if_pos (by decide), if_pos (by omega)]
      | rw [if_neg (by decide), if_pos (by decide), if_pos (by omega)]

/-! ## What a frame does -/

/-- The payload collected for a message when a data frame arrives. -/
def WsFrame.collected (f : WsFrame) (ws : WsConn) : Str :=
  (if f.kind.opcode ≠ 0x0 then [] else ws.fbuf) ++ f.payload

def WsFrame.apply (f : WsFrame) : WsConn :=
  if f.kind = .ping then
    wsRawSend ws (0x8a :: UInt8.ofNat f.payload.length :: f.payload)
  else
    let needed := (f.collected ws).length + 1
    let fbufCap := if ws.fbufCap < needed then min (needed * 2) wsRbufMax else ws.fbufCap
    if f.fin then
      { ws with fbuf := [], fbufCap := fbufCap, messages := ws.messages ++ [f.collected ws] }
    else { ws with fbuf := f.collected ws, fbufCap := fbufCap }

/-- The frame is below 2 MiB, and the message stays below 8 MiB with it. -/
def WsFrame.Ok (f : WsFrame) : Prop :=
  f.payload.length < 2 * 1024 * 1024 ∧
    (f.kind ≠ .ping → (f.collected ws).length < 8 * 1024 * 1024)

lemma WsFrame.length_head_le (f : WsFrame) : f.head.length ≤ 10 := by
  rw [head]
  cases f.form <;> simp [LengthForm.bytes]

/-- What the parser does once the header is there. -/
lemma wsParseOneFrame_head (f : WsFrame) (tail : Str)
    (hlen : f.payload.length < 2 * 1024 * 1024) : wsParseOneFrame ws (f.head ++ tail) =
      if tail.length < f.payload.length then .incomplete else if f.kind = .ping then
        .frame (wsRawSend ws (0x8a :: UInt8.ofNat f.payload.length ::
          tail.take f.payload.length)) (f.head.length + f.payload.length) else
        wsCollect ws f.fin f.kind.opcode (tail.take f.payload.length)
          (f.head.length + f.payload.length) := by
  obtain ⟨hopcode, hfin⟩ := f.first_spec
  obtain ⟨b1, rest, hbytes, hmask⟩ := LengthForm.unmasked f.fits
  have hb0 : (f.head ++ tail).getD 0 0 = f.first := rfl
  have hb1 : (f.head ++ tail).getD 1 0 = b1 := by
    rw [WsFrame.head, hbytes]
    rfl
  have hle := f.length_head_le
  have hmax : wsRbufMax = 8388608 := rfl
  have hfin' : decide ((f.first >>> 7) &&& 1 = 1) = f.fin := by
    rw [Bool.eq_iff_iff, decide_eq_true_eq]
    exact hfin
  rw [wsParseOneFrame, wsFrameHeader_head]
  dsimp only
  rw [hb0, hb1, if_neg hmask, if_neg (by omega), hopcode, length_append, drop_left]
  by_cases htail : tail.length < f.payload.length
  · rw [if_pos (by omega), if_pos htail]
  · rw [if_neg (by omega), if_neg htail, if_neg (by omega), hfin']
    cases f.kind <;> rfl

variable {f : WsFrame}

lemma wsCollect_ok {ws : WsConn} (hk : f.kind ≠ .ping)
    (h : (f.collected ws).length < 8 * 1024 * 1024) (total : Nat) :
    wsCollect ws f.fin f.kind.opcode f.payload total = .frame (f.apply ws) total := by
  have hmax : wsRbufMax = 8388608 := rfl
  rw [collected, length_append] at h
  rw [wsCollect, apply, if_neg hk]
  rw [if_neg (by omega), collected, length_append]
  cases f.fin <;> rfl

lemma wsParseOneFrame_reads : Reads wsParseOneFrame wire apply WsFrame.Ok where
  whole := by
    intro ws f hok rest
    have htail : ¬(f.payload ++ rest).length < f.payload.length := by
      rw [length_append]
      omega
    rw [wire, append_assoc, wsParseOneFrame_head ws f _ hok.1, if_neg htail,
      take_left, length_append]
    by_cases hk : f.kind = .ping
    · rw [if_pos hk, apply, if_pos hk]
    · rw [if_neg hk, wsCollect_ok hk (hok.2 hk)]
  cut := by
    intro ws f b hok hb hne
    rw [wire] at hb hne
    by_cases hhead : f.head <+: b
    · obtain ⟨tail, rfl⟩ := hhead
      have htail := (prefix_append_right_inj _).mp hb
      have hlt : tail.length < f.payload.length := by
        refine lt_of_le_of_ne (List.IsPrefix.length_le htail) fun heq => hne ?_
        rw [List.IsPrefix.eq_of_length htail heq]
      rw [wsParseOneFrame_head ws f _ hok.1, if_pos hlt]
    · have hcut : b <+: f.head := (List.prefix_or_prefix_of_prefix hb
        (prefix_append f.head _)).resolve_right hhead
      have hne' : b ≠ f.head := by
        rintro rfl
        exact hhead prefix_rfl
      rw [wsParseOneFrame, wsFrameHeader_cut f hcut hne']
  nothing _ := rfl
  wire_ne f := by
    exact cons_ne_nil _ _

/-! ## Reading frames -/

lemma WsFrame.apply_state (f : WsFrame) : (f.apply ws).state = ws.state := by
  rw [apply]
  split
  · rfl
  · cases f.fin <;> rfl

lemma foldl_apply_state (fs : List WsFrame) (ws : WsConn) :
    (fs.foldl apply ws).state = ws.state := by
  induction fs generalizing ws with
  | nil => exact rfl
  | cons f fs ih => exact (ih _).trans (f.apply_state ws)

lemma WsFrame.apply_rbuf (f : WsFrame) (rbuf : Str) (cap : Nat) :
    f.apply { ws with rbuf := rbuf, rbufCap := cap } =
      { f.apply ws with rbuf := rbuf, rbufCap := cap } := by
  rw [apply, apply]
  split
  · rfl
  · cases f.fin <;> rfl

lemma foldl_apply_rbuf (rbuf : Str) (cap : Nat) (fs : List WsFrame) (ws : WsConn) :
    fs.foldl apply { ws with rbuf := rbuf, rbufCap := cap } =
      { fs.foldl apply ws with rbuf := rbuf, rbufCap := cap } := by
  induction fs generalizing ws with
  | nil => exact rfl
  | cons f fs ih =>
    rw [foldl_cons, apply_rbuf, ih]
    rfl

lemma allOk_rbuf {rbuf : Str} {cap : Nat} {fs : List WsFrame} {ws : WsConn}
    (h : AllOk apply WsFrame.Ok ws fs) :
    AllOk apply WsFrame.Ok { ws with rbuf := rbuf, rbufCap := cap } fs := by
  induction fs generalizing ws with
  | nil => exact trivial
  | cons f fs ih =>
    refine ⟨h.1, ?_⟩
    rw [apply_rbuf]
    exact ih h.2

lemma waits_length_lt {ws : WsConn} {todo : List WsFrame}
    (hok : AllOk apply WsFrame.Ok ws todo) (h : Waits wire todo ws.rbuf) :
    ws.rbuf.length < 2 * 1024 * 1024 + 10 := by
  cases todo with
  | nil =>
    rw [show ws.rbuf = [] from h]
    decide
  | cons f todo =>
    have hle := List.IsPrefix.length_le h.1
    have hhead := f.length_head_le
    have hpayload := hok.1.1
    rw [wire, length_append] at hle
    omega

variable {read : WsRead}

/-- A read takes the frames that are whole with it. -/
lemma wsReadCb_frames {ws : WsConn} {todo : List WsFrame}
    (hopen : ws.state = .opened) (hok : AllOk apply WsFrame.Ok ws todo)
    (hw : Waits wire todo ws.rbuf)
    (hb : ws.rbuf ++ read.bytes <+: todo.flatMap wire)
    (hread : read.bytes.length ≤ 64 * 1024) : ∃ done todo' rest cap, todo = done ++ todo' ∧
      ws.rbuf ++ read.bytes = done.flatMap wire ++ rest ∧ Waits wire todo' rest ∧
      wsReadCb ws read = some { done.foldl apply ws with rbuf := rest, rbufCap := cap } := by
  have hlen := waits_length_lt hok hw
  have hmax : wsRbufMax = 8388608 := rfl
  obtain ⟨cap, hcap⟩ : ∃ cap, cap = if ws.rbufCap < ws.rbuf.length + read.bytes.length + 1 then
      (ws.rbuf.length + read.bytes.length + 1) * 2 else ws.rbufCap := ⟨_, rfl⟩
  obtain ⟨done, todo', rest, rfl, hrest, hw', hdrain⟩ :=
    drain_frames wsParseOneFrame_reads (@allOk_rbuf (ws.rbuf ++ read.bytes) cap _ _ hok) hb
      (le_refl _)
  refine ⟨done, todo', rest, cap, rfl, hrest, hw', ?_⟩
  rw [wsReadCb]
  rw [if_neg (by omega), ← hcap, if_neg (by rw [hopen]; decide), if_neg (by rw [hopen]; decide),
    wsDrain]
  rw [hdrain]
  rw [foldl_apply_rbuf]

/-- However the bytes of the frames are cut into reads, the frames take effect one after
another. -/
lemma wsRun_frames {reads : List WsRead} {ws : WsConn} {todo : List WsFrame}
    (hopen : ws.state = .opened) (hok : AllOk apply WsFrame.Ok ws todo)
    (hw : Waits wire todo ws.rbuf) (hreads : ∀ r ∈ reads, r.bytes.length ≤ 64 * 1024)
    (hall : ws.rbuf ++ reads.flatMap WsRead.bytes = todo.flatMap wire) :
    ∃ cap, wsRun ws reads = some { todo.foldl apply ws with rbuf := [], rbufCap := cap } := by
  induction reads generalizing ws todo with
  | nil =>
    rw [flatMap_nil, append_nil] at hall
    obtain rfl := hw.all hall
    refine ⟨ws.rbufCap, ?_⟩
    rw [flatMap_nil] at hall
    rw [wsRun, foldl_nil, ← hall]
  | cons read reads ih =>
    rw [flatMap_cons, ← append_assoc] at hall
    obtain ⟨done, todo', rest, cap, rfl, hrest, hw', hread⟩ := wsReadCb_frames hopen hok hw
      ⟨_, hall⟩ (hreads read mem_cons_self)
    rw [hrest, flatMap_append, append_assoc, append_cancel_left_eq] at hall
    obtain ⟨cap', hrun⟩ := @ih { done.foldl apply ws with rbuf := rest, rbufCap := cap }
      todo' ((foldl_apply_state done ws).trans hopen) (allOk_rbuf (AllOk.append.mp hok).2) hw'
      (forall_mem_cons.1 hreads).2 hall
    refine ⟨cap', ?_⟩
    rw [wsRun, hread, Option.bind_eq_bind, Option.bind_some, hrun, foldl_apply_rbuf, foldl_append]

/-! ## Messages -/

structure WsPing where
  form : LengthForm
  payload : Str
  fits : form.Fits payload.length

def WsPing.frame (p : WsPing) : WsFrame := ⟨.ping, true, p.form, p.payload, p.fits⟩

/-- A fragment of a message, with the pings that are sent before it. -/
structure WsFragment where
  pings : List WsPing
  form : LengthForm
  payload : Str
  fits : form.Fits payload.length

def WsFragment.frames (p : WsFragment) (kind : WsKind) (fin : Bool) : List WsFrame :=
  p.pings.map WsPing.frame ++ [⟨kind, fin, p.form, p.payload, p.fits⟩]

structure WsMessage where
  binary : Bool
  first : WsFragment
  rest : List WsFragment

open WsMessage

/-- The frames of the fragments behind the first one. -/
def continuations : List WsFragment → List WsFrame
  | [] => []
  | p :: rest => p.frames .continuation rest.isEmpty ++ continuations rest

def WsMessage.frames (m : WsMessage) : List WsFrame :=
  m.first.frames (if m.binary then .binary else .text) m.rest.isEmpty ++ continuations m.rest

def WsMessage.bytes (m : WsMessage) : Str := m.first.payload ++ m.rest.flatMap WsFragment.payload

lemma foldl_apply_pings (pings : List WsPing) (ws : WsConn) :
    ((pings.map WsPing.frame).foldl apply ws).messages = ws.messages ∧
      ((pings.map WsPing.frame).foldl apply ws).fbuf = ws.fbuf := by
  induction pings generalizing ws with
  | nil => exact ⟨rfl, rfl⟩
  | cons p pings ih => exact ih (p.frame.apply ws)

lemma allOk_pings {pings : List WsPing}
    (h : ∀ p ∈ pings, p.payload.length < 2 * 1024 * 1024) (ws : WsConn) :
    AllOk apply WsFrame.Ok ws (pings.map WsPing.frame) := by
  induction pings generalizing ws with
  | nil => exact trivial
  | cons p pings ih =>
    exact ⟨⟨h p mem_cons_self, fun hk => absurd rfl hk⟩,
      ih (forall_mem_cons.1 h).2 _⟩

lemma WsFrame.apply_data (hk : f.kind ≠ .ping) (ws : WsConn) :
    (f.apply ws).messages = ws.messages ++ (if f.fin then [f.collected ws] else []) ∧
      (f.apply ws).fbuf = if f.fin then [] else f.collected ws := by
  rw [apply, if_neg hk]
  cases f.fin with
  | true => exact ⟨rfl, rfl⟩
  | false => exact ⟨(append_nil _).symm, rfl⟩

variable {kind : WsKind}

/-- A fragment is added to what was collected, and delivered if it is the last one. -/
lemma WsFragment.foldl_frames (p : WsFragment) (hk : kind ≠ .ping) (fin : Bool) (ws : WsConn) :
    let collected := (if kind.opcode ≠ 0x0 then [] else ws.fbuf) ++ p.payload
    ((p.frames kind fin).foldl apply ws).messages =
        ws.messages ++ (if fin then [collected] else []) ∧
      ((p.frames kind fin).foldl apply ws).fbuf = if fin then [] else collected := by
  obtain ⟨hm, hf⟩ := foldl_apply_pings p.pings ws
  obtain ⟨hm', hf'⟩ := @WsFrame.apply_data ⟨kind, fin, p.form, p.payload, p.fits⟩ hk
    ((p.pings.map WsPing.frame).foldl apply ws)
  rw [collected, hf, hm] at hm'
  rw [collected, hf] at hf'
  rw [frames, foldl_append]
  exact ⟨hm', hf'⟩

variable {rest : List WsFragment}

/-- The fragments behind the first one complete the message. -/
lemma foldl_continuations {ws : WsConn} (h : rest ≠ []) :
    ((continuations rest).foldl apply ws).messages =
      ws.messages ++ [ws.fbuf ++ rest.flatMap WsFragment.payload] := by
  induction rest generalizing ws with
  | nil => exact absurd rfl h
  | cons p rest ih =>
    obtain ⟨hm, hf⟩ := p.foldl_frames (show WsKind.continuation ≠ .ping by decide) rest.isEmpty ws
    rw [continuations, foldl_append]
    cases rest with
    | nil =>
      rw [flatMap_cons, flatMap_nil, append_nil]
      exact hm
    | cons q rest =>
      rw [isEmpty_cons, if_neg Bool.false_ne_true] at hm hf
      rw [ih (cons_ne_nil q rest), isEmpty_cons, hm, hf, append_nil, append_assoc]
      rfl

lemma WsMessage.kind_data (m : WsMessage) : (if m.binary then WsKind.binary else .text) ≠ .ping ∧
    (if m.binary then WsKind.binary else .text).opcode ≠ 0x0 := by
  cases m.binary <;> decide

lemma WsMessage.foldl_frames (m : WsMessage) (ws : WsConn) :
    (m.frames.foldl apply ws).messages = ws.messages ++ [m.bytes] := by
  have hk := m.kind_data
  obtain ⟨hm, hf⟩ := m.first.foldl_frames hk.1 m.rest.isEmpty ws
  rw [if_pos hk.2, nil_append] at hm hf
  rw [frames, foldl_append, bytes]
  cases hrest : m.rest with
  | nil =>
    rw [hrest] at hm
    rw [flatMap_nil, append_nil]
    exact hm
  | cons p rest =>
    rw [hrest, isEmpty_cons, if_neg Bool.false_ne_true] at hm hf
    rw [foldl_continuations (cons_ne_nil p rest), isEmpty_cons, hm, hf, append_nil]

/-! ## In order -/

/-- The frames are below 2 MiB and the message below 8 MiB. -/
structure WsMessage.Small (m : WsMessage) : Prop where
  frames : ∀ f ∈ m.frames, f.payload.length < 2 * 1024 * 1024
  bytes : m.bytes.length < 8 * 1024 * 1024

lemma WsFragment.allOk_frames (p : WsFragment) {ws : WsConn}
    (hsize : ∀ f ∈ p.frames kind fin, f.payload.length < 2 * 1024 * 1024)
    (hlen : ((if kind.opcode ≠ 0x0 then [] else ws.fbuf) ++ p.payload).length < 8 * 1024 * 1024) :
    AllOk apply WsFrame.Ok ws (p.frames kind fin) := by
  refine AllOk.append.mpr ⟨allOk_pings (fun q hq => ?_) ws, ⟨?_, fun _ => ?_⟩, trivial⟩
  · exact hsize q.frame (mem_append_left _ (mem_map_of_mem hq))
  · exact hsize _ (mem_append_right _ mem_cons_self)
  · rw [collected, (foldl_apply_pings p.pings ws).2]
    exact hlen

lemma allOk_continuations {ws : WsConn}
    (hsize : ∀ f ∈ continuations rest, f.payload.length < 2 * 1024 * 1024)
    (hlen : (ws.fbuf ++ rest.flatMap WsFragment.payload).length < 8 * 1024 * 1024) :
    AllOk apply WsFrame.Ok ws (continuations rest) := by
  induction rest generalizing ws with
  | nil => exact trivial
  | cons p rest ih =>
    rw [flatMap_cons, ← append_assoc, length_append] at hlen
    have hf := (p.foldl_frames (show WsKind.continuation ≠ .ping by decide) rest.isEmpty ws).2
    refine AllOk.append.mpr ⟨p.allOk_frames (fun f h => hsize f (mem_append_left _ h)) ?_,
      ih (fun f h => hsize f (mem_append_right _ h)) ?_⟩
    · rw [if_neg (by decide)]
      omega
    · rw [hf, length_append]
      split
      · rw [length_nil]
        omega
      · exact hlen

lemma WsMessage.Small.allOk {m : WsMessage} (h : m.Small) (ws : WsConn) :
    AllOk apply WsFrame.Ok ws m.frames := by
  have hk := m.kind_data
  have hsize := h.frames
  have hlen := h.bytes
  rw [WsMessage.bytes, length_append] at hlen
  have hf := (m.first.foldl_frames hk.1 m.rest.isEmpty ws).2
  rw [if_pos hk.2] at hf
  refine AllOk.append.mpr ⟨m.first.allOk_frames
      (fun f hm => hsize f (mem_append_left _ hm)) ?_,
    allOk_continuations (fun f hm => hsize f (mem_append_right _ hm)) ?_⟩
  · rw [if_pos hk.2, nil_append]
    omega
  · rw [hf, length_append]
    split
    · rw [length_nil]
      omega
    · exact hlen

lemma foldl_messages (ms : List WsMessage) (ws : WsConn) :
    ((ms.flatMap frames).foldl apply ws).messages = ws.messages ++ ms.map bytes := by
  induction ms generalizing ws with
  | nil => exact (append_nil _).symm
  | cons m ms ih =>
    rw [flatMap_cons, foldl_append, ih, m.foldl_frames, append_assoc]
    rfl

lemma allOk_messages {ms : List WsMessage} (h : ∀ m ∈ ms, m.Small) (ws : WsConn) :
    AllOk apply WsFrame.Ok ws (ms.flatMap frames) := by
  induction ms generalizing ws with
  | nil => exact trivial
  | cons m ms ih =>
    exact AllOk.append.mpr ⟨(h m mem_cons_self).allOk ws, ih (forall_mem_cons.1 h).2 _⟩

/-- Messages in fragments with pings between and behind them arrive once each, in their
order and with their bytes, however what is sent is cut into reads. -/
theorem ws_messages_intact {ws : WsConn} (hopen : ws.state = .opened) (hrbuf : ws.rbuf = [])
    (ms : List WsMessage) (hms : ∀ m ∈ ms, m.Small) (pings : List WsPing)
    (hpings : ∀ p ∈ pings, p.payload.length < 2 * 1024 * 1024) (reads : List WsRead)
    (hreads : ∀ r ∈ reads, r.bytes.length ≤ 64 * 1024) (hbytes : reads.flatMap WsRead.bytes =
      (ms.flatMap WsMessage.frames ++ pings.map WsPing.frame).flatMap WsFrame.wire) :
    ∃ ws', wsRun ws reads = some ws' ∧ ws'.messages = ws.messages ++ ms.map WsMessage.bytes := by
  have hok : AllOk apply WsFrame.Ok ws
      (ms.flatMap frames ++ pings.map WsPing.frame) :=
    AllOk.append.mpr ⟨allOk_messages hms ws, allOk_pings hpings _⟩
  have hw : Waits wire (ms.flatMap frames ++ pings.map WsPing.frame) ws.rbuf := by
    rw [hrbuf]
    cases ms.flatMap frames ++ pings.map WsPing.frame with
    | nil => rfl
    | cons f fs => exact ⟨List.nil_prefix, (wsParseOneFrame_reads.wire_ne f).symm⟩
  obtain ⟨cap, hrun⟩ := wsRun_frames hopen hok hw hreads (by rw [hrbuf, nil_append, hbytes])
  refine ⟨_, hrun, ?_⟩
  rw [foldl_append, (foldl_apply_pings pings _).1, foldl_messages]

/-- A text of two fragments with a ping between them, read byte by byte. -/
theorem ws_messages_intact_bytewise :
    ∃ ws', wsRun ⟨.opened, [], 65536, [], 65536, [], []⟩
        ([0x01, 2, 104, 105, 0x89, 0, 0x80, 1, 33].map fun b => ⟨[b], []⟩) = some ws' ∧
      ws'.messages = [cstr "hi!"] :=
  @ws_messages_intact ⟨.opened, [], 65536, [], 65536, [], []⟩ rfl rfl
    [⟨false, ⟨[], .short, cstr "hi", by unfold LengthForm.Fits; decide⟩,
      [⟨[⟨.short, [], by unfold LengthForm.Fits; decide⟩], .short, cstr "!",
        by unfold LengthForm.Fits; decide⟩]⟩]
    (by
      intro m hm
      rw [mem_singleton.mp hm]
      exact ⟨by decide, by decide⟩)
    [] (by simp) _ (by simp) (by decide)

/-! ## What the buffer holds -/

def WsConn.Live : Prop := ws.state = .opened ∨ ws.state = .closing

/-- The buffer is within its capacity and holds the last of the bytes received. -/
structure WsConn.Holds (ws : WsConn) (received : Str) : Prop where
  le_cap : ws.rbuf.length ≤ ws.rbufCap
  last : ws.rbuf <:+ received

/-- The reads of a run find the connection in states with `P`. -/
def EveryRead (P : WsConn → WsRead → Prop) : WsConn → List WsRead → Prop
  | _, [] => True
  | ws, read :: reads => P ws read ∧ ∀ ws', wsReadCb ws read = some ws' → EveryRead P ws' reads

/-- The buffer is sound after every read of a run. -/
def HoldsAll : WsConn → Str → List WsRead → Prop
  | _, _, [] => True
  | ws, received, read :: reads => ∃ ws', wsReadCb ws read = some ws' ∧
      ws'.Holds (received ++ read.bytes) ∧ HoldsAll ws' (received ++ read.bytes) reads

def WsConn.Dropped (read : WsRead) : Prop :=
  ws.rbufCap < ws.rbuf.length + read.bytes.length + 1 ∧
    wsRbufMax < (ws.rbuf.length + read.bytes.length + 1) * 2

def WsConn.grown (read : WsRead) : WsConn :=
  let needed := ws.rbuf.length + read.bytes.length + 1
  { ws with rbuf := ws.rbuf ++ read.bytes,
            rbufCap := if ws.rbufCap < needed then needed * 2 else ws.rbufCap }

/-- A malformed frame that is met stands at the front of the buffer. -/
def WsConn.FrontOnly : Prop :=
  let d := drain wsParseOneFrame (ws.rbuf.length + 1) ws ws.rbuf
  d.2.2 = false → d.2.1.length = ws.rbuf.length

variable {ws' : WsConn}

lemma wsCollect_frame {ws : WsConn} {opcode : UInt8} {payload : Str}
    {total : Nat} (h : wsCollect ws fin opcode payload total = .frame ws' size) :
    ws'.rbufCap = ws.rbufCap ∧ ws'.state = ws.state := by
  rw [wsCollect] at h
  split_ifs at h <;> cases h <;> exact ⟨rfl, rfl⟩

lemma wsParseOneFrame_frame {ws : WsConn} {buf : Str}
    (h : wsParseOneFrame ws buf = .frame ws' size) :
    ws'.rbufCap = ws.rbufCap ∧ (ws'.state = ws.state ∨ ws'.state = .closing) := by
  rw [wsParseOneFrame] at h
  split at h
  · cases h
  · dsimp only at h
    split_ifs at h
    all_goals
      first
      | exact (wsCollect_frame h).imp_right .inl
      | cases h; first | exact ⟨rfl, .inl rfl⟩ | exact ⟨rfl, .inr rfl⟩

/-- The frames are taken from the front of the buffer, unless its length wraps around. -/
lemma wsDrain_cases {ws : WsConn} (hlive : ws.Live) : (¬ws.FrontOnly ∧ wsDrain ws = none) ∨
    ws.FrontOnly ∧ ∃ ws', wsDrain ws = some ws' ∧ ws'.Live ∧ ws'.rbufCap = ws.rbufCap ∧
      ws'.rbuf <:+ ws.rbuf := by
  obtain ⟨hcap, hlive'⟩ := @drain_invariant _ _ wsParseOneFrame (ws.rbuf.length + 1) ws
    (fun s => s.rbufCap = ws.rbufCap ∧ (s.state = .opened ∨ s.state = .closing))
    (fun hs e => ⟨(wsParseOneFrame_frame e).1.trans hs.1,
      (wsParseOneFrame_frame e).2.elim (fun he => he ▸ hs.2) .inr⟩)
    ws.rbuf ⟨rfl, hlive⟩
  have hrest := drain_suffix wsParseOneFrame (ws.rbuf.length + 1) ws ws.rbuf
  rw [WsConn.FrontOnly, wsDrain]
  revert hcap hlive' hrest
  rcases drain wsParseOneFrame (ws.rbuf.length + 1) ws ws.rbuf with ⟨ws', rest, _ | _⟩ <;>
    intro hcap hlive' hrest
  · have hle := hrest.length_le
    dsimp only at hle ⊢
    by_cases hlt : rest.length < ws.rbuf.length
    · exact .inl ⟨fun hf => hlt.ne (hf rfl), if_pos hlt⟩
    · exact .inr ⟨fun _ => by omega, _, if_neg hlt, hlive', hcap, nil_suffix⟩
  · exact .inr ⟨nofun, _, rfl, hlive', hcap, hrest⟩

lemma wsReadCb_eq {ws : WsConn} (hlive : ws.Live) (hroom : ¬ws.Dropped read) :
    wsReadCb ws read = wsDrain (ws.grown read) := by
  rw [WsConn.Dropped] at hroom
  rw [wsReadCb]
  rw [if_neg hroom]
  rcases hlive with hs | hs <;>
    rw [if_neg (by rw [hs]; decide), if_neg (by rw [hs]; decide)] <;> rfl

lemma WsConn.Holds.grown {ws : WsConn} {received : Str} (h : ws.Holds received) (read : WsRead) :
    (ws.grown read).Holds (received ++ read.bytes) := by
  obtain ⟨before, hlast⟩ := h.last
  refine ⟨?_, before, by rw [← hlast, append_assoc]; rfl⟩
  simp only [WsConn.grown, length_append]
  split <;> omega

/-- From an open connection, in a run in which no read is dropped, the buffer is sound after
every read exactly when each malformed frame stands at the front of the buffer. -/
theorem ws_buffer_iff {reads : List WsRead} {ws : WsConn} {received : Str} (hlive : ws.Live)
    (h : ws.Holds received) (hroom : EveryRead (fun ws read => ¬ws.Dropped read) ws reads) :
    (HoldsAll ws received reads ↔ EveryRead (fun ws read => (ws.grown read).FrontOnly) ws reads) :=
      by
  induction reads generalizing ws received with
  | nil => exact Iff.rfl
  | cons read reads ih =>
    have hread := wsReadCb_eq hlive hroom.1
    have hgrown := h.grown read
    rcases @wsDrain_cases (ws.grown read) hlive with ⟨hf, e⟩ | ⟨hf, ws', e, hlive', hcap, hrest⟩
    · simp [HoldsAll, EveryRead, hread, e, hf]
    · have h' : ws'.Holds (received ++ read.bytes) :=
        ⟨(hrest.length_le.trans hgrown.le_cap).trans hcap.ge, hrest.trans hgrown.last⟩
      have ih := ih hlive' h' (hroom.2 ws' (hread.trans e))
      simp [HoldsAll, EveryRead, hread, e, hf, h', ih]

/-- A text in two reads, with a second frame behind it. -/
theorem ws_buffer_reads : HoldsAll ⟨.opened, [], 65536, [], 0, [], []⟩ []
    [⟨[0x81, 2, 104], []⟩, ⟨[105, 0x81, 1, 104], []⟩] := by
  refine Iff.mpr (ws_buffer_iff (.inl rfl) ⟨Nat.zero_le _, suffix_rfl⟩
    ⟨?_, fun ws hws => ⟨?_, fun _ _ => trivial⟩⟩) ⟨?_, fun ws hws => ⟨?_, fun _ _ => trivial⟩⟩
  · unfold WsConn.Dropped
    decide
  · cases hws
    unfold WsConn.Dropped
    decide
  · unfold WsConn.FrontOnly
    decide
  · cases hws
    unfold WsConn.FrontOnly
    decide

/-- A frame of 4 GiB is announced behind a whole frame. -/
theorem ws_buffer_wraps : ¬HoldsAll ⟨.opened, [], 65536, [], 0, [], []⟩ []
    [⟨[0x81, 0, 0x82, 127, 0, 0, 0, 1, 0, 0, 0, 0], []⟩] := by
  rintro ⟨ws', h, -⟩
  have hnone : wsReadCb ⟨.opened, [], 65536, [], 0, [], []⟩
      ⟨[0x81, 0, 0x82, 127, 0, 0, 0, 1, 0, 0, 0, 0], []⟩ = none := by
    decide
  cases h

end Alligator
