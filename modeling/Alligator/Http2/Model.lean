import Alligator.Http.Request
import Alligator.Lib.BigEndian
import Alligator.Lib.Framing

/-!
# The HTTP/2 client for gRPC

A request is built as one piece: preface, settings, headers, and as much of the body as
the default windows allow.  The rest of the body is kept with the connection and is sent
when the peer grants more.

What the peer sends is collected in one buffer, and on every read the whole buffer is
parsed again.  The frame at the offset reached so far is the only one that takes effect on
the connection.  A SETTINGS frame holds the offset back until its ACK could be written.

The HPACK decoder is a parameter (`HpackDecoder`), since it only sees the header blocks and
says nothing about the windows.  Of the writes, it is a parameter which of them succeed
(`H2Io`).
-/

namespace Alligator

open Framing

/-! ## Frames -/

/-- A frame.  The stream is the field with its reserved bit. -/
structure H2Frame where
  type : UInt8
  flags : UInt8
  stream : UInt32
  payload : Str
deriving DecidableEq

variable (f : H2Frame)

namespace H2Frame

def sid : Nat := f.stream.toNat % 2 ^ 31

/-- `h2_append_frame` -/
def wire : Str :=
  BigEndian.ofNat 3 f.payload.length ++ [f.type, f.flags] ++ BigEndian.ofNat 4 f.stream.toNat ++
    f.payload

/-- `flags & flag` -/
def has (flag : UInt8) : Bool := f.flags &&& flag ≠ 0

end H2Frame

/-- The frame at the front of a buffer, if all of it is there. -/
def h2ReadFrame (buf : Str) : Option H2Frame :=
  if buf.length < 9 then none
  else
    let plen := BigEndian.toNat (buf.take 3)
    if buf.length < 9 + plen then none
    else some ⟨buf.getD 3 0, buf.getD 4 0, UInt32.ofNat (BigEndian.toNat ((buf.drop 5).take 4)),
      (buf.drop 9).take plen⟩

/-- `H2_FRAME_DATA` -/
def h2Data : UInt8 := 0x0

/-- `H2_FRAME_HEADERS` -/
def h2Headers : UInt8 := 0x1

/-- `H2_FRAME_RST_STREAM` -/
def h2RstStream : UInt8 := 0x3

/-- `H2_FRAME_SETTINGS` -/
def h2Settings : UInt8 := 0x4

/-- `H2_FRAME_PING` -/
def h2Ping : UInt8 := 0x6

/-- `H2_FRAME_GOAWAY` -/
def h2Goaway : UInt8 := 0x7

/-- `H2_FRAME_WINDOW_UPDATE` -/
def h2WindowUpdate : UInt8 := 0x8

/-- `H2_FRAME_CONTINUATION` -/
def h2Continuation : UInt8 := 0x9

/-- `H2_FLAG_END_STREAM` and `H2_FLAG_ACK` -/
def h2EndStream : UInt8 := 0x1

/-- `H2_FLAG_END_HEADERS` -/
def h2EndHeaders : UInt8 := 0x4

/-- `H2_FLAG_PADDED` -/
def h2Padded : UInt8 := 0x8

/-- `H2_FLAG_PRIORITY` -/
def h2Priority : UInt8 := 0x20

def h2DefaultWindowSize : Nat := 65535

def h2DefaultMaxFrameSize : Nat := 16384

def h2MaxResponseWire : Nat := 2 ^ 20 + 65536

/-! ## The connection -/

/-- The windows of a connection and its stream, and what the peer has set. -/
structure H2Windows where
  connSend : Int
  streamSend : Int
  connRecv : Int
  streamRecv : Int
  peerInitWindow : Nat
  peerMaxFrame : Nat
deriving DecidableEq

/-- What happens on a connection: a window is to be increased, or a frame was written while
the peer's initial window was the given one. -/
inductive H2Event where
  | increment (sid n : Nat)
  | wrote (f : H2Frame) (initWindow : Nat)
deriving DecidableEq

/-- The fields of `context_arg` that belong to HTTP/2, with the buffer `full_body` and what
has happened so far. -/
structure H2Carg where
  win : H2Windows
  sendBody : Option Str
  sendBodyOff : Nat
  recvWindowInited : Bool
  settingsAckSent : Bool
  settingsApplyValid : Bool
  settingsApplyOff : Nat
  feedOffset : Nat
  fullBody : Str
  events : List H2Event
deriving DecidableEq

/-- Which writes succeed: ACKs of the frames at an offset, and data from an offset of the
body on.  `live` says that there is an open socket. -/
structure H2Io where
  live : Bool
  ack : Nat → Bool
  pingAck : Nat → Bool
  data : Nat → Bool

def H2Carg.wrote (c : H2Carg) (f : H2Frame) : H2Carg :=
  { c with events := c.events ++ [.wrote f c.win.peerInitWindow] }

/-! ## Requests -/

/-- The bytes of `hpack_encode_int` behind the prefix. -/
def hpackIntTail : Nat → Nat → Str
  | 0, _ => []
  | fuel + 1, value =>
    if 128 ≤ value then UInt8.ofNat (value % 128 + 128) :: hpackIntTail fuel (value / 128)
    else [UInt8.ofNat value]

def hpackEncodeInt (value prefixBits : Nat) (firstByteHi : UInt8) : Str :=
  let max := 2 ^ prefixBits - 1
  if value < max then [firstByteHi ||| UInt8.ofNat value]
  else (firstByteHi ||| UInt8.ofNat max) :: hpackIntTail 6 (value - max)

def hpackEncodeStringRaw (s : Str) : Str := hpackEncodeInt s.length 7 0 ++ s

def hpackLiteralNewName (name value : Str) : Str :=
  0 :: hpackEncodeStringRaw name ++ hpackEncodeStringRaw value

def hpackIndexed (index : Nat) : Str := hpackEncodeInt index 7 0x80

/-- `!strcasecmp(a, b)` -/
def sameCase (a b : Str) : Bool := a.map tolower == b.map tolower

def hpackOwnHeaders : List Str :=
  [cstr "content-type", cstr "content-length", cstr "te", cstr "host", cstr "connection",
    cstr "transfer-encoding", cstr "user-agent"]

/-- `hpack_env_foreach` -/
def hpackEnv (k v : Str) : Str :=
  if hpackOwnHeaders.any (sameCase k) then []
  else if 256 ≤ k.length then []
  else hpackLiteralNewName (k.map tolower) v

def otlpGrpcMetricsPath : Str :=
  cstr "/opentelemetry.proto.collector.metrics.v1.MetricsService/Export"

/-- The settings of a request: an initial window of 1 MiB and the default frame size. -/
def h2RequestSettings : Str :=
  BigEndian.ofNat 2 0x4 ++ BigEndian.ofNat 4 (2 ^ 20) ++ BigEndian.ofNat 2 0x5 ++
    BigEndian.ofNat 4 h2DefaultMaxFrameSize

variable (authority path : Str)

def h2RequestHeaders (https : Bool) (env : List (Str × Str)) : Str :=
  let usePath := if path = [] ∨ path = [47] then otlpGrpcMetricsPath else path
  hpackIndexed 3 ++ hpackIndexed (if https then 7 else 6) ++
    hpackLiteralNewName (cstr ":path") usePath ++
    hpackLiteralNewName (cstr ":authority") authority ++
    hpackLiteralNewName (cstr "content-type") (cstr "application/grpc") ++
    hpackLiteralNewName (cstr "te") (cstr "trailers") ++
    hpackLiteralNewName (cstr "user-agent") (cstr "alligator") ++
    env.flatMap fun e => hpackEnv e.1 e.2

/-- The loop that cuts the part of the body that is sent with the request.  `rem` is what is
left of the body behind that part. -/
def h2RequestData (rem : Nat) : Nat → Str → List H2Frame
  | 0, _ => []
  | fuel + 1, part =>
    if part = [] then []
    else
      let chunk := part.take h2DefaultMaxFrameSize
      let rest := part.drop h2DefaultMaxFrameSize
      let flags := if rem = 0 ∧ rest = [] then h2EndStream else 0
      ⟨h2Data, flags, 1, chunk⟩ :: h2RequestData rem fuel rest

def h2RequestFrames (https : Bool) (env : List (Str × Str)) (framed : Str) : List H2Frame :=
  let part := framed.take h2DefaultWindowSize
  ⟨h2Settings, 0, 0, h2RequestSettings⟩ ::
    ⟨h2Headers, h2EndHeaders, 1, h2RequestHeaders authority path https env⟩ ::
    (h2RequestData (framed.length - part.length) framed.length part ++
      if framed = [] then [⟨h2Data, h2EndStream, 1, []⟩] else [])

/-- `otlp_grpc_http2_request_build`: the bytes of the request and what is pending. -/
def otlpGrpcHttp2RequestBuild (https : Bool) (env : List (Str × Str))
    (framed : Str) : Str × Option Str :=
  let rest := framed.drop h2DefaultWindowSize
  (cstr "PRI * HTTP/2.0\r\n\r\nSM\r\n\r\n" ++
    (h2RequestFrames authority path https env framed).flatMap H2Frame.wire,
    if rest = [] then none else some rest)

def otlpGrpcHttp2FlowAttach (c : H2Carg) (pending : Option Str) (alreadySent : Nat) : H2Carg :=
  let window : Int := max ((h2DefaultWindowSize : Int) - alreadySent) 0
  { c with
    sendBody := pending
    sendBodyOff := 0
    win := ⟨window, window, 2 ^ 20, 2 ^ 20, h2DefaultWindowSize, h2DefaultMaxFrameSize⟩
    recvWindowInited := true }

/-! ## Windows -/

def h2WindowAdd (win : Int) (increment : Nat) : Option Int :=
  if increment = 0 then none
  else
    let next := win + increment
    if 0x7fffffff < next then none else some next

def h2SettingsOf : Str → List (Nat × Nat)
  | a :: b :: c :: d :: e :: f :: rest =>
    (BigEndian.toNat [a, b], BigEndian.toNat [c, d, e, f]) :: h2SettingsOf rest
  | _ => []

/-- The loop of `h2_apply_peer_settings`.  The flag is down if it was left with `-1`. -/
def h2ApplySettings (w : H2Windows) : List (Nat × Nat) → H2Windows × Bool
  | [] => (w, true)
  | (id, val) :: rest =>
    if id = 0x4 then
      if 0x7fffffff < val then (w, false)
      else
        let next := w.streamSend + ((val : Int) - w.peerInitWindow)
        if 0x7fffffff < next then (w, false)
        else h2ApplySettings { w with peerInitWindow := val, streamSend := next } rest
    else if id = 0x5 ∧ 16384 ≤ val ∧ val ≤ 16777215 then
      h2ApplySettings { w with peerMaxFrame := min val h2DefaultMaxFrameSize } rest
    else h2ApplySettings w rest

def h2ApplyPeerSettings (w : H2Windows) (payload : Str) : H2Windows × Bool :=
  if payload.length % 6 ≠ 0 then (w, true) else h2ApplySettings w (h2SettingsOf payload)

/-- The loop of `h2_flush_pending_data`. -/
def h2FlushLoop (io : H2Io) (body : Str) (maxFrame : Nat) : Nat → H2Carg → H2Carg
  | 0, c => c
  | fuel + 1, c =>
    if c.sendBodyOff < body.length then
      let avail := min c.win.connSend c.win.streamSend
      if avail ≤ 0 then c
      else
        let rem := body.length - c.sendBodyOff
        let chunk := min (min rem avail.toNat) maxFrame
        let flags := if body.length ≤ c.sendBodyOff + chunk then h2EndStream else 0
        if io.data c.sendBodyOff then
          let c := c.wrote ⟨h2Data, flags, 1, (body.drop c.sendBodyOff).take chunk⟩
          h2FlushLoop io body maxFrame fuel
            { c with
              sendBodyOff := c.sendBodyOff + chunk
              win := { c.win with
                connSend := c.win.connSend - chunk
                streamSend := c.win.streamSend - chunk } }
        else c
    else c

def h2FlushPendingData (io : H2Io) (c : H2Carg) : H2Carg :=
  match c.sendBody with
  | none => c
  | some body =>
    if !io.live then c
    else
      let maxFrame := if c.win.peerMaxFrame = 0 then h2DefaultMaxFrameSize else c.win.peerMaxFrame
      let maxFrame := min maxFrame h2DefaultMaxFrameSize
      let c := h2FlushLoop io body maxFrame (body.length + 1) c
      if body.length ≤ c.sendBodyOff then { c with sendBody := none, sendBodyOff := 0 } else c

/-! ## What a frame does to the connection -/

/-- `h2_send_settings_ack` for the frame at an offset. -/
def h2SendSettingsAck (io : H2Io) (off : Nat) (c : H2Carg) : H2Carg × Bool :=
  if io.ack off then ({ c.wrote ⟨h2Settings, h2EndStream, 0, []⟩ with settingsAckSent := true }, true)
  else (c, false)

/-- A SETTINGS frame at the frontier: whether its ACK was written, and whether it was
refused. -/
def h2FeedSettings (io : H2Io) (off : Nat) (f : H2Frame) (c : H2Carg) : H2Carg × Bool × Bool :=
  if f.has h2EndStream then (c, true, false)
  else
    let applied := if !c.settingsApplyValid || c.settingsApplyOff != off then
        let r := h2ApplyPeerSettings c.win f.payload
        ({ c with win := r.1, settingsApplyValid := true, settingsApplyOff := off }, !r.2)
      else (c, false)
    let sent := h2SendSettingsAck io off applied.1
    (sent.1, sent.2, applied.2)

/-- A PING frame at the frontier, with `h2_send_ping_ack`. -/
def h2FeedPing (io : H2Io) (off : Nat) (f : H2Frame) (c : H2Carg) : H2Carg :=
  if f.has h2EndStream || f.payload.length != 8 then c
  else if io.pingAck off then c.wrote ⟨h2Ping, h2EndStream, 0, f.payload⟩
  else c

/-- A WINDOW_UPDATE frame at the frontier, and whether it was refused. -/
def h2FeedWindowUpdate (c : H2Carg) : H2Carg × Bool :=
  if f.payload.length < 4 then (c, false)
  else
    let incr := BigEndian.toNat (f.payload.take 4) % 2 ^ 31
    if incr = 0 then (c, false)
    else
      let logged := { c with events := c.events ++ [.increment f.sid incr] }
      if f.sid = 0 then
        match h2WindowAdd c.win.connSend incr with
        | none => (logged, true)
        | some next => ({ logged with win := { c.win with connSend := next } }, false)
      else if f.sid = 1 then
        match h2WindowAdd c.win.streamSend incr with
        | none => (logged, true)
        | some next => ({ logged with win := { c.win with streamSend := next } }, false)
      else (c, false)

/-- A DATA frame at the frontier, and whether it was more than allowed. -/
def h2FeedData (c : H2Carg) : H2Carg × Bool :=
  let plen := f.payload.length
  if plen = 0 then (c, false)
  else if c.win.connRecv < plen ∨ c.win.streamRecv < plen then (c, true)
  else
    ({ c with win := { c.win with
        connRecv := c.win.connRecv - plen
        streamRecv := c.win.streamRecv - plen } }, false)

/-- What `h2_feed_frames` does to the connection with a frame at the frontier: whether an ACK
is still missing, and whether the frame was refused. -/
def h2Frontier (io : H2Io) (off : Nat) (f : H2Frame) (c : H2Carg) : H2Carg × Bool × Bool :=
  if f.type = h2Settings ∧ f.sid = 0 then
    let r := h2FeedSettings io off f c
    (r.1, !r.2.1, r.2.2)
  else if f.type = h2Ping ∧ f.sid = 0 then (h2FeedPing io off f c, false, false)
  else if f.type = h2WindowUpdate then
    let r := h2FeedWindowUpdate f c
    (r.1, false, r.2)
  else if f.type = h2Data ∧ f.sid = 1 then
    let r := h2FeedData f c
    (r.1, false, r.2)
  else (c, false, false)

/-! ## What a frame does to the response -/

inductive H2End where
  | none
  | headers
  | data
  | goaway
  | rst
deriving DecidableEq

/-- A decoder of header blocks: the table it starts with, and for a block the headers in it,
whether it was in order, and the table after it. -/
structure HpackDecoder (δ : Type) where
  init : δ
  decodeBlock : Str → δ → List (Str × Str) × Bool × δ

structure H2RespState (δ : Type) where
  grpcStatus : Int
  haveStatus : Bool
  statusMsg : Str
  httpStatus : Str
  data : Option Str
  streamEnded : Bool
  headersEnd : Bool
  endReason : H2End
  goawayLastSid : Nat
  goawayError : Nat
  rstError : Nat
  sawGoaway : Bool
  sawRst : Bool
  hpackOk : Bool
  dtable : δ

def H2RespState.init {δ : Type} (hpack : HpackDecoder δ) (data : Option Str) : H2RespState δ where
  grpcStatus := -1
  haveStatus := false
  statusMsg := []
  httpStatus := []
  data := data
  streamEnded := false
  headersEnd := false
  endReason := .none
  goawayLastSid := 0
  goawayError := 0
  rstError := 0
  sawGoaway := false
  sawRst := false
  hpackOk := true
  dtable := hpack.init

def h2HdrCb {δ : Type} (st : H2RespState δ) (name value : Str) : H2RespState δ :=
  if sameCase name (cstr "grpc-status") then
    { st with grpcStatus := Text.atoll value, haveStatus := true }
  else if sameCase name (cstr "grpc-message") then { st with statusMsg := value.take 255 }
  else if sameCase name (cstr ":status") then { st with httpStatus := value.take 15 }
  else st

/-- The stream has ended; the first reason stays. -/
def H2RespState.ended {δ : Type} (st : H2RespState δ) (reason : H2End) : H2RespState δ :=
  { st with
    streamEnded := true
    endReason := if st.endReason = .none then reason else st.endReason }

/-- The header block in a HEADERS frame, without padding and priority.  `none` if it is
malformed. -/
def h2HeaderBlock : Option Str := do
  let block ←
    if f.has h2Padded then
      match f.payload with
      | [] => none
      | pad :: block =>
        if block.length < pad.toNat then none else some (block.take (block.length - pad.toNat))
    else some f.payload
  if f.has h2Priority then
    if block.length < 5 then none else some (block.drop 5)
  else some block

/-- The data in a DATA frame, without padding.  `none` if it is malformed. -/
def h2DataPart : Option Str :=
  if f.has h2Padded then
    match f.payload with
    | [] => none
    | pad :: data =>
      if data.length < pad.toNat then none else some (data.take (data.length - pad.toNat))
  else some f.payload

def H2RespState.refuse {δ : Type} (st : H2RespState δ) (refused : Bool) : H2RespState δ :=
  if refused then st.ended .rst else st

def h2RespGoaway {δ : Type} (st : H2RespState δ) (f : H2Frame) : H2RespState δ :=
  let st := { st with sawGoaway := true }
  let st := if 8 ≤ f.payload.length then
      { st with
        goawayLastSid := BigEndian.toNat (f.payload.take 4) % 2 ^ 31
        goawayError := BigEndian.toNat ((f.payload.drop 4).take 4) }
    else st
  if st.goawayLastSid < 1 ∧ st.endReason = .none then
    { st with streamEnded := true, endReason := .goaway }
  else st

def h2RespRst {δ : Type} (st : H2RespState δ) (f : H2Frame) : H2RespState δ :=
  let st := { st.ended .rst with sawRst := true }
  if 4 ≤ f.payload.length then { st with rstError := BigEndian.toNat (f.payload.take 4) } else st

def h2RespHeaders {δ : Type} (hpack : HpackDecoder δ) (st : H2RespState δ) (f : H2Frame)
    (block : Str) : H2RespState δ :=
  let (headers, ok, dtable) := hpack.decodeBlock block st.dtable
  let st := headers.foldl (fun st h => h2HdrCb st h.1 h.2) { st with dtable := dtable }
  let st := if ok then st else { st with hpackOk := false }
  let st := if f.has h2EndHeaders then { st with headersEnd := true } else st
  if f.has h2EndStream then st.ended .headers else st

def h2RespData {δ : Type} (st : H2RespState δ) (f : H2Frame) (data : Str) : H2RespState δ :=
  let st := { st with data := st.data.map (· ++ data) }
  if f.has h2EndStream then st.ended .data else st

/-- What `h2_feed_frames` does to the response with a frame, which the connection may have
refused.  `none` if the frame is malformed. -/
def h2RespFrame {δ : Type} (hpack : HpackDecoder δ) (st : H2RespState δ) (f : H2Frame)
    (refused : Bool) : Option (H2RespState δ) :=
  if f.type = h2Settings ∧ f.sid = 0 then some (st.refuse refused)
  else if f.type = h2Ping ∧ f.sid = 0 then some st
  else if f.type = h2WindowUpdate then some (st.refuse refused)
  else if f.type = h2Goaway then some (h2RespGoaway st f)
  else if f.type = h2RstStream ∧ f.sid = 1 then some (h2RespRst st f)
  else if f.type = h2Headers ∧ f.sid = 1 then (h2HeaderBlock f).map (h2RespHeaders hpack st f)
  else if f.type = h2Continuation ∧ f.sid = 1 then some (h2RespHeaders hpack st f f.payload)
  else if f.type = h2Data ∧ f.sid = 1 then (h2DataPart f).map (h2RespData (st.refuse refused) f)
  else some st

/-! ## Parsing the buffer -/

/-- The state of `h2_feed_frames`: the offset, the response, the connection if there is one
to act on, and the frontier. -/
structure H2Feed (δ : Type) where
  off : Nat
  st : H2RespState δ
  carg : Option H2Carg
  commit : Nat

section Feed

variable {δ : Type} (hpack : HpackDecoder δ) (io : H2Io)

/-- One round of the loop of `h2_feed_frames`.  `none` if the frame is malformed. -/
def h2FeedFrame (s : H2Feed δ) (f : H2Frame) : Option (H2Feed δ) :=
  let next := s.off + 9 + f.payload.length
  match s.carg with
  | none => (h2RespFrame hpack s.st f false).map fun st => ⟨next, st, none, s.commit⟩
  | some c =>
    if s.off = s.commit then
      let r := h2Frontier io s.off f c
      (h2RespFrame hpack s.st f r.2.2).map fun st =>
        ⟨next, st, some r.1, if r.2.1 then s.commit else next⟩
    else (h2RespFrame hpack s.st f false).map fun st => ⟨next, st, some c, s.commit⟩

def h2FeedOne (s : H2Feed δ) (buf : Str) : Parsed (H2Feed δ) :=
  match h2ReadFrame buf with
  | none => .incomplete
  | some f =>
    match h2FeedFrame hpack io s f with
    | none => .malformed
    | some s' => .frame s' (9 + f.payload.length)

/-- `h2_feed_frames`: the state at its end, and whether it returned `1`. -/
def h2FeedFrames (buf : Str) (st : H2RespState δ) (carg : Option H2Carg) (commit : Nat) :
    H2Feed δ × Bool :=
  let r := drain (h2FeedOne hpack io) (buf.length + 1) ⟨0, st, carg, commit⟩ buf
  (r.1, r.2.2)

def H2Carg.initWindows (c : H2Carg) : H2Carg :=
  if c.recvWindowInited then c
  else
    { c with
      win := { c.win with
        peerInitWindow :=
          if c.win.peerInitWindow = 0 then h2DefaultWindowSize else c.win.peerInitWindow
        peerMaxFrame := if c.win.peerMaxFrame = 0 then h2DefaultMaxFrameSize else c.win.peerMaxFrame
        connRecv := 2 ^ 20
        streamRecv := 2 ^ 20 }
      recvWindowInited := true }

/-- `otlp_grpc_expect_complete`: the connection, and whether the response is complete. -/
def otlpGrpcExpectComplete (c : H2Carg) : H2Carg × Bool :=
  if h2MaxResponseWire < c.fullBody.length then (c, true)
  else
    let c := c.initWindows
    let r := h2FeedFrames hpack io c.fullBody (.init hpack none) (some c) c.feedOffset
    let c := { r.1.carg.getD c with feedOffset := r.1.commit }
    if r.2 then (h2FlushPendingData io c, r.1.st.streamEnded) else (c, true)

end Feed

/-- A read: the bytes, and which writes succeed during it. -/
structure H2Read where
  bytes : Str
  io : H2Io

/-- A read puts its bytes into the buffer and looks whether the response is complete. -/
def H2Carg.read {δ : Type} (hpack : HpackDecoder δ) (c : H2Carg) (r : H2Read) : H2Carg :=
  (otlpGrpcExpectComplete hpack r.io { c with fullBody := c.fullBody ++ r.bytes }).1

def H2Carg.reads {δ : Type} (hpack : HpackDecoder δ) (c : H2Carg) (rs : List H2Read) : H2Carg :=
  rs.foldl (H2Carg.read hpack) c

end Alligator
