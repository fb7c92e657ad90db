import Alligator.Http.Multiparser

/-!
# Connections of an entrypoint

A connection gathers what it reads.  When the buffer starts with a complete request,
`tcp_server_try_dispatch` hands the whole buffer to `alligator_multiparser` and sends the
response.  When the response has been written, `tcp_server_write_complete` drops the bytes of
the request and looks for the next one.

A client that waits for each response before it sends on is served as if every request were
alone in its buffer (`run_eq_served`).  The bytes of a request that is already in the buffer
behind another one are part of the body of that one.  Such a request is dispatched from the
callback of the write before it, which then lets go of the new response too; its own callback
finds none and does not drop the request.
-/

namespace Alligator

open Text List Option

/-! ## Framing -/

/-- `http_entrypoint_request_size`: the bytes up to the body, and those of the body. -/
def httpEntrypointRequestSize (buf : Str) (hr : HttpReplyData) : Nat :=
  match hr.body with
  | none => 0
  | some body => buf.length - body.length + hr.contentLength.toNat

/-- `http_entrypoint_request_complete`: the size of a complete request. -/
def httpEntrypointRequestComplete (buf : Str) (hr : HttpReplyData) : Option Nat :=
  let need := httpEntrypointRequestSize buf hr
  if hr.body = none ∨ need = 0 ∨ buf.length < need then none else some need

def httpEntrypointPrepareResponse (close : Bool) (body : Str) : Str :=
  if !(cstr "HTTP").isPrefixOf body || close then body
  else
    match memmem (cstr "Connection: close\r\n") body with
    | none => body
    | some (before, after) => before ++ cstr "Connection: keep-alive\r\n" ++ after

/-! ## The connection -/

structure Conn (σ : Type) where
  entry : EntryState σ
  fullBody : Str
  httpWritePending : Bool
  httpRequestSize : Nat
  responseBuffer : Option Str
  /-- `uv_shutdown` was called. -/
  shutdown : Bool
  /-- `uv_is_closing` of the client. -/
  closing : Bool
  sent : List Str

open Conn

def EntryState.idle {σ : Type} (st : EntryState σ) : EntryState σ :=
  { st with push := { st.push with parserStatus := false } }

namespace Conn

variable {σ : Type} (sv : Services σ) (conf : EntryConfig)

/-- `http_entrypoint_consume_request` -/
def consumeRequest (c : Conn σ) : Conn σ :=
  { c with fullBody := c.fullBody.drop c.httpRequestSize, httpRequestSize := 0 }

/-- `http_entrypoint_reset_request_state` -/
def resetRequestState (c : Conn σ) : Conn σ :=
  { c with httpRequestSize := 0, entry := c.entry.idle }

/-- `tcp_server_send_response`, with a write that can be queued. -/
def sendResponse (c : Conn σ) (str : Str) : Conn σ :=
  let body := httpEntrypointPrepareResponse c.entry.httpCloseAfterResponse str
  { c with httpWritePending := true, responseBuffer := some body, sent := c.sent ++ [body] }

/-- The part of `tcp_server_try_dispatch` behind the check of the size. -/
def dispatch (ctx : CallContext) (c : Conn σ) (hr : HttpReplyData) (msgSize : Nat) :
    Option (Conn σ) := do
  let entry := { c.entry with httpCloseAfterResponse := httpEntrypointNegotiate conf hr }
  let (str, entry) ← alligatorMultiparser sv conf ctx true c.fullBody entry
  let c := { c with entry := entry, httpRequestSize := msgSize }
  if str = [] then return c.resetRequestState
  else
    let c := c.sendResponse str
    return if c.entry.httpCloseAfterResponse then c.consumeRequest.resetRequestState else c

/-- `tcp_server_try_dispatch` -/
def tryDispatch (ctx : CallContext) (c : Conn σ) : Option (Conn σ) :=
  if c.httpWritePending || c.closing || c.fullBody.isEmpty then some c
  else do
    match ← httpProtoGetRequestData c.fullBody conf.authHeader with
    | none => return c
    | some hr =>
      match httpEntrypointRequestComplete c.fullBody hr with
      | none => return c
      | some msgSize => c.dispatch sv conf ctx hr msgSize

/-- `tcp_server_begin_shutdown` -/
def beginShutdown (c : Conn σ) : Conn σ := { c with shutdown := c.shutdown || !c.closing }

/-- `tcp_server_write_complete` -/
def writeComplete (ctx : CallContext) (status : Int) (c : Conn σ) : Option (Conn σ) :=
  let c := { c with httpWritePending := false }
  if c.responseBuffer.any (cstr "HTTP").isPrefixOf then
    if status ≠ 0 ∨ c.entry.httpCloseAfterResponse then some c.beginShutdown
    else c.consumeRequest.resetRequestState.tryDispatch sv conf ctx
  else some c

inductive Event where
  | read (ctx : CallContext) (bytes : Str)
  | written (ctx : CallContext) (status : Int)
  | shutdown

/-- `tcp_server_read_data`, `tcp_server_written` and `tcp_server_shutdown_client`.  A write that was
not queued and a shutdown that was not begun are not reported. -/
def step (c : Conn σ) : Event → Option (Conn σ)
  | .read ctx bytes => tryDispatch sv conf ctx { c with fullBody := c.fullBody ++ bytes }
  | .written ctx status =>
    if c.httpWritePending then
      (c.writeComplete sv conf ctx status).map fun c => { c with responseBuffer := none }
    else none
  | .shutdown => if c.shutdown then some { c with closing := true } else none

def run (c : Conn σ) (events : List Event) : Option (Conn σ) := events.foldlM (step sv conf) c

/-- Nothing is in the buffer or on its way. -/
structure Idle (c : Conn σ) : Prop where
  fullBody : c.fullBody = []
  pending : c.httpWritePending = false
  closing : c.closing = false

end Conn

/-! ## Requests -/

def HttpMethod.word : HttpMethod → Str
  | .response => cstr "HTTP/"
  | .get => cstr "GET"
  | .post => cstr "POST"
  | .put => cstr "PUT"
  | .delete => cstr "DELETE"
  | .options => cstr "OPTIONS"
  | .head => cstr "HEAD"
  | .connect => cstr "CONNECT"
  | .trace => cstr "TRACE"
  | .patch => cstr "PATCH"

structure WireRequest where
  method : HttpMethod
  uri : Str
  lines : List Str
  body : Str
  request : method ≠ .response
  uri_ne : uri ≠ []
  uri_plain : ∀ c ∈ uri, isUriEnd c = false
  lines_ne : ∀ l ∈ lines, l ≠ []
  lines_plain : ∀ l ∈ lines, ∀ c ∈ l, c ≠ 13 ∧ c ≠ 10

namespace WireRequest

/-- The request up to the blank behind its address. -/
def address (r : WireRequest) : Str := r.method.word ++ 32 :: (r.uri ++ [32])

def block (r : WireRequest) : Str := r.lines.flatMap fun l => 13 :: 10 :: l

def rest (r : WireRequest) : Str :=
  cstr "HTTP/1.1" ++ (r.block ++ ([13, 10, 13, 10] ++ r.body))

def text (r : WireRequest) : Str := r.address ++ r.rest

/-- What the parser makes of the request: it reads the length of the body. -/
structure Framed (r : WireRequest) (authHeader : Str) (hr : HttpReplyData) : Prop where
  parsed : httpProtoGetRequestData r.text authHeader = some (some hr)
  length : hr.contentLength.toNat = r.body.length

end WireRequest

/-! ## Parts of a request -/

lemma httpMethodOf_word {m : HttpMethod} (t : Str) :
    httpMethodOf (m.word ++ t) = some (m, m.word.length) := by
  cases m <;> simp [HttpMethod.word, httpMethodOf, cstr]

def requestStart (method : HttpMethod) (uri : Str) (version : Nat) : HttpReplyData :=
  { HttpReplyData.zero method with
    expire := -1, uri := some (uri.takeWhile (· != 0)), httpVersion := version }

def readHeaders (hr : HttpReplyData) (headers body authHeader : Str) : Option HttpReplyData :=
  if 0 ∈ headers then none
  else do
    let hr ← (lineStarts headers).foldlM httpReadHeader
      { hr with headers := some headers, body := some body }
    some (httpGetAuthData hr headers authHeader)

def HttpReplyData.withBody (hr : HttpReplyData) (body : Str) : HttpReplyData :=
  { hr with body := some body }

section

variable (hr : HttpReplyData)

lemma httpReadHeader_withBody (body line : Str) : httpReadHeader (hr.withBody body) line =
      (httpReadHeader hr line).map fun hr => hr.withBody body := by
  unfold httpReadHeader
  dsimp only
  split_ifs
  · rw [Option.map_map]
    rfl
  · rw [Option.map_map]
    rfl
  all_goals rfl

lemma foldlM_httpReadHeader_withBody (body : Str) (lines : List Str) (hr : HttpReplyData) :
    lines.foldlM httpReadHeader (hr.withBody body) =
      (lines.foldlM httpReadHeader hr).map fun hr => hr.withBody body := by
  induction lines generalizing hr with
  | nil => exact rfl
  | cons l lines ih =>
    rw [foldlM_cons, foldlM_cons, httpReadHeader_withBody]
    cases httpReadHeader hr l with
    | none => rfl
    | some hr' => exact ih hr'

lemma httpGetAuthData_withBody (body headers authHeader : Str) :
    httpGetAuthData (hr.withBody body) headers authHeader =
      (httpGetAuthData hr headers authHeader).withBody body := by
  unfold httpGetAuthData
  dsimp only
  split
  · rfl
  · split_ifs <;> rfl

lemma readHeaders_withBody (headers b b' authHeader : Str) : readHeaders hr headers b' authHeader =
      (readHeaders hr headers b authHeader).map fun hr => hr.withBody b' := by
  rw [readHeaders, readHeaders]
  split_ifs
  · rfl
  · have hstart : { hr with headers := some headers, body := some b' } =
        HttpReplyData.withBody { hr with headers := some headers, body := some b } b' := rfl
    rw [hstart, foldlM_httpReadHeader_withBody]
    cases (lineStarts headers).foldlM httpReadHeader
        { hr with headers := some headers, body := some b } with
    | none => rfl
    | some hr' => exact congrArg some (httpGetAuthData_withBody hr' b' headers authHeader)

end

lemma readHeaders_body {hr hr' : HttpReplyData} {headers body authHeader : Str}
    (h : readHeaders hr headers body authHeader = some hr') : hr'.body = some body := by
  have hself := readHeaders_withBody hr headers body body authHeader
  rw [h] at hself
  exact congrArg HttpReplyData.body (some.inj hself)

variable {buf q : Str}

namespace WireRequest

variable (r : WireRequest)

lemma dropWhile_uri (t : Str) : (32 :: (r.uri ++ t)).dropWhile (· == 32) = r.uri ++ t := by
  rw [dropWhile_cons_of_pos (by decide)]
  obtain ⟨c, u, hu⟩ := exists_cons_of_ne_nil r.uri_ne
  have hc : c ≠ 32 := by
    rintro rfl
    exact absurd (r.uri_plain 32 (by rw [hu]; exact mem_cons_self)) (by decide)
  rw [hu, cons_append, dropWhile_cons_of_neg (by simpa using hc)]

/-- A buffer that holds the address. -/
lemma parse_address (authHeader q : Str) :
    httpProtoGetRequestData (r.address ++ q) authHeader =
      (match splitHeaders (httpVersionOf (q.dropWhile (· == 32))).2 with
        | none => some (requestStart r.method r.uri (httpVersionOf (q.dropWhile (· == 32))).1)
        | some (headers, body) =>
          readHeaders (requestStart r.method r.uri (httpVersionOf (q.dropWhile (· == 32))).1)
            headers body authHeader).map some := by
  have htext : r.address ++ q = r.method.word ++ 32 :: (r.uri ++ 32 :: q) := by simp [address]
  have hplain : ∀ c ∈ r.uri, (!isUriEnd c) = true := fun c hc => by rw [r.uri_plain c hc]; rfl
  have htake : (r.uri ++ 32 :: q).takeWhile (fun c => !isUriEnd c) = r.uri := by
    rw [takeWhile_append_of_pos hplain, takeWhile_cons_of_neg (by decide), append_nil]
  have hdrop : (r.uri ++ 32 :: q).dropWhile (fun c => !isUriEnd c) = 32 :: q := by
    rw [dropWhile_append_of_pos hplain, dropWhile_cons_of_neg (by decide)]
  rw [htext, httpProtoGetRequestData.eq_def, httpMethodOf_word]
  split
  · rename_i h
    cases h
  · rename_i h
    exact absurd (Prod.mk.inj (some.inj h)).1 r.request
  · rename_i h
    obtain ⟨rfl, rfl⟩ := Prod.mk.inj (some.inj h)
    rw [drop_left]
    unfold httpReadRequest
    dsimp only
    rw [r.dropWhile_uri, hdrop, htake]
    rfl

/-- A line feed of the block stands before a line. -/
lemma after_feed : ∀ {lines : List Str}, (∀ l ∈ lines, l ≠ []) →
    (∀ l ∈ lines, ∀ c ∈ l, c ≠ 13 ∧ c ≠ 10) → ∀ {u v : Str},
    (lines.flatMap fun l => 13 :: 10 :: l) ++ [13, 10, 13] = u ++ 10 :: v →
    v = [13] ∨ ∃ c t, v = c :: t ∧ c ≠ 13 ∧ c ≠ 10 := by
  intro lines
  induction lines with
  | nil =>
    intro _ _ u v h
    match u, h with
    | [], h => cases h
    | [_], h =>
      cases h
      exact .inl rfl
    | [_, _], h => cases h
    | _ :: _ :: _ :: u, h =>
      have := congrArg List.length h
      simp at this
  | cons l lines ih =>
    intro hne hplain u v h
    have hl := hne l mem_cons_self
    have hlplain := hplain l mem_cons_self
    rw [flatMap_cons, cons_append, cons_append, append_assoc] at h
    match u, h with
    | [], h => cases h
    | [_], h =>
      obtain ⟨c, t, rfl⟩ := exists_cons_of_ne_nil hl
      cases h
      exact .inr ⟨c, _, rfl, hlplain c mem_cons_self⟩
    | _ :: _ :: u, h =>
      have htail := (cons.inj (cons.inj h).2).2
      -- The line has no line feed of its own.
      rcases append_eq_append_iff.mp htail with ⟨w, rfl, hw⟩ | ⟨w, hw, hv⟩
      · exact ih (forall_mem_cons.1 hne).2
          (forall_mem_cons.1 hplain).2 hw
      · cases w with
        | nil =>
          exact ih (forall_mem_cons.1 hne).2
            (forall_mem_cons.1 hplain).2 (u := []) hv.symm
        | cons c w =>
          obtain ⟨rfl, -⟩ := cons.inj hv
          exact absurd rfl (hlplain 10 (by rw [hw]; simp)).2

lemma no_blank_line (u v : Str) : r.block ++ [13, 10, 13] ≠ u ++ ([13, 10, 13, 10] ++ v) ∧
      r.block ++ [13, 10, 13] ≠ u ++ ([10, 10] ++ v) := by
  constructor
  · intro h
    have h' : r.block ++ [13, 10, 13] = (u ++ [13]) ++ 10 :: (13 :: 10 :: v) := by
      rw [h]
      simp
    rcases after_feed r.lines_ne r.lines_plain h' with hv | ⟨c, t, hv, h13, -⟩
    · cases hv
    · cases hv
      exact h13 rfl
  · intro h
    have h' : r.block ++ [13, 10, 13] = u ++ 10 :: (10 :: v) := by
      rw [h]
      simp
    rcases after_feed r.lines_ne r.lines_plain h' with hv | ⟨c, t, hv, -, h10⟩
    · cases hv
    · cases hv
      exact h10 rfl

lemma splitHeaders_block (b : Str) :
    splitHeaders (r.block ++ ([13, 10, 13, 10] ++ b)) = some (r.block, b) := by
  have hfirst : ∀ u v, r.block ++ [13, 10, 13, 10] = u ++ ([13, 10, 13, 10] ++ v) → v = [] := by
    intro u v h
    rcases eq_nil_or_concat v with rfl | ⟨v', x, rfl⟩
    · rfl
    · have hsplit : (r.block ++ [13, 10, 13]) ++ [10] = (u ++ ([13, 10, 13, 10] ++ v')) ++ [x] := by
        simpa using h
      exact absurd (append_inj_left' hsplit rfl) (r.no_blank_line u v').1
  rw [splitHeaders, memmem_append (by decide) b hfirst]
  rfl

lemma splitHeaders_early (h : q <+: r.block ++ [13, 10, 13]) : splitHeaders q = none := by
  obtain ⟨z, hz⟩ := h
  have hcrlf : ∀ u v, q ≠ u ++ ([13, 10, 13, 10] ++ v) := by
    rintro u v rfl
    refine (r.no_blank_line u (v ++ z)).1 ?_
    rw [← hz]
    simp
  have hlf : ∀ u v, q ≠ u ++ ([10, 10] ++ v) := by
    rintro u v rfl
    refine (r.no_blank_line u (v ++ z)).2 ?_
    rw [← hz]
    simp
  rw [splitHeaders, memmem_eq_none (by decide) hcrlf, memmem_eq_none (by decide) hlf]
  rfl

lemma version_rest (t : Str) :
    httpVersionOf ((cstr "HTTP/1.1" ++ t).dropWhile (· == 32)) = (11, t) := by
  simp [cstr, httpVersionOf, startsCase, tolower]

lemma parse_block (authHeader b : Str) :
    httpProtoGetRequestData
        (r.address ++ (cstr "HTTP/1.1" ++ (r.block ++ ([13, 10, 13, 10] ++ b)))) authHeader =
      (readHeaders (requestStart r.method r.uri 11) r.block b authHeader).map some := by
  rw [r.parse_address, version_rest, r.splitHeaders_block]

/-- A buffer that ends before the header block does. -/
lemma parse_early (h : q <+: cstr "HTTP/1.1" ++ (r.block ++ [13, 10, 13])) (authHeader : Str) :
    ∃ version, httpProtoGetRequestData (r.address ++ q) authHeader =
      some (some (requestStart r.method r.uri version)) := by
  have hsplit : splitHeaders (httpVersionOf (q.dropWhile (· == 32))).2 = none := by
    rcases prefix_or_prefix_of_prefix h (prefix_append _ _) with hshort | ⟨q', rfl⟩
    · have hall : ∀ n < 9, splitHeaders (httpVersionOf
          (((cstr "HTTP/1.1").take n).dropWhile (· == 32))).2 = none := by decide
      rw [prefix_iff_eq_take.mp hshort]
      exact hall q.length (Nat.lt_succ_of_le hshort.length_le)
    · exact r.splitHeaders_early ((prefix_append_right_inj _).mp h)
  refine ⟨(httpVersionOf (q.dropWhile (· == 32))).1, ?_⟩
  rw [r.parse_address, hsplit]
  rfl

variable {r} {authHeader : Str} {hr : HttpReplyData}

lemma Framed.read (h : r.Framed authHeader hr) :
    readHeaders (requestStart r.method r.uri 11) r.block r.body authHeader = some hr := by
  have hparsed := h.parsed
  rw [text, rest, r.parse_block] at hparsed
  obtain ⟨hr', hr'_eq, e⟩ := map_eq_some_iff.mp hparsed
  cases e
  exact hr'_eq

lemma Framed.body (h : r.Framed authHeader hr) : hr.body = some r.body :=
  readHeaders_body h.read

lemma text_ne_nil (r : WireRequest) : r.text ≠ [] := by simp [text, address]

lemma length_text (r : WireRequest) : r.body.length ≤ r.text.length := by
  simp only [text, rest, length_append]
  omega

lemma complete_of_no_body (h : hr.body = none) : httpEntrypointRequestComplete buf hr = none := by
  exact if_pos (.inl h)

lemma Framed.complete (h : r.Framed authHeader hr) :
    httpEntrypointRequestComplete r.text hr = some r.text.length := by
  have hle := r.length_text
  have hpos := length_pos_iff.mpr r.text_ne_nil
  have hneed : httpEntrypointRequestSize r.text hr = r.text.length := by
    rw [httpEntrypointRequestSize, h.body, h.length]
    exact Nat.sub_add_cancel hle
  rw [httpEntrypointRequestComplete, hneed, h.body, if_neg]
  rintro (hnone | hzero | hlt)
  · cases hnone
  · omega
  · omega

/-- A part of the request that goes beyond its address is not complete. -/
lemma Framed.incomplete (h : r.Framed authHeader hr) (hq : q <+: r.rest) (hne : q ≠ r.rest) :
    ∃ hr', httpProtoGetRequestData (r.address ++ q) authHeader = some (some hr') ∧
      httpEntrypointRequestComplete (r.address ++ q) hr' = none := by
  have hhead : cstr "HTTP/1.1" ++ (r.block ++ [13, 10, 13]) <+: r.rest :=
    ⟨10 :: r.body, by simp [rest]⟩
  rcases prefix_or_prefix_of_prefix hq hhead with hearly | ⟨z, rfl⟩
  · obtain ⟨version, hparse⟩ := r.parse_early hearly authHeader
    exact ⟨_, hparse, complete_of_no_body rfl⟩
  · have hrest : r.rest = (cstr "HTTP/1.1" ++ (r.block ++ [13, 10, 13])) ++ 10 :: r.body := by
      simp [rest]
    rw [hrest] at hq hne
    cases z with
    | nil =>
      rw [append_nil]
      obtain ⟨version, hparse⟩ := r.parse_early prefix_rfl authHeader
      exact ⟨_, hparse, complete_of_no_body rfl⟩
    | cons c b =>
      -- The block is there, and the body is not there to its end.
      obtain ⟨rfl, hb⟩ := cons_prefix_cons.mp ((prefix_append_right_inj _).mp hq)
      have hshort : b.length < r.body.length := by
        refine lt_of_le_of_ne hb.length_le fun hlen => hne ?_
        rw [hb.eq_of_length hlen]
      have htext : (cstr "HTTP/1.1" ++ (r.block ++ [13, 10, 13])) ++ 10 :: b =
          cstr "HTTP/1.1" ++ (r.block ++ ([13, 10, 13, 10] ++ b)) := by simp
      refine ⟨hr.withBody b, ?_, ?_⟩
      · rw [htext, r.parse_block, readHeaders_withBody _ _ r.body b, h.read]
        rfl
      · refine if_pos (.inr (.inr ?_))
        have hneed : httpEntrypointRequestSize
            (r.address ++ ((cstr "HTTP/1.1" ++ (r.block ++ [13, 10, 13])) ++ 10 :: b))
            (hr.withBody b) =
            (r.address ++ ((cstr "HTTP/1.1" ++ (r.block ++ [13, 10, 13])) ++ 10 :: b)).length -
              b.length + r.body.length := by
          rw [← h.length]
          rfl
        omega

lemma word_eq_cons (m : HttpMethod) : ∃ c t, m.word = c :: t ∧ isUriEnd c = false := by
  cases m <;> exact ⟨_, _, rfl, rfl⟩

lemma requestOf_text (conf : EntryConfig) (r : WireRequest) :
    requestOf conf r.text = httpProtoGetRequestData r.text conf.authHeader := by
  obtain ⟨c, t, hword, hc⟩ := word_eq_cons r.method
  have hdrop : r.text.dropWhile isUriEnd = r.text := by
    rw [text, address, hword, cons_append, cons_append, dropWhile_cons_of_neg (by rw [hc]; decide)]
  rw [requestOf, hdrop, if_neg r.text_ne_nil]

end WireRequest

/-! ## Reads and writes -/

section

variable {σ : Type} {sv : Services σ} {conf : EntryConfig}

/-- What the connection knew of the last request does not matter for a new one. -/
lemma alligatorMultiparser_negotiated {hr : HttpReplyData}
    (h : requestOf conf buf = some (some hr)) (ctx : CallContext) (st : EntryState σ)
    (close : Bool) :
    alligatorMultiparser sv conf ctx true buf { st with httpCloseAfterResponse := close } =
      alligatorMultiparser sv conf ctx true buf st := by
  rw [alligatorMultiparser, alligatorMultiparser, httpParser, httpParser, h]
  rfl

lemma isPrefixOf_prepareResponse {resp : Str} (h : (cstr "HTTP").isPrefixOf resp = true) :
    (cstr "HTTP").isPrefixOf (httpEntrypointPrepareResponse false resp) = true := by
  obtain ⟨t, rfl⟩ := isPrefixOf_iff_prefix.mp h
  rw [httpEntrypointPrepareResponse, h]
  have hskip : memmem (cstr "Connection: close\r\n") (cstr "HTTP" ++ t) =
      (memmem (cstr "Connection: close\r\n") t).map fun p => (cstr "HTTP" ++ p.1, p.2) := by
    simp [cstr, memmem, Function.comp_def]
  rw [hskip]
  cases memmem (cstr "Connection: close\r\n") t with
  | none => exact h
  | some p =>
    refine isPrefixOf_iff_prefix.mpr ⟨p.1 ++ (cstr "Connection: keep-alive\r\n" ++ p.2), ?_⟩
    simp

variable {c : Conn σ} {r : WireRequest} {hr : HttpReplyData}

/-- Nothing is done about a request that is not complete. -/
lemma tryDispatch_early (sv : Services σ) (ctx : CallContext) (hpending : c.httpWritePending = false)
    (hclosing : c.closing = false) (hframed : r.Framed conf.authHeader hr)
    (hbuf : c.fullBody = r.address ++ q) (hq : q <+: r.rest) (hne : q ≠ r.rest) :
    c.tryDispatch sv conf ctx = some c := by
  obtain ⟨hr', hparse, hcomplete⟩ := hframed.incomplete hq hne
  have hempty : c.fullBody.isEmpty = false := by
    rw [hbuf]
    simp [WireRequest.address]
  rw [tryDispatch, if_neg (by rw [hpending, hclosing, hempty]; decide), hbuf, hparse]
  simp only [bind_eq_bind, bind_some, hcomplete]
  rfl

lemma tryDispatch_complete (sv : Services σ) (ctx : CallContext)
    (hpending : c.httpWritePending = false)
    (hclosing : c.closing = false) (hframed : r.Framed conf.authHeader hr)
    (hbuf : c.fullBody = r.text) {resp : Str} {st : EntryState σ}
    (hserve : alligatorMultiparser sv conf ctx true r.text c.entry = some (resp, st))
    (hresp : (cstr "HTTP").isPrefixOf resp = true) (hkeep : st.httpCloseAfterResponse = false) :
    c.tryDispatch sv conf ctx = some { c with
      entry := st
      httpRequestSize := r.text.length
      httpWritePending := true
      responseBuffer := some (httpEntrypointPrepareResponse false resp)
      sent := c.sent ++ [httpEntrypointPrepareResponse false resp] } := by
  have hempty : c.fullBody.isEmpty = false := by
    rw [hbuf, isEmpty_eq_false_iff]
    exact r.text_ne_nil
  have hrequest : requestOf conf r.text = some (some hr) := by
    rw [WireRequest.requestOf_text, hframed.parsed]
  have hne : resp ≠ [] := by
    rintro rfl
    cases hresp
  rw [tryDispatch, if_neg (by rw [hpending, hclosing, hempty]; decide), hbuf, hframed.parsed]
  simp only [bind_eq_bind, bind_some, hframed.complete, dispatch, hbuf,
    alligatorMultiparser_negotiated hrequest, hserve, if_neg hne, sendResponse, hkeep]
  rfl

/-- When the response has been written, the connection is idle again. -/
lemma step_written (sv : Services σ) (conf : EntryConfig) (ctx : CallContext)
    (hpending : c.httpWritePending = true)
    (hkeep : c.entry.httpCloseAfterResponse = false)
    (hsize : c.fullBody.length ≤ c.httpRequestSize) {resp : Str}
    (hbuf : c.responseBuffer = some resp) (hresp : (cstr "HTTP").isPrefixOf resp = true) :
    c.step sv conf (.written ctx 0) = some { c with
      entry := c.entry.idle
      fullBody := []
      httpWritePending := false
      httpRequestSize := 0
      responseBuffer := none } := by
  have hdrop : c.fullBody.drop c.httpRequestSize = [] := drop_eq_nil_of_le hsize
  have hany : c.responseBuffer.any (cstr "HTTP").isPrefixOf = true := by
    rw [hbuf]
    exact hresp
  rw [step, if_pos hpending, writeComplete]
  simp [hany, hkeep, consumeRequest, resetRequestState, tryDispatch, hdrop]

end

/-! ## Clients that wait -/

/-- A request that is sent in some reads, and the report of the write of its response.  The
next request is sent after that. -/
structure Exchange where
  request : WireRequest
  reads : List (CallContext × Str)
  written : CallContext
  nonempty : ∀ p ∈ reads, p.2 ≠ []
  bytes : (reads.map Prod.snd).flatten = request.text
  /-- The first read goes beyond the address. -/
  address : ∀ p ∈ reads.head?, request.address <+: p.2

namespace Exchange

lemma reads_ne_nil (x : Exchange) : x.reads ≠ [] := by
  intro h
  have hbytes := x.bytes
  rw [h] at hbytes
  exact x.request.text_ne_nil hbytes.symm

def events (x : Exchange) : List Conn.Event :=
  (x.reads.map fun p => .read p.1 p.2) ++ [.written x.written 0]

def alone (x : Exchange) : CallContext × Str :=
  ((x.reads.getLast x.reads_ne_nil).1, x.request.text)

end Exchange

/-- Requests handled one after the other, each alone in its buffer.  Every one is answered,
and the connection is kept. -/
inductive Served {σ : Type} (sv : Services σ) (conf : EntryConfig) :
    EntryState σ → List (CallContext × Str) → List Str → EntryState σ → Prop
  | nil {st : EntryState σ} : Served sv conf st [] [] st
  | cons {st st' st'' : EntryState σ} {ctx : CallContext} {buf resp : Str}
      {requests : List (CallContext × Str)} {responses : List Str} :
      alligatorMultiparser sv conf ctx true buf st = some (resp, st') →
      (cstr "HTTP").isPrefixOf resp = true → st'.httpCloseAfterResponse = false →
      Served sv conf st'.idle requests responses st'' →
      Served sv conf st ((ctx, buf) :: requests)
        (httpEntrypointPrepareResponse false resp :: responses) st''

section

variable {σ : Type} {sv : Services σ} {conf : EntryConfig} {r : WireRequest} {hr : HttpReplyData}

/-- The reads of a request: it is handled after the last one. -/
lemma run_reads (hframed : r.Framed conf.authHeader hr) {resp : Str} {st : EntryState σ}
    (hresp : (cstr "HTTP").isPrefixOf resp = true) (hkeep : st.httpCloseAfterResponse = false) :
    ∀ {reads : List (CallContext × Str)} (hne : reads ≠ []) {c : Conn σ},
      (∀ p ∈ reads, p.2 ≠ []) → c.httpWritePending = false → c.closing = false →
      c.fullBody ++ (reads.map Prod.snd).flatten = r.text →
      (∀ p ∈ reads.head?, r.address <+: c.fullBody ++ p.2) →
      alligatorMultiparser sv conf (reads.getLast hne).1 true r.text c.entry = some (resp, st) →
      c.run sv conf (reads.map fun p => .read p.1 p.2) = some { c with
        entry := st
        fullBody := r.text
        httpRequestSize := r.text.length
        httpWritePending := true
        responseBuffer := some (httpEntrypointPrepareResponse false resp)
        sent := c.sent ++ [httpEntrypointPrepareResponse false resp] } := by
  intro reads
  induction reads with
  | nil => exact fun hne => absurd rfl hne
  | cons p reads ih =>
    intro _ c hnonempty hpending hclosing hbytes haddress hserve
    rw [map_cons, flatten_cons, ← append_assoc] at hbytes
    cases reads with
    | nil =>
      -- The last read completes the request.
      rw [map_nil, flatten_nil, append_nil] at hbytes
      have hread := tryDispatch_complete sv (c := { c with fullBody := c.fullBody ++ p.2 })
        p.1 hpending hclosing hframed hbytes hserve hresp hkeep
      rw [map_cons, map_nil, run, foldlM_cons, step, hread, bind_eq_bind, bind_some]
      simp only [hbytes]
      rfl
    | cons p' reads =>
      have hp' := hnonempty p' (mem_cons_of_mem p mem_cons_self)
      obtain ⟨q, hq⟩ := haddress p rfl
      have hprefix : q <+: r.rest ∧ q ≠ r.rest := by
        rw [← hq, append_assoc] at hbytes
        have hrest := append_cancel_left hbytes
        refine ⟨⟨_, hrest⟩, fun e => hp' ?_⟩
        rw [e, append_right_eq_self, map_cons] at hrest
        exact (append_eq_nil_iff.mp hrest).1
      have hread := tryDispatch_early sv (c := { c with fullBody := c.fullBody ++ p.2 })
        p.1 hpending hclosing hframed hq.symm hprefix.1 hprefix.2
      have hnext := ih (cons_ne_nil p' reads) (c := { c with fullBody := c.fullBody ++ p.2 })
        (forall_mem_cons.1 hnonempty).2 hpending hclosing hbytes
        (by
          rintro x ⟨⟩
          rw [← hq, append_assoc]
          exact prefix_append _ _)
        (by rwa [getLast_cons (cons_ne_nil p' reads)] at hserve)
      rw [map_cons, run, foldlM_cons, step, hread]
      exact hnext

lemma run_exchange {x : Exchange} (hframed : x.request.Framed conf.authHeader hr) {c : Conn σ}
    (hidle : c.Idle) {resp : Str} {st : EntryState σ}
    (hserve : alligatorMultiparser sv conf x.alone.1 true x.alone.2 c.entry = some (resp, st))
    (hresp : (cstr "HTTP").isPrefixOf resp = true) (hkeep : st.httpCloseAfterResponse = false) :
    ∃ c', c.run sv conf x.events = some c' ∧ c'.Idle ∧ c'.entry = st.idle ∧
      c'.sent = c.sent ++ [httpEntrypointPrepareResponse false resp] := by
  have hreads := run_reads hframed hresp hkeep x.reads_ne_nil x.nonempty hidle.pending hidle.closing
    (by rw [hidle.fullBody]; exact x.bytes) (by rw [hidle.fullBody]; exact x.address) hserve
  rw [run] at hreads
  have hwritten := step_written sv conf (c := { c with
      entry := st
      fullBody := x.request.text
      httpRequestSize := x.request.text.length
      httpWritePending := true
      responseBuffer := some (httpEntrypointPrepareResponse false resp)
      sent := c.sent ++ [httpEntrypointPrepareResponse false resp] })
    x.written rfl hkeep (le_refl _) rfl (isPrefixOf_prepareResponse hresp)
  have hrun : c.run sv conf x.events = some { c with
      entry := st.idle
      fullBody := []
      httpRequestSize := 0
      httpWritePending := false
      responseBuffer := none
      sent := c.sent ++ [httpEntrypointPrepareResponse false resp] } := by
    rw [Exchange.events, run, foldlM_append, hreads, bind_eq_bind, bind_some, foldlM_cons, hwritten]
    rfl
  exact ⟨_, hrun, ⟨rfl, rfl, hidle.closing⟩, rfl, rfl⟩

/-- A client that waits for every response before it sends its next request, and that does
not split an address, is served as if each request were alone: the same is done, in the same
order, and the same responses are sent. -/
theorem run_eq_served (sv : Services σ) (conf : EntryConfig) {xs : List Exchange} {c : Conn σ}
    (hidle : c.Idle) (hframed : ∀ x ∈ xs, ∃ hr, x.request.Framed conf.authHeader hr)
    {responses : List Str} {st : EntryState σ}
    (hserved : Served sv conf c.entry (xs.map Exchange.alone) responses st) :
    ∃ c', c.run sv conf (xs.flatMap Exchange.events) = some c' ∧ c'.Idle ∧ c'.entry = st ∧
      c'.sent = c.sent ++ responses := by
  induction xs generalizing c responses with
  | nil =>
    cases hserved
    exact ⟨c, rfl, hidle, rfl, (append_nil _).symm⟩
  | cons x xs ih =>
    rw [map_cons] at hserved
    generalize hx : x.alone = alone at hserved
    cases hserved with
    | cons hserve hresp hkeep hrest =>
      obtain ⟨hr, hxframed⟩ := hframed x mem_cons_self
      obtain ⟨c1, hrun1, hidle1, hentry1, hsent1⟩ := run_exchange hxframed hidle
        (by rw [hx]; exact hserve) hresp hkeep
      rw [← hentry1] at hrest
      obtain ⟨c', hrun, hidle', hentry, hsent⟩ := ih hidle1
        (forall_mem_cons.1 hframed).2 hrest
      refine ⟨c', ?_, hidle', hentry, ?_⟩
      · rw [run] at hrun1 hrun
        rw [flatMap_cons, run, foldlM_append, hrun1]
        exact hrun
      · rw [hsent, hsent1, append_assoc]
        rfl

end

/-! ## Two pushes -/

/-- An entrypoint without credentials, with connections that are kept. -/
def openConfig : EntryConfig :=
  { passwordConfig with
    auth := ⟨none, none, none, false, [], 0, [], false, none, none, false⟩ }

def newConn : Conn EntryNamespace := ⟨newEntry, [], false, 0, none, false, false, []⟩

/-- A push of a sample to the group of the job `x`. -/
def pushX : WireRequest where
  method := .post
  uri := cstr "/metrics/job/x"
  lines := [cstr "Content-Length: 4"]
  body := cstr "a 1\n"
  request := by decide
  uri_ne := by decide
  uri_plain := by decide +kernel
  lines_ne := by decide
  lines_plain := by decide +kernel

/-- A push of another sample to the group of the job `y`. -/
def pushY : WireRequest :=
  { pushX with
    uri := cstr "/metrics/job/y"
    body := cstr "b 2\n"
    uri_ne := by decide
    uri_plain := by decide +kernel }

lemma framed_of_length {r : WireRequest} {authHeader : Str}
    (h : (httpProtoGetRequestData r.text authHeader).map
      (Option.map fun hr => hr.contentLength.toNat) = some (some r.body.length)) :
    ∃ hr, r.Framed authHeader hr := by
  obtain ⟨_, hsome, hmap⟩ := Option.map_eq_some_iff.mp h
  obtain ⟨hr, rfl, hlen⟩ := Option.map_eq_some_iff.mp hmap
  exact ⟨hr, hsome, hlen⟩

lemma framed_pushX : ∃ hr, pushX.Framed openConfig.authHeader hr :=
  framed_of_length (by decide +kernel)

lemma framed_pushY : ∃ hr, pushY.Framed openConfig.authHeader hr :=
  framed_of_length (by decide +kernel)

/-- One after the other, the two pushes leave two series. -/
lemma served_pushes : ∃ responses st,
    Served pushServices openConfig newEntry [(firstCall, pushX.text), (firstCall, pushY.text)]
      responses st ∧ responses.length = 2 ∧ st.world.store.count = 2 := by
  have hrun : (do
      let p ← alligatorMultiparser pushServices openConfig firstCall true pushX.text newEntry
      let q ← alligatorMultiparser pushServices openConfig firstCall true pushY.text p.2.idle
      return (((cstr "HTTP").isPrefixOf p.1, p.2.httpCloseAfterResponse),
        ((cstr "HTTP").isPrefixOf q.1, q.2.httpCloseAfterResponse), q.2.world.store.count)) =
      some ((true, false), (true, false), (2 : Int)) := by decide +kernel
  obtain ⟨p, hp, hrun⟩ := bind_eq_some_iff.mp hrun
  obtain ⟨q, hq, hrun⟩ := bind_eq_some_iff.mp hrun
  simp only [Option.pure_def, Option.some.injEq, Prod.mk.injEq] at hrun
  obtain ⟨⟨hp1, hp2⟩, ⟨hq1, hq2⟩, hcount⟩ := hrun
  exact ⟨_, _, .cons hp hp1 hp2 (.cons hq hq1 hq2 .nil), rfl, hcount⟩

/-- A client that waits, and whose first push comes in two reads. -/
theorem run_eq_served_pushes : ∃ c', newConn.run pushServices openConfig
      [.read firstCall (cstr "POST /metrics/job/x HTTP/1.1\r\nContent-"),
        .read firstCall (cstr "Length: 4\r\n\r\na 1\n"), .written firstCall 0,
        .read firstCall pushY.text, .written firstCall 0] = some c' ∧
    c'.sent.length = 2 ∧ c'.entry.world.store.count = 2 := by
  let first : Exchange :=
    { request := pushX
      reads := [(firstCall, cstr "POST /metrics/job/x HTTP/1.1\r\nContent-"),
        (firstCall, cstr "Length: 4\r\n\r\na 1\n")]
      written := firstCall
      nonempty := by
        intro p hp
        rcases mem_cons.mp hp with rfl | hp
        · decide
        · rw [mem_singleton.mp hp]
          decide
      bytes := by decide
      address := by
        rintro p ⟨⟩
        decide }
  let second : Exchange :=
    { request := pushY
      reads := [(firstCall, pushY.text)]
      written := firstCall
      nonempty := by
        intro p hp
        rw [mem_singleton.mp hp]
        exact pushY.text_ne_nil
      bytes := append_nil _
      address := by
        rintro p ⟨⟩
        exact prefix_append _ _ }
  obtain ⟨responses, st, hserved, hlen, hcount⟩ := served_pushes
  have hframed : ∀ x ∈ [first, second], ∃ hr, x.request.Framed openConfig.authHeader hr := by
    intro x hx
    rcases mem_cons.mp hx with rfl | hx
    · exact framed_pushX
    · rw [mem_singleton.mp hx]
      exact framed_pushY
  have hidle : newConn.Idle := ⟨rfl, rfl, rfl⟩
  obtain ⟨c', hrun, -, hentry, hsent⟩ := run_eq_served pushServices openConfig hidle hframed hserved
  exact ⟨c', hrun, by rw [hsent]; exact hlen, by rw [hentry]; exact hcount⟩

/-- The two pushes in one read: the sample and the length of the second are stored in the
group of the first too, and the second is still in the buffer when its response has been
written. -/
theorem pipelined_pushes_leak :
    (∃ hr, pushX.Framed openConfig.authHeader hr) ∧ (∃ hr, pushY.Framed openConfig.authHeader hr) ∧
      (newConn.run pushServices openConfig
        [.read firstCall (pushX.text ++ pushY.text), .written firstCall 0,
          .written firstCall 0]).map
        (fun c => (c.entry.world.store.count, c.sent.length, c.fullBody)) =
          some (4, 2, pushY.text) ∧ ∃ responses st, Served pushServices openConfig newEntry
        [(firstCall, pushX.text), (firstCall, pushY.text)] responses st ∧
          responses.length = 2 ∧ st.world.store.count = 2 :=
  ⟨framed_pushX, framed_pushY, by decide +kernel, served_pushes⟩

/-! ## The length of the body -/

section Length

variable {buf authHeader headers body line : Str} {hr hr' : HttpReplyData}

end Length

end Alligator
