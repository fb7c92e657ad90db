import Alligator.Http.Auth
import Alligator.Http.Limit
import Alligator.Parsers.StorePush

/-!
# What an entrypoint does with a buffer

`alligator_multiparser` takes a buffer for an HTTP request when it starts like one, and for
plain text when it does not.  A request passes the limits and `http_check_auth` before it is
handled by its method and address.  Text has no headers and is parsed without a check.

So a buffer changes the store only after the check has returned 1 exactly when it is a
request or when parsing it as text changes nothing (`multiparser_guarded_iff`).

The routers of the API, of the cluster and of the pages are parameters, and so is what an
operation of a push does: the results hold for all of them.
-/

namespace Alligator

open Text Option

/-! ## The entrypoint -/

/-- The handlers behind an address. -/
inductive Router where
  | api | otlp | oplogPost | sharedlockPost | authorizeMint | stats | probe | json | dsv | conf
  | labelsCache | oplogGet | sharedlockGet | resolver | metrics
  deriving DecidableEq

/-- What the methods call. -/
structure Services (σ : Type) where
  /-- An operation of a push. -/
  act : σ → PushOp → σ
  /-- `pushgateway_delete`, with its status. -/
  delete : σ → Option Str → σ × Nat
  /-- A router, with what it puts into the response. -/
  route : Router → σ → HttpReplyData → σ × Str

/-- The settings of an entrypoint. -/
structure EntryConfig where
  authHeader : Str
  auth : AuthConfig
  httpLimitConfigError : Bool
  /-- The headers that are added to every answer. -/
  env : List (Str × Str)
  /-- `ENTRYPOINT_RETURN_EMPTY` -/
  returnEmpty : Bool
  httpKeepalive : Bool

/-- The readings that a call takes: the time in nanoseconds besides those of the check. -/
structure CallContext extends AuthContext where
  hrtime : Nat

/-- What a call may change. -/
structure EntryState (σ : Type) where
  world : σ
  limit : HttpLimit
  push : PushCarg
  httpCloseAfterResponse : Bool

/-! ## Answers -/

/-- The lines that every answer starts with. -/
def answerHead (status type : String) : Str :=
  cstr "HTTP/1.1 " ++ cstr status ++ cstr "\r\nServer: alligator\r\nContent-Type: " ++ cstr type ++
    cstr "\r\nConnection: close\r\n"

/-- The answer to `/ready`. -/
def readyHandler : Str := answerHead "200 OK" "application/json"
/-- A push or a deletion was taken. -/
def handler202 : Str := answerHead "202 Accepted" "application/json"
/-- A push or a deletion was wrong. -/
def handler400 : Str := answerHead "400 Bad Request" "text/plain"
/-- The answer to any other status of a deletion. -/
def httpNotFound : Str := answerHead "404 Not Found" "text/plain"
/-- A deletion has failed, or the limits could not be set up. -/
def httpInternalError : Str := answerHead "500 Internal Server Error" "text/plain"
/-- The body has a format that is not known. -/
def handler415 : Str := answerHead "415 Unsupported Media Type" "text/plain"
/-- The answer to `OPTIONS`. -/
def optionsAnswer : Str :=
  answerHead "200 OK" "application/json" ++ cstr "Allow: OPTIONS, GET, PUT, POST\r\n"
/-- The answer to methods without a handler. -/
def methodNotAllowed : Str := answerHead "405 Method Not Allowed" "application/json"
/-- The check has returned 0. -/
def httpForbidden : Str := answerHead "403 Access Forbidden" "text/plain"
/-- The check has returned -1. -/
def httpUnauthorized : Str := answerHead "401 Unauthorized" "text/plain"

/-- The head of the answer to a request that is over a limit. -/
def tooManyRequests (retryAfter : Nat) : Str :=
  answerHead "429 Too Many Requests" "text/plain" ++ cstr "Retry-After: " ++
    decimal (if retryAfter = 0 then 1 else retryAfter) ++ cstr "\r\n"

/-- An answer without a body gets a length, unless it has one. -/
def httpEntrypointFinishEmptyBody (response : Str) : Str :=
  if response = [] then []
  else
    (if strstr response (cstr "Content-Length:") then response
      else response ++ cstr "Content-Length: 0\r\n") ++ cstr "\r\n"

/-- An answer without a body: its head, the headers of the entrypoint and the end. -/
def EntryConfig.answer (conf : EntryConfig) (head : Str) : Str :=
  httpEntrypointFinishEmptyBody
    (head ++ conf.env.flatMap fun h => h.1 ++ cstr ": " ++ h.2 ++ cstr "\r\n")

/-- Whether the connection is closed after the response. -/
def httpEntrypointNegotiate (conf : EntryConfig) (hr : HttpReplyData) : Bool :=
  if !conf.httpKeepalive then true
  else if hr.connectionClose then true
  else if 11 ≤ hr.httpVersion then false
  else !(hr.httpVersion == 10 && hr.connectionKeepalive)

/-! ## Methods -/

section

variable {σ : Type} (sv : Services σ) (conf : EntryConfig)

/-- The operations of a push are done in their order. -/
def EntryState.pushed (st : EntryState σ) (r : PushCarg × List PushOp) : EntryState σ :=
  { st with world := r.2.foldl sv.act st.world, push := r.1 }

/-- A router answers. -/
def EntryState.routed (st : EntryState σ) (router : Router) (hr : HttpReplyData) :
    Str × EntryState σ :=
  let r := sv.route router st.world hr
  (r.2, { st with world := r.1 })

/-- Everything that no router takes is a push. -/
def doHttpPost (hr : HttpReplyData) (st : EntryState σ) : Str × EntryState σ :=
  let uri := hr.uri.getD []
  if (cstr "/api").isPrefixOf uri then st.routed sv .api hr
  else if (cstr "/v1/metrics").isPrefixOf uri then st.routed sv .otlp hr
  else if (cstr "/oplog").isPrefixOf uri then st.routed sv .oplogPost hr
  else if (cstr "/sharedlock").isPrefixOf uri then st.routed sv .sharedlockPost hr
  else
    let r := multicollector (some hr) none st.push
    let head := if r.1.pgHttpStatus = 400 then handler400
      else if r.1.pgHttpStatus = 415 then handler415
      else handler202
    (conf.answer head, st.pushed sv r)

/-- `do_http_delete`: the status of the deletion chooses the answer. -/
def doHttpDelete (hr : HttpReplyData) (st : EntryState σ) : Str × EntryState σ :=
  if (cstr "/api").isPrefixOf (hr.uri.getD []) then st.routed sv .api hr
  else
    let r := sv.delete st.world hr.uri
    let head := if r.2 = 202 then handler202
      else if r.2 = 400 then handler400
      else if r.2 = 500 then httpInternalError
      else httpNotFound
    (conf.answer head, { st with world := r.1 })

/-- The addresses that `do_http_get` looks for, in their order. -/
def getRouters : List (Str × Router) :=
  [(cstr "/api", .api), (cstr "/stats", .stats), (cstr "/probe", .probe), (cstr "/json", .json),
    (cstr "/dsv", .dsv), (cstr "/conf", .conf), (cstr "/labels_cache", .labelsCache),
    (cstr "/oplog", .oplogGet), (cstr "/sharedlock", .sharedlockGet), (cstr "/resolver", .resolver)]

/-- `do_http_get`: an address that is not known gets the metrics. -/
def doHttpGet (hr : HttpReplyData) (st : EntryState σ) : Str × EntryState σ :=
  let uri := hr.uri.getD []
  let r := if httpUriIsAuthorize hr.uri && authorizeIsConfigured conf.auth then
      st.routed sv .authorizeMint hr
    else
      match getRouters.find? fun p => p.1.isPrefixOf uri with
      | some p => st.routed sv p.2 hr
      | none =>
        if (cstr "/ready").isPrefixOf uri then (conf.answer readyHandler, st)
        else st.routed sv .metrics hr
  if conf.returnEmpty then (httpEntrypointFinishEmptyBody readyHandler, r.2) else r

/-- The body of a response is parsed like that of a push. -/
def doHttpResponse (buf : Str) (hr : HttpReplyData) (st : EntryState σ) : EntryState σ :=
  match (memmem [13, 10, 13, 10] buf).or (memmem [10, 10] buf) with
  | none => st
  | some (_, body) => st.pushed sv (multicollector (some hr) (some body) st.push)

/-- What is done with a request that has passed its checks: whether it was handled, the
response and the state. -/
def httpDispatch (buf : Str) (hr : HttpReplyData) (st : EntryState σ) : Bool × Str × EntryState σ :=
  match hr.method with
  | .post | .put => (true, if hr.body.isSome then doHttpPost sv conf hr st else ([], st))
  | .response => (true, [], doHttpResponse sv buf hr st)
  | .get => (true, doHttpGet sv conf hr st)
  | .delete => (true, if hr.body.isSome then doHttpDelete sv conf hr st else ([], st))
  | .options => (true, conf.answer optionsAnswer, st)
  | .head | .trace | .patch => (true, conf.answer methodNotAllowed, st)
  | .connect => (false, [], st)

/-! ## The parsers -/

/-- The request that `http_parser` reads of a buffer, behind blanks and line ends. -/
def requestOf (buf : Str) : Option (Option HttpReplyData) :=
  if buf.dropWhile isUriEnd = [] then some none
  else httpProtoGetRequestData (buf.dropWhile isUriEnd) conf.authHeader

/-- The part of `http_parser` behind the parse. -/
def httpParserChecks (ctx : CallContext) (buf : Str) (hr : HttpReplyData) (st : EntryState σ) :
    Bool × Str × EntryState σ :=
  let st := { st with httpCloseAfterResponse := httpEntrypointNegotiate conf hr }
  if conf.httpLimitConfigError then (true, conf.answer httpInternalError, st)
  else
    let (limit, allowed, retryAfter) := httpLimitCheck st.limit ⟨ctx.peer, hr, ctx.hrtime⟩
    let st := { st with limit := limit }
    if !allowed then (true, conf.answer (tooManyRequests retryAfter), st)
    else
      let auth := httpCheckAuth ctx.toAuthContext conf.auth hr
      if auth < 1 ∧ hr.method ≠ .options then
        (true, conf.answer (if auth = -1 then httpUnauthorized else httpForbidden), st)
      else httpDispatch sv conf (buf.dropWhile isUriEnd) hr st

/-- `http_parser`, with a response to write to. -/
def httpParser (ctx : CallContext) (buf : Str) (st : EntryState σ) :
    Option (Bool × Str × EntryState σ) :=
  (requestOf conf buf).map fun
    | none => (false, [], st)
    | some hr => httpParserChecks sv conf ctx buf hr st

/-- The buffer as text. -/
def plainParser (buf : Str) (st : EntryState σ) : EntryState σ :=
  st.pushed sv (multicollector none (some buf) st.push)

/-- `alligator_multiparser` without a handler.  A datagram has no response to write to, and
`http_parser` then leaves the buffer alone. -/
def alligatorMultiparser (ctx : CallContext) (response : Bool) (buf : Str) (st : EntryState σ) :
    Option (Str × EntryState σ) :=
  let st := { st with push := { st.push with parserStatus := false } }
  (if response then httpParser sv conf ctx buf st else some (false, [], st)).map fun r =>
    if r.1 then r.2 else (r.2.1, plainParser sv buf r.2.2)

end

/-! ## Requests are guarded -/

variable {ctx : CallContext}

section

variable {σ : Type} {sv : Services σ} {conf : EntryConfig} {buf : Str}

lemma requestOf_eq_none_iff :
    requestOf conf buf = some none ↔ httpMethodOf (buf.dropWhile isUriEnd) = none := by
  rw [requestOf]
  split_ifs with hnil
  · rw [hnil]
    exact ⟨fun _ => rfl, fun _ => rfl⟩
  · rw [httpProtoGetRequestData.eq_def]
    split
    · rename_i hmethod
      exact iff_of_true rfl hmethod
    · rename_i hmethod
      rw [hmethod]
      exact iff_of_false (fun h => nomatch h) (fun h => nomatch h)
    · rename_i hmethod
      rw [hmethod]
      refine ⟨fun h => ?_, fun h => nomatch h⟩
      obtain ⟨_, -, h⟩ := map_eq_some_iff.mp h
      cases h

/-- What a request that is not granted leaves, and that it is not handed on as text. -/
lemma httpParserChecks_of_not_granted (sv : Services σ)
    {hr : HttpReplyData} (h : httpCheckAuth ctx.toAuthContext conf.auth hr ≠ 1) (buf : Str)
    (st : EntryState σ) : (httpParserChecks sv conf ctx buf hr st).1 = true ∧
      (httpParserChecks sv conf ctx buf hr st).2.2.world = st.world := by
  have hlt : httpCheckAuth ctx.toAuthContext conf.auth hr < 1 := by
    have := httpCheckAuth_le_one ctx.toAuthContext conf.auth hr
    omega
  unfold httpParserChecks
  dsimp only
  split
  · exact ⟨rfl, rfl⟩
  · split
    · exact ⟨rfl, rfl⟩
    · by_cases hoptions : hr.method = .options
      · -- The answer to `OPTIONS` needs no credentials and touches nothing.
        rw [if_neg fun h => h.2 hoptions, httpDispatch, hoptions]
        exact ⟨rfl, rfl⟩
      · rw [if_pos ⟨hlt, hoptions⟩]
        exact ⟨rfl, rfl⟩

/-- A request was parsed from the buffer, and the check for it returned 1. -/
def Granted (conf : EntryConfig) (ctx : CallContext) (response : Bool) (buf : Str) : Prop :=
  response = true ∧ ∃ hr, requestOf conf buf = some (some hr) ∧
    httpCheckAuth ctx.toAuthContext conf.auth hr = 1

variable {st : EntryState σ} {r : Str × EntryState σ}

/-- A buffer that is handled as a request changes the store only after the check. -/
lemma granted_of_request (h : alligatorMultiparser sv conf ctx true buf st = some r)
    (hmethod : (httpMethodOf (buf.dropWhile isUriEnd)).isSome = true)
    (hchange : r.2.world ≠ st.world) : Granted conf ctx true buf := by
  obtain ⟨p, hp, rfl⟩ := map_eq_some_iff.mp h
  obtain ⟨request, hrequest, rfl⟩ := map_eq_some_iff.mp hp
  cases request with
  | none =>
    rw [requestOf_eq_none_iff.mp hrequest] at hmethod
    cases hmethod
  | some hr =>
    refine ⟨rfl, hr, hrequest, ?_⟩
    by_contra hnot
    obtain ⟨hhandled, hworld⟩ := httpParserChecks_of_not_granted sv hnot buf
      { st with push := { st.push with parserStatus := false } }
    rw [if_pos hhandled] at hchange
    exact hchange hworld

/-- A buffer that is not handled as a request is parsed as text. -/
lemma multiparser_of_text {response : Bool}
    (h : alligatorMultiparser sv conf ctx response buf st = some r)
    (htext : ¬(response = true ∧ (httpMethodOf (buf.dropWhile isUriEnd)).isSome = true)) :
    r.2 = plainParser sv buf { st with push := { st.push with parserStatus := false } } := by
  obtain ⟨p, hp, rfl⟩ := map_eq_some_iff.mp h
  cases response with
  | false =>
    cases hp
    rfl
  | true =>
    have hnone : httpMethodOf (buf.dropWhile isUriEnd) = none := by
      rw [← not_isSome_iff_eq_none]
      exact fun h => htext ⟨rfl, h⟩
    rw [httpParser, requestOf_eq_none_iff.mpr hnone] at hp
    cases hp
    rfl

/-- Changes of the store are guarded exactly for the buffers that are requests with a
response to write to, and for those that change nothing when they are parsed as text. -/
theorem multiparser_guarded_iff (sv : Services σ) (conf : EntryConfig) (ctx : CallContext)
    {response : Bool} {buf : Str} {st : EntryState σ} {r : Str × EntryState σ}
    (h : alligatorMultiparser sv conf ctx response buf st = some r) :
    (r.2.world ≠ st.world → Granted conf ctx response buf) ↔
      (response = true ∧ (httpMethodOf (buf.dropWhile isUriEnd)).isSome = true) ∨
        (plainParser sv buf { st with push := { st.push with parserStatus := false } }).world =
          st.world := by
  by_cases hreq : response = true ∧ (httpMethodOf (buf.dropWhile isUriEnd)).isSome = true
  · obtain ⟨rfl, hmethod⟩ := hreq
    exact ⟨fun _ => .inl ⟨rfl, hmethod⟩, fun _ => granted_of_request h hmethod⟩
  · rw [multiparser_of_text h hreq]
    refine ⟨fun hguard => .inr ?_, ?_⟩
    · by_contra hchange
      obtain ⟨hresponse, hr, hrequest, -⟩ := hguard hchange
      refine hreq ⟨hresponse, ne_none_iff_isSome.mp fun hnone => ?_⟩
      rw [requestOf_eq_none_iff.mpr hnone] at hrequest
      cases hrequest
    · rintro (hreq' | hworld) hchange
      · exact absurd hreq' hreq
      · exact absurd hworld hchange

end

/-! ## An entrypoint with a password -/

/-- The services of a namespace. -/
def storeServices (e : PushEnv) (hashfuncGet : Str → BitVec 32)
    (route : Router → EntryNamespace → HttpReplyData → EntryNamespace × Str) :
    Services EntryNamespace where
  act := EntryNamespace.act e
  delete ns uri := match pushgatewayDelete hashfuncGet e.clock.base ns.store uri with
    | some (s, status) => ({ ns with store := s }, status)
    | none => (ns, 500)
  route := route

/-- The store of an entrypoint whose other handlers do nothing. -/
def pushServices : Services EntryNamespace :=
  storeServices ⟨⟨fun a _ => a, id, ⟨0, 0⟩, 300⟩, 0, none, 0, 0, 0, 0⟩ tommyStrhashU32
    fun _ ns _ => (ns, [])

/-- `auth basic x`, with connections that are kept. -/
def passwordConfig : EntryConfig where
  authHeader := cstr "Authorization"
  auth := ⟨some [cstr "x"], none, none, false, [], 0, [], false, none, none, false⟩
  httpLimitConfigError := false
  env := []
  returnEmpty := false
  httpKeepalive := true

/-- A call from the machine itself. -/
def firstCall : CallContext := ⟨⟨fun _ _ => none, 0, cstr "127.0.0.1"⟩, 0⟩

/-- A new entrypoint without limits. -/
def newEntry : EntryState EntryNamespace where
  world := ⟨.init 0, []⟩
  limit := .install [] (by decide)
  push := ⟨[], false, true, 0, 0, false, 0⟩
  httpCloseAfterResponse := false

/-- A push with the password is granted and stored. -/
theorem multiparser_guarded_push :
    ∃ r, alligatorMultiparser pushServices passwordConfig firstCall true
        (cstr "POST / HTTP/1.1\r\nAuthorization: Basic x\r\nContent-Length: 4\r\n\r\na 1\n")
        newEntry = some r ∧ r.2.world.store.count = 1 ∧
      Granted passwordConfig firstCall true
        (cstr "POST / HTTP/1.1\r\nAuthorization: Basic x\r\nContent-Length: 4\r\n\r\na 1\n") := by
  have hrun : (alligatorMultiparser pushServices passwordConfig firstCall true
      (cstr "POST / HTTP/1.1\r\nAuthorization: Basic x\r\nContent-Length: 4\r\n\r\na 1\n")
      newEntry).map (fun r => r.2.world.store.count) = some 1 := by decide
  obtain ⟨r, hr, hcount⟩ := map_eq_some_iff.mp hrun
  refine ⟨r, hr, hcount, (multiparser_guarded_iff _ _ _ hr).mpr
    (.inl ⟨rfl, by decide⟩) fun hworld => ?_⟩
  rw [hworld] at hcount
  exact absurd hcount (by decide)

/-- A line of text is stored without the password, and no request was parsed from it. -/
theorem multiparser_plain_unguarded :
    passwordConfig.auth.staticOn = true ∧
      (∃ r, alligatorMultiparser pushServices passwordConfig firstCall true (cstr "a 1\n")
        newEntry = some r ∧ r.2.world.store.count = 1 ∧ r.2.world ≠ newEntry.world) ∧
      requestOf passwordConfig (cstr "a 1\n") = some none ∧
      ¬Granted passwordConfig firstCall true (cstr "a 1\n") := by
  have hrun : (alligatorMultiparser pushServices passwordConfig firstCall true (cstr "a 1\n")
      newEntry).map (fun r => r.2.world.store.count) = some 1 := by decide
  have hrequest : requestOf passwordConfig (cstr "a 1\n") = some none := by decide
  obtain ⟨r, hr, hcount⟩ := map_eq_some_iff.mp hrun
  refine ⟨rfl, ⟨r, hr, hcount, fun hworld => ?_⟩, hrequest, ?_⟩
  · rw [hworld] at hcount
    exact absurd hcount (by decide)
  · rintro ⟨-, _, hsome, -⟩
    cases hsome

end Alligator
