import Alligator.Http.Request

/-!
# Authentication of requests

`http_check_auth` combines two groups of checks.  The static group looks the credentials of
a request up in the tables of the entrypoint.  The authorize group compares a code that the
client presents with those of the current period and of its neighbours.  A code is an HMAC,
which is a parameter here.
-/

namespace Alligator

open Text

inductive AuthorizeBind where
  | remoteAddr
  | header (name : Str)
  | cookie (name : Str)
  deriving DecidableEq

/-- The fields of `context_arg` that `http_check_auth` reads.  A table is a list of keys, and
an empty secret stands for none. -/
structure AuthConfig where
  authBasic : Option (List Str)
  authBearer : Option (List Str)
  authOther : Option (List Str)
  authorizeConfigError : Bool
  authorizeSecret : Str
  authorizePeriod : Nat
  authorizeBinds : List AuthorizeBind
  /-- `AUTHORIZE_VALIDATE_HEADER` -/
  validateHeader : Bool
  authorizeHeaderName : Option Str
  authorizeCookieName : Option Str
  /-- `SATISFY_ALL` -/
  satisfyAll : Bool
  deriving DecidableEq

/-- What a check depends on besides the configuration and the request: the keyed hash in
hexadecimal, if it can be computed, the time and the address of the peer. -/
structure AuthContext where
  hmac : Str → Str → Option Str
  now : Int
  peer : Str

/-! ## Static credentials -/

/-- Some table of static credentials is there. -/
def AuthConfig.staticOn (c : AuthConfig) : Bool :=
  c.authBasic.isSome || c.authBearer.isSome || c.authOther.isSome

/-- One kind of credentials of `http_check_static_auth`: nothing where the next kind is to be
looked at. -/
def staticAuthKind (table : Option (List Str)) (credential : Option Str) : Option Int :=
  match credential, table with
  | none, _ => none
  | some _, none => some (-1)
  | some k, some keys => if k ∈ keys then some 1 else none

def httpCheckStaticAuth (c : AuthConfig) (hr : HttpReplyData) : Int :=
  if !c.staticOn then 1
  else if hr.authBasic = none ∧ hr.authBearer = none ∧ hr.authOther = none then -1
  else
    ((staticAuthKind c.authBasic hr.authBasic).or ((staticAuthKind c.authBearer hr.authBearer).or
      (staticAuthKind c.authOther hr.authOther))).getD 0

/-! ## Codes -/

def authorizeIsConfigured (c : AuthConfig) : Bool :=
  decide (c.authorizeSecret ≠ []) && decide (c.authorizePeriod ≠ 0)

def authorizeMsgAdd (buf p : Str) : Option Str :=
  if p ≠ [] ∧ 65536 < buf.length + p.length then none else some (buf ++ p)

def authorizeMsgAddLp (buf s : Str) : Option Str :=
  if 4096 < s.length then none
  else do authorizeMsgAdd (← authorizeMsgAdd buf (decimal s.length ++ cstr ":")) s

/-- `authorize_bind_label`, into 160 bytes. -/
def authorizeBindLabel (bind : AuthorizeBind) : Option Str :=
  let label := match bind with
    | .remoteAddr => cstr "remote_addr"
    | .header name => cstr "header:" ++ name
    | .cookie name => cstr "cookie:" ++ name
  if label.length < 160 then some label else none

/-- The name of a bind, where its kind has one, is not empty. -/
def AuthorizeBind.named : AuthorizeBind → Bool
  | .remoteAddr => true
  | .header name | .cookie name => decide (name ≠ [])

/-- One round of the loop of `authorize_compute_bound`. -/
def authorizeMsgBind (msg : Str) (b : AuthorizeBind × Str) : Option Str :=
  if !b.1.named || decide (b.2 = []) then none
  else do authorizeMsgAddLp (← authorizeMsgAddLp msg (← authorizeBindLabel b.1)) b.2

/-- The message of a code.  A code without binds has a message of its own. -/
def authorizeMessage (secret : Str) (bucket : Nat) (binds : List (AuthorizeBind × Str)) :
    Option Str :=
  if binds = [] then some (secret ++ cstr ":" ++ decimal bucket)
  else do binds.foldlM authorizeMsgBind (← authorizeMsgAddLp (cstr "v1") (decimal bucket))

/-- `authorize_compute_bound`, and `authorize_compute` when there are no binds. -/
def authorizeComputeBound (hmac : Str → Str → Option Str) (secret : Str) (bucket : Nat)
    (binds : List (AuthorizeBind × Str)) : Option Str :=
  if secret = [] ∨ 1024 * 1024 < secret.length then none
  else do hmac secret (← authorizeMessage secret bucket binds)

variable (ctx : AuthContext)

/-- `authorize_validate_bound`, and `authorize_validate` when there are no binds. -/
def authorizeValidateBound (c : AuthConfig) (presented : Option Str)
    (binds : List (AuthorizeBind × Str)) : Int :=
  if !authorizeIsConfigured c then -1
  else
    match presented with
    | none | some [] => -1
    | some code =>
      if code.length ≠ 64 ∨ ctx.now < 0 then 0
      else
        let bucket := ctx.now.toNat / c.authorizePeriod
        let expect (b : Nat) := authorizeComputeBound ctx.hmac c.authorizeSecret b binds
        match expect (bucket - 1), expect bucket, expect (bucket + 1) with
        | some before, some current, some after =>
          if (bucket ≠ 0 ∧ code = before) ∨ code = current ∨ code = after then 1 else 0
        | _, _, _ => 0

variable (hr : HttpReplyData)

/-- The value of one bind of `authorize_factors_fill`. -/
def authorizeFactor (bind : AuthorizeBind) : Option (AuthorizeBind × Str) :=
  let value := match bind with
    | .remoteAddr => some ctx.peer
    | .header name => httpHeaderGet hr name
    | .cookie name => httpCookieGet hr name
  (value.filter fun v => decide (v ≠ []) && decide (v.length ≤ 4096)).map fun v => (bind, v)

/-! ## The presented code -/

/-- The loop of `http_cookie_named`. -/
def httpCookieNamedLoop (name : Str) : Nat → Str → Option Str
  | 0, _ => none
  | fuel + 1, p =>
    let p := p.dropWhile fun c => isBlank c || c == 59
    if p = [] then none
    else if name.isPrefixOf p && p[name.length]? == some 61 then
      let v := ((p.drop (name.length + 1)).takeWhile
        fun c => c != 59 && c != 13 && c != 10).rdropWhile isBlank
      if v = [] then none else some v
    else httpCookieNamedLoop name fuel (p.dropWhile (· != 59))

def httpCookieNamed (cookie name : Str) : Option Str :=
  if name = [] then none else httpCookieNamedLoop name (cookie.length + 1) cookie

/-- `authorize_header` as `http_reply_authorize_extract` leaves it. -/
def authorizeHeader (name : Str) : Option Str :=
  (lineStarts (hr.headers.getD [])).findSome? fun line =>
    if name ≠ [] ∧ (line)[name.length]? = some 58 ∧ startsCase name line then
      httpHeaderValueDup line
    else none

/-- `authorize_cookie` as `http_reply_authorize_extract` leaves it. -/
def authorizeCookie (name : Str) : Option Str :=
  (lineStarts (hr.headers.getD [])).findSome? fun line =>
    if startsCase (cstr "Cookie:") line then
      (httpHeaderValueDup line).bind fun raw => httpCookieNamed raw name
    else none

def authorizePresented (c : AuthConfig) (hr : HttpReplyData) : Option Str :=
  if c.validateHeader then
    authorizeHeader hr (c.authorizeHeaderName.getD (cstr "X-Alligator-Auth"))
  else authorizeCookie hr (c.authorizeCookieName.getD (cstr "alligator_auth"))

def httpCheckAuthorizeGroup (c : AuthConfig) (hr : HttpReplyData) : Int :=
  let presented := authorizePresented c hr
  if c.authorizeBinds = [] then authorizeValidateBound ctx c presented []
  else if presented = none then -1
  else
    match c.authorizeBinds.mapM (authorizeFactor ctx hr) with
    | none => 0
    | some binds => authorizeValidateBound ctx c presented binds

/-! ## The check -/

def httpCombineAuth (staticRc authorizeRc : Int) (satisfyAll : Bool) : Int :=
  if satisfyAll then
    if staticRc = 1 ∧ authorizeRc = 1 then 1
    else if staticRc = 0 ∨ authorizeRc = 0 then 0
    else -1
  else if staticRc = 1 ∨ authorizeRc = 1 then 1
  else if staticRc = 0 ∨ authorizeRc = 0 then 0
  else -1

def httpUriIsAuthorize (uri : Option Str) : Bool :=
  uri.any fun u => (cstr "/authorize").isPrefixOf u && (u[10]?).all (· == 63)

def httpCheckAuth (c : AuthConfig) (hr : HttpReplyData) : Int :=
  if c.authorizeConfigError then 0
  else
    let authorizeOn := authorizeIsConfigured c &&
      !(hr.method == .get && httpUriIsAuthorize hr.uri)
    match c.staticOn, authorizeOn with
    | false, false => 1
    | true, false => httpCheckStaticAuth c hr
    | false, true => httpCheckAuthorizeGroup ctx c hr
    | true, true =>
      httpCombineAuth (httpCheckStaticAuth c hr) (httpCheckAuthorizeGroup ctx c hr) c.satisfyAll

/-! ## Results of a check -/

lemma staticAuthKind_le_one {table : Option (List Str)} {credential : Option Str} {rc : Int}
    (h : staticAuthKind table credential = some rc) : rc ≤ 1 := by
  rw [staticAuthKind.eq_def] at h
  split at h
  · cases h
  · cases h
    decide
  · split_ifs at h
    cases h
    exact le_refl 1

variable (c : AuthConfig) (hr : HttpReplyData)

lemma httpCheckStaticAuth_le_one : httpCheckStaticAuth c hr ≤ 1 := by
  rw [httpCheckStaticAuth]
  split_ifs
  · exact le_refl 1
  · decide
  · rcases hb : staticAuthKind c.authBasic hr.authBasic with - | rc
    · rcases he : staticAuthKind c.authBearer hr.authBearer with - | rc
      · rcases ho : staticAuthKind c.authOther hr.authOther with - | rc
        · decide
        · exact staticAuthKind_le_one ho
      · exact staticAuthKind_le_one he
    · exact staticAuthKind_le_one hb

lemma authorizeValidateBound_le_one (presented : Option Str) (binds : List (AuthorizeBind × Str)) :
    authorizeValidateBound ctx c presented binds ≤ 1 := by
  unfold authorizeValidateBound
  dsimp only
  repeat' split
  all_goals decide

lemma httpCheckAuthorizeGroup_le_one : httpCheckAuthorizeGroup ctx c hr ≤ 1 := by
  unfold httpCheckAuthorizeGroup
  dsimp only
  split
  · exact authorizeValidateBound_le_one ctx c _ _
  · split
    · decide
    · split
      · decide
      · exact authorizeValidateBound_le_one ctx c _ _

lemma httpCombineAuth_le_one (staticRc authorizeRc : Int) (satisfyAll : Bool) :
    httpCombineAuth staticRc authorizeRc satisfyAll ≤ 1 := by
  rw [httpCombineAuth]
  split_ifs <;> decide

lemma httpCheckAuth_le_one : httpCheckAuth ctx c hr ≤ 1 := by
  unfold httpCheckAuth
  dsimp only
  split
  · decide
  · split
    · exact le_refl 1
    · exact httpCheckStaticAuth_le_one c hr
    · exact httpCheckAuthorizeGroup_le_one ctx c hr
    · exact httpCombineAuth_le_one _ _ _

end Alligator
