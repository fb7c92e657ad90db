import Alligator.Metric.Labels
import Alligator.Lib.Number

/-!
# Requests of an entrypoint

What `http_proto_get_request_data` reads of a buffer: the method, the address, the version,
the block of headers and everything that follows it as the body.  The lookups of a header
and of a cookie give a value only when it stands there once and is not empty.

The parser reads behind the end of its memory when the buffer ends with the address, when
a header block holds a zero byte and when `X-Expire-Time` or `Content-Length:` ends the
block.  Such a buffer has no outcome: the outer option is empty.
-/

namespace Alligator

open Text List

/-- `HTTP_METHOD_*` -/
inductive HttpMethod where
  | response | get | post | put | delete | options | head | connect | trace | patch
  deriving DecidableEq

/-- The fields of `http_reply_data` that a request fills. -/
structure HttpReplyData where
  method : HttpMethod
  httpVersion : Nat
  uri : Option Str
  headers : Option Str
  /-- The bytes from the body on, `body_size` of them. -/
  body : Option Str
  contentLength : Int
  expire : Int
  connectionClose : Bool
  connectionKeepalive : Bool
  authBasic : Option Str
  authBearer : Option Str
  authOther : Option Str
  deriving DecidableEq

/-- `calloc` of the structure. -/
def HttpReplyData.zero (method : HttpMethod) : HttpReplyData where
  method := method
  httpVersion := 0
  uri := none
  headers := none
  body := none
  contentLength := 0
  expire := 0
  connectionClose := false
  connectionKeepalive := false
  authBasic := none
  authBearer := none
  authOther := none

/-! ## Strings without case -/

/-- `tolower` in the C locale. -/
def tolower (c : UInt8) : UInt8 := if 65 ≤ c.toNat ∧ c.toNat ≤ 90 then c + 32 else c

/-- `!strncasecmp(s, w, strlen(w))` -/
def startsCase (w s : Str) : Bool := (s.take w.length).map tolower == w.map tolower

def strcasestr (s w : Str) : Option Str := s.tails.find? (startsCase w)

def isBlank (c : UInt8) : Bool := c == 32 || c == 9

/-- The text at every start of a line, as the loops over a header block visit them. -/
def lineStartsFrom : Bool → Str → List Str
  | _, [] => []
  | true, c :: s => (c :: s) :: lineStartsFrom (c == 10) s
  | false, c :: s => lineStartsFrom (c == 10) s

/-- The text from every line of a header block on. -/
def lineStarts (headers : Str) : List Str := lineStartsFrom true headers

/-! ## Single headers and cookies -/

def httpHeaderValueDup (line : Str) : Option Str :=
  match line.dropWhile (· != 58) with
  | [] => none
  | _ :: p =>
    let v := ((p.dropWhile isBlank).takeWhile fun c => c != 13 && c != 10).rdropWhile isBlank
    if v = [] then none else some v

def httpLineIsHeader (name line : Str) : Bool :=
  decide (name ≠ []) && decide (name.length < (line.takeWhile (· != 10)).length) &&
    (line)[name.length]? == some 58 && startsCase name line

/-- The loop of `http_header_get`, with the value found so far. -/
def httpHeaderGetLoop (name : Str) : List Str → Option Str → Option Str
  | [], found => found
  | line :: lines, found =>
    if httpLineIsHeader name line then
      match found, httpHeaderValueDup line with
      | none, some v => httpHeaderGetLoop name lines (some v)
      | _, _ => none
    else httpHeaderGetLoop name lines found

variable (hr : HttpReplyData)

def httpHeaderGet (name : Str) : Option Str :=
  match hr.headers with
  | none => none
  | some headers => httpHeaderGetLoop name (lineStarts headers) none

/-- The loop of `http_cookie_take`: nothing for the results that end the search, else the
value found.  Each round drops at least one byte of the text. -/
def httpCookieTakeLoop (name : Str) : Nat → Str → Option Str → Option (Option Str)
  | 0, _, found => some found
  | fuel + 1, p, found =>
    let p := p.dropWhile fun c => isBlank c || c == 59
    if p = [] then some found
    else if name.isPrefixOf p && p[name.length]? == some 61 then
      let v := ((p.drop (name.length + 1)).takeWhile
        fun c => c != 59 && c != 13 && c != 10).rdropWhile isBlank
      if found.isSome || decide (v = []) then none
      else httpCookieTakeLoop name fuel (p.dropWhile (· != 59)) (some v)
    else httpCookieTakeLoop name fuel (p.dropWhile (· != 59)) found

def httpCookieTake (cookie name : Str) (found : Option Str) : Option (Option Str) :=
  httpCookieTakeLoop name (cookie.length + 1) cookie found

/-- The loop of `http_cookie_get`, with the value found so far. -/
def httpCookieGetLoop (name : Str) : List Str → Option Str → Option Str
  | [], found => found
  | line :: lines, found =>
    if httpLineIsHeader (cstr "Cookie") line then
      match httpHeaderValueDup line with
      | none => none
      | some raw =>
        match httpCookieTake raw name found with
        | none => none
        | some found => httpCookieGetLoop name lines found
    else httpCookieGetLoop name lines found

def httpCookieGet (name : Str) : Option Str :=
  match hr.headers with
  | none => none
  | some headers => httpCookieGetLoop name (lineStarts headers) none

/-! ## Durations -/

variable (s : Str)

/-- `from_human_get_size`: milliseconds read at the front of the text, and the text left. -/
def fromHumanGetSize : Int × Str :=
  if s = [] then (0, s)
  else
    let (n, t) := strtoll s
    if startsCase (cstr "ms") t then (n, t.drop 2)
    else if startsCase (cstr "m") t then (n * 60000, t.drop 1)
    else if startsCase (cstr "s") t then (n * 1000, t.drop 1)
    else if startsCase (cstr "h") t then (n * 3600000, t.drop 1)
    else if startsCase (cstr "d") t then (n * 86400000, t.drop 1)
    else if startsCase (cstr "w") t then (n * 604800000, t.drop 1)
    else (n * 1000, t)

/-- The loop of `get_ms_from_human_range`, which ends when nothing more is read. -/
def getMsLoop : Nat → Int → Str → Int
  | 0, acc, _ => acc
  | fuel + 1, acc, s =>
    if s = [] then acc
    else
      let (n, t) := fromHumanGetSize s
      if t.length = s.length then acc + n else getMsLoop fuel (acc + n) t

def getMsFromHumanRange : Int := getMsLoop (s.length + 1) 0 s

def getSecFromHumanRange : Int :=
  if s.all (fun c => c ∉ cstr "wmshd") then atoll s
  else (getMsFromHumanRange s).tdiv 1000

/-! ## The request -/

/-- The text at an offset, if it is within the string or at its end. -/
def textAt (n : Nat) : Option Str := if n ≤ s.length then some (s.drop n) else none

def httpReadHeader (line : Str) : Option HttpReplyData :=
  if startsCase (cstr "X-Expire-Time") line then
    (textAt line 14).map fun v => { hr with expire := getSecFromHumanRange v }
  else if startsCase (cstr "Content-Length:") line then
    (textAt line 16).map fun v => { hr with contentLength := atoll v }
  else if startsCase (cstr "Connection:") line then
    let v := (line.drop 11).dropWhile isBlank
    if startsCase (cstr "close") v then some { hr with connectionClose := true }
    else if startsCase (cstr "keep-alive") v then some { hr with connectionKeepalive := true }
    else some hr
  else some hr

/-- The value of an authorization header behind its scheme. -/
def httpAuthValue (ptr : Str) : Str :=
  ((ptr.dropWhile fun c => !isBlank c).dropWhile isBlank).takeWhile fun c => c != 13 && c != 10

def httpGetAuthData (headers authHeader : Str) : HttpReplyData :=
  match strcasestr headers authHeader with
  | none => { hr with authBasic := none, authBearer := none, authOther := none }
  | some ptr =>
    let ptr := (ptr.dropWhile fun c => !(c == 58 || isBlank c)).dropWhile
      fun c => c == 58 || isBlank c
    if startsCase (cstr "Basic") ptr then
      { hr with authBasic := some (httpAuthValue ptr), authBearer := none, authOther := none }
    else if startsCase (cstr "Bearer") ptr then
      { hr with authBasic := none, authBearer := some (httpAuthValue ptr), authOther := none }
    else
      { hr with authBasic := none, authBearer := none,
                authOther := some (ptr.takeWhile fun c => c != 13 && c != 10) }

/-- The method a buffer starts with, and the length of its name. -/
def httpMethodOf (buf : Str) : Option (HttpMethod × Nat) :=
  if (cstr "POST").isPrefixOf buf then some (.post, 4)
  else if (cstr "HTTP/").isPrefixOf buf then some (.response, 5)
  else if (cstr "GET").isPrefixOf buf then some (.get, 3)
  else if (cstr "PUT").isPrefixOf buf then some (.put, 3)
  else if (cstr "DELETE").isPrefixOf buf then some (.delete, 6)
  else if (cstr "OPTIONS").isPrefixOf buf then some (.options, 7)
  else if (cstr "HEAD").isPrefixOf buf then some (.head, 4)
  else if (cstr "CONNECT").isPrefixOf buf then some (.connect, 7)
  else if (cstr "TRACE").isPrefixOf buf then some (.trace, 5)
  else if (cstr "PATCH").isPrefixOf buf then some (.patch, 5)
  else none

/-- The version at the front of a text, and the text behind it. -/
def httpVersionOf : Nat × Str :=
  if startsCase (cstr "HTTP/1.0") s then (10, s.drop 8)
  else if startsCase (cstr "HTTP/1.1") s then (11, s.drop 8)
  else if startsCase (cstr "HTTP/2.0") s then (20, s.drop 8)
  else (0, s)

/-- `memmem`: the bytes before the first place where the word stands, and those behind it. -/
def memmem (w : Str) : Str → Option (Str × Str)
  | [] => if w = [] then some ([], []) else none
  | c :: s =>
    if w.isPrefixOf (c :: s) then some ([], (c :: s).drop w.length)
    else (memmem w s).map fun r => (c :: r.1, r.2)

/-- The header block of a request and what follows it. -/
def splitHeaders : Option (Str × Str) :=
  (memmem [13, 10, 13, 10] s).or (memmem [10, 10] s)

def isUriEnd (c : UInt8) : Bool := isBlank c || c == 13 || c == 10

/-- The part of `http_proto_get_request_data` behind the method. -/
def httpReadRequest (method : HttpMethod) (s authHeader : Str) : Option HttpReplyData :=
  let s := s.dropWhile (· == 32)
  let uri := s.takeWhile fun c => !isUriEnd c
  match s.dropWhile fun c => !isUriEnd c with
  | [] => none
  | _ :: s =>
    let (version, s) := httpVersionOf (s.dropWhile (· == 32))
    let hr := { HttpReplyData.zero method with
      expire := -1, uri := some (uri.takeWhile (· != 0)), httpVersion := version }
    match splitHeaders s with
    | none => some hr
    | some (headers, body) =>
      if 0 ∈ headers then none
      else do
        let hr ← (lineStarts headers).foldlM httpReadHeader
          { hr with headers := some headers, body := some body }
        some (httpGetAuthData hr headers authHeader)

def httpProtoGetRequestData (buf authHeader : Str) : Option (Option HttpReplyData) :=
  match httpMethodOf buf with
  | none => some none
  | some (.response, _) => some (some (HttpReplyData.zero .response))
  | some (method, skip) => (httpReadRequest method (buf.drop skip) authHeader).map some

/-! ## Searching -/

lemma memmem_eq_none {w s : Str} (hw : w ≠ []) (h : ∀ u v, s ≠ u ++ (w ++ v)) :
    memmem w s = none := by
  induction s with
  | nil => rw [memmem, if_neg hw]
  | cons c s ih =>
    have hhead : w.isPrefixOf (c :: s) = false := by
      rw [Bool.eq_false_iff]
      intro hpre
      obtain ⟨v, hv⟩ := isPrefixOf_iff_prefix.mp hpre
      exact h [] v hv.symm
    have htail : ∀ u v, s ≠ u ++ (w ++ v) := fun u v hs => h (c :: u) v (by rw [hs]; rfl)
    rw [memmem, hhead, if_neg (by decide), ih htail]
    rfl

/-- A word is found at its first place. -/
lemma memmem_append {w : Str} (hw : w ≠ []) (t : Str) : ∀ {a : Str},
    (∀ u v, a ++ w = u ++ (w ++ v) → v = []) → memmem w (a ++ (w ++ t)) = some (a, t) := by
  intro a
  induction a with
  | nil =>
    intro _
    obtain ⟨c, s, rfl⟩ := exists_cons_of_ne_nil hw
    have hpre : (c :: s).isPrefixOf (c :: (s ++ t)) = true := isPrefixOf_iff_prefix.mpr ⟨t, rfl⟩
    show memmem (c :: s) (c :: (s ++ t)) = _
    rw [memmem, if_pos hpre]
    have hdrop : (c :: (s ++ t)).drop (c :: s).length = t := drop_left
    rw [hdrop]
  | cons c a ih =>
    intro hfirst
    have hhead : w.isPrefixOf (c :: (a ++ (w ++ t))) = false := by
      rw [Bool.eq_false_iff]
      intro hpre
      obtain ⟨v, hv⟩ := isPrefixOf_iff_prefix.mp hpre
      -- The word at the front ends before the first place does.
      have hlen : w.length ≤ (c :: (a ++ w)).length := by
        simp only [length_cons, length_append]
        omega
      have htake : c :: (a ++ w) = w ++ ((c :: (a ++ w)).drop w.length) := by
        have hw' : w = (c :: (a ++ w)).take w.length := by
          have h := congrArg (List.take w.length) hv
          rw [take_left] at h
          conv_lhs => rw [h]
          rw [show c :: (a ++ (w ++ t)) = (c :: (a ++ w)) ++ t by simp,
            take_append_of_le_length hlen]
        conv_lhs => rw [← take_append_drop w.length (c :: (a ++ w)), ← hw']
      have hnil := hfirst [] _ htake
      have := congrArg List.length hnil
      simp only [length_drop, length_cons, length_append, length_nil] at this
      omega
    have htail : ∀ u v, a ++ w = u ++ (w ++ v) → v = [] :=
      fun u v hs => hfirst (c :: u) v (by rw [cons_append, hs]; rfl)
    rw [cons_append, memmem, hhead, if_neg (by decide), ih htail]
    rfl

end Alligator
