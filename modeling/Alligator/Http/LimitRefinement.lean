import Alligator.Http.Limit

/-!
# Rate limits refine one limiter per identity

The reference has for each rule a map from tuples of key values to arrival times.  The
relation `Keeps` says how a rule's state stands for such a map: every slot holds the arrival
time of its identity, and an identity without a slot has none or one that has passed.
Planning keeps the relation, and a plan that is not stopped by a full table decides as the
reference limiter and commits to its next state.

Each admission moves the arrival time on by an interval at least, and it never is further in the
future than the tolerance and an interval.  This bounds the admissions of every window
(`limit_windows`).
-/

namespace Alligator

open Text List Function Option LimitRule Gcra

variable {v : List Str} {l r : List LimitSlot} {α : Type} {s : LimitSlot} {call : LimitCall}
  {p : LimitRule × LimitState} {q : LimitRule × (List Str → Option Nat)} {uri : Str}
  {plan : LimitPlan} {lim : HttpLimit}

/-! ## The reference -/

variable (http : HttpReplyData) (name : Str)

/-- The values of a header: one for each of its lines, empty when nothing is written. -/
def headerValues : List Str :=
  ((lineStarts (http.headers.getD [])).filter (httpLineIsHeader name)).map
    fun line => (httpHeaderValueDup line).getD []

/-- The text from each field of a cookie line on. -/
def cookieFields : Nat → Str → List Str
  | 0, _ => []
  | fuel + 1, p =>
    let p := p.dropWhile fun c => isBlank c || c == 59
    if p = [] then [] else p :: cookieFields fuel (p.dropWhile (· != 59))

/-- The value of a field of a cookie line, when it has the name. -/
def cookieValue (name p : Str) : Option Str :=
  if name.isPrefixOf p && p[name.length]? == some 61 then
    some (((p.drop (name.length + 1)).takeWhile
      fun c => c != 59 && c != 13 && c != 10).rdropWhile isBlank)
  else none

/-- The values of a cookie in one line; a line without any text counts as an empty value. -/
def cookieLineValues (name line : Str) : List Str :=
  match httpHeaderValueDup line with
  | none => [[]]
  | some raw => (cookieFields (raw.length + 1) raw).filterMap (cookieValue name)

def cookieValues : List Str :=
  ((lineStarts (http.headers.getD [])).filter (httpLineIsHeader (cstr "Cookie"))).flatMap
    (cookieLineValues name)

/-- The value that stands alone, if it is not overlong; missing and repeated values count as
empty. -/
def soleValue : List Str → Str
  | [v] => if v.length ≤ 4096 then v else []
  | _ => []

def LimitKey.valueIn (call : LimitCall) : LimitKey → Str
  | .remoteAddr => call.peer
  | .header name => soleValue (headerValues call.http name)
  | .cookie name => soleValue (cookieValues call.http name)

def LimitRule.tuple (rule : LimitRule) (call : LimitCall) : List Str :=
  rule.keys.map (LimitKey.valueIn call)

/-- The reference: for each rule the arrival time of each tuple met. -/
abbrev Limiters : Type := List (LimitRule × (List Str → Option Nat))

variable {limiters : Limiters}

/-- Limiters that have seen no request. -/
def Limiters.fresh (rules : List LimitRule) : Limiters := rules.map fun r => (r, fun _ => none)

/-- The limiter of a rule lets the call through, or the rule does not match. -/
def limiterAdmits (call : LimitCall) (uri : Str)
    (p : LimitRule × (List Str → Option Nat)) : Bool :=
  !p.1.matches uri || p.1.gcra.admits (p.2 (p.1.tuple call)) call.now

/-- The arrival times of a rule after a call that is let through. -/
def limiterNext (call : LimitCall) (uri : Str)
    (p : LimitRule × (List Str → Option Nat)) : List Str → Option Nat :=
  if p.1.matches uri then
    update p.2 (p.1.tuple call)
      (some (p.1.gcra.next (p.2 (p.1.tuple call)) call.now))
  else p.2

/-- A call is let through when every rule that matches lets it through, and only then are
arrival times changed. -/
def Limiters.check (limiters : Limiters) (call : LimitCall) : Limiters × Bool :=
  match call.http.uri with
  | none => (limiters, true)
  | some uri =>
    if limiters.all (limiterAdmits call uri) then
      (limiters.map fun p => (p.1, limiterNext call uri p), true)
    else (limiters, false)

/-! ## Key values -/

/-- What a search for a single value makes of the values met: nothing when it stops at a
second or an empty one. -/
def collect : List Str → Option (Option Str)
  | [] => some none
  | [v] => if v = [] then none else some (some v)
  | _ => none

lemma collect_append (a b : List Str) :
    collect (a ++ b) = (collect a).bind fun found => collect (found.toList ++ b) := by
  match a, b with
  | [], b => rfl
  | [v], [] =>
    rw [append_nil, collect]
    split_ifs with h
    · rfl
    · simp [collect, h]
  | [v], w :: b =>
    rw [collect]
    split_ifs with h
    · simp [collect]
    · simp
  | u :: v :: a, b => simp [collect]

lemma collect_nil_cons (l : List Str) : collect ([] :: l) = none := by
  cases l <;> simp [collect]

lemma httpHeaderValueDup_ne_nil {line v : Str} (h : httpHeaderValueDup line = some v) : v ≠ [] := by
  rw [httpHeaderValueDup] at h
  split at h
  · cases h
  · dsimp only at h
    split_ifs at h with hv
    cases h
    exact hv

lemma httpHeaderGetLoop_eq (lines : List Str) (found : Option Str)
    (hfound : ∀ v ∈ found, v ≠ []) : httpHeaderGetLoop name lines found =
        (collect (found.toList ++ (lines.filter (httpLineIsHeader name)).map
          fun line => (httpHeaderValueDup line).getD [])).join := by
  induction lines generalizing found with
  | nil =>
    cases found with
    | none => rfl
    | some v => simp [httpHeaderGetLoop, collect, hfound v rfl]
  | cons line lines ih =>
    rw [httpHeaderGetLoop.eq_def]
    dsimp only
    by_cases hline : httpLineIsHeader name line = true
    · rw [if_pos hline, filter_cons_of_pos hline, map_cons]
      cases found with
      | some v => rfl
      | none =>
        cases hv : httpHeaderValueDup line with
        | none =>
          rw [getD_none, toList_none, nil_append, collect_nil_cons]
          rfl
        | some v =>
          have hne := httpHeaderValueDup_ne_nil hv
          dsimp only
          rw [ih (some v) (by rintro w ⟨⟩; exact hne)]
          rfl
    · rw [if_neg hline, filter_cons_of_neg hline]
      exact ih found hfound

lemma httpHeaderGet_eq : httpHeaderGet http name = (collect (headerValues http name)).join := by
  rw [httpHeaderGet, headerValues]
  cases http.headers with
  | none => rfl
  | some headers => exact httpHeaderGetLoop_eq name _ none (by simp)

lemma httpCookieTakeLoop_eq (fuel : Nat) (p : Str) (found : Option Str)
    (hfound : ∀ v ∈ found, v ≠ []) : httpCookieTakeLoop name fuel p found =
        collect (found.toList ++ (cookieFields fuel p).filterMap (cookieValue name)) := by
  induction fuel generalizing p found with
  | zero =>
    cases found with
    | none => rfl
    | some v => simp [httpCookieTakeLoop, cookieFields, collect, hfound v rfl]
  | succ fuel ih =>
    rw [httpCookieTakeLoop, cookieFields]
    generalize p.dropWhile (fun c => isBlank c || c == 59) = q
    by_cases hq : q = []
    · rw [if_pos hq, if_pos hq]
      cases found with
      | none => rfl
      | some v => simp [collect, hfound v rfl]
    · rw [if_neg hq, if_neg hq, filterMap_cons, cookieValue]
      by_cases hname : (name.isPrefixOf q && q[name.length]? == some 61) = true
      · rw [if_pos hname, if_pos hname]
        generalize ((q.drop (name.length + 1)).takeWhile
          fun c => c != 59 && c != 13 && c != 10).rdropWhile isBlank = v
        cases found with
        | some w => rfl
        | none =>
          by_cases hv : v = []
          · subst hv
            rw [toList_none, nil_append, collect_nil_cons]
            rfl
          · rw [if_neg (by simp [hv]), ih _ (some v) (by rintro w ⟨⟩; exact hv)]
            rfl
      · rw [if_neg hname, if_neg hname]
        exact ih _ found hfound

lemma collect_ne_nil {l : List Str} {found : Option Str} (h : collect l = some found) :
    ∀ v ∈ found, v ≠ [] := by
  match l with
  | [] =>
    cases h
    simp
  | [v] =>
    rw [collect] at h
    split_ifs at h with hv
    cases h
    rintro w ⟨⟩
    exact hv
  | _ :: _ :: _ => cases h

lemma httpCookieGetLoop_eq (lines : List Str) (found : Option Str)
    (hfound : ∀ v ∈ found, v ≠ []) : httpCookieGetLoop name lines found =
        (collect (found.toList ++ (lines.filter (httpLineIsHeader (cstr "Cookie"))).flatMap
          (cookieLineValues name))).join := by
  induction lines generalizing found with
  | nil =>
    cases found with
    | none => rfl
    | some v => simp [httpCookieGetLoop, collect, hfound v rfl]
  | cons line lines ih =>
    rw [httpCookieGetLoop]
    by_cases hline : httpLineIsHeader (cstr "Cookie") line = true
    · rw [if_pos hline, filter_cons_of_pos hline, flatMap_cons, cookieLineValues]
      cases hv : httpHeaderValueDup line with
      | none =>
        cases found with
        | none =>
          rw [toList_none, nil_append, singleton_append, collect_nil_cons]
          rfl
        | some w => rfl
      | some raw =>
        dsimp only
        rw [httpCookieTake, httpCookieTakeLoop_eq name _ raw found hfound, ← append_assoc]
        generalize (cookieFields (raw.length + 1) raw).filterMap (cookieValue name) = fields
        rw [collect_append (found.toList ++ fields)]
        cases hc : collect (found.toList ++ fields) with
        | none => rfl
        | some found' => exact ih found' (collect_ne_nil hc)
    · rw [if_neg hline, filter_cons_of_neg hline]
      exact ih found hfound

lemma httpCookieGet_eq : httpCookieGet http name = (collect (cookieValues http name)).join := by
  rw [httpCookieGet, cookieValues]
  cases http.headers with
  | none => rfl
  | some headers => exact httpCookieGetLoop_eq name _ none (by simp)

lemma httpLimitBounded_collect (l : List Str) :
    httpLimitBounded (collect l).join = soleValue l := by
  match l with
  | [] => rfl
  | [v] =>
    rw [collect, soleValue]
    by_cases hv : v = []
    · subst hv
      rfl
    · rw [if_neg hv, join_some, httpLimitBounded]
      by_cases hlong : 4096 < v.length
      · rw [if_pos (.inr hlong), if_neg (not_le.mpr hlong)]
      · rw [if_neg (not_or.mpr ⟨hv, hlong⟩), if_pos (not_lt.mp hlong)]
  | _ :: _ :: _ => rfl

lemma httpLimitValue_eq (call : LimitCall) (key : LimitKey) :
    httpLimitValue call key = key.valueIn call := by
  cases key with
  | remoteAddr => rfl
  | header name =>
    rw [httpLimitValue, httpHeaderGet_eq, httpLimitBounded_collect]
    rfl
  | cookie name =>
    rw [httpLimitValue, httpCookieGet_eq, httpLimitBounded_collect]
    rfl

/-! ## Identities -/

/-- The identity of a tuple of values: the labels and the values behind their lengths. -/
def identity (keys : List LimitKey) (values : List Str) : Str :=
  Netstring.frames ((keys.zip values).flatMap fun p => [p.1.label, p.2])

lemma flatMap_pair_injective (f : LimitKey → α) (keys : List LimitKey) {v w : List α}
    (hv : v.length = keys.length) (hw : w.length = keys.length)
    (h : ((keys.zip v).flatMap fun p => [f p.1, p.2]) = ((keys.zip w).flatMap fun p => [f p.1,
      p.2])) : v = w := by
  induction keys generalizing v w with
  | nil =>
    rw [length_eq_zero_iff.mp hv, length_eq_zero_iff.mp hw]
  | cons k keys ih =>
    match v, w with
    | [], _ => cases hv
    | _, [] => cases hw
    | a :: v, b :: w =>
      simp only [zip_cons_cons, flatMap_cons, cons_append, cons.injEq, true_and] at h
      rw [h.1, ih (Nat.succ.inj hv) (Nat.succ.inj hw) h.2]

lemma identity_injective {keys : List LimitKey} {w : List Str} (hv : v.length = keys.length)
    (hw : w.length = keys.length) (h : identity keys v = identity keys w) : v = w :=
  flatMap_pair_injective LimitKey.label keys hv hw (Netstring.frames_injective h)

lemma label_length {key : LimitKey} (h : key.NameOk) : key.label.length < 160 := by
  have bound : ∀ {excluded name : Str}, httpLimitNameOk excluded name = true →
      name.length ≤ 128 := by
    intro excluded name hname
    rw [httpLimitNameOk, Bool.and_eq_true, Bool.and_eq_true] at hname
    exact of_decide_eq_true hname.1.2
  cases key with
  | remoteAddr => decide
  | header name | cookie name =>
    have := bound h
    rw [LimitKey.label, length_append, show (cstr _).length = 7 by decide]
    omega

lemma httpLimitBuildLoop_eq (call : LimitCall) (keys : List LimitKey) :
    (∀ k ∈ keys, k.NameOk) → ∀ id : Str, httpLimitBuildLoop call keys id =
        some (id ++ identity keys (keys.map (LimitKey.valueIn call))) := by
  induction keys with
  | nil =>
    intro _ id
    simp [httpLimitBuildLoop, identity, Netstring.frames]
  | cons k keys ih =>
    intro hnames id
    have hlabel : httpLimitKeyLabel k = some k.label :=
      if_pos (label_length (hnames k (mem_cons_self ..)))
    rw [httpLimitBuildLoop, hlabel]
    dsimp only
    rw [ih (forall_mem_cons.1 hnames).2, httpLimitValue_eq]
    simp [httpLimitIdAdd, identity, Netstring.frames, Netstring.frame]

lemma httpLimitBuildId_eq (call : LimitCall) (rule : LimitRule) : httpLimitBuildId call rule =
      some (if rule.keys = [] then none else some (identity rule.keys (rule.tuple call))) := by
  rw [httpLimitBuildId]
  split_ifs with h
  · rfl
  · rw [httpLimitBuildLoop_eq call rule.keys rule.names []]
    rfl

/-! ## One limiter -/

lemma LimitRule.gcra_le (rule : LimitRule) : rule.gcra.tau + rule.gcra.interval ≤ 1000000000 := by
  have hpos := rule.rps_pos
  have hdiv : 1000000000 / rule.rps * rule.rps ≤ 1000000000 := Nat.div_mul_le_self _ _
  have hsum : rule.gcra.tau + rule.gcra.interval = 1000000000 / rule.rps * rule.rps := by
    obtain ⟨n, hn⟩ : ∃ n, rule.rps = n + 1 := ⟨rule.rps - 1, by omega⟩
    rw [gcra]
    rw [hn, Nat.add_sub_cancel, Nat.mul_succ]
  omega

/-- The state a pair of `tat` and `have` stands for. -/
def tatOf (tat : Nat) (held : Bool) : Option Nat := if held then some tat else none

lemma gcraPlan_base (tat : Nat) (held : Bool) (now : Nat) :
    (if !held || decide (tat < now) then now else tat) = base (tatOf tat held) now := by
  cases held with
  | false => simp [tatOf, base]
  | true =>
    simp only [Bool.not_true, Bool.false_or, decide_eq_true_eq]
    split_ifs with h
    · exact (max_eq_right (le_of_lt h)).symm
    · exact (max_eq_left (not_lt.mp h)).symm

/-- `http_limit_gcra_plan` decides as the limiter and gives its next state. -/
lemma httpLimitGcraPlan_spec (rule : LimitRule) (tat : Nat) (held : Bool) {now : Nat}
    (hnow : now < 2 ^ 62) (place : LimitPlace) (id : Option Str) :
    let plan := LimitPlan.ofGcra place id (httpLimitGcraPlan tat held now rule.gcra)
    plan.deny = !rule.gcra.admits (tatOf tat held) now ∧ plan.place = place ∧ plan.id = id ∧
      (plan.deny = false → plan.newTat = rule.gcra.next (tatOf tat held) now) := by
  have hle := rule.gcra_le
  rw [httpLimitGcraPlan]
  rw [gcraPlan_base]
  by_cases h : base (tatOf tat held) now - now > rule.gcra.tau
  · have hadmits : rule.gcra.admits (tatOf tat held) now = false :=
      decide_eq_false (not_le.mpr h)
    rw [if_pos h, hadmits]
    exact ⟨rfl, rfl, rfl, fun hdeny => nomatch hdeny⟩
  · have hadmits : rule.gcra.admits (tatOf tat held) now = true := decide_eq_true (not_lt.mp h)
    have hnext := next_le hadmits
    rw [if_neg h, hadmits]
    refine ⟨rfl, rfl, rfl, fun _ => ?_⟩
    exact Nat.mod_eq_of_lt (show rule.gcra.next (tatOf tat held) now < 2 ^ 64 by omega)

/-! ## A rule's state and its map -/

/-- The state of a rule stands for a map at a time.  A tuple without a slot has no arrival
time or one that has passed. -/
structure Keeps (rule : LimitRule) (now : Nat) (st : LimitState)
    (f : List Str → Option Nat) : Prop where
  whole : rule.keys = [] → f [] = tatOf st.tat st.held
  slots_nil : rule.keys = [] → st.slots = []
  nodup : (st.slots.map (·.id)).Nodup
  slot : ∀ s ∈ st.slots, s.held = true ∧ s.last ≤ now ∧ s.tat ≤ s.last + 1000000000 ∧
    ∃ v, v.length = rule.keys.length ∧ s.id = identity rule.keys v ∧ f v = some s.tat
  rest : rule.keys ≠ [] → ∀ v, v.length = rule.keys.length →
    (∀ s ∈ st.slots, s.id ≠ identity rule.keys v) → ∀ t ∈ f v, t ≤ now

lemma Keeps.empty (rule : LimitRule) : Keeps rule 0 LimitState.empty fun _ => none where
  whole _ := rfl
  slots_nil _ := rfl
  nodup := nodup_nil
  slot _ h := nomatch h
  rest _ _ _ _ _ h := nomatch h

namespace Keeps

variable {rule : LimitRule} {now : Nat} {st : LimitState} {f : List Str → Option Nat}

lemma mono {t : Nat} (h : Keeps rule t st f) (ht : t ≤ now) : Keeps rule now st f where
  whole := h.whole
  slots_nil := h.slots_nil
  nodup := h.nodup
  slot s hs := have ⟨hheld, hlast, htat, hv⟩ := h.slot s hs
    ⟨hheld, hlast.trans ht, htat, hv⟩
  rest hkeys v hv hslots t' ht' := (h.rest hkeys v hv hslots t' ht').trans ht

lemma tat_of_slot (h : Keeps rule now st f) (hs : s ∈ st.slots) (hv : v.length = rule.keys.length)
    (hid : s.id = identity rule.keys v) : f v = tatOf s.tat s.held := by
  obtain ⟨hheld, _, _, w, hw, hidw, hf⟩ := h.slot s hs
  rw [identity_injective hv hw (hid.symm.trans hidw), hf, hheld]
  rfl

/-- Touching a slot changes nothing that the map has. -/
lemma touch (h : Keeps rule now st f) (hslots : st.slots = l ++ s :: r) :
    Keeps rule now { st with slots := l ++ httpLimitTouch now s :: r } f := by
  have hmem : s ∈ st.slots := by simp [hslots]
  obtain ⟨hheld, hlast, htat, hv⟩ := h.slot s hmem
  have htouch : httpLimitTouch now s = { s with last := now } := if_pos hlast
  have hids : (l ++ httpLimitTouch now s :: r).map (·.id) = st.slots.map (·.id) := by
    rw [htouch, hslots, map_append, map_append, map_cons, map_cons]
  refine ⟨h.whole, fun hkeys => ?_, ?_, ?_, ?_⟩
  · rw [h.slots_nil hkeys] at hmem
    cases hmem
  · rw [hids]
    exact h.nodup
  · intro s' hs'
    have hcases : s' ∈ st.slots ∨ s' = httpLimitTouch now s := by
      rw [hslots]
      simp only [mem_append, mem_cons] at hs' ⊢
      tauto
    rcases hcases with hs' | rfl
    · exact h.slot s' hs'
    · rw [htouch]
      exact ⟨hheld, Nat.le_refl now, Nat.le_trans htat (Nat.add_le_add_right hlast _), hv⟩
  · intro hkeys v hvlen hne
    refine h.rest hkeys v hvlen fun s' hs' hid => ?_
    have hmap : identity rule.keys v ∈ (l ++ httpLimitTouch now s :: r).map (·.id) := by
      rw [hids, ← hid]
      exact mem_map_of_mem hs'
    obtain ⟨s'', hs'', hid''⟩ := mem_map.mp hmap
    exact hne s'' hs'' hid''

variable {x : Nat}

/-- Storing a new arrival time.  A slot that is given up has the same identity or an arrival
time that has passed. -/
lemma store (h : Keeps rule now st f) (hkeys : rule.keys ≠ []) (hv : v.length = rule.keys.length)
    (hx : x ≤ now + 1000000000) {slots : List LimitSlot} (hnodup : (slots.map (·.id)).Nodup)
    (hmem : ∀ s ∈ slots, s ∈ st.slots ∧ s.id ≠ identity rule.keys v ∨
      s = ⟨identity rule.keys v, x, now, true⟩)
    (hnew : ⟨identity rule.keys v, x, now, true⟩ ∈ slots)
    (hold : ∀ s ∈ st.slots, s ∈ slots ∨ s.id = identity rule.keys v ∨ s.tat ≤ now) :
    Keeps rule now { st with slots := slots } (update f v (some x)) := by
  refine ⟨fun hnil => absurd hnil hkeys, fun hnil => absurd hnil hkeys, hnodup, ?_, ?_⟩
  · intro s hs
    rcases hmem s hs with ⟨hs, hne⟩ | rfl
    · obtain ⟨hheld, hlast, htat, w, hw, hid, hf⟩ := h.slot s hs
      refine ⟨hheld, hlast, htat, w, hw, hid, ?_⟩
      have hwv : w ≠ v := by
        rintro rfl
        exact hne hid
      rw [update_of_ne hwv, hf]
    · exact ⟨rfl, le_refl now, hx, v, hv, rfl, update_self ..⟩
  · intro _ w hw hne t ht
    have hwv : w ≠ v := by
      rintro rfl
      exact hne _ hnew rfl
    rw [update_of_ne hwv] at ht
    by_cases hslot : ∃ s ∈ st.slots, s.id = identity rule.keys w
    · obtain ⟨s, hs, hid⟩ := hslot
      have htat : f w = some s.tat := by
        rw [h.tat_of_slot hs hw hid, (h.slot s hs).1]
        rfl
      rcases hold s hs with hin | hidv | hle
      · exact absurd hid (hne s hin)
      · exact absurd (identity_injective hw hv (hid.symm.trans hidv)) hwv
      · rw [htat] at ht
        cases ht
        exact hle
    · exact h.rest hkeys w hw (fun s hs hid => hslot ⟨s, hs, hid⟩) t ht

/-- Storing a new arrival time in the place of a slot. -/
lemma replace (h : Keeps rule now st f) (hkeys : rule.keys ≠ [])
    (hv : v.length = rule.keys.length) (hx : x ≤ now + 1000000000)
    (hslots : st.slots = l ++ s :: r) (hne : ∀ s' ∈ l ++ r, s'.id ≠ identity rule.keys v)
    (hs : s.id = identity rule.keys v ∨ s.tat ≤ now) :
    Keeps rule now { st with slots := l ++ ⟨identity rule.keys v, x, now, true⟩ :: r }
      (update f v (some x)) := by
  have hnodup := h.nodup
  rw [hslots, map_append, map_cons, nodup_middle, nodup_cons] at hnodup
  refine h.store hkeys hv hx ?_ ?_ (by simp) ?_
  · rw [map_append, map_cons, nodup_middle, nodup_cons, ← map_append]
    refine ⟨fun hmem => ?_, by rw [map_append]; exact hnodup.2⟩
    obtain ⟨s', hs', hid⟩ := mem_map.mp hmem
    exact hne s' hs' hid
  · intro s' hs'
    rcases mem_append.mp hs' with hl | hr
    · refine .inl ⟨?_, hne s' (mem_append_left r hl)⟩
      rw [hslots]
      exact mem_append_left _ hl
    · rcases mem_cons.mp hr with rfl | hr
      · exact .inr rfl
      · refine .inl ⟨?_, hne s' (mem_append_right l hr)⟩
        rw [hslots]
        exact mem_append_right l (mem_cons_of_mem s hr)
  · intro s' hs'
    rw [hslots] at hs'
    rcases mem_append.mp hs' with hl | hr
    · exact .inl (mem_append_left _ hl)
    · rcases mem_cons.mp hr with rfl | hr
      · exact .inr hs
      · exact .inl (mem_append_right l (mem_cons_of_mem _ hr))

end Keeps

/-! ## Planning and committing one rule -/

lemma modify_middle (g : α → α) (a : α) (l r : List α) :
    (l ++ a :: r).modify l.length g = l ++ g a :: r := by
  induction l with
  | nil => rfl
  | cons b l ih => simpa using ih

lemma set_middle (a b : α) (l r : List α) : (l ++ a :: r).set l.length b = l ++ b :: r := by
  induction l with
  | nil => rfl
  | cons c l ih => simp [ih]

lemma findIdx_split {p : α → Bool} {i : Nat} {l : List α} (h : l.findIdx? p = some i) :
    ∃ l1 a l2, l = l1 ++ a :: l2 ∧ i = l1.length ∧ p a = true := by
  obtain ⟨hi, hp, -⟩ := List.findIdx?_eq_some_iff_getElem.mp h
  refine ⟨l.take i, l[i], l.drop (i + 1), ?_, ?_, hp⟩
  · rw [getElem_cons_drop, take_append_drop]
  · rw [length_take, min_eq_left (le_of_lt hi)]

/-- The outcome of planning a rule: a full table, or the decision of the limiter and, when
the plan is committed, its next state. -/
def Planned (rule : LimitRule) (now : Nat) (tuple : List Str) (f : List Str → Option Nat)
    (st : LimitState) (plan : LimitPlan) : Prop :=
  Keeps rule now st f ∧
    (plan.deny = true ∧ plan.place = .full ∨
      plan.deny = !rule.gcra.admits (f tuple) now ∧ plan.place ≠ .full ∧
        (plan.deny = false →
          Keeps rule now (httpLimitRuleCommit rule st plan now)
            (update f tuple (some (rule.gcra.next (f tuple) now)))))

section

variable {rule : LimitRule} {now : Nat} {st : LimitState} {f : List Str → Option Nat}

lemma planned_whole (h : Keeps rule now st f) (hnow : now < 2 ^ 62) (hkeys : rule.keys = []) :
    Planned rule now [] f st
      (.ofGcra .whole none (httpLimitGcraPlan st.tat st.held now rule.gcra)) := by
  obtain ⟨hdeny, hplace, -, hnew⟩ := httpLimitGcraPlan_spec rule st.tat st.held hnow .whole none
  rw [← h.whole hkeys] at hdeny hnew
  refine ⟨h, .inr ⟨hdeny, by rw [hplace]; decide, fun hok => ?_⟩⟩
  rw [httpLimitRuleCommit, if_pos hkeys, hnew hok]
  refine ⟨fun _ => update_self .., fun _ => h.slots_nil hkeys, h.nodup, ?_,
    fun hne => absurd hkeys hne⟩
  intro s hs
  rw [show st.slots = [] from h.slots_nil hkeys] at hs
  cases hs

variable {tuple : List Str}

lemma planned_slot (h : Keeps rule now st f) (hnow : now < 2 ^ 62) (hkeys : rule.keys ≠ [])
    (htuple : tuple.length = rule.keys.length) (hslots : st.slots = l ++ s :: r)
    (hid : s.id = identity rule.keys tuple) (id : Option Str) :
    Planned rule now tuple f { st with slots := l ++ httpLimitTouch now s :: r }
      (.ofGcra (.slot l.length) id (httpLimitGcraPlan s.tat s.held now rule.gcra)) := by
  have hmem : s ∈ st.slots := by simp [hslots]
  obtain ⟨hdeny, hplace, -, hnew⟩ :=
    httpLimitGcraPlan_spec rule s.tat s.held hnow (.slot l.length) id
  rw [← h.tat_of_slot hmem htuple hid] at hdeny hnew
  have htouched := h.touch hslots
  refine ⟨htouched, .inr ⟨hdeny, by rw [hplace]; simp, fun hok => ?_⟩⟩
  have hadmits : rule.gcra.admits (f tuple) now = true := by
    rw [hok] at hdeny
    simpa using hdeny.symm
  have hx := (next_le hadmits).trans (Nat.add_le_add_left rule.gcra_le now)
  have hlast := (h.slot s hmem).2.1
  have htouch : httpLimitTouch now s = { s with last := now } := if_pos hlast
  have hother : ∀ s' ∈ l ++ r, s'.id ≠ identity rule.keys tuple := by
    have hnodup := h.nodup
    rw [hslots, map_append, map_cons, nodup_middle, nodup_cons, ← map_append, hid] at hnodup
    intro s' hs' hid'
    exact hnodup.1 (hid' ▸ mem_map_of_mem hs')
  rw [httpLimitRuleCommit, if_neg hkeys, hplace, hnew hok]
  dsimp only
  rw [modify_middle, htouch]
  have hstored : httpLimitTouch now
      { s with tat := rule.gcra.next (f tuple) now, last := now, held := true } =
        ⟨identity rule.keys tuple, rule.gcra.next (f tuple) now, now, true⟩ := by
    rw [httpLimitTouch, if_pos (le_refl now), ← hid]
  rw [hstored]
  exact h.replace hkeys htuple hx hslots hother (.inl hid)

lemma planned_new (h : Keeps rule now st f) (hnow : now < 2 ^ 62) (hkeys : rule.keys ≠ [])
    (htuple : tuple.length = rule.keys.length)
    (hnone : ∀ s ∈ st.slots, s.id ≠ identity rule.keys tuple) : Planned rule now tuple f st
      (httpLimitPlaceNew rule.gcra st (identity rule.keys tuple) now) := by
  have hpassed : ∀ t ∈ f tuple, t ≤ now := h.rest hkeys tuple htuple hnone
  have hadmits : rule.gcra.admits (f tuple) now = true := by
    rw [admits_of_le _ hpassed, admits_none]
  have hx := (next_le hadmits).trans (Nat.add_le_add_left rule.gcra_le now)
  -- The plan starts from no state, which decides as the state that has passed.
  have hplan := fun place =>
    httpLimitGcraPlan_spec rule 0 false hnow place (some (identity rule.keys tuple))
  have hnone' : tatOf 0 false = none := rfl
  rw [httpLimitPlaceNew]
  split_ifs with hroom
  · obtain ⟨hdeny, hplace, hid, hnew⟩ := hplan .fresh
    rw [hnone', ← admits_of_le _ hpassed] at hdeny
    rw [hnone', ← next_of_le _ hpassed] at hnew
    refine ⟨h, .inr ⟨hdeny, by rw [hplace]; decide, fun hok => ?_⟩⟩
    rw [httpLimitRuleCommit, if_neg hkeys, hplace, hnew hok, hid]
    refine h.store hkeys htuple hx ?_ ?_ (by simp) fun s hs => .inl (mem_append_left _ hs)
    · rw [map_append, nodup_append]
      refine ⟨h.nodup, by simp, ?_⟩
      intro a ha b hb
      obtain ⟨s, hs, rfl⟩ := mem_map.mp ha
      simp only [map_cons, map_nil, mem_singleton] at hb
      rw [hb]
      exact hnone s hs
    · intro s hs
      rcases mem_append.mp hs with hs | hs
      · exact .inl ⟨hs, hnone s hs⟩
      · exact .inr (mem_singleton.mp hs)
  · cases hfind : st.slots.findIdx? (LimitSlot.idle now) with
    | none => exact ⟨h, .inl ⟨rfl, rfl⟩⟩
    | some i =>
      obtain ⟨l, s, r, hslots, rfl, hidle⟩ := findIdx_split hfind
      obtain ⟨hdeny, hplace, hid, hnew⟩ := hplan (.reuse l.length)
      rw [hnone', ← admits_of_le _ hpassed] at hdeny
      rw [hnone', ← next_of_le _ hpassed] at hnew
      refine ⟨h, .inr ⟨hdeny, by rw [hplace]; simp, fun hok => ?_⟩⟩
      rw [httpLimitRuleCommit, if_neg hkeys, hplace, hnew hok, hid, hslots]
      dsimp only
      rw [set_middle]
      refine h.replace hkeys htuple hx hslots (fun s' hs' => ?_) (.inr ?_)
      · refine hnone s' ?_
        rw [hslots]
        simp only [mem_append] at hs' ⊢
        tauto
      · have hs : s ∈ st.slots := by simp [hslots]
        obtain ⟨_, hlast, htat, _⟩ := h.slot s hs
        rw [LimitSlot.idle, Bool.and_eq_true, Bool.and_eq_true, decide_eq_true_eq,
          decide_eq_true_eq] at hidle
        omega

lemma httpLimitRulePlan_spec (h : Keeps rule call.now st f) (hnow : call.now < 2 ^ 62) :
    Planned rule call.now (rule.tuple call) f
      (httpLimitRulePlan rule st (httpLimitBuildId call rule).join call.now).1
      (httpLimitRulePlan rule st (httpLimitBuildId call rule).join call.now).2 := by
  rw [httpLimitBuildId_eq, join_some]
  by_cases hkeys : rule.keys = []
  · have htuple : rule.tuple call = [] := by rw [tuple, hkeys, map_nil]
    rw [if_pos hkeys, httpLimitRulePlan, if_pos hkeys, htuple]
    exact planned_whole h hnow hkeys
  · have htuple : (rule.tuple call).length = rule.keys.length := length_map ..
    rw [if_neg hkeys, httpLimitRulePlan, if_neg hkeys]
    cases hfind : st.slots.findIdx? fun s => s.id == identity rule.keys (rule.tuple call) with
    | none =>
      refine planned_new h hnow hkeys htuple fun s hs => ?_
      have hne := List.findIdx?_eq_none_iff.mp hfind s hs
      simpa using hne
    | some i =>
      dsimp only
      obtain ⟨l, s, r, hslots, rfl, hid⟩ := findIdx_split hfind
      have hget : st.slots.getD l.length ⟨[], 0, 0, false⟩ = s := by simp [hslots]
      rw [hget]
      rw [show st.slots.modify l.length (httpLimitTouch call.now) =
        l ++ httpLimitTouch call.now s :: r by rw [hslots, modify_middle]]
      exact planned_slot h hnow hkeys htuple hslots (eq_of_beq hid) _

end

/-! ## All rules -/

/-- The states of the rules stand for the reference at a time. -/
def Stands (now : Nat) (lim : HttpLimit) (limiters : Limiters) : Prop :=
  List.Forall₂ (fun p q => p.1 = q.1 ∧ Keeps p.1 now p.2 q.2) lim.rules limiters

def PlannedPair (call : LimitCall) (uri : Str) (p : LimitRule × LimitState)
    (q : LimitRule × (List Str → Option Nat)) : Prop :=
  p.1 = q.1 ∧
    if p.1.matches uri then
      ∃ plan, (limitPlanned call uri p).2 = some plan ∧
        Planned p.1 call.now (p.1.tuple call) q.2 (limitPlanned call uri p).1 plan
    else (limitPlanned call uri p).2 = none ∧ Keeps p.1 call.now (limitPlanned call uri p).1 q.2

lemma plannedPair (uri : Str) (hnow : call.now < 2 ^ 62) (hpq : p.1 = q.1)
    (h : Keeps p.1 call.now p.2 q.2) : PlannedPair call uri p q := by
  refine ⟨hpq, ?_⟩
  rw [limitPlanned]
  split_ifs with hmatch
  · exact ⟨_, rfl, httpLimitRulePlan_spec h hnow⟩
  · exact ⟨rfl, h⟩

section

variable (h : PlannedPair call uri p q)
include h

lemma PlannedPair.keeps : Keeps p.1 call.now (limitPlanned call uri p).1 q.2 := by
  obtain ⟨-, h⟩ := h
  split_ifs at h with hmatch
  · obtain ⟨plan, -, hplan⟩ := h
    exact hplan.1
  · exact h.2

lemma PlannedPair.denies
    (hplan : (limitPlanned call uri p).2 = some plan) (hdeny : plan.deny = true)
    (hfull : plan.place ≠ .full) : limiterAdmits call uri q = false := by
  obtain ⟨hpq, h⟩ := h
  split_ifs at h with hmatch
  · obtain ⟨plan', hplan', -, hout⟩ := h
    rw [hplan] at hplan'
    cases hplan'
    rcases hout with ⟨-, hfull'⟩ | ⟨hadmits, -, -⟩
    · exact absurd hfull' hfull
    · rw [limiterAdmits, ← hpq, hmatch]
      rw [hdeny] at hadmits
      simpa using hadmits.symm
  · rw [h.1] at hplan
    cases hplan

omit h in
lemma limitCommitted_eq : limitCommitted call uri p =
    (limitPlanned call uri p).2.elim (limitPlanned call uri p).1 fun plan =>
      httpLimitRuleCommit p.1 (limitPlanned call uri p).1 plan call.now := by
  rw [limitCommitted]
  generalize limitPlanned call uri p = r
  obtain ⟨st, _ | plan⟩ := r <;> rfl

/-- When the plan of a rule does not deny, its limiter admits and the committed state stands
for the next one. -/
lemma PlannedPair.committed (hok : ∀ plan ∈ (limitPlanned call uri p).2, plan.deny = false) :
    limiterAdmits call uri q = true ∧
      Keeps p.1 call.now (limitCommitted call uri p) (limiterNext call uri q) := by
  obtain ⟨hpq, h⟩ := h
  rw [limiterAdmits, limiterNext, ← hpq]
  split_ifs at h ⊢ with hmatch
  · obtain ⟨plan, hplan, -, hout⟩ := h
    have hdeny := hok plan hplan
    rw [limitCommitted_eq, hplan, hmatch]
    rcases hout with ⟨hdeny', -⟩ | ⟨hadmits, -, hcommit⟩
    · rw [hdeny] at hdeny'
      cases hdeny'
    · refine ⟨?_, hcommit hdeny⟩
      rw [hdeny] at hadmits
      simpa using hadmits.symm
  · rw [limitCommitted_eq, h.1]
    exact ⟨by simp [hmatch], h.2⟩

end

lemma exists_of_mem_left {β : Type} {R : α → β → Prop} {l : List α} {m : List β}
    (h : List.Forall₂ R l m) {a : α} (ha : a ∈ l) : ∃ b ∈ m, R a b := by
  induction h with
  | nil => cases ha
  | cons hab _ ih =>
    rcases mem_cons.mp ha with rfl | ha
    · exact ⟨_, mem_cons_self .., hab⟩
    · obtain ⟨b, hb, hR⟩ := ih ha
      exact ⟨b, mem_cons_of_mem _ hb, hR⟩

section

variable (hpairs : List.Forall₂ (PlannedPair call uri) lim.rules limiters)
include hpairs

/-- A call that is denied, but not by full tables alone, is denied by the reference. -/
lemma reference_denies
    (hmem : plan ∈ lim.plans call uri) (hdeny : plan.deny = true) (hfull : plan.place ≠ .full) :
    limiters.all (limiterAdmits call uri) = false := by
  obtain ⟨p, hp, hplan⟩ := mem_filterMap.mp hmem
  obtain ⟨q, hq, hpq⟩ := exists_of_mem_left hpairs hp
  refine all_eq_false.mpr ⟨q, hq, ?_⟩
  rw [hpq.denies hplan hdeny hfull]
  decide

/-- When no plan denies, every limiter admits and the committed states stand for the next
ones. -/
lemma reference_admits (hok : ∀ plan ∈ lim.plans call uri, plan.deny = false) :
    limiters.all (limiterAdmits call uri) = true ∧
      Stands call.now (lim.update (limitCommitted call uri))
        (limiters.map fun p => (p.1, limiterNext call uri p)) := by
  have hrule : ∀ p ∈ lim.rules, ∀ plan ∈ (limitPlanned call uri p).2, plan.deny = false :=
    fun p hp plan hplan => hok plan (mem_filterMap.mpr ⟨p, hp, hplan⟩)
  have hcommit := ((forall₂_and_left _ _).mpr ⟨hrule, hpairs⟩).imp
    fun p q hpq => And.intro hpq.2.1 (hpq.2.committed hpq.1)
  constructor
  · refine all_eq_true.mpr fun q hq => ?_
    obtain ⟨p, hp, hpq⟩ := exists_of_mem_left hcommit.flip hq
    exact hpq.2.1
  · rw [Stands, HttpLimit.update, forall₂_map_left_iff, forall₂_map_right_iff]
    exact hcommit.imp fun p q hpq => ⟨hpq.1, hpq.2.2⟩

end

/-- One call: unless only full tables deny it, the decision is that of the reference and the
states still stand for it. -/
lemma httpLimitCheck_step {t : Nat} (h : Stands t lim limiters) (ht : t ≤ call.now)
    (hnow : call.now < 2 ^ 62) (hfull : deniedByFullTable lim call = false) :
    (httpLimitCheck lim call).2.1 = (limiters.check call).2 ∧
      Stands call.now (httpLimitCheck lim call).1 (limiters.check call).1 := by
  have h : Stands call.now lim limiters := h.imp fun p q hpq => ⟨hpq.1, hpq.2.mono ht⟩
  rw [httpLimitCheck, Limiters.check]
  rw [deniedByFullTable] at hfull
  cases huri : call.http.uri with
  | none => exact ⟨rfl, h⟩
  | some uri =>
    rw [huri] at hfull
    dsimp only at hfull ⊢
    have hbuild : (lim.rules.any fun p =>
        p.1.matches uri && (httpLimitBuildId call p.1).isNone) = false := by
      simp [httpLimitBuildId_eq]
    have hpairs : List.Forall₂ (PlannedPair call uri) lim.rules limiters :=
      h.imp fun p q hpq => plannedPair uri hnow hpq.1 hpq.2
    rw [hbuild]
    cases hfind : (lim.plans call uri).find? (·.deny) with
    | some plan =>
      -- A plan denies, so there is one that denies and is not a full table.
      have hany : (lim.plans call uri).any (·.deny) = true :=
        any_eq_true.mpr ⟨plan, mem_of_find?_eq_some hfind, List.find?_some hfind⟩
      rw [hany, Bool.true_and, List.all_eq_false] at hfull
      obtain ⟨plan', hmem, hplan'⟩ := hfull
      simp only [Bool.or_eq_true, Bool.not_eq_true', decide_eq_true_eq, not_or,
        Bool.not_eq_false] at hplan'
      rw [reference_denies hpairs hmem hplan'.1 hplan'.2, if_neg (by decide)]
      refine ⟨rfl, ?_⟩
      rw [Stands, HttpLimit.update, forall₂_map_left_iff]
      exact hpairs.imp fun p q hpq => ⟨hpq.1, hpq.keeps⟩
    | none =>
      have hok : ∀ plan ∈ lim.plans call uri, plan.deny = false := by
        intro plan hplan
        simpa using List.find?_eq_none.mp hfind plan hplan
      obtain ⟨hadmits, hstands⟩ := reference_admits hpairs hok
      rw [hadmits]
      exact ⟨rfl, hstands⟩

/-! ## All calls -/

/-- For each call of a run, whether it is let through and whether it is denied by full tables
alone. -/
def HttpLimit.run (lim : HttpLimit) : List LimitCall → List (Bool × Bool)
  | [] => []
  | call :: calls =>
    ((httpLimitCheck lim call).2.1, deniedByFullTable lim call) ::
      (httpLimitCheck lim call).1.run calls

open HttpLimit

def Limiters.run (limiters : Limiters) : List LimitCall → List Bool
  | [] => []
  | call :: calls => (limiters.check call).2 :: Limiters.run (limiters.check call).1 calls

lemma run_prefix {calls : List LimitCall} {t : Nat}
    (h : Stands t lim limiters) (ht : ∀ call ∈ calls, t ≤ call.now)
    (hmono : calls.Pairwise (fun a b => a.now ≤ b.now)) (hnow : ∀ call ∈ calls, call.now < 2 ^ 62) :
    ((lim.run calls).takeWhile fun r => !r.2).map Prod.fst <+: limiters.run calls := by
  induction calls generalizing t lim limiters with
  | nil => exact nil_prefix
  | cons call calls ih =>
    rw [pairwise_cons] at hmono
    rw [run, Limiters.run]
    cases hfull : deniedByFullTable lim call with
    | true => exact nil_prefix
    | false =>
      obtain ⟨hdecision, hstands⟩ := httpLimitCheck_step h (ht call (mem_cons_self ..))
        (hnow call (mem_cons_self ..)) hfull
      rw [takeWhile_cons_of_pos (by rfl), map_cons, hdecision, prefix_cons_inj]
      exact ih hstands hmono.1 hmono.2
        (forall_mem_cons.1 hnow).2

/-- Up to the first call that only full tables deny, `http_limit_check` decides as one limiter
for each rule and each tuple of key values. -/
theorem decisions_eq_reference (rules : List LimitRule) (hrules : rules.length ≤ 32)
    (calls : List LimitCall) (hmono : calls.Pairwise fun a b => a.now ≤ b.now)
    (hnow : ∀ call ∈ calls, call.now < 2 ^ 62) :
    (((HttpLimit.install rules hrules).run calls).takeWhile fun r => !r.2).map Prod.fst <+:
      (Limiters.fresh rules).run calls := by
  have hstands : Stands 0 (install rules hrules) (Limiters.fresh rules) := by
    rw [Stands, install, Limiters.fresh, forall₂_map_left_iff, forall₂_map_right_iff, forall₂_same]
    exact fun rule _ => ⟨rfl, Keeps.empty rule⟩
  exact run_prefix hstands (fun _ _ => Nat.zero_le _) hmono hnow

/-- One request a second for each address. -/
def perAddress : LimitRule where
  path := cstr "/api"
  rps := 1
  keys := [.remoteAddr]
  rps_pos := by decide
  rps_le := by decide
  keys_le := by decide
  names := by simp [LimitKey.NameOk]

def apiCall (peer : Str) (now : Nat) : LimitCall :=
  ⟨peer, { HttpReplyData.zero .get with uri := some (cstr "/api?x") }, now⟩

theorem decisions_eq_reference_perAddress :
    (((HttpLimit.install [perAddress] (by decide)).run
      [apiCall (cstr "a") 5, apiCall (cstr "a") 6, apiCall (cstr "b") 7]).takeWhile
        fun r => !r.2).map Prod.fst = [true, false, true] ∧
    [true, false, true] <+: (Limiters.fresh [perAddress]).run
      [apiCall (cstr "a") 5, apiCall (cstr "a") 6, apiCall (cstr "b") 7] := by
  have hrun : (((install [perAddress] (by decide)).run
      [apiCall (cstr "a") 5, apiCall (cstr "a") 6, apiCall (cstr "b") 7]).takeWhile
        fun r => !r.2).map Prod.fst = [true, false, true] := by decide +kernel
  refine ⟨hrun, ?_⟩
  rw [← hrun]
  exact decisions_eq_reference [perAddress] (by decide) _
    (by simp [apiCall]) (by simp [apiCall])

/-! ## Windows and bursts -/

def LimitRule.serve (rule : LimitRule) (st : LimitState) (call : LimitCall) : LimitState × Bool :=
  let r := httpLimitRulePlan rule st (httpLimitBuildId call rule).join call.now
  if r.2.deny then (r.1, false) else (httpLimitRuleCommit rule r.1 r.2 call.now, true)

/-- The calls that a rule lets through. -/
def LimitRule.admitted (rule : LimitRule) : LimitState → List LimitCall → List LimitCall
  | _, [] => []
  | st, call :: calls =>
    let r := rule.serve st call
    if r.2 then call :: rule.admitted r.1 calls else rule.admitted r.1 calls

section

variable {rule : LimitRule} {now t : Nat} {st : LimitState} {f : List Str → Option Nat}
  {calls : List LimitCall}

lemma ofGcra_place (place : LimitPlace) (id : Option Str) (r : Except Nat Nat) :
    (LimitPlan.ofGcra place id r).place = place := by
  cases r <;> rfl

lemma length_of_full {id : Option Str}
    (h : (httpLimitRulePlan rule st id now).2.place = .full) : 4096 ≤ st.slots.length := by
  rw [httpLimitRulePlan.eq_def] at h
  split_ifs at h
  · rw [ofGcra_place] at h
    cases h
  · cases id with
    | none => cases h
    | some key =>
      dsimp only at h
      split at h
      · rw [ofGcra_place] at h
        cases h
      · rw [httpLimitPlaceNew] at h
        split_ifs at h with hroom
        · rw [ofGcra_place] at h
          cases h
        · exact Nat.le_of_not_lt hroom

/-- A call is let through as the limiter says, or the table is full. -/
lemma LimitRule.serve_spec (h : Keeps rule call.now st f) (hnow : call.now < 2 ^ 62) :
    (rule.serve st call).2 = false ∧ Keeps rule call.now (rule.serve st call).1 f ∧
        (rule.gcra.admits (f (rule.tuple call)) call.now = true → 4096 ≤ st.slots.length) ∨
      (rule.serve st call).2 = true ∧ rule.gcra.admits (f (rule.tuple call)) call.now = true ∧
        Keeps rule call.now (rule.serve st call).1 (update f (rule.tuple call)
          (some (rule.gcra.next (f (rule.tuple call)) call.now))) := by
  obtain ⟨hkeeps, hplan⟩ := httpLimitRulePlan_spec h hnow
  rw [serve]
  rcases hplan with ⟨hdeny, hfull⟩ | ⟨hdeny, -, hcommit⟩
  · rw [if_pos hdeny]
    exact .inl ⟨rfl, hkeeps, fun _ => length_of_full hfull⟩
  · split_ifs with hd
    · rw [hd] at hdeny
      exact .inl ⟨rfl, hkeeps, fun hok => by simp [hok] at hdeny⟩
    · rw [Bool.eq_false_iff.2 hd] at hdeny
      exact .inr ⟨rfl, by simpa using hdeny.symm, hcommit (Bool.eq_false_iff.2 hd)⟩

lemma Keeps.length_slots (h : Keeps rule now st f) (hone : ∀ w ≠ v, f w = none) :
    st.slots.length ≤ 1 := by
  have hids : ∀ s ∈ st.slots, s.id = identity rule.keys v := by
    intro s hs
    obtain ⟨-, -, -, w, -, hid, hf⟩ := h.slot s hs
    by_cases hw : w = v
    · rw [hid, hw]
    · rw [hone w hw] at hf
      cases hf
  have hnodup := h.nodup
  match hst : st.slots with
  | [] | [_] => simp
  | s1 :: s2 :: rest =>
    rw [hst, forall_mem_cons, forall_mem_cons] at hids
    simp [hst, hids.1, hids.2.1] at hnodup

/-- The admissions of one identity in a window, when the next one is held against `b` at least.
Each of them moves this bound on by an interval. -/
lemma window_count {start width : Nat} {b : Nat} (h : Keeps rule t st f)
    (ht : ∀ call ∈ calls, t ≤ call.now) (hmono : calls.Pairwise fun x y => x.now ≤ y.now)
    (hnow : ∀ call ∈ calls, call.now < 2 ^ 62) (hb : b ≤ base (f v) start) :
    let n := (rule.admitted st calls).countP fun call =>
      decide (rule.tuple call = v ∧ start ≤ call.now ∧ call.now ≤ start + width)
    n = 0 ∨ b + n * rule.gcra.interval ≤ start + width + rule.gcra.tau + rule.gcra.interval := by
  induction calls generalizing t b st f with
  | nil => exact .inl rfl
  | cons call calls ih =>
    rw [pairwise_cons] at hmono
    rw [forall_mem_cons] at ht hnow
    rw [admitted]
    dsimp only
    rcases serve_spec (h.mono ht.1) hnow.1 with
      ⟨hno, hkeeps, -⟩ | ⟨hyes, hadmits, hkeeps⟩
    · rw [hno]
      exact ih hkeeps hmono.1 hmono.2 hnow.2 hb
    · rw [hyes, if_pos rfl, countP_cons]
      have hin := of_decide_eq_true hadmits
      by_cases hv : rule.tuple call = v
      · subst hv
        have hself := update_self (rule.tuple call)
          (some (rule.gcra.next (f (rule.tuple call)) call.now)) f
        by_cases hwin : start ≤ call.now ∧ call.now ≤ start + width
        · have hbase := hb.trans (base_mono hwin.1)
          have hmoved : b + rule.gcra.interval ≤ base (update f (rule.tuple call)
              (some (rule.gcra.next (f (rule.tuple call)) call.now)) (rule.tuple call)) start := by
            rw [hself]
            exact (Nat.add_le_add_right hbase _).trans (Nat.le_max_left _ _)
          rw [if_pos (decide_eq_true ⟨rfl, hwin⟩), Nat.succ_mul]
          rcases ih hkeeps hmono.1 hmono.2 hnow.2 hmoved with hzero | hmore
          · rw [hzero]
            omega
          · omega
        · rw [if_neg (by simpa using hwin)]
          refine ih hkeeps hmono.1 hmono.2 hnow.2 ?_
          rw [hself]
          exact hb.trans (base_le_next _ _)
      · rw [if_neg (by simp [hv])]
        refine ih hkeeps hmono.1 hmono.2 hnow.2 ?_
        rwa [update_of_ne (Ne.symm hv)]

/-- Calls of one identity at one time are let through as long as its arrival time and their
number fit in the tolerance. -/
lemma burst_admitted {k : Nat} (h : Keeps rule now st f) (hnow : now < 2 ^ 62)
    (hone : ∀ w ≠ v, f w = none) (htat : ∀ x ∈ f v, x ≤ now + k * rule.gcra.interval)
    (hcalls : ∀ call ∈ calls, rule.tuple call = v ∧ call.now = now)
    (hlen : k + calls.length ≤ rule.rps) : rule.admitted st calls = calls := by
  induction calls generalizing k st f with
  | nil => rfl
  | cons call calls ih =>
    rw [forall_mem_cons] at hcalls
    obtain ⟨⟨hv, rfl⟩, hrest⟩ := hcalls
    have hbase : base (f v) call.now ≤ call.now + k * rule.gcra.interval := by
      refine max_le ?_ (Nat.le_add_right _ _)
      cases hf : f v with
      | none => exact Nat.zero_le _
      | some x => exact htat x hf
    have htau : k * rule.gcra.interval ≤ rule.gcra.tau := by
      rw [mul_comm]
      exact Nat.mul_le_mul_left _ (by rw [length_cons] at hlen; omega)
    have hadmits : rule.gcra.admits (f v) call.now = true := decide_eq_true (by omega)
    rw [admitted]
    rcases serve_spec h hnow with ⟨-, -, hfull⟩ | ⟨hyes, -, hkeeps⟩
    · rw [hv] at hfull
      have := h.length_slots hone
      exact absurd (hfull hadmits) (by omega)
    · rw [hv] at hkeeps
      rw [hyes, if_pos rfl, ih (k := k + 1) hkeeps (fun w hw => ?_) (fun x hx => ?_) hrest
        (by rw [length_cons] at hlen; omega)]
      · rw [update_of_ne hw, hone w hw]
      · rw [update_self, mem_some_iff] at hx
        rw [← hx, Gcra.next, Nat.succ_mul]
        omega

/-- A burst after calls of the same identity. -/
lemma admitted_append {burst : List LimitCall} (h : Keeps rule t st f)
    (ht : ∀ call ∈ calls, t ≤ call.now) (htnow : t ≤ now)
    (hmono : calls.Pairwise fun x y => x.now ≤ y.now)
    (hone : ∀ w ≠ v, f w = none) (htat : ∀ x ∈ f v, x ≤ now)
    (hcalls : ∀ call ∈ calls, rule.tuple call = v ∧ call.now ≤ now) (hnow : now < 2 ^ 62)
    (hgap : ∀ call ∈ rule.admitted st calls, call.now + (rule.gcra.tau + rule.gcra.interval) ≤ now)
    (hburst : ∀ call ∈ burst, rule.tuple call = v ∧ call.now = now)
    (hlen : burst.length ≤ rule.rps) :
    rule.admitted st (calls ++ burst) = rule.admitted st calls ++ burst := by
  induction calls generalizing t st f with
  | nil =>
    refine burst_admitted (k := 0) (h.mono htnow) hnow hone ?_ hburst (by simpa using hlen)
    simpa using htat
  | cons call calls ih =>
    rw [pairwise_cons] at hmono
    rw [forall_mem_cons] at ht hcalls
    obtain ⟨⟨rfl, hle⟩, hrest⟩ := hcalls
    rw [admitted] at hgap
    rw [cons_append, admitted, admitted]
    rcases serve_spec (h.mono ht.1) (hle.trans_lt hnow) with
      ⟨hno, hkeeps, -⟩ | ⟨hyes, hadmits, hkeeps⟩
    · rw [hno] at hgap ⊢
      exact ih hkeeps hmono.1 hle hmono.2 hone htat hrest hgap
    · rw [hyes, if_pos rfl, forall_mem_cons] at hgap
      rw [hyes, if_pos rfl, if_pos rfl]
      refine congrArg _ (ih hkeeps hmono.1 hle hmono.2 (fun w hw => ?_) (fun x hx => ?_) hrest
        hgap.2)
      · rw [update_of_ne hw, hone w hw]
      · rw [update_self, mem_some_iff] at hx
        exact hx ▸ (next_le hadmits).trans hgap.1

end

/-- In every window of a rule, one identity gets at most as many calls through as fit in the
window and the tolerance, whatever other identities do.  After a gap of the tolerance and one
interval without admissions, as many calls at one time as the rate are let through. -/
theorem limit_windows (rule : LimitRule) (calls : List LimitCall)
    (hmono : calls.Pairwise fun x y => x.now ≤ y.now)
    (hnow : ∀ call ∈ calls, call.now < 2 ^ 62) (v : List Str) :
    (∀ start width, (rule.admitted .empty calls).countP (fun call =>
        decide (rule.tuple call = v ∧ start ≤ call.now ∧ call.now ≤ start + width)) ≤
      (width + rule.gcra.tau) / rule.gcra.interval + 1) ∧
    ((∀ call ∈ calls, rule.tuple call = v) → ∀ now < 2 ^ 62, (∀ call ∈ calls, call.now ≤ now) →
      (∀ call ∈ rule.admitted .empty calls, call.now + (rule.gcra.tau + rule.gcra.interval) ≤ now) →
      ∀ burst : List LimitCall, burst.length = rule.rps →
        (∀ call ∈ burst, rule.tuple call = v ∧ call.now = now) →
        rule.admitted .empty (calls ++ burst) = rule.admitted .empty calls ++ burst) := by
  have hzero : ∀ call ∈ calls, 0 ≤ call.now := fun _ _ => Nat.zero_le _
  constructor
  · intro start width
    have hpos : 0 < rule.gcra.interval := Nat.div_pos rule.rps_le rule.rps_pos
    rcases window_count (Keeps.empty rule) hzero hmono hnow
      (le_of_eq (base_none start).symm) with hnone | hsome
    · rw [hnone]
      exact Nat.zero_le _
    · rw [← Nat.add_div_right _ hpos, Nat.le_div_iff_mul_le hpos]
      omega
  · intro hv now hnow' hle hgap burst hlen hburst
    exact admitted_append (Keeps.empty rule) hzero (Nat.zero_le _) hmono (fun _ _ => rfl)
      (fun _ hx => nomatch hx) (fun call hmem => ⟨hv call hmem, hle call hmem⟩) hnow' hgap hburst
      (le_of_eq hlen)

/-- One request a second: of three calls in half a second one is let through. -/
theorem limit_windows_perAddress :
    (perAddress.admitted .empty [apiCall (cstr "a") 5, apiCall (cstr "a") 6,
      apiCall (cstr "b") 7]).countP (fun call =>
        decide (perAddress.tuple call = [cstr "a"] ∧ 5 ≤ call.now ∧ call.now ≤ 5 + 500000000)) ≤ 1 :=
  (limit_windows perAddress _ (by simp [apiCall]) (by simp [apiCall]) [cstr "a"]).1 5 500000000

end Alligator
