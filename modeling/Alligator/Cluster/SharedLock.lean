import Alligator.Cluster.Servers

/-!
# The shared lock

Every member of a cluster keeps a record of who holds the lock, and until when.  A member asks
all members for the lock, and each of them decides by its own record (`cluster_set_sharedlock`).
-/

namespace Alligator

open Text List Option

variable {now : Nat}

/-! ## Comparing names -/

def strncmp (s1 s2 : Str) (n : Nat) : Ordering := strcmp (s1.take n) (s2.take n)

/-- `string_compare` of a string that may be missing with a text of its own length: is the result
zero? -/
def stringCompareZero (str : Option Str) (cmp : Str) : Bool :=
  match str with
  | none => false
  | some s => decide (s ≠ []) && decide (cmp ≠ []) && decide (strncmp s cmp cmp.length = .eq)

/-- The comparison takes every beginning of the string for the string. -/
lemma stringCompareZero_iff {str : Option Str} {cmp : Str} :
    stringCompareZero str cmp = true ↔ cmp ≠ [] ∧ ∃ s, str = some s ∧ cmp <+: s := by
  cases str with
  | none => simp [stringCompareZero]
  | some s =>
    have hstrcmp : strncmp s cmp cmp.length = .eq ↔ cmp <+: s := by
      rw [strncmp, take_length, prefix_iff_eq_take]
      exact ⟨fun h => (Std.LawfulEqCmp.eq_of_compare h).symm, fun h => h ▸ Std.ReflCmp.compare_self⟩
    simp only [stringCompareZero, Bool.and_eq_true, decide_eq_true_eq, hstrcmp, some.injEq,
      exists_eq_left']
    constructor
    · rintro ⟨⟨-, hne⟩, hpre⟩
      exact ⟨hne, hpre⟩
    · rintro ⟨hne, hpre⟩
      exact ⟨⟨fun hs => hne (prefix_nil.1 (hs ▸ hpre)), hne⟩, hpre⟩

/-! ## The record -/

/-- The fields of a cluster node that belong to the lock. -/
structure LockRecord where
  sharedLockInstance : Option Str
  sharedLockSetTime : Nat
  ttl : Nat
  updateCount : Nat
  parserStatus : Nat
deriving DecidableEq

variable {cn : LockRecord}

def LockRecord.empty : LockRecord := ⟨none, 0, 0, 0, 0⟩

/-- `cluster_set_sharedlock` at a time: the record after it, and whether the lock was taken. -/
def clusterSetSharedlock (now : Nat) (replica : Str) (cn : LockRecord) : LockRecord × Bool :=
  let cn := { cn with updateCount := cn.updateCount + 1 }
  let locked := decide (cn.ttl < now)
  let cn := if locked then { cn with sharedLockInstance := some replica } else cn
  let cn := if stringCompareZero cn.sharedLockInstance replica then
    { cn with sharedLockSetTime := now, ttl := now + 60 } else cn
  (cn, locked)

/-! ## One record -/

structure LockRequest where
  now : Nat
  replica : Str

/-- A record with the `ttl` that the last accepted request of its holder has left. -/
structure HeldRecord where
  record : LockRecord
  granted : Nat

/-- A request is accepted when it is from the holder of the record after it. -/
def HeldRecord.step (held : HeldRecord) (req : LockRequest) : HeldRecord :=
  let record := (clusterSetSharedlock req.now req.replica held.record).1
  ⟨record, if record.sharedLockInstance = some req.replica ∧
        stringCompareZero record.sharedLockInstance req.replica then record.ttl
    else held.granted⟩

/-- What a request may do to a record: the holder changes after the `ttl` of its last accepted
request, and the times are set for the holder. -/
structure LockLaw (held : HeldRecord) (req : LockRequest) : Prop where
  holder : (held.step req).record.sharedLockInstance ≠ held.record.sharedLockInstance →
    held.granted < req.now
  times : (held.step req).record.ttl ≠ held.record.ttl ∨
      (held.step req).record.sharedLockSetTime ≠ held.record.sharedLockSetTime →
    (held.step req).record.sharedLockInstance = some req.replica

/-- A request of a member whose name is the beginning of the name of the holder, while the lock
lasts, does not change the times. -/
def NoProperPrefix (held : HeldRecord) (req : LockRequest) : Prop :=
  req.now ≤ held.record.ttl → req.replica ≠ [] →
  ∀ holder, held.record.sharedLockInstance = some holder → req.replica <+: holder →
    req.replica = holder ∨
      held.record.ttl = req.now + 60 ∧ held.record.sharedLockSetTime = req.now

section Record

variable {held : HeldRecord} {req : LockRequest}

/-- After the lock has lapsed a request takes it; an empty name does not set the times. -/
lemma step_lapsed (h : held.record.ttl < req.now) : (held.step req).record = { held.record with
      sharedLockInstance := some req.replica
      updateCount := held.record.updateCount + 1
      sharedLockSetTime := if req.replica = [] then held.record.sharedLockSetTime else req.now
      ttl := if req.replica = [] then held.record.ttl else req.now + 60 } := by
  have hcompare : stringCompareZero (some req.replica) req.replica = decide (req.replica ≠ []) := by
    rw [Bool.eq_iff_iff, stringCompareZero_iff, decide_eq_true_eq]
    exact ⟨fun hc => hc.1, fun hc => ⟨hc, _, rfl, prefix_refl _⟩⟩
  simp only [HeldRecord.step, clusterSetSharedlock, h, decide_true, ↓reduceIte, hcompare]
  by_cases hempty : req.replica = [] <;> simp [hempty]

lemma step_held (h : req.now ≤ held.record.ttl) : (held.step req).record = { held.record with
      updateCount := held.record.updateCount + 1
      sharedLockSetTime := if stringCompareZero held.record.sharedLockInstance req.replica then
        req.now else held.record.sharedLockSetTime
      ttl := if stringCompareZero held.record.sharedLockInstance req.replica then
        req.now + 60 else held.record.ttl } := by
  simp only [HeldRecord.step, clusterSetSharedlock, not_lt.2 h, decide_false,
    Bool.false_eq_true, ↓reduceIte]
  split_ifs <;> rfl

/-- The `ttl` is that of the last accepted request or later, and not more than a minute ahead. -/
structure HeldRecord.Timely (held : HeldRecord) (now : Nat) : Prop where
  granted_le : held.granted ≤ held.record.ttl
  ttl_le : held.record.ttl ≤ now + 60

lemma HeldRecord.Timely.step (h : held.Timely now) (hnow : now ≤ req.now) :
    (held.step req).Timely req.now := by
  have hgranted := h.granted_le
  have httl := h.ttl_le
  have hrecord : held.record.ttl ≤ (held.step req).record.ttl ∧
      (held.step req).record.ttl ≤ req.now + 60 := by
    rcases lt_or_ge held.record.ttl req.now with hlt | hge
    · rw [step_lapsed hlt]
      dsimp only
      split_ifs <;> omega
    · rw [step_held hge]
      dsimp only
      split_ifs <;> omega
  refine ⟨?_, hrecord.2⟩
  change (if _ then (held.step req).record.ttl else held.granted) ≤ _
  split_ifs <;> omega

/-- A request keeps the law exactly when it is not from a member that is taken for the holder. -/
lemma lockLaw_iff (h : held.Timely now) : LockLaw held req ↔ NoProperPrefix held req := by
  rcases lt_or_ge held.record.ttl req.now with hlt | hge
  · have hprefix : NoProperPrefix held req := fun hle => absurd hle (not_le.2 hlt)
    refine ⟨fun _ => hprefix, fun _ => ⟨fun _ => h.granted_le.trans_lt hlt, fun _ => ?_⟩⟩
    rw [step_lapsed hlt]
  · constructor
    · intro hlaw _ hne holder hholder hpre
      have hcompare : stringCompareZero held.record.sharedLockInstance req.replica = true :=
        stringCompareZero_iff.2 ⟨hne, holder, hholder, hpre⟩
      have htimes := hlaw.times
      rw [step_held hge, hcompare, hholder] at htimes
      by_cases hsame : held.record.ttl = req.now + 60 ∧ held.record.sharedLockSetTime = req.now
      · exact .inr hsame
      · refine .inl (some.inj (htimes ?_)).symm
        simp only [↓reduceIte]
        omega
    · intro hprefix
      constructor
      · intro hchange
        rw [step_held hge] at hchange
        exact absurd rfl hchange
      · rw [step_held hge]
        dsimp only
        split_ifs with hcompare
        · obtain ⟨hne, holder, hholder, hpre⟩ := stringCompareZero_iff.1 hcompare
          rcases hprefix hge hne holder hholder hpre with heq | hsame
          · exact fun _ => heq ▸ hholder
          · intro hchange
            omega
        · exact fun hchange => absurd hchange (by simp)

end Record

/-- The record before each request, with the request. -/
def lockTrace (held : HeldRecord) : List LockRequest → List (HeldRecord × LockRequest)
  | [] => []
  | req :: reqs => (held, req) :: lockTrace (held.step req) reqs

lemma timely_of_mem_lockTrace {reqs : List LockRequest} {held : HeldRecord} {now : Nat}
    (h : held.Timely now) (hlow : ∀ req ∈ reqs, now ≤ req.now)
    (hsorted : reqs.Pairwise (fun a b => a.now ≤ b.now)) :
    ∀ p ∈ lockTrace held reqs, ∃ t, p.1.Timely t := by
  induction reqs generalizing held now with
  | nil => exact fun p hp => nomatch hp
  | cons req reqs ih =>
    intro p hp
    obtain ⟨hfirst, hrest⟩ := pairwise_cons.1 hsorted
    rcases mem_cons.1 hp with rfl | hp
    · exact ⟨now, h⟩
    · exact ih (h.step (hlow req mem_cons_self)) hfirst hrest p hp

/-- Over any sequence of requests in the order of time, the lock is held by one instance until
it lapses exactly when no request that lasts comes from an instance whose name is the beginning
of the name of the holder. -/
theorem lock_held_iff {reqs : List LockRequest} (hsorted : reqs.Pairwise fun a b => a.now ≤ b.now) :
    (∀ p ∈ lockTrace ⟨.empty, 0⟩ reqs, LockLaw p.1 p.2) ↔
      ∀ p ∈ lockTrace ⟨.empty, 0⟩ reqs, NoProperPrefix p.1 p.2 := by
  have hempty : HeldRecord.Timely ⟨.empty, 0⟩ 0 := ⟨le_rfl, Nat.zero_le _⟩
  have htimely := timely_of_mem_lockTrace hempty (fun _ _ => Nat.zero_le _) hsorted
  refine forall₂_congr fun p hp => ?_
  obtain ⟨t, ht⟩ := htimely p hp
  exact lockLaw_iff ht

/-- The lock goes from one instance to another after it has lapsed. -/
theorem lock_held_handover :
    (lockTrace ⟨.empty, 0⟩ [⟨100, cstr "a"⟩, ⟨130, cstr "a"⟩, ⟨191, cstr "b"⟩]).Forall
      fun p => LockLaw p.1 p.2 := by
  refine forall_iff_forall_mem.2 ((lock_held_iff (by decide)).2 fun p hp => ?_)
  simp only [lockTrace, mem_cons, not_mem_nil, or_false] at hp
  rcases hp with rfl | rfl | rfl
  · exact fun hle => absurd hle (by decide)
  · intro _ _ holder hholder _
    exact .inl (some.inj hholder)
  · exact fun hle => absurd hle (by decide)

/-- The instance `srv1` prolongs the lock of `srv10`. -/
theorem lock_held_prefix :
    ¬ ∀ p ∈ lockTrace ⟨.empty, 0⟩ [⟨100, cstr "srv10"⟩, ⟨130, cstr "srv1"⟩], LockLaw p.1 p.2 := by
  intro h
  have hlaw := (h (HeldRecord.step ⟨.empty, 0⟩ ⟨100, cstr "srv10"⟩, ⟨130, cstr "srv1"⟩)
    (mem_cons_of_mem _ mem_cons_self)).times
  revert hlaw
  decide

end Alligator
