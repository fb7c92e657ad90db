import Alligator.Lib.Double
import Alligator.Metric.Refinement

/-!
# The tag of a stored value

A series keeps its value in a union of a signed integer, an unsigned integer
and a double, beside a tag that says which one it is.  `metric_set` writes a
member and the tag.  `metric_gset` adds to the member that its caller names and
leaves the tag alone, so that the tag is right only as long as every caller adds
in the type that is stored.

A run of `metric_upsert` calls on one series is observed call by call: the entry
before and after the call, and the type of the member that was written last.
-/

namespace Alligator

open Memory List Option Record

/-! ## Numbers -/

/-- What a union is read as: an integer modulo `2 ^ 64` or a rational number. -/
inductive Number where
  | integer (bits : BitVec 64)
  | rational (q : ℚ)
deriving DecidableEq

/-- The number that a union holds when it is read through a tag. -/
def readNumber (type : DataType) (value : BitVec 64) : Option Number :=
  match type with
  | .int | .uint => some (.integer value)
  | .double => if notFinite value then none else some (.rational (Binary64.toRat value))
  | .none => none

def Number.add : Number → Number → Option Number
  | .integer a, .integer b => some (.integer (a + b))
  | .rational a, .rational b => some (.rational (a + b))
  | _, _ => none

/-! ## Runs on one series -/

/-- The call writes a member of the union: `metric_gset` leaves out a number that
is not finite. -/
def Upsert.writes (u : Upsert) : Bool := !(u.add && u.type == .double && notFinite u.value)

open Upsert

/-- One call of a run: the entry of the series before and after it, and the type
of the member that this call or the last one before it wrote. -/
structure Observed where
  before : Option Entry
  call : Upsert
  after : Option Entry
  member : Option DataType

def Store.recordOf (s : Store) (name : Str) (hash : LabelHash) : Option Record :=
  s.contents.find? fun x => decide (x.sortKey = sortKey (chainOf s name hash))

/-- The type of the member written last, after a call that found the entry `before`
and left `after`. -/
def Upsert.member (u : Upsert) (before after : Option Entry) (last : Option DataType) :
    Option DataType :=
  if after.isNone then none
  else if before.isNone || u.writes then some u.type
  else last

/-- A run of `metric_upsert` on one series.  The store is read at the series before
each call, and at the node that the call returns. -/
def observe (addDouble : AddDouble) (name : Str) (hash : LabelHash) :
    Store → Option DataType → List (Clock × Upsert) → Option (List Observed)
  | _, _, [] => some []
  | s, last, (clock, u) :: calls => do
    let (s', p) ← upsertSample addDouble clock s name hash u
    let before := (s.recordOf name hash).map Record.entry
    let after := (p.bind (recordAt s')).map Record.entry
    let member := u.member before after last
    let rest ← observe addDouble name hash s' member calls
    return ⟨before, u, after, member⟩ :: rest

/-- The tag is the type of the member written last. -/
def Observed.Tagged (o : Observed) : Prop := ∀ e, o.after = some e → o.member = some e.type

/-- An addition adds to the number that is read. -/
def Observed.Summed (o : Observed) : Prop :=
  o.call.add = true → o.call.writes = true →
    ∀ e e', o.before = some e → o.after = some e' →
      ∃ a b c, readNumber e.type e.value = some a ∧
        readNumber o.call.type o.call.value = some b ∧ a.add b = some c ∧
        readNumber e'.type e'.value = some c

/-- The double `z` is the sum of two doubles, without rounding. -/
@[mk_iff] structure IsSum (x y z : BitVec 64) : Prop where
  finite : notFinite z = false
  sum : Binary64.toRat z = Binary64.toRat x + Binary64.toRat y

/-- What is assumed of the addition of doubles: it does not round a sum that is a double. -/
def AddsExactly (addDouble : AddDouble) : Prop :=
  ∀ x y z, notFinite x = false → notFinite y = false → IsSum x y z → IsSum x y (addDouble x y)

/-- The sum of two doubles is a double. -/
def ExactSum (x y : BitVec 64) : Prop := notFinite x = false ∧ ∃ z, IsSum x y z

/-- A call that adds does so in the type that is stored, and doubles without rounding. -/
def Observed.Matching (o : Observed) : Prop :=
  o.call.add = true → o.call.writes = true → ∀ e, o.before = some e →
    o.call.type = e.type ∧ (e.type = .double → ExactSum e.value o.call.value)

/-! ## One call -/

/-- What a call makes of the entry of its series. -/
inductive SeriesStep (addDouble : AddDouble) (clock : Clock) (u : Upsert) :
    Option Entry → Option Entry → Prop where
  | written (e : Entry) : SeriesStep addDouble clock u (some e) (some (u.write addDouble clock e))
  | dropped : SeriesStep addDouble clock u none none
  | inserted : SeriesStep addDouble clock u none (some (u.new clock))

lemma newLabels_again (p : SortPlan) (hash : LabelHash) (name : Str) :
    (newLabels (labelsInitiate p hash name).2 hash).take
      (sortplanMax - (labelsInitiate p hash name).2.size) = [] := by
  cases hnew : newLabels (labelsInitiate p hash name).2 hash with
  | nil => exact take_nil
  | cons c rest =>
    have hc : c ∈ newLabels (labelsInitiate p hash name).2 hash := by simp [hnew]
    obtain ⟨hmem, hout⟩ := mem_filter.mp hc
    rw [size_labelsInitiate_of_dropped hmem (of_decide_eq_true hout)]
    rfl

lemma labelsInitiate_again (p : SortPlan) (hash : LabelHash) (name : Str) :
    (labelsInitiate (labelsInitiate p hash name).2 hash name).1 =
      (labelsInitiate p hash name).1 := by
  rw [labelsInitiate_chain, newLabels_again, labelsInitiate_chain p, labelsInitiate_plan,
    List.map_append, List.map_nil, List.append_nil, List.map_map]
  congr 2
  refine map_congr_left fun c hc => ?_
  have hmem : c ∈ hash.pairs := List.mem_of_mem_filter (mem_of_mem_take hc)
  simp [lookup_eq_some_iff.mpr hmem]

section Record

variable {s : Store} {L : List Record} {name : Str} {hash : LabelHash}

lemma recordOf_eq_some (h : Holds s L) {x : Record} (hx : x ∈ L)
    (key : x.sortKey = sortKey (chainOf s name hash)) : s.recordOf name hash = some x := by
  have hcontents := h.contents_eq
  obtain ⟨-, -, -, hs⟩ := h
  cases hfind : s.recordOf name hash with
  | none =>
    rw [Store.recordOf, hcontents, List.find?_eq_none] at hfind
    exact absurd (decide_eq_true key) (hfind x hx)
  | some y =>
    rw [Store.recordOf, hcontents] at hfind
    have hy : y.sortKey = sortKey (chainOf s name hash) := by simpa using List.find?_some hfind
    rw [hs.inj (mem_of_find?_eq_some hfind) hx (hy.trans key.symm)]

lemma recordOf_eq_none (h : Holds s L)
    (missing : ∀ x ∈ L, x.sortKey ≠ sortKey (chainOf s name hash)) :
    s.recordOf name hash = none := by
  rw [Store.recordOf, h.contents_eq, List.find?_eq_none]
  intro x hx
  simpa using missing x hx

/-- One call: what it makes of the entry, and that the next call finds it there. -/
lemma upsertSample_step (h : Holds s L) (addDouble : AddDouble)
    (clock : Clock) (name : Str) (hash : LabelHash) (u : Upsert) :
    ∃ s' p L', upsertSample addDouble clock s name hash u = some (s', p) ∧ Holds s' L' ∧
      p.bind (recordAt s') = s'.recordOf name hash ∧
      SeriesStep addDouble clock u ((s.recordOf name hash).map entry)
        ((s'.recordOf name hash).map entry) := by
  obtain ⟨s', p, L', x, e, h', up, hnone, hsome, hplan, -⟩ :=
    upsertSample_spec h addDouble clock name hash u
  have hchain : chainOf s' name hash = chainOf s name hash := by
    rw [chainOf, hplan]
    exact labelsInitiate_again s.plan hash name
  have hp : p.bind (recordAt s') = x := by
    cases p with
    | none => exact (hnone.mp rfl).symm
    | some m => exact hsome m rfl
  suffices hx : x = s'.recordOf name hash ∧ SeriesStep addDouble clock u
      ((s.recordOf name hash).map entry) (x.map entry) by
    exact ⟨s', p, L', e, h', hp.trans hx.1, hx.1 ▸ hx.2⟩
  cases up with
  | @written L1 L2 y found =>
    have hy : (writtenRecord clock u.ttl (u.sample addDouble) y).sortKey =
        sortKey (chainOf s' name hash) := by
      rw [hchain, ← found]
      exact writtenRecord_sortKey y
    refine ⟨(recordOf_eq_some h' (by simp) hy).symm, ?_⟩
    rw [recordOf_eq_some h (by simp) found, map_some, map_some, u.entry_written]
    exact .written _
  | dropped missing _ =>
    refine ⟨(recordOf_eq_none h' (hchain ▸ missing)).symm, ?_⟩
    rw [recordOf_eq_none h missing]
    exact .dropped
  | inserted missing _ _ _ =>
    have hy : (newRecord clock (chainOf s name hash) u.type u.value u.ttl).sortKey =
        sortKey (chainOf s' name hash) := by
      rw [hchain]
      rfl
    refine ⟨(recordOf_eq_some h' (by simp) hy).symm, ?_⟩
    rw [recordOf_eq_none h missing]
    exact .inserted

end Record

/-! ## The law of one call -/

section Law

variable {addDouble : AddDouble} {clock : Clock} {u : Upsert} {e : Entry} {last : Option DataType}

/-- The number after an addition in the stored type is the sum, for doubles if the
sum is exact. -/
lemma sum_iff_exactSum (hexact : AddsExactly addDouble) (hu : u.type ≠ .none)
    (hadd : u.add = true) (hw : u.writes = true) (htype : u.type = e.type) :
    (∃ a b c, readNumber e.type e.value = some a ∧ readNumber u.type u.value = some b ∧
      a.add b = some c ∧ readNumber (u.write addDouble clock e).type
        (u.write addDouble clock e).value = some c) ↔
      (e.type = .double → ExactSum e.value u.value) := by
  cases hk : u.type with
  | none => exact absurd hk hu
  | int | uint => simp [readNumber, Number.add, write, hadd, ← htype, hk]
  | double =>
    have hfin : notFinite u.value = false := by simpa [writes, hadd, hk] using hw
    have hsum : ExactSum e.value u.value ↔
        notFinite e.value = false ∧ IsSum e.value u.value (addDouble e.value u.value) :=
      ⟨fun h => ⟨h.1, h.2.elim fun z => hexact _ _ z h.1 hfin⟩, fun h => ⟨h.1, _, h.2⟩⟩
    rw [hsum, isSum_iff]
    cases hx : notFinite e.value <;>
      cases hz : notFinite (addDouble e.value u.value) <;>
        simp [readNumber, Number.add, write, hadd, ← htype, hk, hfin, hx, hz, eq_comm]

lemma tagged_written_iff (hlast : last = some e.type) :
    Observed.Tagged ⟨some e, u, some (u.write addDouble clock e),
        u.member (some e) (some (u.write addDouble clock e)) last⟩ ↔
      (u.add = true → u.writes = true → u.type = e.type) := by
  have hskip : u.writes = false → u.add = true := by
    cases h : u.add <;> simp [writes, h]
  rw [Observed.Tagged, member]
  cases hw : u.writes <;> cases hadd : u.add <;> simp_all [write]

/-- One call keeps the law exactly if it adds in the stored type, without rounding. -/
lemma law_iff_matching (hexact : AddsExactly addDouble) {before after : Option Entry}
    (st : SeriesStep addDouble clock u before after) (hu : u.type ≠ .none)
    (hlast : ∀ e, before = some e → last = some e.type) :
    let o : Observed := ⟨before, u, after, u.member before after last⟩
    (o.Tagged ∧ o.Summed) ↔ o.Matching := by
  cases st with
  | dropped => simp [Observed.Tagged, Observed.Summed, Observed.Matching]
  | inserted =>
    simp [Observed.Tagged, Observed.Summed, Observed.Matching, member, new]
  | written e =>
    dsimp only
    rw [tagged_written_iff (hlast e rfl)]
    constructor
    · rintro ⟨ht, hs⟩ hadd hw _ ⟨⟩
      have htype := ht hadd hw
      exact ⟨htype, (sum_iff_exactSum hexact hu hadd hw htype).mp (hs hadd hw e _ rfl rfl)⟩
    · intro hm
      refine ⟨fun hadd hw => (hm hadd hw e rfl).1, ?_⟩
      rintro hadd hw _ _ ⟨⟩ ⟨⟩
      obtain ⟨htype, hsum⟩ := hm hadd hw e rfl
      exact (sum_iff_exactSum hexact hu hadd hw htype).mpr hsum

end Law

/-! ## Runs -/

/-- A run is its first call and the rest of it. -/
lemma observe_cons {addDouble : AddDouble} {s s' : Store} {p : Ptr}
    {clock : Clock} {name : Str} {hash : LabelHash} {u : Upsert}
    (e : upsertSample addDouble clock s name hash u = some (s', p))
    (hp : p.bind (recordAt s') = s'.recordOf name hash) (last : Option DataType)
    (calls : List (Clock × Upsert)) :
    let before := (s.recordOf name hash).map entry
    let after := (s'.recordOf name hash).map entry
    let member := u.member before after last
    observe addDouble name hash s last ((clock, u) :: calls) =
      (observe addDouble name hash s' member calls).map (⟨before, u, after, member⟩ :: ·) := by
  simp only [observe, e, hp, some_bind]
  cases observe addDouble name hash s' _ calls <;> rfl

/-- Every run goes through. -/
lemma observe_isSome (addDouble : AddDouble) (name : Str)
    (hash : LabelHash) (calls : List (Clock × Upsert)) :
    ∀ (s : Store) (L : List Record) (last : Option DataType), Holds s L →
      ∃ os, observe addDouble name hash s last calls = some os := by
  induction calls with
  | nil => exact fun _ _ _ _ => ⟨[], rfl⟩
  | cons c calls ih =>
    obtain ⟨clock, u⟩ := c
    intro s L last h
    obtain ⟨s', p, L', e, h', hp, -⟩ := upsertSample_step h addDouble clock name hash u
    rw [observe_cons e hp]
    obtain ⟨os, hos⟩ := ih s' L' _ h'
    exact ⟨_, congrArg _ hos⟩

/-- A run that starts with the right tag keeps the law exactly if every call that
adds does so in the stored type. -/
lemma observe_law_iff {addDouble : AddDouble} (hexact : AddsExactly addDouble) {name : Str}
    {hash : LabelHash} {calls : List (Clock × Upsert)} (htypes : ∀ c ∈ calls, c.2.type ≠ .none) :
    ∀ {s : Store} {L : List Record} {last : Option DataType} {os : List Observed}, Holds s L →
      (∀ e, (s.recordOf name hash).map entry = some e → last = some e.type) →
      observe addDouble name hash s last calls = some os →
      ((∀ o ∈ os, o.Tagged ∧ o.Summed) ↔ ∀ o ∈ os, o.Matching) := by
  induction calls with
  | nil =>
    rintro s L last os - - ⟨⟩
    simp
  | cons c calls ih =>
    obtain ⟨clock, u⟩ := c
    intro s L last os h hlast hos
    obtain ⟨s', p, L', e, h', hp, st⟩ := upsertSample_step h addDouble clock name hash u
    have hu : u.type ≠ .none := htypes (clock, u) (by simp)
    have hhead := law_iff_matching hexact st hu hlast
    rw [observe_cons e hp] at hos
    obtain ⟨rest, hrest, rfl⟩ := map_eq_some_iff.mp hos
    rw [forall_mem_cons, forall_mem_cons]
    have htypes' : ∀ c ∈ calls, c.2.type ≠ .none := fun c hc => htypes c (by simp [hc])
    constructor
    · rintro ⟨hl, hls⟩
      exact ⟨hhead.mp hl, (ih htypes' h' hl.1 hrest).mp hls⟩
    · rintro ⟨hm, hms⟩
      have hl := hhead.mpr hm
      exact ⟨hl, (ih htypes' h' hl.1 hrest).mpr hms⟩

/-- The value tag: from the moment a series is created, the tag names the member
written last and every addition adds to the number that is read, exactly if every
call that adds does so in the stored type, and a sum of doubles is a double. -/
theorem value_tag_iff {addDouble : AddDouble} (hexact : AddsExactly addDouble) {s : Store}
    {L : List Record} (h : Holds s L) {name : Str} {hash : LabelHash}
    (hnew : s.recordOf name hash = none) (calls : List (Clock × Upsert))
    (htypes : ∀ c ∈ calls, c.2.type ≠ .none) :
    ∃ os, observe addDouble name hash s none calls = some os ∧
      ((∀ o ∈ os, o.Tagged ∧ o.Summed) ↔ ∀ o ∈ os, o.Matching) := by
  obtain ⟨os, hos⟩ := observe_isSome addDouble name hash calls s L none h
  exact ⟨os, hos, observe_law_iff hexact htypes h (by simp [hnew]) hos⟩

def stillClock : Clock := ⟨0, 0⟩

open Classical in
/-- An addition that takes the sum if there is one. -/
noncomputable def chosenSum : AddDouble := fun x y =>
  if h : ∃ z, IsSum x y z then choose h else 0

lemma addsExactly_chosenSum : AddsExactly chosenSum := fun x y z _ _ hz => by
  have h : ∃ z, IsSum x y z := ⟨z, hz⟩
  rw [chosenSum, dif_pos h]
  exact h.choose_spec

/-- A double of 1.5, then an addition of 0.5. -/
theorem value_tag_added : ∃ os, observe chosenSum [109] .empty (.init 0) none
        [(stillClock, ⟨.double, 0x3ff8000000000000, 0, false, false⟩),
          (stillClock, ⟨.double, 0x3fe0000000000000, 0, true, false⟩)] = some os ∧
      ∀ o ∈ os, o.Tagged ∧ o.Summed := by
  obtain ⟨os, hos, hiff⟩ := value_tag_iff addsExactly_chosenSum (holds_init 0)
    (by decide : (Store.init 0).recordOf [109] .empty = none)
    [(stillClock, ⟨.double, 0x3ff8000000000000, 0, false, false⟩),
      (stillClock, ⟨.double, 0x3fe0000000000000, 0, true, false⟩)] (by decide)
  have hbefore : os.map (fun o => (o.before.map fun e => (e.type, e.value), o.call.type,
      o.call.value)) = [(none, .double, 0x3ff8000000000000),
        (some (.double, 0x3ff8000000000000), .double, 0x3fe0000000000000)] := by
    refine some.inj (.trans (congrArg (Option.map _) hos).symm ?_)
    decide
  refine ⟨os, hos, hiff.2 fun o ho _ _ e he => ?_⟩
  have hmem := mem_map_of_mem (f := fun o : Observed =>
    (o.before.map fun e => (e.type, e.value), o.call.type, o.call.value)) ho
  rw [hbefore, he] at hmem
  simp only [map_some, mem_cons, not_mem_nil, or_false, Prod.mk.injEq, reduceCtorEq, false_and,
    false_or, some.injEq] at hmem
  obtain ⟨⟨ht, hv⟩, hct, hcv⟩ := hmem
  rw [ht, hv, hct, hcv]
  exact ⟨rfl, fun _ => ⟨by decide, 0x4000000000000000, by decide, by decide +kernel⟩⟩

/-- A double of 1.5, then an addition of the integer 1: the tag still says double
after the call that wrote the integer. -/
theorem value_tag_mixed : ∃ os, observe (fun x _ => x) [109] .empty (.init 0) none
        [(stillClock, ⟨.double, 0x3ff8000000000000, 0, false, false⟩),
          (stillClock, ⟨.int, 1, 0, true, false⟩)] = some os ∧ ∃ o ∈ os, ¬ o.Tagged := by
  have hrun : (observe (fun x _ => x) [109] .empty (.init 0) none
      [(stillClock, ⟨.double, 0x3ff8000000000000, 0, false, false⟩),
        (stillClock, ⟨.int, 1, 0, true, false⟩)]).map
          (List.map fun o => (o.after.map Entry.type, o.member)) =
      some [(some .double, some .double), (some .double, some .int)] := by
    decide
  obtain ⟨os, hos, hmap⟩ := map_eq_some_iff.mp hrun
  have hlast : (some DataType.double, some DataType.int) ∈
      os.map fun o => (o.after.map Entry.type, o.member) := by simp [hmap]
  obtain ⟨o, ho, heq⟩ := mem_map.mp hlast
  rw [Prod.mk.injEq, map_eq_some_iff] at heq
  obtain ⟨⟨e, he, htype⟩, hmember⟩ := heq
  refine ⟨os, hos, o, ho, fun htag => ?_⟩
  have := htag e he
  rw [htype, hmember] at this
  cases this

end Alligator
