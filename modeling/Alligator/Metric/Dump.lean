import Alligator.Lib.Json
import Alligator.Metric.Refinement

/-!
# Dump and restore

`metric_dump` writes every series of every namespace as one line of JSON, with its
expire key.  `restore_callback` reads such lines and adds the series that are still
alive, with what is left of their time to live.

A text that is not valid UTF-8 has no place in JSON: a label whose value is not
valid is left out of its line, and a line with a label name that is not valid is
not written at all.  The round trip is the identity on live series exactly if no
live series is of the kind that gets lost (`restore_dump_iff`).
-/

namespace Alligator

open Memory DList RedBlack Json Text List Function Option Prod

variable {α : Type} {k name : Str} {x : Record}

/-! ## Writing -/

def jsonString (s : Str) : Option Scalar := if validUtf8 s then some (.string s) else none

/-- `json_real`, which takes finite numbers only. -/
def jsonReal (d : BitVec 64) : Option Scalar := if notFinite d then none else some (.real d)

/-- `json_object_set_new_nocheck`: a missing value leaves the object as it is. -/
def jsonObjectSet {α : Type} (obj : List (Str × α)) (key : Str) (value : Option α) :
    List (Str × α) :=
  match value with
  | none => obj
  | some v =>
    if key ∈ obj.map Prod.fst then obj.map fun m => if m.1 = key then (key, v) else m
    else obj ++ [(key, v)]

def metricDumpName (labels : Labels) : Option Str :=
  (labels.find? fun cur => cur.key.isSome && cur.name == mainMetricName).bind Label.key

/-- The step of the loop of `metric_dump_labels`. -/
def dumpLabel (obj : List (Str × Scalar)) (cur : Label) : List (Str × Scalar) :=
  match cur.key with
  | none => obj
  | some key =>
    if cur.name = mainMetricName then obj else jsonObjectSet obj cur.name (jsonString key)

def metricDumpLabels (labels : Labels) : List (Str × Scalar) := labels.foldl dumpLabel []

def DataType.code : DataType → BitVec 64
  | .none => 0
  | .double => 1
  | .int => 2
  | .uint => 3

def dumpValue (x : Series) : Option Scalar :=
  match x.type with
  | .int => some (.integer x.value)
  | .uint => some (.integer x.value)
  | .double => jsonReal x.value
  | .none => none

/-- The row of a series in `metric_dump_node`. -/
def dumpRow (nsName name : Str) (x : Record) : Row :=
  let row := jsonObjectSet [] (cstr "namespace") ((jsonString nsName).map .scalar)
  let row := jsonObjectSet row (cstr "name") ((jsonString name).map .scalar)
  let row := jsonObjectSet row (cstr "type") (some (.scalar (.integer x.series.type.code)))
  let row := jsonObjectSet row (cstr "expire") (some (.scalar (.integer (BitVec.ofInt 64 x.key))))
  let row := jsonObjectSet row (cstr "labels") (some (.object (metricDumpLabels x.series.labels)))
  jsonObjectSet row (cstr "value") ((dumpValue x.series).map .scalar)

def dumpLine (codec : Codec) (nsName : Str) (x : Record) : Str :=
  match metricDumpName x.series.labels with
  | none => []
  | some name =>
    match codec.dumps (dumpRow nsName name x) with
    | none => []
    | some line => line ++ [10]

/-- `metric_dump_namespace`: the lines of the series in order. -/
def metricDumpNamespace (codec : Codec) (nsName : Str) (s : Store) : Str :=
  s.contents.flatMap (dumpLine codec nsName)

/-- The namespaces, by their keys.  The default one is always there, and expire keys
are integers of 64 bits. -/
structure Namespaces where
  keys : List Str
  store : Str → Store
  nodup : keys.Nodup
  default : cstr "default" ∈ keys
  holds : ∀ k ∈ keys, ∃ L, Holds (store k) L
  int64 : ∀ k ∈ keys, ∀ x ∈ (store k).contents, (BitVec.ofInt 64 x.key).toInt = x.key

def metricDump (codec : Codec) (ns : Namespaces) : Str :=
  ns.keys.flatMap fun k => metricDumpNamespace codec k (ns.store k)

/-! ## Reading -/

/-- `numbercheck`: nothing but digits. -/
def numbercheck (name : Str) : Bool := name.all isDigit

/-- `get_ttl`, with the time to live of the configuration and the two of the
context. -/
def getTtl (acTtl ttl currTtl : Int) : Int :=
  if -1 < currTtl then
    if currTtl = 0 then if ttl = 0 then neverExpire else ttl
    else currTtl
  else if -1 < ttl then
    if ttl = 0 then if acTtl = 0 then neverExpire else acTtl
    else ttl
  else if acTtl = 0 then neverExpire else acTtl

def metricRestoreLabels (labels : Option Value) : LabelHash :=
  match labels with
  | some (.object members) =>
    members.foldl (fun hash m =>
      match m.2 with
      | .string v => hash.insert m.1 v
      | _ => hash) .empty
  | _ => .empty

def jsonIntegerValue : Value → BitVec 64
  | .scalar (.integer n) => n
  | _ => 0

def jsonNumberValue (ofInteger : BitVec 64 → BitVec 64) : Value → BitVec 64
  | .scalar (.integer n) => ofInteger n
  | .scalar (.real d) => d
  | _ => 0

def dataTypeOf (type : BitVec 64) : DataType :=
  if type.setWidth 8 = 1 then .double
  else if type.setWidth 8 = 2 then .int
  else if type.setWidth 8 = 3 then .uint
  else .none

/-- What a program that restores needs: the sum and the conversion of doubles, the
clock and the time to live of the configuration. -/
structure RestoreEnv where
  addDouble : AddDouble
  ofInteger : BitVec 64 → BitVec 64
  clock : Clock
  acTtl : Int

/-- `metric_add` into a namespace. -/
def metricAdd (env : RestoreEnv) (s : Store) (name : Str) (hash : LabelHash) (type : DataType)
    (value : BitVec 64) (ttl : Int) : Option Store :=
  if numbercheck name then some s
  else (upsertSample env.addDouble env.clock s name hash ⟨type, value, ttl, false, false⟩).map
    Prod.fst

def getNamespaceByCarg (keys : List Str) (key : Str) : Str :=
  if key ∈ keys then key else cstr "default"

def metricRestoreRow (env : RestoreEnv) (keys : List Str) (stores : Str → Store) (row : Row) :
    Option (Str → Store) :=
  match row.lookup (cstr "name"), row.lookup (cstr "type"), row.lookup (cstr "expire") with
  | some (.scalar (.string name)), some (.scalar (.integer type)),
      some (.scalar (.integer expire)) =>
      let remaining := expire.toInt - env.clock.sec
      if remaining ≤ 0 then some stores
      else
        let namespaceKey := match row.lookup (cstr "namespace") with
          | some (.scalar (.string key)) => key
          | _ => cstr "default"
        let key := getNamespaceByCarg keys namespaceKey
        let ttl := getTtl env.acTtl (-1) remaining
        let hash := metricRestoreLabels (row.lookup (cstr "labels"))
        let add (type : DataType) (value : BitVec 64) : Option (Str → Store) :=
          (metricAdd env (stores key) name hash type value ttl).map fun s =>
            update stores key s
        match dataTypeOf type, row.lookup (cstr "value") with
        | .int, some v => add .int (jsonIntegerValue v)
        | .uint, some v => add .uint (jsonIntegerValue v)
        | .double, some v => add .double (jsonNumberValue env.ofInteger v)
        | _, _ => some stores
  | _, _, _ => some stores

/-- One line of `restore_callback`. -/
def restoreLine (codec : Codec) (env : RestoreEnv) (keys : List Str) (stores : Str → Store)
    (line : Str) : Option (Str → Store) :=
  if trim line = [] then some stores
  else
    match codec.loadb (trim line) with
    | none => some stores
    | some row => metricRestoreRow env keys stores row

/-- `restore_callback`.  A file that does not start with a brace is in an older
format and goes to another parser. -/
def restoreCallback (codec : Codec) (env : RestoreEnv)
    (multiparser : (Str → Store) → Str → Option (Str → Store)) (keys : List Str)
    (stores : Str → Store) (buf : Str) : Option (Str → Store) :=
  match buf.dropWhile isSpace with
  | [] => some stores
  | c :: _ =>
    if c ≠ 123 then multiparser stores buf
    else (splitLines buf).foldlM (restoreLine codec env keys) stores

/-! ## What a row says -/

/-- The label pairs that get into a row. -/
def carried (labels : Labels) : List (Str × Str) :=
  (labelPairs labels).filter fun c => c.1 ≠ mainMetricName && validUtf8 c.2

variable {obj : List (Str × α)} {ms : List (Str × Option α)}

section Rows

variable {p : SortPlan} {labels : Labels} {key : Str} {v : Scalar}

lemma jsonObjectSet_new (h : key ∉ obj.map fst) (v : α) :
    jsonObjectSet obj key (some v) = obj ++ [(key, v)] := by
  rw [jsonObjectSet, if_neg h]

/-- The labels of a chain whose names are distinct, after those that are there. -/
lemma foldl_dumpLabel {t : Labels} {obj : List (Str × Scalar)} (nd : (t.map Label.name).Nodup)
    (hnew : ∀ n ∈ t.map Label.name, n ∉ obj.map fst) : t.foldl dumpLabel obj = obj ++
      (((t.filterMap fun l => l.key.map fun k => (l.name, k)).filter fun c =>
        c.1 ≠ mainMetricName && validUtf8 c.2).map fun c => (c.1, Scalar.string c.2)) := by
  induction t generalizing obj with
  | nil =>
    simp
  | cons l t ih =>
    rw [map_cons, nodup_cons] at nd
    have hrest : ∀ n ∈ t.map Label.name, n ∉ obj.map fst := fun n hn =>
      hnew n (mem_cons_of_mem _ hn)
    rw [foldl_cons]
    cases hk : l.key with
    | none =>
      rw [filterMap_cons_none (by rw [hk]; rfl), dumpLabel, hk]
      exact ih nd.2 hrest
    | some k =>
      rw [filterMap_cons_some (by rw [hk]; rfl), filter_cons, dumpLabel, hk]
      by_cases hn : l.name = mainMetricName
      · simp only [hn]
        exact ih nd.2 hrest
      · by_cases hv : validUtf8 k = true
        · have hne : l.name ∉ obj.map fst := hnew _ mem_cons_self
          simp only [hn, if_false, ne_eq, not_false_eq_true, decide_true, hv, Bool.true_and,
            if_true, jsonString, jsonObjectSet_new hne, map_cons]
          rw [ih nd.2, append_assoc, singleton_append]
          intro n hmem
          rw [map_append, mem_append, not_or]
          refine ⟨hrest n hmem, ?_⟩
          simp only [map_cons, map_nil, mem_singleton]
          rintro rfl
          exact nd.1 hmem
        · simp only [hn, ne_eq, hv, jsonString]
          exact ih nd.2 hrest

lemma metricDumpLabels_eq (h : Fits p labels) :
    metricDumpLabels labels = (carried labels).map fun c => (c.1, Scalar.string c.2) := by
  have nd : (labels.tail.map Label.name).Nodup := p.nodup.sublist h.names_prefix.sublist
  obtain ⟨l, t, name, rfl, hl, hk⟩ := h.eq_cons
  rw [metricDumpLabels, foldl_cons, dumpLabel, hk]
  simp only [hl, if_true]
  rw [tail_cons] at nd
  rw [foldl_dumpLabel nd fun _ _ => not_mem_nil]
  rfl

lemma metricDumpName_eq (h : Fits p labels) : metricDumpName labels = keyOf labels := by
  obtain ⟨l, t, name, rfl, hl, hk⟩ := h.eq_cons
  rw [metricDumpName, List.find?_cons_of_pos]
  · rfl
  · simp [hl, hk]

lemma nodup_carried (h : Fits p labels) : ((carried labels).map fst).Nodup :=
  h.nodup_labelPairs.sublist (filter_sublist.map _)

/-- The text of a hash, restored. -/
lemma metricRestoreLabels_eq {l : List (Str × Str)} (nd : (l.map fst).Nodup) :
    metricRestoreLabels (some (.object (l.map fun c => (c.1, Scalar.string c.2)))) = ⟨l, nd⟩ := by
  -- the names are new one by one
  have hfold : ∀ (t : List (Str × Str)) (hash : LabelHash), ((hash.pairs ++ t).map fst).Nodup →
      (List.foldl (fun (hash : LabelHash) (m : Str × Scalar) =>
        match m.2 with
        | .string v => hash.insert m.1 v
        | _ => hash) hash (t.map fun c => (c.1, Scalar.string c.2))).pairs = hash.pairs ++ t := by
    intro t
    induction t with
    | nil =>
      intro hash _
      simp
    | cons c t ih =>
      intro hash nd
      have hnew : c.1 ∉ hash.pairs.map fst := by
        rw [map_append, map_cons, nodup_middle, nodup_cons] at nd
        exact fun h => nd.1 (mem_append_left _ h)
      have hins : (hash.insert c.1 c.2).pairs = hash.pairs ++ [c] := by
        rw [LabelHash.insert, dif_neg hnew]
      show (List.foldl _ (hash.insert c.1 c.2) _).pairs = _
      rw [ih _ (by rw [hins, append_assoc]; exact nd), hins, append_assoc]
      rfl
  have hpairs := hfold l .empty (by simpa [LabelHash.empty] using nd)
  rw [metricRestoreLabels]
  generalize List.foldl _ LabelHash.empty _ = hash at hpairs ⊢
  obtain ⟨pairs, nd'⟩ := hash
  cases hpairs
  rfl

def rowKeys : List Str :=
  [cstr "namespace", cstr "name", cstr "type", cstr "expire", cstr "labels", cstr "value"]

lemma nodup_rowKeys : rowKeys.Nodup := by decide +kernel

lemma valid_rowKeys : ∀ k ∈ rowKeys, validUtf8 k = true := by decide +kernel

lemma jsonObjectSet_option (h : key ∉ obj.map fst)
    (v : Option α) : jsonObjectSet obj key v = obj ++ (v.map fun v => (key, v)).toList := by
  cases v with
  | none => exact (append_nil obj).symm
  | some v => exact jsonObjectSet_new h v

def present {α : Type} (ms : List (Str × Option α)) : List (Str × α) :=
  ms.filterMap fun m => m.2.map fun v => (m.1, v)

lemma map_fst_present (ms : List (Str × Option α)) :
    ((present ms).map fst).Sublist (ms.map fst) := by
  induction ms with
  | nil => exact List.Sublist.slnil
  | cons m ms ih =>
    obtain ⟨k, v⟩ := m
    cases v with
    | none => exact ih.cons _
    | some v => exact ih.cons_cons _

/-- An object is the members that were set in it. -/
lemma foldl_jsonObjectSet (nd : (ms.map fst).Nodup)
    (hnew : ∀ k ∈ ms.map fst, k ∉ obj.map fst) :
    ms.foldl (fun obj m => jsonObjectSet obj m.1 m.2) obj = obj ++ present ms := by
  induction ms generalizing obj with
  | nil => exact (append_nil obj).symm
  | cons m ms ih =>
    obtain ⟨k, v⟩ := m
    rw [map_cons, nodup_cons] at nd
    rw [foldl_cons, jsonObjectSet_option (hnew k mem_cons_self), ih nd.2]
    · cases v with
      | none | some v => simp [present]
    · intro k' hk'
      have hne : k' ≠ k := by
        rintro rfl
        exact nd.1 hk'
      have hold := hnew k' (mem_cons_of_mem _ hk')
      cases v with
      | none => simpa using hold
      | some v => simpa [hne] using hold

lemma lookup_present (nd : (ms.map fst).Nodup) {v : Option α}
    (h : (k, v) ∈ ms) : (present ms).lookup k = v := by
  induction ms with
  | nil => cases h
  | cons m ms ih =>
    obtain ⟨k', v'⟩ := m
    rw [map_cons, nodup_cons] at nd
    rcases mem_cons.mp h with e | hmem
    · cases e
      cases v with
      | some v => simp [present]
      | none =>
        refine lookup_eq_none_iff.mpr fun c hc => ?_
        have hmem := (map_fst_present ms).subset (mem_map_of_mem hc)
        rw [bne_iff_ne]
        rintro rfl
        exact nd.1 hmem
    · have hne : k ≠ k' := by
        rintro rfl
        exact nd.1 (mem_map.mpr ⟨_, hmem, rfl⟩)
      cases v' with
      | none => exact ih nd.2 hmem
      | some v' =>
        rw [show present ((k', some v') :: ms) = (k', v') :: present ms from rfl,
          lookup_cons, beq_false_of_ne hne]
        exact ih nd.2 hmem

def rowMembers (nsName name : Str) (x : Record) : List (Str × Option Value) :=
  [(cstr "namespace", (jsonString nsName).map .scalar),
    (cstr "name", (jsonString name).map .scalar),
    (cstr "type", some (.scalar (.integer x.series.type.code))),
    (cstr "expire", some (.scalar (.integer (BitVec.ofInt 64 x.key)))),
    (cstr "labels", some (.object (metricDumpLabels x.series.labels))),
    (cstr "value", (dumpValue x.series).map .scalar)]

lemma nodup_rowMembers (nsName name : Str) (x : Record) :
    ((rowMembers nsName name x).map fst).Nodup := nodup_rowKeys

lemma dumpRow_eq (nsName name : Str) (x : Record) :
    dumpRow nsName name x = present (rowMembers nsName name x) := by
  have hnew : ∀ k ∈ (rowMembers nsName name x).map fst,
      k ∉ ([] : List (Str × Value)).map fst := by simp
  have h := foldl_jsonObjectSet (nodup_rowMembers nsName name x) hnew
  exact h

structure RowOf (nsName name : Str) (x : Record) (row : Row) : Prop where
  ns : row.lookup (cstr "namespace") = (jsonString nsName).map .scalar
  name : row.lookup (cstr "name") = (jsonString name).map .scalar
  type : row.lookup (cstr "type") = some (.scalar (.integer x.series.type.code))
  expire : row.lookup (cstr "expire") = some (.scalar (.integer (BitVec.ofInt 64 x.key)))
  labels : row.lookup (cstr "labels") = some (.object (metricDumpLabels x.series.labels))
  value : row.lookup (cstr "value") = (dumpValue x.series).map .scalar

lemma rowOf_dumpRow (nsName name : Str) (x : Record) :
    RowOf nsName name x (dumpRow nsName name x) := by
  have nd := nodup_rowMembers nsName name x
  rw [dumpRow_eq]
  constructor
  · exact lookup_present nd (.head _)
  · exact lookup_present nd (.tail _ (.head _))
  · exact lookup_present nd (.tail _ (.tail _ (.head _)))
  · exact lookup_present nd (.tail _ (.tail _ (.tail _ (.head _))))
  · exact lookup_present nd (.tail _ (.tail _ (.tail _ (.tail _ (.head _)))))
  · exact lookup_present nd (.tail _ (.tail _ (.tail _ (.tail _ (.tail _ (.head _))))))

lemma valid_of_jsonString {s : Str} (h : jsonString s = some v) : v.valid = true := by
  rw [jsonString] at h
  split_ifs at h with hv
  cases h
  exact hv

lemma valid_of_dumpValue {x : Series} (h : dumpValue x = some v) : v.valid = true := by
  rw [dumpValue] at h
  cases hx : x.type with
  | double =>
    simp only [hx, jsonReal] at h
    split_ifs at h
    cases h
    rfl
  | int | uint => simp only [hx] at h; cases h; rfl
  | none => simp only [hx] at h; cases h

lemma mem_rowMembers {nsName : Str} {v : Value} (h : (k, some v) ∈ rowMembers nsName name x) :
    v = .object (metricDumpLabels x.series.labels) ∨ ∃ w, v = .scalar w ∧ w.valid = true := by
  simp only [rowMembers, mem_cons, mk.injEq, not_mem_nil, or_false] at h
  rcases h with ⟨-, h⟩ | ⟨-, h⟩ | ⟨-, h⟩ | ⟨-, h⟩ | ⟨-, h⟩ | ⟨-, h⟩
  · obtain ⟨w, hw, rfl⟩ := map_eq_some_iff.mp h.symm
    exact .inr ⟨w, rfl, valid_of_jsonString hw⟩
  · obtain ⟨w, hw, rfl⟩ := map_eq_some_iff.mp h.symm
    exact .inr ⟨w, rfl, valid_of_jsonString hw⟩
  · cases h
    exact .inr ⟨_, rfl, rfl⟩
  · cases h
    exact .inr ⟨_, rfl, rfl⟩
  · cases h
    exact .inl rfl
  · obtain ⟨w, hw, rfl⟩ := map_eq_some_iff.mp h.symm
    exact .inr ⟨w, rfl, valid_of_dumpValue hw⟩

lemma dumpRow_valid (nsName name : Str) (h : Fits p x.series.labels) :
    (dumpRow nsName name x).valid = (carried x.series.labels).all fun c => validUtf8 c.1 := by
  have hobj : (Value.object (metricDumpLabels x.series.labels)).valid =
      (carried x.series.labels).all fun c => validUtf8 c.1 := by
    rw [Value.valid, metricDumpLabels_eq h, List.all_map, Bool.eq_iff_iff, List.all_eq_true,
      List.all_eq_true]
    refine forall₂_congr fun c hc => ?_
    have hv : validUtf8 c.2 = true := by
      have := (mem_filter.mp hc).2
      rw [Bool.and_eq_true] at this
      exact this.2
    simp [Scalar.valid, hv]
  rw [Bool.eq_iff_iff, Row.valid, dumpRow_eq, List.all_eq_true, ← hobj]
  constructor
  · intro hall
    have hmem : (cstr "labels", Value.object (metricDumpLabels x.series.labels)) ∈
        present (rowMembers nsName name x) :=
      mem_filterMap.mpr ⟨(cstr "labels", some _), by simp [rowMembers], rfl⟩
    exact ((Bool.and_eq_true _ _).mp (hall _ hmem)).2
  · rintro hlab ⟨k, v⟩ hm
    obtain ⟨⟨k', v'⟩, hmem, e⟩ := mem_filterMap.mp hm
    have hk : validUtf8 k' = true := valid_rowKeys k' (mem_map_of_mem (f := fst) hmem)
    obtain ⟨v'', rfl, e'⟩ := map_eq_some_iff.mp e
    cases e'
    rw [Bool.and_eq_true]
    refine ⟨hk, ?_⟩
    obtain rfl | ⟨w, rfl, hw⟩ := mem_rowMembers hmem
    · exact hlab
    · exact hw

lemma dumpRow_distinct (nsName name : Str) (h : Fits p x.series.labels) :
    (dumpRow nsName name x).distinct := by
  rw [dumpRow_eq]
  refine ⟨(nodup_rowMembers nsName name x).sublist (map_fst_present _), ?_⟩
  rintro ⟨k, v⟩ hm
  obtain ⟨⟨k', v'⟩, hmem, e⟩ := mem_filterMap.mp hm
  obtain ⟨v'', rfl, e'⟩ := map_eq_some_iff.mp e
  cases e'
  obtain rfl | ⟨w, rfl, -⟩ := mem_rowMembers hmem
  · show ((metricDumpLabels x.series.labels).map fst).Nodup
    rw [metricDumpLabels_eq h, List.map_map]
    exact nodup_carried h
  · trivial

end Rows

/-! ## What restoring a row does -/

section Restore

variable {p : SortPlan} {env : RestoreEnv} {keys : List Str} {stores : Str → Store}

/-- The namespace that the series of a row go into. -/
def targetKey (keys : List Str) (nsName : Str) : Str :=
  if validUtf8 nsName ∧ nsName ∈ keys then nsName else cstr "default"

/-- The row of a series adds something when it is restored. -/
def restorable (now : Int) (name : Str) (x : Record) : Bool :=
  validUtf8 name && decide (now < x.key) && (dumpValue x.series).isSome && !numbercheck name

def restoreUpsert (now : Int) (x : Record) : Upsert :=
  ⟨x.series.type, x.series.value, x.key - now, false, false⟩

def carriedHash (labels : Labels) (h : Fits p labels) : LabelHash :=
  ⟨carried labels, nodup_carried h⟩

lemma metricRestoreRow_dumpRow {nsName : Str} (h : Fits p x.series.labels)
    (hkey : (BitVec.ofInt 64 x.key).toInt = x.key) :
    metricRestoreRow env keys stores (dumpRow nsName name x) =
      if restorable env.clock.sec name x then
        (upsertSample env.addDouble env.clock (stores (targetKey keys nsName)) name
          (carriedHash x.series.labels h) (restoreUpsert env.clock.sec x)).map fun r =>
            update stores (targetKey keys nsName) r.1 else some stores := by
  have R := rowOf_dumpRow nsName name x
  have hhash : metricRestoreLabels (some (.object (metricDumpLabels x.series.labels))) =
      carriedHash x.series.labels h := by
    rw [metricDumpLabels_eq h]
    exact metricRestoreLabels_eq (nodup_carried h)
  have htarget : getNamespaceByCarg keys
      (match (jsonString nsName).map Value.scalar with
        | some (.scalar (.string key)) => key
        | _ => cstr "default") = targetKey keys nsName := by
    rw [targetKey, jsonString, getNamespaceByCarg]
    by_cases hv : validUtf8 nsName = true <;> simp [hv]
  by_cases hn : validUtf8 name = true
  · have hname : (jsonString name).map Value.scalar = some (.scalar (.string name)) := by
      rw [jsonString, if_pos hn]
      rfl
    rw [metricRestoreRow]
    simp only [R.ns, R.name, R.type, R.expire, R.labels, R.value, hname, hkey, hhash]
    by_cases hlive : x.key - env.clock.sec ≤ 0
    · have hdead : ¬env.clock.sec < x.key := by omega
      rw [if_pos hlive, if_neg (by simp [restorable, hdead])]
    · have hnow : env.clock.sec < x.key := by omega
      have httl : getTtl env.acTtl (-1) (x.key - env.clock.sec) = x.key - env.clock.sec := by
        rw [getTtl, if_pos (by omega), if_neg (by omega)]
      rw [if_neg hlive, htarget, httl, restorable, hn, decide_eq_true hnow]
      have hadd : ∀ type value, dumpValue x.series ≠ none →
          x.series.type = type → x.series.value = value →
          ((metricAdd env (stores (targetKey keys nsName)) name (carriedHash x.series.labels h) type
            value (x.key - env.clock.sec)).map fun s =>
              update stores (targetKey keys nsName) s) =
          if (true && true && (dumpValue x.series).isSome && !numbercheck name) = true then
            (upsertSample env.addDouble env.clock (stores (targetKey keys nsName)) name
              (carriedHash x.series.labels h) (restoreUpsert env.clock.sec x)).map fun r =>
                update stores (targetKey keys nsName) r.1
          else some stores := by
        intro type value hv ht hval
        rw [isSome_iff_ne_none.mpr hv, metricAdd, restoreUpsert, ht, hval]
        cases numbercheck name with
        | true => simp
        | false => simp [comp_def]
      cases htype : x.series.type with
      | none =>
        have hv : dumpValue x.series = none := by rw [dumpValue, htype]
        rw [hv]
        rfl
      | int | uint =>
        have hv : dumpValue x.series = some (.integer x.series.value) := by rw [dumpValue, htype]
        rw [← hadd _ x.series.value (by rw [hv]; simp) htype rfl, hv]
        rfl
      | double =>
        cases hfin : notFinite x.series.value with
        | true =>
          have hv : dumpValue x.series = none := by rw [dumpValue, htype]; simp [jsonReal, hfin]
          rw [hv]
          rfl
        | false =>
          have hv : dumpValue x.series = some (.real x.series.value) := by
            rw [dumpValue, htype]
            simp [jsonReal, hfin]
          rw [← hadd .double x.series.value (by rw [hv]; simp) htype rfl, hv]
          rfl
  · have hname : (jsonString name).map Value.scalar = none := by
      rw [jsonString, if_neg hn]
      rfl
    rw [metricRestoreRow]
    simp only [R.name, hname]
    rw [if_neg (by simp [restorable, hn])]

/-- The line of a series without its line feed, if it has one. -/
def lineOf (codec : Codec) (e : Str × Record) : Option Str :=
  (metricDumpName e.2.series.labels).bind fun name => codec.dumps (dumpRow e.1 name e.2)

def restoreStep (codec : Codec) (env : RestoreEnv) (keys : List Str) (stores : Str → Store)
    (e : Str × Record) : Option (Str → Store) :=
  match lineOf codec e with
  | none => some stores
  | some line => restoreLine codec env keys stores line

/-- All series, with the keys of their namespaces, in the order of the dump. -/
def Namespaces.series (ns : Namespaces) : List (Str × Record) :=
  ns.keys.flatMap fun k => (ns.store k).contents.map fun x => (k, x)

lemma Namespaces.mem_series {ns : Namespaces} :
    (k, x) ∈ ns.series ↔ k ∈ ns.keys ∧ x ∈ (ns.store k).contents := by
  simp only [Namespaces.series, List.mem_flatMap, List.mem_map, Prod.mk.injEq]
  constructor
  · rintro ⟨k', hk, x', hx, rfl, rfl⟩
    exact ⟨hk, hx⟩
  · rintro ⟨hk, hx⟩
    exact ⟨k, hk, x, hx, rfl, rfl⟩

lemma Namespaces.fits {ns : Namespaces} (h : (k, x) ∈ ns.series) :
    Fits (ns.store k).plan x.series.labels := by
  obtain ⟨hk, hx⟩ := Namespaces.mem_series.mp h
  obtain ⟨L, hL⟩ := ns.holds k hk
  rw [hL.contents_eq] at hx
  obtain ⟨T, lists, S, -⟩ := hL
  exact S.fits x hx

lemma dumpLine_eq (codec : Codec) (k : Str) (x : Record) :
    dumpLine codec k x = unlines (lineOf codec (k, x)).toList := by
  rw [dumpLine, lineOf]
  cases metricDumpName x.series.labels with
  | none => rfl
  | some name =>
    simp only [bind_some]
    cases codec.dumps (dumpRow k name x) <;> simp [unlines]

lemma metricDump_eq (codec : Codec) (ns : Namespaces) :
    metricDump codec ns = unlines (ns.series.filterMap (lineOf codec)) := by
  have hlines : ∀ X : List (Str × Record), unlines (X.filterMap (lineOf codec)) =
      X.flatMap fun e => dumpLine codec e.1 e.2 := by
    intro X
    induction X with
    | nil => rfl
    | cons e X ih =>
      rw [flatMap_cons, ← ih, dumpLine_eq]
      cases h : lineOf codec e with
      | none =>
        rw [filterMap_cons_none h]
        rfl
      | some line =>
        rw [filterMap_cons_some h]
        simp [unlines]
  rw [hlines, Namespaces.series, flatMap_assoc]
  refine flatMap_congr fun k _ => ?_
  rw [metricDumpNamespace, flatMap_map]

structure Printed (codec : Codec) (line : Str) (row : Row) : Prop where
  loadb : codec.loadb line = some row
  no_lf : 10 ∉ line
  head : line.head? = some 123
  last : line.getLast? = some 125

variable {codec : Codec} {row : Row} {line : Str}

lemma Printed.trim_eq (h : Printed codec line row) : trim line = line := by
  refine Text.trim_eq (fun c hc => ?_) fun c hc => ?_
  · rw [h.head] at hc
    cases hc
    rfl
  · rw [h.last] at hc
    cases hc
    rfl

lemma Printed.restoreLine_eq (h : Printed codec line row) :
    restoreLine codec env keys stores line = metricRestoreRow env keys stores row := by
  have hne : line ≠ [] := by
    rintro rfl
    cases h.head
  simp only [restoreLine, h.trim_eq, if_neg hne, h.loadb]

variable (codec : Codec)

/-- A row has a line exactly if its texts are valid. -/
lemma lineOf_eq (h : Fits p x.series.labels) (hname : keyOf x.series.labels = some name) :
    if (carried x.series.labels).all (fun c => validUtf8 c.1) then
      ∃ line, lineOf codec (k, x) = some line ∧ Printed codec line (dumpRow k name x)
    else lineOf codec (k, x) = none := by
  have hdumps : lineOf codec (k, x) = codec.dumps (dumpRow k name x) := by
    rw [lineOf, metricDumpName_eq h, hname, bind_some]
  rw [hdumps, ← dumpRow_valid k name h]
  split_ifs with hv
  · obtain ⟨line, e, hload, hlf, hhead, hlast⟩ := codec.loadb_dumps _ (dumpRow_distinct k name h) hv
    exact ⟨line, e, hload, hlf, hhead, hlast⟩
  · exact codec.dumps_invalid _ (Bool.not_eq_true _ ▸ hv)

/-- What restoring the line of a series does. -/
lemma restoreStep_eq (h : Fits p x.series.labels)
    (hname : keyOf x.series.labels = some name) (hkey : (BitVec.ofInt 64 x.key).toInt = x.key) :
    restoreStep codec env keys stores (k, x) =
      if (carried x.series.labels).all (fun c => validUtf8 c.1) &&
          restorable env.clock.sec name x then
        (upsertSample env.addDouble env.clock (stores (targetKey keys k)) name
          (carriedHash x.series.labels h) (restoreUpsert env.clock.sec x)).map fun r =>
            update stores (targetKey keys k) r.1 else some stores := by
  have hline := lineOf_eq codec (k := k) h hname
  cases hv : (carried x.series.labels).all (fun c => validUtf8 c.1) with
  | true =>
    rw [hv] at hline
    obtain ⟨line, e, hp⟩ := hline
    rw [restoreStep, e]
    show restoreLine codec env keys stores line = _
    rw [hp.restoreLine_eq, metricRestoreRow_dumpRow h hkey, Bool.true_and]
  | false =>
    rw [hv] at hline
    rw [restoreStep, hline]
    rfl

lemma foldlM_filterMap (X : List (Str × Record)) (stores : Str → Store) :
    (X.filterMap (lineOf codec)).foldlM (restoreLine codec env keys) stores =
      X.foldlM (restoreStep codec env keys) stores := by
  induction X generalizing stores with
  | nil =>
    rfl
  | cons e X ih =>
    rw [foldlM_cons, restoreStep]
    cases h : lineOf codec e with
    | none =>
      rw [filterMap_cons_none h]
      simpa using ih stores
    | some line =>
      rw [filterMap_cons_some h, foldlM_cons]
      simp only [ih]

lemma restoreCallback_metricDump
    (multiparser : (Str → Store) → Str → Option (Str → Store)) (ns : Namespaces) :
    restoreCallback codec env multiparser keys stores (metricDump codec ns) =
      ns.series.foldlM (restoreStep codec env keys) stores := by
  have hprinted : ∀ line ∈ ns.series.filterMap (lineOf codec), ∃ row, Printed codec line row := by
    intro line hline
    obtain ⟨⟨k, x⟩, hmem, e⟩ := mem_filterMap.mp hline
    have hf := Namespaces.fits hmem
    obtain ⟨name, hname⟩ := hf.2
    have hcases := lineOf_eq codec (k := k) hf hname
    split_ifs at hcases
    · obtain ⟨line', e', hp⟩ := hcases
      rw [e] at e'
      cases e'
      exact ⟨_, hp⟩
    · rw [e] at hcases
      cases hcases
  rw [metricDump_eq, ← foldlM_filterMap]
  generalize ns.series.filterMap (lineOf codec) = ls at hprinted
  cases ls with
  | nil => rfl
  | cons line ls =>
    obtain ⟨row, hp⟩ := hprinted line mem_cons_self
    obtain ⟨t, ht⟩ : ∃ t, line = 123 :: t := by
      cases line with
      | nil => cases hp.head
      | cons c t =>
        cases hp.head
        exact ⟨t, rfl⟩
    have hdrop : (unlines (line :: ls)).dropWhile isSpace = unlines (line :: ls) := by
      rw [ht]
      rfl
    have hsplit : splitLines (unlines (line :: ls)) = (line :: ls) ++ [[]] :=
      splitLines_unlines fun l hl => by
        obtain ⟨row, h⟩ := hprinted l hl
        exact h.no_lf
    have hcons : ∃ r, unlines (line :: ls) = 123 :: r := by
      rw [ht]
      exact ⟨_, rfl⟩
    obtain ⟨r, hr⟩ := hcons
    rw [restoreCallback, hdrop, hsplit, hr]
    -- the empty rest after the last line feed changes nothing
    have hlast : ∀ σ : Str → Store, [[]].foldlM (restoreLine codec env keys) σ = some σ :=
      fun _ => rfl
    simp [hlast]

end Restore

/-! ## What is restored can be carried -/

def Record.sample (x : Record) : SeriesKey × Entry := (x.seriesKey, x.entry)

/-- A dump can carry the series: its texts are valid UTF-8, its name is not a number,
no label has the name of the metric name, and its value is a number. -/
structure Carriable (m : SeriesKey × Entry) : Prop where
  name : validUtf8 m.1.1 = true
  notNumber : numbercheck m.1.1 = false
  labels : ∀ c ∈ m.1.2, validUtf8 c.1 = true ∧ validUtf8 c.2 = true ∧ c.1 ≠ mainMetricName
  value : m.2.type = .int ∨ m.2.type = .uint ∨ m.2.type = .double ∧ notFinite m.2.value = false

variable {labels : Labels}

lemma mem_carried {c : Str × Str} :
    c ∈ carried labels ↔ c ∈ labelPairs labels ∧ c.1 ≠ mainMetricName ∧ validUtf8 c.2 = true := by
  rw [carried]
  simp

lemma seriesKey_name (h : keyOf labels = some name) : (seriesKey labels).1 = name := by
  rw [seriesKey, h]
  rfl

lemma isSome_dumpValue {x : Series} : (dumpValue x).isSome = true ↔
    (x.type = .int ∨ x.type = .uint ∨ x.type = .double ∧ notFinite x.value = false) := by
  rw [dumpValue]
  cases x.type with
  | none | int | uint => simp
  | double => cases h : notFinite x.value <;> simp [jsonReal, h]

section Clean

variable {p : SortPlan} {env : RestoreEnv} {keys : List Str} {stores : Str → Store}

lemma validUtf8_targetKey (keys : List Str) (k : Str) : validUtf8 (targetKey keys k) = true := by
  rw [targetKey]
  split_ifs with h
  · exact h.1
  · decide +kernel

/-- Every record is one that a dump can carry, and so is the key of its namespace. -/
def Clean (stores : Str → Store) : Prop :=
  ∀ k, ∃ L, Holds (stores k) L ∧ ∀ y ∈ L, Carriable y.sample ∧ validUtf8 k = true

lemma Clean.update (h : Clean stores) {s : Store} {L : List Record} (hs : Holds s L)
    (hL : ∀ y ∈ L, Carriable y.sample ∧ validUtf8 k = true) : Clean (update stores k s) := by
  intro k'
  by_cases e : k' = k
  · subst e
    exact ⟨L, by rwa [update_self], hL⟩
  · rw [update_of_ne e]
    exact h k'

lemma restoreUpsert_value (now : Int) (h : (dumpValue x.series).isSome = true) (e : Entry)
    (addDouble : AddDouble) (clock : Clock) :
    ((restoreUpsert now x).write addDouble clock e).type = x.series.type ∧
      ((restoreUpsert now x).write addDouble clock e).value = x.series.value := by
  refine ⟨rfl, ?_⟩
  rw [isSome_dumpValue] at h
  rcases h with h | h | ⟨h, hf⟩ <;> simp [restoreUpsert, Upsert.write, h]
  intro hn
  rw [hf] at hn
  cases hn

lemma initialValue_dumped {x : Series} (h : (dumpValue x).isSome = true) :
    initialValue x.type x.value = x.value := by
  rw [isSome_dumpValue] at h
  rcases h with h | h | ⟨h, hf⟩ <;> simp [initialValue, h]
  intro hn
  rw [hf] at hn
  cases hn

/-- Restoring a line leaves what is there clean. -/
lemma Clean.step (hc : Clean stores) (codec : Codec) (env : RestoreEnv) (keys : List Str)
    (k : Str) (h : Fits p x.series.labels) (hkey : (BitVec.ofInt 64 x.key).toInt = x.key) :
    ∃ stores', restoreStep codec env keys stores (k, x) = some stores' ∧ Clean stores' := by
  obtain ⟨name, hname⟩ := h.2
  rw [restoreStep_eq codec h hname hkey]
  split_ifs with hcond
  · rw [restorable] at hcond
    simp only [Bool.and_eq_true, Bool.not_eq_true', List.all_eq_true] at hcond
    obtain ⟨hnames, ⟨⟨hvalid, -⟩, hsome⟩, hnum⟩ := hcond
    obtain ⟨L, hL, hclean⟩ := hc (targetKey keys k)
    obtain ⟨s', q, L', y, e, h', up, -⟩ := upsertSample_spec hL env.addDouble env.clock name
      (carriedHash x.series.labels h) (restoreUpsert env.clock.sec x)
    refine ⟨_, by rw [e]; rfl, hc.update h' ?_⟩
    have hvalue := isSome_dumpValue.mp hsome
    cases up with
    | @written L1 L2 z found =>
      rw [List.forall_mem_append, List.forall_mem_cons] at hclean ⊢
      obtain ⟨hl, ⟨hz, hk⟩, hr⟩ := hclean
      refine ⟨hl, ⟨?_, hk⟩, hr⟩
      obtain ⟨ht, hv⟩ := restoreUpsert_value env.clock.sec hsome z.entry env.addDouble env.clock
      have hser : (writtenRecord env.clock (restoreUpsert env.clock.sec x).ttl
          ((restoreUpsert env.clock.sec x).sample env.addDouble) z).seriesKey = z.seriesKey := by
        rw [Record.seriesKey, writtenRecord, Upsert.sample_labels]
        rfl
      rw [Record.sample, hser]
      refine ⟨hz.name, hz.notNumber, hz.labels, ?_⟩
      rw [Upsert.entry_written]
      simp only [ht, hv]
      exact hvalue
    | dropped => exact hclean
    | @inserted l r missing hfull _ _ =>
      rw [List.forall_mem_append] at hclean
      refine List.forall_mem_append.2 ⟨hclean.1, List.forall_mem_cons.2 ⟨⟨?_,
        validUtf8_targetKey keys k⟩, hclean.2⟩⟩
      have hk : (newRecord env.clock (chainOf (stores (targetKey keys k)) name
          (carriedHash x.series.labels h)) (restoreUpsert env.clock.sec x).type
          (restoreUpsert env.clock.sec x).value
          (restoreUpsert env.clock.sec x).ttl).seriesKey.1 = name :=
        seriesKey_name (by rw [newRecord, chainOf, labelsInitiate_chain]; rfl)
      refine ⟨?_, ?_, ?_, ?_⟩
      · rw [Record.sample, hk]
        exact hvalid
      · rw [Record.sample, hk]
        exact hnum
      · rintro ⟨n, v⟩ hc
        have hmem := List.mem_toFinset.mp hc
        have hpair := (mem_labelPairs_labelsInitiate.mp hmem).1
        obtain ⟨-, hne, hv⟩ := mem_carried.mp hpair
        exact ⟨hnames _ hpair, hv, hne⟩
      · simp only [newRecord, makeNode, restoreUpsert, initialValue_dumped hsome]
        exact hvalue
  · exact ⟨stores, rfl, hc⟩

lemma Clean.foldlM (codec : Codec) (env : RestoreEnv) (keys : List Str) (ns : Namespaces) :
    ∀ {X : List (Str × Record)}, (∀ e ∈ X, e ∈ ns.series) → ∀ {stores : Str → Store}, Clean stores →
      ∃ stores', X.foldlM (restoreStep codec env keys) stores = some stores' ∧ Clean stores' := by
  intro X
  induction X with
  | nil =>
    intro _ stores hc
    exact ⟨stores, rfl, hc⟩
  | cons e X ih =>
    intro hX stores hc
    obtain ⟨k, x⟩ := e
    have hmem := hX _ mem_cons_self
    obtain ⟨hk, hx⟩ := Namespaces.mem_series.mp hmem
    obtain ⟨stores1, e1, hc1⟩ := hc.step codec env keys k
      (Namespaces.fits hmem) (ns.int64 k hk x hx)
    obtain ⟨stores', e', hc'⟩ := ih (forall_mem_cons.1 hX).2 hc1
    exact ⟨stores', by rw [foldlM_cons, e1]; exact e', hc'⟩

lemma clean_init : Clean fun _ => .init 0 := fun _ => ⟨[], holds_init 0, fun _ h => by cases h⟩

end Clean

/-! ## What can be carried is restored -/

section Restored

variable {ns : Namespaces} {env : RestoreEnv} {X : List (Str × Record)} {stores : Str → Store}

/-- The live series of a namespace among some. -/
def liveOf (now : Int) (X : List (Str × Record)) (k : Str) : List Record :=
  (X.filter fun e => decide (e.1 = k ∧ now < e.2.key)).map Prod.snd

variable {now : Int}

lemma mem_liveOf : x ∈ liveOf now X k ↔ (k, x) ∈ X ∧ now < x.key := by
  simp only [liveOf, List.mem_map, List.mem_filter, decide_eq_true_eq]
  constructor
  · rintro ⟨⟨k', x'⟩, ⟨hmem, rfl, hlive⟩, rfl⟩
    exact ⟨hmem, hlive⟩
  · rintro ⟨hmem, hlive⟩
    exact ⟨(k, x), ⟨hmem, rfl, hlive⟩, rfl⟩

lemma liveOf_append (now : Int) (X : List (Str × Record)) (e : Str × Record) (k : Str) :
    liveOf now (X ++ [e]) k = liveOf now X k ++ if e.1 = k ∧ now < e.2.key then [e.2] else [] := by
  by_cases h : e.1 = k ∧ now < e.2.key <;> simp [liveOf, h]

/-- The namespaces hold what is live of the series restored so far. -/
def Restored (ns : Namespaces) (now : Int) (X : List (Str × Record)) (stores : Str → Store) : Prop :=
  ∀ k ∈ ns.keys, ∃ L, Holds (stores k) L ∧ (stores k).maxSeries = 0 ∧
    (stores k).plan.labels ⊆ (ns.store k).plan.labels ∧
    (L.map Record.sample).Perm ((liveOf now X k).map Record.sample)

lemma restored_init (ns : Namespaces) (now : Int) : Restored ns now [] fun _ => .init 0 :=
  fun _ _ => ⟨[], holds_init 0, rfl, nil_subset _, List.Perm.refl _⟩

lemma Restored.dead (hr : Restored ns env.clock.sec X stores) (h : ¬env.clock.sec < x.key) :
    Restored ns env.clock.sec (X ++ [(k, x)]) stores := by
  intro k' hk'
  obtain ⟨L, hL, hmax, hplan, hperm⟩ := hr k' hk'
  refine ⟨L, hL, hmax, hplan, ?_⟩
  rwa [liveOf_append, if_neg fun hc => h hc.2, append_nil]

section

variable (h : Carriable x.sample)
include h

lemma Carriable.carried_eq : carried x.series.labels = labelPairs x.series.labels := by
  rw [carried, filter_eq_self]
  intro c hc
  obtain ⟨-, hv, hn⟩ := h.labels c (mem_toFinset.mpr hc)
  simp [hv, hn]

/-- The line of a live series that can be carried is read. -/
lemma Carriable.restorable (hname : keyOf x.series.labels = some name) (hlive : now < x.key) :
    ((carried x.series.labels).all (fun c => validUtf8 c.1) && restorable now name x) = true := by
  have hn : x.sample.1.1 = name := seriesKey_name hname
  have hvalid := h.name
  have hnum := h.notNumber
  rw [hn] at hvalid hnum
  have hsome : (dumpValue x.series).isSome = true := isSome_dumpValue.mpr h.value
  rw [Alligator.restorable, hvalid, hsome, hnum, decide_eq_true hlive, h.carried_eq,
    Bool.and_eq_true, List.all_eq_true]
  exact ⟨fun c hc => (h.labels c (List.mem_toFinset.mpr hc)).1, rfl⟩

lemma sample_newRecord {p : SortPlan} (clock : Clock)
    (hf : Fits p x.series.labels) (hname : keyOf x.series.labels = some name)
    (hkey : seriesKey labels = (name, (carriedHash x.series.labels hf).pairs.toFinset)) :
    (newRecord clock labels (restoreUpsert clock.sec x).type (restoreUpsert clock.sec x).value
      (restoreUpsert clock.sec x).ttl).sample = x.sample := by
  have hser : seriesKey labels = x.seriesKey := by
    have hpairs : (carriedHash x.series.labels hf).pairs = labelPairs x.series.labels :=
      h.carried_eq
    rw [hkey, hpairs, Record.seriesKey, seriesKey, hname]
    rfl
  have hvalue := initialValue_dumped (isSome_dumpValue.mpr h.value)
  refine Prod.ext hser ?_
  show Entry.mk x.series.type (initialValue x.series.type x.series.value)
    (clock.sec + (x.key - clock.sec)) = x.entry
  rw [hvalue, Record.entry, show clock.sec + (x.key - clock.sec) = x.key by omega]

end

lemma Restored.live (hr : Restored ns env.clock.sec X stores) (codec : Codec)
    (hmem : (k, x) ∈ ns.series) (hnew : ∀ e ∈ X, e.1 = k → e.2.seriesKey ≠ x.seriesKey)
    (hlive : env.clock.sec < x.key) (hvalid : validUtf8 k = true) (hx : Carriable x.sample) :
    ∃ stores', restoreStep codec env ns.keys stores (k, x) = some stores' ∧
      Restored ns env.clock.sec (X ++ [(k, x)]) stores' := by
  obtain ⟨hk, hx'⟩ := Namespaces.mem_series.mp hmem
  have hf := Namespaces.fits hmem
  obtain ⟨name, hname⟩ := hf.2
  obtain ⟨L, hL, hmax, hplan, hperm⟩ := hr k hk
  have hhash : ∀ c ∈ (carriedHash x.series.labels hf).pairs, c.1 ∈ (ns.store k).plan.labels := by
    intro c hc
    have hc' := (mem_carried.mp hc).1
    exact hf.names_prefix.subset ((map_fst_labelPairs _).subset (mem_map_of_mem hc'))
  have hkey : seriesKey (chainOf (stores k) name (carriedHash x.series.labels hf)) = _ :=
    seriesKey_labelsInitiate_of_subset hplan hhash
  have hnewSample := sample_newRecord hx env.clock hf hname hkey
  obtain ⟨s', q, L', y, e, h', up, -, -, hplan', hmax'⟩ := upsertSample_spec hL env.addDouble
    env.clock name (carriedHash x.series.labels hf) (restoreUpsert env.clock.sec x)
  have htarget : targetKey ns.keys k = k := if_pos ⟨hvalid, hk⟩
  refine ⟨update stores k s', ?_, ?_⟩
  · rw [restoreStep_eq codec hf hname (ns.int64 k hk x hx'), if_pos (hx.restorable hname hlive),
      htarget, e]
    rfl
  intro k' hk'
  by_cases hkk : k' = k
  · subst hkk
    rw [update_self, liveOf_append, if_pos ⟨rfl, hlive⟩]
    refine ⟨L', h', hmax'.trans hmax, ?_, ?_⟩
    · rw [hplan']
      exact labelsInitiate_subset hplan hhash
    cases up with
    | @written L1 L2 z found =>
      -- the series was restored before
      exfalso
      have hz := (hL.sortKey_iff (x := z) (by simp)).mp found
      have hzx : z.seriesKey = x.seriesKey := by
        rw [hz]
        exact congrArg fst hnewSample
      have hzmem := hperm.subset (mem_map_of_mem (f := Record.sample) (a := z) (by simp))
      obtain ⟨w, hw, hwz⟩ := mem_map.mp hzmem
      have hwx : w.seriesKey = x.seriesKey := (congrArg fst hwz).trans hzx
      exact hnew _ (mem_liveOf.mp hw).1 rfl hwx
    | dropped _ hfull =>
      rw [capped, hmax] at hfull
      simp at hfull
    | @inserted l r =>
      rw [map_append, map_cons, hnewSample, map_append, map_cons]
      refine perm_middle.trans ?_
      rw [← map_append]
      exact (hperm.cons _).trans (perm_append_singleton _ _).symm
  · rw [update_of_ne hkk, liveOf_append, if_neg fun hc => hkk hc.1.symm, append_nil]
    exact hr k' hk'

lemma Namespaces.pairwise_series (ns : Namespaces) :
    ns.series.Pairwise fun e e' => e'.1 = e.1 → e'.2.seriesKey ≠ e.2.seriesKey := by
  rw [Namespaces.series, pairwise_flatMap]
  constructor
  · intro k hk
    obtain ⟨L, hL⟩ := ns.holds k hk
    have hnodup := hL.nodup_seriesKey
    rw [hL.contents_eq, pairwise_map]
    exact (pairwise_map.mp hnodup).imp fun hne _ e => hne e.symm
  · refine ns.nodup.imp fun {k k'} hne => ?_
    intro e he e' he' hee
    obtain ⟨x, -, rfl⟩ := mem_map.mp he
    obtain ⟨x', -, rfl⟩ := mem_map.mp he'
    exact absurd hee.symm hne

lemma Restored.foldlM (codec : Codec)
    (hcar : ∀ k ∈ ns.keys, ∀ x ∈ (ns.store k).contents, env.clock.sec < x.key →
      validUtf8 k = true ∧ Carriable x.sample) {X2 X1 : List (Str × Record)}
    (hX : X1 ++ X2 = ns.series) (hr : Restored ns env.clock.sec X1 stores) :
    ∃ stores', X2.foldlM (restoreStep codec env ns.keys) stores = some stores' ∧
        Restored ns env.clock.sec ns.series stores' := by
  induction X2 generalizing X1 stores with
  | nil =>
    rw [append_nil] at hX
    exact ⟨stores, rfl, hX ▸ hr⟩
  | cons e X2 ih =>
    obtain ⟨k, x⟩ := e
    have hmem : (k, x) ∈ ns.series := by
      rw [← hX]
      simp
    obtain ⟨hk, hx⟩ := Namespaces.mem_series.mp hmem
    have hstep : ∃ stores', restoreStep codec env ns.keys stores (k, x) = some stores' ∧
        Restored ns env.clock.sec (X1 ++ [(k, x)]) stores' := by
      by_cases hlive : env.clock.sec < x.key
      · obtain ⟨hvalid, hcarry⟩ := hcar k hk x hx hlive
        have hnew := ns.pairwise_series
        rw [← hX, pairwise_append] at hnew
        refine hr.live codec hmem (fun e he hek heq => ?_) hlive hvalid hcarry
        exact hnew.2.2 e he _ mem_cons_self hek.symm heq.symm
      · have hf := Namespaces.fits hmem
        obtain ⟨name, hname⟩ := hf.2
        refine ⟨stores, ?_, hr.dead hlive⟩
        rw [restoreStep_eq codec hf hname (ns.int64 k hk x hx)]
        simp [restorable, hlive]
    obtain ⟨stores1, e1, hr1⟩ := hstep
    obtain ⟨stores', e', hr'⟩ := ih (by rw [← hX, append_assoc]; rfl) hr1
    exact ⟨stores', by rw [foldlM_cons, e1]; exact e', hr'⟩

lemma liveOf_series (hk : k ∈ ns.keys) :
    liveOf now ns.series k = (ns.store k).contents.filter fun x => decide (now < x.key) := by
  obtain ⟨K1, K2, hK⟩ := append_of_mem hk
  have hnd := ns.nodup
  rw [hK, nodup_middle, nodup_cons, mem_append, not_or] at hnd
  have hother : ∀ K : List Str, k ∉ K →
      liveOf now (K.flatMap fun k => (ns.store k).contents.map fun x => (k, x)) k = [] := by
    intro K hkK
    rw [List.eq_nil_iff_forall_not_mem]
    intro x hx
    have hmem := (mem_liveOf.mp hx).1
    simp only [List.mem_flatMap, List.mem_map] at hmem
    obtain ⟨k', hk', y, -, rfl, -⟩ := hmem
    exact hkK hk'
  have hself : liveOf now ((ns.store k).contents.map fun x => (k, x)) k =
      (ns.store k).contents.filter fun x => decide (now < x.key) := by
    rw [liveOf, List.filter_map]
    simp [comp_def]
  have happend : ∀ A B : List (Str × Record),
      liveOf now (A ++ B) k = liveOf now A k ++ liveOf now B k := by
    intro A B
    rw [liveOf, filter_append, map_append, liveOf, liveOf]
  rw [Namespaces.series, hK, flatMap_append, flatMap_cons, happend, happend,
    hother K1 hnd.1.1, hother K2 hnd.1.2, hself, append_nil, nil_append]

end Restored

/-- Restoring a dump into empty trees restores exactly the live series if and only if
all of them can be carried. -/
theorem restore_dump_iff (codec : Codec) (env : RestoreEnv)
    (multiparser : (Str → Store) → Str → Option (Str → Store)) (ns : Namespaces) :
    ∃ stores, restoreCallback codec env multiparser ns.keys (fun _ => .init 0)
        (metricDump codec ns) = some stores ∧
      ((∀ k ∈ ns.keys, ((stores k).contents.map Record.sample).Perm
          (((ns.store k).contents.filter fun x => decide (env.clock.sec < x.key)).map
            Record.sample)) ↔ ∀ k ∈ ns.keys, ∀ x ∈ (ns.store k).contents, env.clock.sec < x.key →
          validUtf8 k = true ∧ Carriable x.sample) := by
  rw [restoreCallback_metricDump]
  obtain ⟨stores, e, hc⟩ := Clean.foldlM codec env ns.keys ns (fun _ h => h) clean_init
  refine ⟨stores, e, fun h k hk x hx hlive => ?_, fun hcar k hk => ?_⟩
  · obtain ⟨L, hL, hclean⟩ := hc k
    have hmem : x.sample ∈ (stores k).contents.map Record.sample :=
      (h k hk).mem_iff.mpr (mem_map_of_mem (mem_filter.mpr ⟨hx, decide_eq_true hlive⟩))
    rw [hL.contents_eq] at hmem
    obtain ⟨y, hy, hyx⟩ := mem_map.mp hmem
    obtain ⟨hcarry, hvalid⟩ := hclean y hy
    exact ⟨hvalid, hyx ▸ hcarry⟩
  · obtain ⟨stores', e', hr⟩ := Restored.foldlM codec hcar (nil_append ns.series)
      (restored_init ns env.clock.sec)
    rw [e] at e'
    cases e'
    obtain ⟨L, hL, -, -, hperm⟩ := hr k hk
    rwa [hL.contents_eq, ← liveOf_series hk]

/-- A label value that is not UTF-8 is lost. -/
theorem restore_dump_latin1 :
    ∃ s p, upsertSample (fun a _ => a) ⟨10, 10⟩ (.init 0) (cstr "m")
        (LabelHash.empty.insert (cstr "a") [255]) ⟨.int, 1, 100, false, false⟩ = some (s, p) ∧
      ∃ ns : Namespaces, ns.keys = [cstr "default"] ∧ ns.store (cstr "default") = s ∧
        ∃ stores, restoreCallback Json.compact ⟨fun a _ => a, id, ⟨20, 20⟩, 300⟩
            (fun stores _ => some stores) ns.keys (fun _ => .init 0)
            (metricDump Json.compact ns) = some stores ∧
          ¬((stores (cstr "default")).contents.map Record.sample).Perm
            ((s.contents.filter fun x => decide (20 < x.key)).map Record.sample) := by
  obtain ⟨s, p, L, y, e, hL, up, -⟩ := upsertSample_spec (holds_init 0) (fun a _ => a) ⟨10, 10⟩
    (cstr "m") (LabelHash.empty.insert (cstr "a") [255]) ⟨.int, 1, 100, false, false⟩
  obtain rfl := Upserted.of_nil up
  let ns : Namespaces :=
    { keys := [cstr "default"]
      store := fun _ => s
      nodup := nodup_singleton _
      default := mem_singleton_self _
      holds := fun _ _ => ⟨_, hL⟩
      int64 := fun _ _ x hx => by
        rw [hL.contents_eq, mem_singleton] at hx
        subst hx
        decide }
  obtain ⟨stores, e', hc⟩ := Clean.foldlM Json.compact ⟨fun a _ => a, id, ⟨20, 20⟩, 300⟩
    ns.keys ns (fun _ h => h) clean_init
  refine ⟨s, p, e, ns, rfl, rfl, stores, by rw [restoreCallback_metricDump]; exact e', fun h => ?_⟩
  obtain ⟨L', hL', hclean⟩ := hc (cstr "default")
  rw [hL.contents_eq, hL'.contents_eq] at h
  obtain ⟨z, hz, hzx⟩ := mem_map.mp (h.symm.subset mem_cons_self)
  have hcarry := (hclean z hz).1
  rw [hzx] at hcarry
  have hlabel := hcarry.labels (cstr "a", [255]) (by decide +kernel)
  exact absurd hlabel.2.1 (by decide +kernel)

end Alligator
