import Alligator.Cluster.Record
import Alligator.Cluster.Servers

/-!
# Passing a sample on

`cluster_pass` looks up the server that owns a series.  It puts a record into the oplogs of the
owner and of its successors, writes the sample itself where it is one of the successors, and
tells its caller whether the sample is handled or still has to be written here.
-/

namespace Alligator

open List Option ClusterServer

/-! ## The pass -/

def maglevKeyMake (cn : ClusterNode) (name : Str) (lbl : LabelHash) : Str :=
  match cn.shardingKey with
  | none => name
  | some keys => keys.flatMap fun key =>
    match key with
    | none => name
    | some key => (lbl.pairs.lookup key).getD []

/-- `get_cluster_node_from_carg`: the servers with the name of the instance are this node. -/
def getClusterNodeFromCarg (me : Str) (cn : ClusterNode) : ClusterNode :=
  { cn with servers := cn.servers.map fun srv =>
      if srv.name = me then { srv with isMe := true } else srv }

/-- The fields of `context_arg` that the pass reads: the cluster that its name stands for, the
instance and the namespace. -/
structure PassArg where
  cluster : Option ClusterNode
  me : Option Str
  namespaceOf : Option Str

/-- What the pass does with a sample: write it here, or put a record into the oplog of the server
at a place. -/
inductive PassEffect where
  | write (w : AppliedWrite)
  | enqueue (server : Nat) (record : ReplicationRecord)

open PassEffect

/-- The return code, the namespace of the context, and what was done. -/
structure PassResult where
  handled : Bool
  namespaceOf : Option Str
  effects : List PassEffect

def ClusterNode.isMeAt (cn : ClusterNode) (i : Nat) : Bool :=
  (cn.servers[i]?.map ClusterServer.isMe).getD false

/-- How a sample of a type is written where only the type is known. -/
def typeWrite (dataType : MetricType) : Write :=
  if dataType = .counter ∨ dataType = .histogram then .update else .add

section Pass

variable (cn : ClusterNode) (srvoplog : ClusterServer) (x : Sample) (dataType : MetricType)

/-- The server at distance `i` of the primary. -/
def currentIndex (i : Nat) : Nat := (srvoplog.index + i) % cn.servers.length

/-- The effect of a round of the loop, where the context has some namespace. -/
def passEffect (namespaceOf : Option Str) (i : Nat) : PassEffect :=
  if cn.isMeAt (currentIndex cn srvoplog i) then
    .write ⟨if i = 0 then namespaceOf
        else some (namespaceName cn.name.length cn.name srvoplog.name),
      x.name, x.labels, x.value, dataType.code, typeWrite dataType⟩
  else
    .enqueue (currentIndex cn srvoplog i)
      ⟨if i = 0 then none else some srvoplog.name, x.name, x.labels, x.value, dataType⟩

/-- A round of the loop.  After a write of its own the context has no namespace. -/
def passStep (st : PassResult) (i : Nat) : PassResult :=
  { st with
    namespaceOf := if cn.isMeAt (currentIndex cn srvoplog i) then none else st.namespaceOf
    effects := st.effects ++ [passEffect cn srvoplog x dataType st.namespaceOf i] }

def passLoop (namespaceOf : Option Str) : PassResult :=
  let start := if srvoplog.isMe then 1 else 0
  (List.range' start (cn.replicaFactor.toNat - start)).foldl (passStep cn srvoplog x dataType)
    ⟨!srvoplog.isMe, namespaceOf, []⟩

end Pass

def clusterPass (carg : PassArg) (x : Sample) (dataType : MetricType) : PassResult :=
  let refused : PassResult := ⟨false, carg.namespaceOf, []⟩
  match carg.cluster, carg.me with
  | some cn, some me =>
    let cn := getClusterNodeFromCarg me cn
    if cn.type = .sharedlock then refused
    else if cn.servers = [] then refused
    else
      match cn.owner (maglevKeyMake cn x.name x.labels) with
      | none => refused
      | some srvoplog => passLoop cn srvoplog x dataType carg.namespaceOf
  | _, _ => refused

/-- The end of `multicollector_field_get`: what is not handled is written here. -/
def PassResult.finish (result : PassResult) (x : Sample) (dataType : MetricType) :
    List PassEffect :=
  if result.handled then result.effects
  else result.effects ++ [.write ⟨result.namespaceOf, x.name, x.labels, x.value, dataType.code,
    chooseWrite x.increment dataType⟩]

def passAndWrite (carg : PassArg) (x : Sample) (dataType : MetricType) : List PassEffect :=
  (clusterPass carg x dataType).finish x dataType

def PassEffect.resolve (namespaces : List Str) : PassEffect → PassEffect
  | .write w => .write (w.resolve namespaces)
  | .enqueue server record => .enqueue server record

/-! ## Placing a sample once -/

section Placement

variable (cn : ClusterNode) (srvoplog : ClusterServer) (x : Sample) (dataType : MetricType)

/-- The sample at its primary, in the default namespace. -/
def primaryPlacement : PassEffect :=
  if srvoplog.isMe then
    .write ⟨none, x.name, x.labels, x.value, dataType.code, chooseWrite x.increment dataType⟩
  else .enqueue srvoplog.index ⟨none, x.name, x.labels, x.value, dataType⟩

/-- The sample at a successor, for the primary. -/
def replicaPlacement (i : Nat) : PassEffect :=
  if cn.isMeAt (currentIndex cn srvoplog i) then
    .write ⟨some (namespaceName cn.name.length cn.name srvoplog.name), x.name, x.labels, x.value,
      dataType.code, typeWrite dataType⟩
  else
    .enqueue (currentIndex cn srvoplog i) ⟨some srvoplog.name, x.name, x.labels, x.value, dataType⟩

def copies : Nat := min (max cn.replicaFactor.toNat 1) cn.servers.length

/-- The sample at its primary and at the successors that the factor asks for. -/
def placement : List PassEffect :=
  primaryPlacement srvoplog x dataType ::
    (List.range' 1 (copies cn - 1)).map (replicaPlacement cn srvoplog x dataType)

end Placement

/-- Up to the whole cluster, the primary and its successors are different servers. -/
lemma nodup_currentIndex (cn : ClusterNode) (srvoplog : ClusterServer) {k : Nat}
    (hk : k ≤ cn.servers.length) : ((List.range k).map (currentIndex cn srvoplog)).Nodup := by
  refine nodup_range.map_on fun i hi j hj heq => ?_
  rw [mem_range] at hi hj
  have hmod : i ≡ j [MOD cn.servers.length] := Nat.ModEq.add_left_cancel' srvoplog.index heq
  exact hmod.eq_of_lt_of_lt (by omega) (by omega)

/-- A call of the pass and its caller together place a sample once at its primary and once at
each successor that is to have it, all of them different servers, and do nothing else. -/
def PlacedOnce (cn : ClusterNode) (me : Str) (namespaces : List Str) (namespaceOf : Option Str)
    (x : Sample) (dataType : MetricType) : Prop :=
  ∃ srvoplog, (getClusterNodeFromCarg me cn).owner (maglevKeyMake cn x.name x.labels) =
      some srvoplog ∧
    ((passAndWrite ⟨some cn, some me, namespaceOf⟩ x dataType).map
      (PassEffect.resolve namespaces)).Perm
      (placement (getClusterNodeFromCarg me cn) srvoplog x dataType) ∧
    ((List.range (copies (getClusterNodeFromCarg me cn))).map
      (currentIndex (getClusterNodeFromCarg me cn) srvoplog)).Nodup

/-- The receiving node owns the series of a sample. -/
def OwnedBy (cn : ClusterNode) (me : Str) (x : Sample) : Prop :=
  ∃ srvoplog, cn.owner (maglevKeyMake cn x.name x.labels) = some srvoplog ∧ srvoplog.name = me

/-! ## The loop -/

section Loop

variable {cn : ClusterNode} {srvoplog : ClusterServer} {x : Sample} {dataType : MetricType}

lemma foldl_passStep_length (l : List Nat) (st : PassResult) :
    (l.foldl (passStep cn srvoplog x dataType) st).effects.length = st.effects.length + l.length ∧
    (l.foldl (passStep cn srvoplog x dataType) st).handled = st.handled := by
  induction l generalizing st with
  | nil => exact ⟨rfl, rfl⟩
  | cons i l ih =>
    obtain ⟨hlength, hhandled⟩ := ih (passStep cn srvoplog x dataType st i)
    refine ⟨?_, hhandled⟩
    rw [foldl_cons, hlength, passStep, length_append]
    simp only [length_cons, length_nil]
    omega

variable {l : List Nat}

/-- The effects of the rounds after the first do not depend on the namespace. -/
lemma foldl_passStep_effects (hl : 0 ∉ l) (st : PassResult) :
    (l.foldl (passStep cn srvoplog x dataType) st).effects =
      st.effects ++ l.map (replicaPlacement cn srvoplog x dataType) := by
  induction l generalizing st with
  | nil => exact (append_nil _).symm
  | cons i l ih =>
    have hi : i ≠ 0 := fun h => hl (h ▸ mem_cons_self)
    have heffect : passEffect cn srvoplog x dataType st.namespaceOf i =
        replicaPlacement cn srvoplog x dataType i := by
      rw [passEffect, replicaPlacement, if_neg hi, if_neg hi]
    rw [foldl_cons, ih (fun h => hl (mem_cons_of_mem _ h)), passStep, heffect, append_assoc]
    rfl

lemma foldl_passStep_namespaceOf
    (hl : ∀ i ∈ l, cn.isMeAt (currentIndex cn srvoplog i) = false) (st : PassResult) :
    (l.foldl (passStep cn srvoplog x dataType) st).namespaceOf = st.namespaceOf := by
  induction l generalizing st with
  | nil => exact rfl
  | cons i l ih =>
    rw [foldl_cons, ih (forall_mem_cons.1 hl).2, passStep, hl i mem_cons_self]
    rfl

end Loop

/-! ## The marked servers -/

variable {i p : Nat}

section Marked

variable {cluster : ClusterConfig} {cn : ClusterNode} {me : Str}

section

variable (h : Configured cluster cn)
include h

lemma Configured.marked (me : Str) : (getClusterNodeFromCarg me cn).servers =
      cluster.sortedNames.mapIdx (.make cluster.oplogSize (some me)) := by
  rw [getClusterNodeFromCarg, h.servers]
  refine List.ext_getElem? fun i => ?_
  rw [List.getElem?_map, List.getElem?_mapIdx, List.getElem?_mapIdx, Option.map_map]
  congr 1
  funext name
  by_cases hname : name = me <;> simp [make, hname]

lemma Configured.marked_getElem?
    (hi : i < cluster.sortedNames.length) : (getClusterNodeFromCarg me cn).servers[i]? =
      some (.make cluster.oplogSize (some me) i cluster.sortedNames[i]) := by
  rw [h.marked, List.getElem?_mapIdx, List.getElem?_eq_getElem hi]
  rfl

lemma Configured.isMeAt (hi : i < cluster.sortedNames.length) :
    (getClusterNodeFromCarg me cn).isMeAt i = decide (cluster.sortedNames[i] = me) := by
  rw [ClusterNode.isMeAt, h.marked_getElem? hi]
  simp [make]

/-- The owner of a key, before and after the node has found itself among the servers. -/
lemma Configured.marked_owner (hne : cluster.sortedNames ≠ [])
    (key : Str) : ∃ (p : Nat) (hp : p < cluster.sortedNames.length),
      cn.owner key = some (.make cluster.oplogSize none p cluster.sortedNames[p]) ∧
      ∀ me, (getClusterNodeFromCarg me cn).owner key =
        some (.make cluster.oplogSize (some me) p cluster.sortedNames[p]) := by
  obtain ⟨psrv, p, hpsrv, hlookup, hp, howner, -⟩ := h.owner hne key
  have hmaglev := h.maglev
  rw [if_neg hne, hpsrv] at hmaglev
  refine ⟨p, hp, ?_, fun me => ?_⟩
  · rw [howner, h.getElem?, List.getElem?_eq_getElem hp]
    rfl
  · have href : (getClusterNodeFromCarg me cn).lookupNode key = some ⟨0, p⟩ := by
      simp [ClusterNode.lookupNode, getClusterNodeFromCarg, hmaglev, hlookup, h.maglevArray]
    have harray : (getClusterNodeFromCarg me cn).array = 0 := h.array
    rw [ClusterNode.owner, href, bind_some, ClusterNode.deref, if_pos harray.symm]
    exact h.marked_getElem? hp

end

lemma ownedBy_iff {x : Sample} {hp : p < cluster.sortedNames.length}
    (howner : cn.owner (maglevKeyMake cn x.name x.labels) =
      some (.make cluster.oplogSize none p cluster.sortedNames[p])) :
    OwnedBy cn me x ↔ cluster.sortedNames[p] = me := by
  rw [OwnedBy, howner]
  constructor
  · rintro ⟨srv, hsrv, hname⟩
    obtain rfl := some.inj hsrv
    exact hname
  · exact fun hname => ⟨_, rfl, hname⟩

lemma exists_not_ownedBy (cn : ClusterNode) (x : Sample) {a b : Str} (hab : a ≠ b) :
    ∃ me, me ∈ [a, b] ∧ ¬ OwnedBy cn me x := by
  by_cases ha : OwnedBy cn a x
  · refine ⟨b, mem_cons_of_mem _ mem_cons_self, fun hb => hab ?_⟩
    obtain ⟨srv, hsrv, rfl⟩ := ha
    obtain ⟨srv', hsrv', rfl⟩ := hb
    rw [some.inj (hsrv.symm.trans hsrv')]
  · exact ⟨a, mem_cons_self, ha⟩

end Marked

/-! ## Which samples are placed once -/

section Once

variable {cn : ClusterNode} {srvoplog : ClusterServer} {x : Sample} {dataType : MetricType}
  {namespaces : List Str}

lemma passLoop_owned (hme : srvoplog.isMe = true) (namespaceOf : Option Str) :
    (passLoop cn srvoplog x dataType namespaceOf).handled = false ∧
    (passLoop cn srvoplog x dataType namespaceOf).effects =
      (List.range' 1 (cn.replicaFactor.toNat - 1)).map
        (replicaPlacement cn srvoplog x dataType) := by
  rw [passLoop, hme]
  refine ⟨(foldl_passStep_length _ _).2, ?_⟩
  exact foldl_passStep_effects (by simp [mem_range'_1]) _

/-- The effects of a pass over a node that does not. -/
lemma passLoop_other (hme : srvoplog.isMe = false) (namespaceOf : Option Str) :
    (passLoop cn srvoplog x dataType namespaceOf).handled = true ∧
    (passLoop cn srvoplog x dataType namespaceOf).effects = if cn.replicaFactor.toNat = 0 then []
      else passEffect cn srvoplog x dataType namespaceOf 0 ::
        (List.range' 1 (cn.replicaFactor.toNat - 1)).map
          (replicaPlacement cn srvoplog x dataType) := by
  simp only [passLoop, hme]
  refine ⟨(foldl_passStep_length _ _).2, ?_⟩
  cases cn.replicaFactor.toNat with
  | zero => rfl
  | succ k =>
    have hzero : 0 ∉ List.range' 1 k := by simp [mem_range'_1]
    exact foldl_passStep_effects hzero _

section

variable (hknown : namespaceName cn.name.length cn.name srvoplog.name ∈ namespaces)
include hknown

lemma resolve_replicaPlacement (i : Nat) :
    (replicaPlacement cn srvoplog x dataType i).resolve namespaces =
      replicaPlacement cn srvoplog x dataType i := by
  rw [replicaPlacement]
  split_ifs
  · rw [resolve, AppliedWrite.resolve, namespaceOfCarg, if_pos hknown]
  · rfl

lemma resolve_replicaPlacements (l : List Nat) :
    (l.map (replicaPlacement cn srvoplog x dataType)).map (resolve namespaces) =
      l.map (replicaPlacement cn srvoplog x dataType) := by
  rw [List.map_map]
  exact List.map_congr_left fun i _ => resolve_replicaPlacement hknown i

end

lemma copies_of_le (h : cn.replicaFactor.toNat ≤ cn.servers.length) :
    copies cn - 1 = cn.replicaFactor.toNat - 1 := by
  rw [copies]
  omega

lemma eq_oplog {type : ClusterType} (h : type ≠ .sharedlock) : type = .oplog := by
  cases type with
  | oplog => rfl
  | sharedlock => exact absurd rfl h

lemma perm_cons_iff {α : Type} {a b : α} {l : List α} : (l ++ [a]).Perm (b :: l) ↔ a = b := by
  rw [List.Perm.congr_left (perm_append_singleton a l), ← Multiset.coe_eq_coe,
    ← Multiset.cons_coe, ← Multiset.cons_coe, Multiset.cons_inj_left]

lemma mod_ne_self {n : Nat} (hp : p < n) (hpos : 0 < i) (hi : i < n) : (p + i) % n ≠ p := by
  intro h
  rcases lt_or_ge (p + i) n with hlt | hge
  · rw [Nat.mod_eq_of_lt hlt] at h
    omega
  · rw [Nat.mod_eq_sub_mod hge, Nat.mod_eq_of_lt (by omega)] at h
    omega

structure Member (cn : ClusterNode) (srvoplog : ClusterServer) (namespaces : List Str) : Prop where
  index_lt : srvoplog.index < cn.servers.length
  isMe : cn.isMeAt srvoplog.index = srvoplog.isMe
  unique : ∀ i, cn.isMeAt i = true → srvoplog.isMe = true → i = srvoplog.index
  known : namespaceName cn.name.length cn.name srvoplog.name ∈ namespaces

section

variable (h : Member cn srvoplog namespaces)
include h

lemma Member.currentIndex_zero : currentIndex cn srvoplog 0 = srvoplog.index := by
  rw [currentIndex, add_zero, Nat.mod_eq_of_lt h.index_lt]

/-- The owner places a sample once as long as the factor is not larger than the cluster and the
context has no namespace of its own. -/
lemma Member.owned (hme : srvoplog.isMe = true) (namespaceOf : Option Str) :
    (((passLoop cn srvoplog x dataType namespaceOf).finish x dataType).map
        (resolve namespaces)).Perm (placement cn srvoplog x dataType) ↔
      cn.replicaFactor.toNat ≤ cn.servers.length ∧
        namespaceOfCarg namespaces namespaceOf = none := by
  have hlt := h.index_lt
  obtain ⟨hhandled, heffects⟩ := passLoop_owned hme namespaceOf
  rw [PassResult.finish, if_neg (by rw [hhandled]; decide), heffects, map_append,
    resolve_replicaPlacements h.known]
  by_cases hle : cn.replicaFactor.toNat ≤ cn.servers.length
  · have hspace : (passLoop cn srvoplog x dataType namespaceOf).namespaceOf = namespaceOf := by
      rw [passLoop, hme]
      refine foldl_passStep_namespaceOf (fun i hi => ?_) _
      obtain ⟨hpos, hi⟩ := mem_range'_1.1 hi
      by_contra hat
      have heq := h.unique _ (Bool.eq_true_of_not_eq_false hat) hme
      exact mod_ne_self hlt hpos (by omega) heq
    rw [placement, copies_of_le hle, map_cons, map_nil, perm_cons_iff, hspace, primaryPlacement,
      if_pos hme, resolve, AppliedWrite.resolve]
    simp [hle]
  · refine ⟨fun hperm => absurd hperm.length_eq ?_, fun hright => absurd hright.1 hle⟩
    simp only [placement, length_append, length_map, length_range', length_cons, copies]
    omega

/-- Another node places a sample once when the factor counts the owner in and is not larger than
the cluster. -/
lemma Member.other (hme : srvoplog.isMe = false) (namespaceOf : Option Str) :
    (((passLoop cn srvoplog x dataType namespaceOf).finish x dataType).map
        (resolve namespaces)).Perm (placement cn srvoplog x dataType) ↔
      1 ≤ cn.replicaFactor.toNat ∧ cn.replicaFactor.toNat ≤ cn.servers.length := by
  have hlt := h.index_lt
  obtain ⟨hhandled, heffects⟩ := passLoop_other hme namespaceOf
  rw [PassResult.finish, heffects]
  have hfirst : (passEffect cn srvoplog x dataType namespaceOf 0).resolve namespaces =
      primaryPlacement srvoplog x dataType := by
    rw [passEffect, h.currentIndex_zero, h.isMe, hme, primaryPlacement, hme]
    rfl
  split_ifs with hzero
  · refine ⟨fun hperm => absurd hperm.length_eq ?_, fun hright => by omega⟩
    simp [placement]
  · rw [map_cons, resolve_replicaPlacements h.known, hfirst, placement]
    by_cases hle : cn.replicaFactor.toNat ≤ cn.servers.length
    · rw [copies_of_le hle]
      exact ⟨fun _ => ⟨by omega, hle⟩, fun _ => .refl _⟩
    · refine ⟨fun hperm => absurd hperm.length_eq ?_, fun hright => absurd hright.2 hle⟩
      simp only [length_map, length_range', length_cons, copies]
      omega

end

variable {cluster : ClusterConfig} {me : Str}

section

variable (h : Configured cluster cn)
include h

/-- The pass of a configured cluster goes into its loop. -/
lemma Configured.clusterPass_eq (htype : cn.type = .oplog) (hne : cluster.sortedNames ≠ [])
    (howner : (getClusterNodeFromCarg me cn).owner (maglevKeyMake cn x.name x.labels) =
      some srvoplog) (namespaceOf : Option Str) :
    clusterPass ⟨some cn, some me, namespaceOf⟩ x dataType =
      passLoop (getClusterNodeFromCarg me cn) srvoplog x dataType namespaceOf := by
  have htype' : (getClusterNodeFromCarg me cn).type ≠ .sharedlock := by
    change cn.type ≠ _
    rw [htype]
    decide
  have hservers : (getClusterNodeFromCarg me cn).servers ≠ [] := by
    rw [h.marked, ne_eq, mapIdx_eq_nil_iff]
    exact hne
  have hkey : maglevKeyMake (getClusterNodeFromCarg me cn) x.name x.labels =
      maglevKeyMake cn x.name x.labels := rfl
  simp only [clusterPass, if_neg htype', if_neg hservers, hkey, howner]

lemma Configured.placedOnce_iff (htype : cn.type = .oplog) (hne : cluster.sortedNames ≠ [])
    (howner : (getClusterNodeFromCarg me cn).owner (maglevKeyMake cn x.name x.labels) =
      some srvoplog) {namespaceOf : Option Str} :
    PlacedOnce cn me namespaces namespaceOf x dataType ↔
      (((passLoop (getClusterNodeFromCarg me cn) srvoplog x dataType namespaceOf).finish x
        dataType).map (resolve namespaces)).Perm
        (placement (getClusterNodeFromCarg me cn) srvoplog x dataType) := by
  rw [PlacedOnce, howner, passAndWrite, h.clusterPass_eq htype hne howner]
  constructor
  · rintro ⟨srv, hsrv, hperm, -⟩
    obtain rfl := some.inj hsrv
    exact hperm
  · exact fun hperm => ⟨_, rfl, hperm, nodup_currentIndex _ _ (min_le_right _ _)⟩

lemma Configured.member (hnodup : cluster.sortedNames.Nodup)
    (me : Str) (others : List Str) (hp : p < cluster.sortedNames.length) :
    Member (getClusterNodeFromCarg me cn)
      (.make cluster.oplogSize (some me) p cluster.sortedNames[p])
      (clusterNamespaces cn.name cn.names ++ others) where
  index_lt := by
    rw [h.marked, length_mapIdx]
    exact hp
  isMe := by simp [h.isMeAt hp, make]
  unique := by
    intro i hi hme
    have hlt : i < cluster.sortedNames.length := by
      by_contra hge
      rw [ClusterNode.isMeAt, h.marked, List.getElem?_eq_none (by rw [length_mapIdx]; omega)]
        at hi
      cases hi
    rw [h.isMeAt hlt, decide_eq_true_eq] at hi
    have hme : cluster.sortedNames[p] = me := by simpa [make] using hme
    exact (hnodup.getElem_inj_iff).1 (hi.trans hme.symm)
  known := by
    refine mem_append_left _ (mem_map_of_mem ?_)
    rw [ClusterNode.names, h.servers, names_mapIdx]
    exact getElem_mem hp

end

/-- A sample is placed once exactly when the factor is not larger than the cluster, it counts the
owner in or the receiving node is the owner, and the owner writes into the default namespace. -/
theorem placed_once_iff (hpush : clusterPushJson cluster = some cn) (htype : cn.type = .oplog)
    (hnodup : cluster.serverNames.Nodup) (hme : me ∈ cluster.serverNames) (others : List Str)
    (namespaceOf : Option Str) :
    PlacedOnce cn me (clusterNamespaces cn.name cn.names ++ others) namespaceOf x dataType ↔
      cn.replicaFactor.toNat ≤ cluster.serverNames.length ∧
      (1 ≤ cn.replicaFactor.toNat ∨ OwnedBy cn me x) ∧ (OwnedBy cn me x →
        namespaceOfCarg (clusterNamespaces cn.name cn.names ++ others) namespaceOf = none) := by
  have h := configured_of_push hpush
  have hperm : cluster.sortedNames.Perm cluster.serverNames := mergeSort_perm _ _
  have hne : cluster.sortedNames ≠ [] := fun hnil =>
    not_mem_nil ((nil_perm.1 (hnil ▸ hperm)) ▸ hme)
  obtain ⟨p, hp, howner, hmarked⟩ := h.marked_owner hne (maglevKeyMake cn x.name x.labels)
  have hmember := h.member (hperm.nodup_iff.2 hnodup) me others hp
  have hlength : (getClusterNodeFromCarg me cn).servers.length = cluster.serverNames.length := by
    rw [h.marked, length_mapIdx, hperm.length_eq]
  have hfactor : (getClusterNodeFromCarg me cn).replicaFactor = cn.replicaFactor := rfl
  rw [h.placedOnce_iff htype hne (hmarked me), ownedBy_iff howner]
  by_cases hown : cluster.sortedNames[p] = me
  · rw [hmember.owned (by simp [make, hown]), hlength, hfactor]
    simp [hown]
  · rw [hmember.other (by simp [make, hown]), hlength, hfactor]
    simp [hown, and_comm]

end Once

/-- The sample `up 1`. -/
def upSample : Sample := ⟨cstr "up", .empty, Binary64.ofInt 1, false⟩

lemma type_plainCluster {servers : List (Option Str)} {cn : ClusterNode}
    (h : Configured (plainCluster servers) cn) : cn.type = .oplog ∧ cn.replicaFactor.toNat = 0 := by
  rw [h.type, h.replicaFactor]
  exact ⟨rfl, rfl⟩

/-- Two servers, and so many copies of each sample. -/
def twoServers (copies : Int) : ClusterConfig :=
  { plainCluster [some (cstr "a"), some (cstr "b")] with replicaFactor := some (.integer copies) }

/-- Each of two servers has a copy. -/
theorem placed_once_both : ∃ cn, clusterPushJson (twoServers 2) = some cn ∧
    ∀ me ∈ [cstr "a", cstr "b"],
      PlacedOnce cn me (clusterNamespaces cn.name cn.names ++ []) none upSample .untyped := by
  have hnamed : (twoServers 2).name.isSome = true := rfl
  obtain ⟨cn, hcn⟩ := isSome_iff_exists.1 (push_isSome hnamed)
  have h := configured_of_push hcn
  have htype : cn.type = .oplog := h.type.trans rfl
  have hfactor : cn.replicaFactor.toNat = 2 := by
    rw [h.replicaFactor]
    decide
  refine ⟨cn, hcn, fun me hme => (placed_once_iff hcn htype (by decide) hme [] none).2 ?_⟩
  rw [hfactor]
  exact ⟨by decide, .inl (by decide), fun _ => rfl⟩

/-- The factor is not configured, and the sample comes in at the server that does not own it: it
is reported as handled and goes nowhere. -/
theorem placed_once_dropped :
    ∃ cn me, clusterPushJson (plainCluster [some (cstr "a"), some (cstr "b")]) = some cn ∧
      me ∈ [cstr "a", cstr "b"] ∧
      clusterPass ⟨some cn, some me, none⟩ upSample .untyped = ⟨true, none, []⟩ ∧
      ¬ PlacedOnce cn me (clusterNamespaces cn.name cn.names) none upSample .untyped := by
  obtain ⟨cn, hcn⟩ := exists_plainCluster [some (cstr "a"), some (cstr "b")]
  have h := configured_of_push hcn
  obtain ⟨htype, hfactor⟩ := type_plainCluster h
  have hne : (plainCluster [some (cstr "a"), some (cstr "b")]).sortedNames ≠ [] := by
    rw [ne_eq, sortedNames_eq_nil]
    decide
  obtain ⟨p, hp, howner, hmarked⟩ := h.marked_owner hne
    (maglevKeyMake cn upSample.name upSample.labels)
  have hab : cstr "a" ≠ cstr "b" := by decide
  obtain ⟨me, hmem, hother⟩ := exists_not_ownedBy cn upSample hab
  rw [ownedBy_iff howner] at hother
  have hpass : clusterPass ⟨some cn, some me, none⟩ upSample .untyped = ⟨true, none, []⟩ := by
    have hisMe : (make (plainCluster [some (cstr "a"), some (cstr "b")]).oplogSize
        (some me) p (plainCluster [some (cstr "a"), some (cstr "b")]).sortedNames[p]).isMe =
        false := by simp [make, hother]
    have hfactor' : (getClusterNodeFromCarg me cn).replicaFactor.toNat = 0 := hfactor
    rw [h.clusterPass_eq htype hne (hmarked me), passLoop, hisMe, hfactor']
    rfl
  refine ⟨cn, me, hcn, hmem, hpass, ?_⟩
  rintro ⟨srvoplog, -, hperm, -⟩
  rw [passAndWrite, hpass] at hperm
  exact absurd (nil_perm.1 hperm) (cons_ne_nil _ _)

/-! ## What a line means -/

/-- The record of an effect that is meant for the primary. -/
def PassEffect.primaryRecord : PassEffect → Option ReplicationRecord
  | .write _ => none
  | .enqueue _ record => if record.replicaOf = none then some record else none

/-- How a sample is written at its owner: by the caller of the pass, or by the handler at the
other end. -/
def ownerWrites (cn : ClusterNode) (me : Str) (namespaceOf : Option Str) (x : Sample)
    (dataType : MetricType) : List Write :=
  let result := clusterPass ⟨some cn, some me, namespaceOf⟩ x dataType
  if result.handled then
    (result.effects.filterMap PassEffect.primaryRecord).flatMap fun record =>
      (clusterSyncHandler cn.name record.text).map AppliedWrite.write
  else [chooseWrite x.increment dataType]

section Meaning

variable {cluster : ClusterConfig} {cn : ClusterNode} {me : Str} {x : Sample}
  {dataType : MetricType}

lemma primaryRecord_replica {srvoplog : ClusterServer} (l : List Nat) :
    (l.map (replicaPlacement cn srvoplog x dataType)).filterMap primaryRecord = [] := by
  rw [filterMap_map, filterMap_eq_nil_iff]
  intro i _
  rw [Function.comp_apply, replicaPlacement]
  split_ifs <;> rfl

def ownerRecord (x : Sample) (dataType : MetricType) : ReplicationRecord :=
  ⟨none, x.name, x.labels, x.value, dataType⟩

/-- Another node sends one record to the owner, unless the factor is zero. -/
lemma primaryRecords_other {srvoplog : ClusterServer} (hme : srvoplog.isMe = false)
    (hindex : cn.isMeAt (currentIndex cn srvoplog 0) = false) (x : Sample) (dataType : MetricType)
    (namespaceOf : Option Str) : (passLoop cn srvoplog x dataType namespaceOf).handled = true ∧
    (passLoop cn srvoplog x dataType namespaceOf).effects.filterMap primaryRecord =
      if cn.replicaFactor.toNat = 0 then [] else [ownerRecord x dataType] := by
  obtain ⟨hhandled, heffects⟩ := passLoop_other hme namespaceOf
  refine ⟨hhandled, ?_⟩
  rw [heffects]
  split_ifs
  · rfl
  · have hfirst : (passEffect cn srvoplog x dataType namespaceOf 0).primaryRecord =
        some (ownerRecord x dataType) := by
      rw [passEffect, hindex]
      rfl
    rw [filterMap_cons_some hfirst, primaryRecord_replica]

/-- A record for the owner is written by its type, if it is not too long. -/
lemma syncHandler_owner (h : Handed x.name x.labels) (cluster : Str) :
    (clusterSyncHandler cluster (ownerRecord x dataType).text).map AppliedWrite.write =
      if (ownerRecord x dataType).line.length < 4095 then [typeWrite dataType] else [] := by
  have hprimary : ∀ p ∈ (ownerRecord x dataType).replicaOf, 9 ∉ p ∧ 10 ∉ p := fun p hp => nomatch hp
  split_ifs with hlen
  · have hcarried : ∀ r ∈ [ownerRecord x dataType], Carried r := fun r hr =>
      mem_singleton.1 hr ▸ ⟨h, hlen, hprimary⟩
    have hread := syncHandler_carried hcarried cluster
    rw [flatMap_singleton] at hread
    rw [hread]
    rfl
  · rw [syncHandler_long h hprimary (by omega)]
    rfl

lemma typeWrite_eq_iff (increment : Bool) : typeWrite dataType = chooseWrite increment dataType ↔
      increment = false ∨ dataType = .counter ∨ dataType = .histogram := by
  cases increment <;> cases dataType <;> decide

/-- What is not for the cluster, or for this node, is written here. -/
lemma Configured.ownerWrites_kept (h : Configured cluster cn) (namespaceOf : Option Str)
    (hkept : cn.type = .sharedlock ∨ cluster.sortedNames = [] ∨ OwnedBy cn me x) :
    ownerWrites cn me namespaceOf x dataType = [chooseWrite x.increment dataType] := by
  have hhandled : (clusterPass ⟨some cn, some me, namespaceOf⟩ x dataType).handled = false := by
    by_cases htype : cn.type = .sharedlock
    · have htype' : (getClusterNodeFromCarg me cn).type = .sharedlock := htype
      simp only [clusterPass, if_pos htype']
    by_cases hne : cluster.sortedNames = []
    · have hservers : (getClusterNodeFromCarg me cn).servers = [] := by
        rw [h.marked, hne]
        rfl
      simp [clusterPass, if_pos hservers]
    have howned := (hkept.resolve_left htype).resolve_left hne
    obtain ⟨p, hp, howner, hmarked⟩ := h.marked_owner hne (maglevKeyMake cn x.name x.labels)
    rw [h.clusterPass_eq (eq_oplog htype) hne (hmarked me)]
    refine (passLoop_owned ?_ _).1
    simpa [make] using (ownedBy_iff howner).1 howned
  rw [ownerWrites, if_neg (by rw [hhandled]; decide)]

/-- What goes to another node is written there, if the factor counts the owner in. -/
lemma Configured.ownerWrites_sent (h : Configured cluster cn) (namespaceOf : Option Str)
    (hhanded : Handed x.name x.labels) (htype : cn.type = .oplog)
    (hne : cluster.sortedNames ≠ []) (howned : ¬ OwnedBy cn me x) :
    ownerWrites cn me namespaceOf x dataType =
      if 1 ≤ cn.replicaFactor.toNat ∧ (ownerRecord x dataType).line.length < 4095 then
        [typeWrite dataType] else [] := by
  obtain ⟨p, hp, howner, hmarked⟩ := h.marked_owner hne (maglevKeyMake cn x.name x.labels)
  rw [ownedBy_iff howner] at howned
  have hisMe : (make cluster.oplogSize (some me) p cluster.sortedNames[p]).isMe =
      false := by simp [make, howned]
  have hindex : (getClusterNodeFromCarg me cn).isMeAt (currentIndex (getClusterNodeFromCarg me cn)
      (.make cluster.oplogSize (some me) p cluster.sortedNames[p]) 0) = false := by
    have hlen : p < (getClusterNodeFromCarg me cn).servers.length := by
      rw [h.marked, length_mapIdx]
      exact hp
    have hzero : currentIndex (getClusterNodeFromCarg me cn)
        (.make cluster.oplogSize (some me) p cluster.sortedNames[p]) 0 = p := Nat.mod_eq_of_lt hlen
    rw [hzero, h.isMeAt hp, decide_eq_false howned]
  obtain ⟨hhandled, hrecords⟩ := primaryRecords_other hisMe hindex x dataType namespaceOf
  have hfactor : (getClusterNodeFromCarg me cn).replicaFactor = cn.replicaFactor := rfl
  simp only [ownerWrites, h.clusterPass_eq htype hne (hmarked me), hhandled, hrecords, hfactor,
    ↓reduceIte]
  by_cases hzero : cn.replicaFactor.toNat = 0
  · rw [if_pos hzero, if_neg (by omega)]
    rfl
  · rw [if_neg hzero, flatMap_singleton, syncHandler_owner hhanded]
    have hpos : 1 ≤ cn.replicaFactor.toNat := by omega
    simp [hpos]

/-- A line means the same with and without a cluster exactly when this node keeps it, or when the
record reaches the owner and the line is no increment or its type is one that accumulates. -/
theorem same_operation_iff (hpush : clusterPushJson cluster = some cn) {mm : List Mapping}
    {counterNames : CounterNames} {lbl : LabelHash} {str : Str} {size : Nat} {w : Write}
    (hline : multicollectorFieldGet mm counterNames lbl str size = some (x, w))
    (hhanded : Handed x.name x.labels) (me : Str) (namespaceOf : Option Str) :
    ownerWrites cn me namespaceOf x (counterNames.dataType x.name) = [w] ↔
      (cn.type = .sharedlock ∨ cluster.serverNames = [] ∨ OwnedBy cn me x) ∨
      (1 ≤ cn.replicaFactor.toNat ∧
        (ownerRecord x (counterNames.dataType x.name)).line.length < 4095) ∧
      (x.increment = false ∨ counterNames.dataType x.name = .counter ∨
        counterNames.dataType x.name = .histogram) := by
  have h := configured_of_push hpush
  have hw : w = chooseWrite x.increment (counterNames.dataType x.name) := by
    obtain ⟨y, -, hy⟩ := map_eq_some_iff.1 hline
    obtain ⟨rfl, rfl⟩ := Prod.mk.inj hy
    rfl
  rw [hw, ← sortedNames_eq_nil]
  by_cases hkept : cn.type = .sharedlock ∨ cluster.sortedNames = [] ∨ OwnedBy cn me x
  · rw [h.ownerWrites_kept namespaceOf hkept]
    simp [hkept]
  · rw [or_iff_right hkept]
    obtain ⟨htype, hne, howned⟩ := not_or.1 hkept |>.imp_right not_or.1
    rw [h.ownerWrites_sent namespaceOf hhanded (eq_oplog htype) hne howned]
    split_ifs with hsent
    · rw [cons.injEq, typeWrite_eq_iff]
      simp [hsent]
    · simp [hsent]

end Meaning

lemma length_ownerRecord {x : Sample} (hname : x.name.length ≤ 255) (hlabels : x.labels.pairs = []) :
    (ownerRecord x .untyped).line.length < 4095 := by
  have hvalue : (stringDouble x.value).length ≤ 19 := length_take_le _ _
  have hbody : (ownerRecord x .untyped).body =
      x.name ++ 9 :: (9 :: (stringDouble x.value ++ 9 :: [48])) := by
    rw [ReplicationRecord.body, ownerRecord, hlabels]
    rfl
  have hline : (ownerRecord x .untyped).line =
      cstr "primary" ++ 9 :: (ownerRecord x .untyped).body := ReplicationRecord.line_eq _
  rw [hline, hbody]
  simp [cstr]
  omega

/-- A line without type at either of two servers. -/
theorem same_operation_either : ∃ cn x w, clusterPushJson (twoServers 1) = some cn ∧
    multicollectorFieldGet [] ⟨false, []⟩ .empty (cstr "up 3") 5 = some (x, w) ∧
    ∀ me ∈ [cstr "a", cstr "b"], ownerWrites cn me none x .untyped = [w] := by
  have hnamed : (twoServers 1).name.isSome = true := rfl
  obtain ⟨cn, hcn⟩ := isSome_iff_exists.1 (push_isSome hnamed)
  have h := configured_of_push hcn
  have heval : (multicollectorFieldGet [] ⟨false, []⟩ .empty (cstr "up 3") 5).map
      (fun r => (r.1.name, r.1.labels.pairs, r.1.increment)) = some (cstr "up", [], false) := by
    decide
  obtain ⟨⟨x, w⟩, hline, hfields⟩ := map_eq_some_iff.1 heval
  obtain ⟨hname, hlabels, hincrement⟩ :
      x.name = cstr "up" ∧ x.labels.pairs = [] ∧ x.increment = false := by simpa using hfields
  obtain ⟨y, hparse, hy⟩ := map_eq_some_iff.1 hline
  obtain ⟨rfl, -⟩ := Prod.mk.inj hy
  have hfactor : 1 ≤ cn.replicaFactor.toNat := by
    rw [h.replicaFactor]
    decide
  refine ⟨cn, y, w, hcn, hline, fun me _ => (same_operation_iff hcn hline
    (handed_of_parse labelsHanded_empty hparse) me none).2 (.inr ⟨⟨hfactor, ?_⟩, .inl hincrement⟩)⟩
  exact length_ownerRecord (by rw [hname]; decide) hlabels

/-- A counter of statsd that comes in at the server that does not own it is overwritten, not
increased. -/
theorem same_operation_increment : ∃ cn me x,
    clusterPushJson (twoServers 1) = some cn ∧ me ∈ [cstr "a", cstr "b"] ∧
    multicollectorFieldGet [] ⟨false, []⟩ .empty (cstr "hits:1|c") 9 = some (x, .update) ∧
    ownerWrites cn me none x .untyped = [.add] := by
  have hnamed : (twoServers 1).name.isSome = true := rfl
  obtain ⟨cn, hcn⟩ := isSome_iff_exists.1 (push_isSome hnamed)
  have h := configured_of_push hcn
  have heval : (multicollectorFieldGet [] ⟨false, []⟩ .empty (cstr "hits:1|c") 9).map
      (fun r => (r.1.name, r.1.labels.pairs, r.2)) = some (cstr "hits", [], .update) := by
    decide
  obtain ⟨⟨x, w⟩, hline, hfields⟩ := map_eq_some_iff.1 heval
  obtain ⟨hname, hlabels, rfl⟩ : x.name = cstr "hits" ∧ x.labels.pairs = [] ∧ w = .update := by
    simpa using hfields
  obtain ⟨y, hparse, hy⟩ := map_eq_some_iff.1 hline
  obtain ⟨rfl, -⟩ := Prod.mk.inj hy
  have hhanded := handed_of_parse labelsHanded_empty hparse
  have hab : cstr "a" ≠ cstr "b" := by decide
  obtain ⟨me, hmem, hother⟩ := exists_not_ownedBy cn y hab
  refine ⟨cn, me, y, hcn, hmem, hline, ?_⟩
  have htype : cn.type = .oplog := by
    rw [h.type]
    rfl
  have hne : (twoServers 1).sortedNames ≠ [] := by
    rw [ne_eq, sortedNames_eq_nil]
    decide
  have hfactor : 1 ≤ cn.replicaFactor.toNat := by
    rw [h.replicaFactor]
    decide
  have hlength := length_ownerRecord (by rw [hname]; decide) hlabels
  rw [h.ownerWrites_sent none hhanded htype hne hother, if_pos ⟨hfactor, hlength⟩]
  rfl

end Alligator
