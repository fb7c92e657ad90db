import Alligator.Lib.BinarySearch
import Alligator.Lib.Json
import Alligator.Cluster.Maglev
import Alligator.Cluster.Oplog

/-!
# The servers of a cluster

`cluster_push_json` makes an array of servers from the configuration of a cluster: sorted by
name, numbered, and with a Maglev table whose entries point into the array.
`cluster_k8s_peers_update_servers` replaces the array.

Members whose configurations list the servers in different orders agree on the owner of a key
and on its successors (`owners_agree`).
-/

namespace Alligator

open Text List Option

/-! ## Configuration -/

/-- `strtoull` in base ten. -/
def strtoull (s : Str) : BitVec 64 :=
  let magnitude (t : Str) : Nat := min (readDigits 0 t).1 (2 ^ 64 - 1)
  match s.dropWhile isSpace with
  | 45 :: t =>
    if 2 ^ 64 ≤ (readDigits 0 t).1 then BitVec.allOnes 64 else -BitVec.ofNat 64 (magnitude t)
  | 43 :: t => BitVec.ofNat 64 (magnitude t)
  | t => BitVec.ofNat 64 (magnitude t)

/-- `config_get_intstr_json` of a key that may be absent. -/
def configGetIntstrJson : Option Json.Scalar → BitVec 64
  | some (.string s) => strtoull s
  | some (.integer n) => n
  | _ => 0

/-- `CLUSER_TYPE_OPLOG` and `CLUSER_TYPE_SHAREDLOCK` -/
inductive ClusterType where
  | oplog
  | sharedlock
deriving DecidableEq

/-- The configuration of a cluster.  Entries of arrays that are no strings are `none`. -/
structure ClusterConfig where
  name : Option Str
  size : Option Json.Scalar
  servers : List (Option Str)
  shardingKey : Option (List (Option Str))
  type : Option Str
  replicaFactor : Option Json.Scalar

def ClusterConfig.serverNames (cluster : ClusterConfig) : List Str :=
  cluster.servers.filterMap id

def ClusterConfig.oplogSize (cluster : ClusterConfig) : Nat :=
  match cluster.size with
  | none => 1000
  | some size =>
    let configured := (configGetIntstrJson (some size)).toInt
    if 2 ≤ configured then configured.toNat else 1000

/-- The keys by which samples are shared out: `none` is the name of the metric.  The array has
room for all entries and those that are no strings are skipped, so that it ends with names of
the metric in their place. -/
def shardingKeys (entries : List (Option Str)) : List (Option Str) :=
  let keys := (entries.filterMap id).map fun key => if key = cstr "__name__" then none else some key
  keys ++ List.replicate (entries.length - keys.length) none

/-! ## The node of a cluster -/

/-- `cluster_server_oplog` -/
structure ClusterServer where
  name : Str
  index : Nat
  isMe : Bool
  oprec : OplogRecord

structure ServerRef where
  array : Nat
  place : Nat
deriving DecidableEq

/-- `cluster_node`.  The arrays of servers that it had are numbered; `array` is the present one,
and `maglevArray` the one that the entries of the Maglev table point into. -/
structure ClusterNode where
  name : Str
  replicaFactor : BitVec 64
  array : Nat
  servers : List ClusterServer
  maglev : Option MaglevHash
  maglevArray : Nat
  shardingKey : Option (List (Option Str))
  size : Nat
  type : ClusterType

open ClusterNode

/-- `cluster_sort_compare`: may `a` stand before `b`? -/
def clusterSortCompare (a b : Str) : Bool := (strcmp a b).isLE

/-- The names of the servers as `qsort` leaves them. -/
def ClusterConfig.sortedNames (cluster : ClusterConfig) : List Str :=
  cluster.serverNames.mergeSort clusterSortCompare

def ClusterServer.make (size : Nat) (me : Option Str) (i : Nat) (name : Str) : ClusterServer :=
  ⟨name, i, decide (some name = me), oplogRecordInit size⟩

/-- A cluster without servers has no table. -/
def pushMaglev (names : List Str) : Option (Option MaglevHash) :=
  if names = [] then some none else (maglevBuild names).map some

/-- `cluster_push_json`.  The servers that are sorted differ in their names only. -/
def clusterPushJson (cluster : ClusterConfig) : Option ClusterNode := do
  let name ← cluster.name
  let names := cluster.sortedNames
  let maglev ← pushMaglev names
  let type := if cluster.type = some (cstr "sharedlock") then ClusterType.sharedlock else .oplog
  return {
    name := name
    replicaFactor := configGetIntstrJson cluster.replicaFactor
    array := 0
    servers := names.mapIdx (ClusterServer.make cluster.oplogSize none)
    maglev := maglev
    maglevArray := 0
    shardingKey := cluster.shardingKey.map shardingKeys
    size := cluster.oplogSize
    type := type }

/-- `cluster_k8s_peers_update_servers`, where `me` is the value of `ALLIGATOR_INSTANCE`. -/
def clusterK8sPeersUpdateServers (me : Option Str) (cn : ClusterNode) (servers : List Str) :
    ClusterNode :=
  if servers = [] then cn
  else { cn with
    array := cn.array + 1
    servers := servers.mapIdx
      (ClusterServer.make (if cn.size = 0 then 1000 else cn.size) me) }

def ClusterNode.nameAt (cn : ClusterNode) (i : Nat) : Str :=
  (cn.servers[i]?.map ClusterServer.name).getD []

/-- `get_server_oplog_by_node`.  Its check of the lower bound never holds. -/
def getServerOplogByNode (cn : ClusterNode) (replica : Str) : Option ClusterServer :=
  if cn.servers = [] then none
  else
    (BinarySearch.search (fun i => strcmp (cn.nameAt i) replica) cn.servers.length 0
      (cn.servers.length - 1)).bind fun i => cn.servers[i]?

def ClusterNode.entries (cn : ClusterNode) : List ServerRef :=
  match cn.maglev with
  | none => []
  | some psrv => (psrv.hashEntry.filterMap id).map (ServerRef.mk cn.maglevArray)

/-- `maglev_lookup_node` on the table of a cluster. -/
def ClusterNode.lookupNode (cn : ClusterNode) (key : Str) : Option ServerRef :=
  cn.maglev.bind fun psrv => (maglevLookupNode psrv key).map (ServerRef.mk cn.maglevArray)

/-- The server that a pointer into the present array points at. -/
def ClusterNode.deref (cn : ClusterNode) (srv : ServerRef) : Option ClusterServer :=
  if srv.array = cn.array then cn.servers[srv.place]? else none

def ClusterNode.owner (cn : ClusterNode) (key : Str) : Option ClusterServer :=
  (cn.lookupNode key).bind cn.deref

/-- The server at some distance after the owner of a key. -/
def ClusterNode.successor (cn : ClusterNode) (key : Str) (i : Nat) : Option ClusterServer :=
  (cn.owner key).bind fun srv => cn.servers[(srv.index + i) % cn.servers.length]?

/-! ## After the configuration -/

section Push

variable {cluster : ClusterConfig} {cn : ClusterNode}

/-- What `cluster_push_json` leaves. -/
structure Configured (cluster : ClusterConfig) (cn : ClusterNode) : Prop where
  array : cn.array = 0
  maglevArray : cn.maglevArray = 0
  servers : cn.servers = cluster.sortedNames.mapIdx (.make cluster.oplogSize none)
  maglev : if cluster.sortedNames = [] then cn.maglev = none
    else cn.maglev = maglevBuild cluster.sortedNames
  name : cluster.name = some cn.name
  replicaFactor : cn.replicaFactor = configGetIntstrJson cluster.replicaFactor
  type : cn.type = if cluster.type = some (cstr "sharedlock") then .sharedlock else .oplog
  shardingKey : cn.shardingKey = cluster.shardingKey.map shardingKeys

lemma configured_of_push (h : clusterPushJson cluster = some cn) : Configured cluster cn := by
  simp only [clusterPushJson, bind_eq_bind, bind_eq_some_iff] at h
  obtain ⟨name, hname, maglev, hmaglev, hcn⟩ := h
  obtain rfl := some.inj hcn
  refine ⟨rfl, rfl, rfl, ?_, hname, rfl, rfl, rfl⟩
  rw [pushMaglev] at hmaglev
  by_cases hempty : cluster.sortedNames = []
  · rw [if_pos hempty] at hmaglev ⊢
    exact (some.inj hmaglev).symm
  · rw [if_neg hempty] at hmaglev ⊢
    obtain ⟨psrv, hpsrv, rfl⟩ := map_eq_some_iff.1 hmaglev
    exact hpsrv.symm

lemma push_isSome (h : cluster.name.isSome) : (clusterPushJson cluster).isSome := by
  obtain ⟨name, hname⟩ := isSome_iff_exists.1 h
  rw [clusterPushJson, hname]
  by_cases hempty : cluster.sortedNames = []
  · simp [pushMaglev, hempty]
  · obtain ⟨psrv, hpsrv, -⟩ := maglevBuild_spec hempty
    simp [pushMaglev, hempty, hpsrv]

variable (h : Configured cluster cn)
include h

lemma Configured.length : cn.servers.length = cluster.sortedNames.length := by
  rw [h.servers, length_mapIdx]

lemma Configured.getElem? (i : Nat) :
    cn.servers[i]? = cluster.sortedNames[i]?.map (.make cluster.oplogSize none i) := by
  rw [h.servers, List.getElem?_mapIdx]

/-- Every key has an owner, whose successors follow it in the array. -/
lemma Configured.owner (hne : cluster.sortedNames ≠ []) (key : Str) :
    ∃ psrv i, maglevBuild cluster.sortedNames = some psrv ∧ maglevLookupNode psrv key = some i ∧
      i < cluster.sortedNames.length ∧ cn.owner key = cn.servers[i]? ∧
      ∀ k, cn.successor key k = cn.servers[(i + k) % cn.servers.length]? := by
  obtain ⟨psrv, hpsrv, -⟩ := maglevBuild_spec hne
  obtain ⟨i, hi, hlookup⟩ := lookup_build hne hpsrv key
  have hmaglev : cn.maglev = some psrv := by
    have := h.maglev
    rwa [if_neg hne, hpsrv] at this
  have howner : cn.owner key = cn.servers[i]? := by
    simp [ClusterNode.owner, ClusterNode.lookupNode, ClusterNode.deref, hmaglev, hlookup,
      h.array, h.maglevArray]
  refine ⟨psrv, i, hpsrv, hlookup, hi, howner, fun k => ?_⟩
  rw [successor, howner, h.getElem?, List.getElem?_eq_getElem hi]
  rfl

lemma Configured.owner_none (hempty : cluster.sortedNames = [])
    (key : Str) : cn.owner key = none := by
  have hmaglev := h.maglev
  rw [if_pos hempty] at hmaglev
  rw [ClusterNode.owner, ClusterNode.lookupNode, hmaglev]
  rfl

end Push

/-! ## Agreement -/

instance : Std.TransCmp strcmp := inferInstanceAs (Std.TransOrd Str)

instance : Std.LawfulEqCmp strcmp := inferInstanceAs (Std.LawfulEqOrd Str)

lemma clusterSortCompare_trans (a b c : Str) (hab : clusterSortCompare a b = true)
    (hbc : clusterSortCompare b c = true) : clusterSortCompare a c = true :=
  Std.TransCmp.isLE_trans hab hbc

lemma clusterSortCompare_total (a b : Str) :
    (clusterSortCompare a b || clusterSortCompare b a) = true := by
  have hswap : strcmp b a = (strcmp a b).swap := Std.OrientedCmp.eq_swap
  rw [clusterSortCompare, clusterSortCompare, hswap]
  cases strcmp a b <;> rfl

lemma clusterSortCompare_antisymm {a b : Str} (hab : clusterSortCompare a b = true)
    (hba : clusterSortCompare b a = true) : a = b :=
  Std.LawfulEqCmp.eq_of_compare (Std.OrientedCmp.isLE_antisymm hab hba)

lemma pairwise_sortedNames (cluster : ClusterConfig) :
    cluster.sortedNames.Pairwise fun a b => clusterSortCompare a b = true :=
  pairwise_mergeSort clusterSortCompare_trans clusterSortCompare_total _

variable {cluster cluster' : ClusterConfig}

lemma sortedNames_perm (hperm : cluster.servers.Perm cluster'.servers) :
    cluster.sortedNames = cluster'.sortedNames := by
  have hnames : cluster.serverNames.Perm cluster'.serverNames := hperm.filterMap id
  refine List.Perm.eq_of_pairwise (fun a b _ _ => clusterSortCompare_antisymm)
    (pairwise_sortedNames cluster) (pairwise_sortedNames cluster') ?_
  exact (mergeSort_perm _ _).trans (hnames.trans (mergeSort_perm _ _).symm)

lemma Configured.name_eq {cn cn' : ClusterNode}
    (h : Configured cluster cn) (h' : Configured cluster' cn')
    (hnames : cluster.sortedNames = cluster'.sortedNames) (i : Nat) :
    cn.servers[i]?.map ClusterServer.name = cn'.servers[i]?.map ClusterServer.name := by
  rw [h.getElem?, h'.getElem?, hnames, Option.map_map, Option.map_map]
  rfl

/-- Members whose configurations list the same servers agree on the owner of every key and on
all its successors, and there is one if there are servers. -/
theorem owners_agree {cluster cluster' : ClusterConfig} {cn cn' : ClusterNode}
    (hpush : clusterPushJson cluster = some cn) (hpush' : clusterPushJson cluster' = some cn')
    (hperm : cluster.servers.Perm cluster'.servers) (key : Str) :
    (cn.owner key).map ClusterServer.name = (cn'.owner key).map ClusterServer.name ∧
    (∀ i, (cn.successor key i).map ClusterServer.name =
      (cn'.successor key i).map ClusterServer.name) ∧
    (cluster.serverNames ≠ [] → ∀ i, (cn.owner key).isSome ∧ (cn.successor key i).isSome) := by
  have h := configured_of_push hpush
  have h' := configured_of_push hpush'
  have hnames := sortedNames_perm hperm
  by_cases hne : cluster.sortedNames = []
  · have hnone := h.owner_none hne key
    have hnone' := h'.owner_none (hnames ▸ hne) key
    refine ⟨by rw [hnone, hnone'], fun i => ?_, fun hservers => ?_⟩
    · rw [successor, successor, hnone, hnone']
      rfl
    · have hperm := mergeSort_perm cluster.serverNames clusterSortCompare
      exact absurd (nil_perm.1 (hne ▸ hperm)) hservers
  · obtain ⟨psrv, i, hpsrv, hlookup, hi, howner, hsucc⟩ := h.owner hne key
    obtain ⟨psrv', i', hpsrv', hlookup', -, howner', hsucc'⟩ := h'.owner (hnames ▸ hne) key
    obtain rfl : psrv = psrv' := by
      rw [← hnames, hpsrv] at hpsrv'
      exact some.inj hpsrv'
    obtain rfl : i = i' := some.inj (hlookup.symm.trans hlookup')
    have hlen : cn.servers.length = cn'.servers.length := by
      rw [h.length, h'.length, hnames]
    have hsome : ∀ j, j < cn.servers.length → cn.servers[j]?.isSome := fun j hj => by
      rw [List.getElem?_eq_getElem hj]
      rfl
    refine ⟨?_, fun k => ?_, fun _ k => ⟨?_, ?_⟩⟩
    · rw [howner, howner', h.name_eq h' hnames]
    · rw [hsucc, hsucc', hlen, h.name_eq h' hnames]
    · rw [howner]
      exact hsome i (h.length ▸ hi)
    · rw [hsucc]
      exact hsome _ (Nat.mod_lt _ (h.length ▸ Nat.zero_lt_of_lt hi))

/-- A cluster with these servers and nothing else. -/
def plainCluster (servers : List (Option Str)) : ClusterConfig :=
  ⟨some (cstr "c"), none, servers, none, none, none⟩

lemma exists_plainCluster (servers : List (Option Str)) :
    ∃ cn, clusterPushJson (plainCluster servers) = some cn :=
  isSome_iff_exists.1 (push_isSome rfl)

/-- Two members that list two servers the other way round. -/
theorem owners_agree_swapped : ∃ cn cn',
    clusterPushJson (plainCluster [some (cstr "a"), some (cstr "b")]) = some cn ∧
    clusterPushJson (plainCluster [some (cstr "b"), some (cstr "a")]) = some cn' ∧
    (cn.owner (cstr "up")).map ClusterServer.name =
      (cn'.owner (cstr "up")).map ClusterServer.name := by
  obtain ⟨cn, hcn⟩ := exists_plainCluster [some (cstr "a"), some (cstr "b")]
  obtain ⟨cn', hcn'⟩ := exists_plainCluster [some (cstr "b"), some (cstr "a")]
  exact ⟨cn, cn', hcn, hcn', (owners_agree hcn hcn' (.swap _ _ _) (cstr "up")).1⟩

/-! ## Searching by name -/

variable {srv : ClusterServer} {i : Nat}

section Search

variable {cn : ClusterNode}

def ClusterNode.names (cn : ClusterNode) : List Str := cn.servers.map ClusterServer.name

def ClusterNode.Sorted (cn : ClusterNode) : Prop :=
  cn.names.Pairwise fun a b => clusterSortCompare a b = true

lemma nameAt_eq (hi : i < cn.names.length) : cn.nameAt i = cn.names[i] := by
  rw [nameAt, ← List.getElem?_map, ← names, List.getElem?_eq_getElem hi]
  rfl

/-- A sorted array is in the order that the search needs. -/
lemma rising_of_sorted (h : cn.Sorted) (replica : Str) :
    BinarySearch.Rising (fun i => strcmp (cn.nameAt i) replica) cn.names.length := by
  have hle : ∀ i j, i ≤ j → j < cn.names.length → (strcmp (cn.nameAt i) (cn.nameAt j)).isLE := by
    intro i j hij hj
    rw [nameAt_eq (by omega), nameAt_eq hj]
    rcases Nat.lt_or_eq_of_le hij with hlt | rfl
    · exact pairwise_iff_getElem.1 h i j (by omega) hj hlt
    · have hself : strcmp cn.names[i] cn.names[i] = .eq := Std.ReflCmp.compare_self
      rw [hself]
      rfl
  constructor
  · intro i j hij hj hgt
    exact Std.TransCmp.gt_of_isGE_of_gt (Std.OrientedCmp.isGE_iff_isLE.2 (hle i j hij hj)) hgt
  · intro i j hij hj hlt
    exact Std.TransCmp.lt_of_isLE_of_lt (hle i j hij hj) hlt

lemma name_of_found {replica : Str}
    (h : getServerOplogByNode cn replica = some srv) : srv.name = replica ∧ srv ∈ cn.servers := by
  rw [getServerOplogByNode] at h
  split_ifs at h
  obtain ⟨i, hi, hsrv⟩ := bind_eq_some_iff.1 h
  have hcmp := (BinarySearch.search_sound hi).1
  rw [nameAt, hsrv] at hcmp
  exact ⟨Std.LawfulEqCmp.eq_of_compare hcmp, mem_of_getElem? hsrv⟩

/-- In a sorted array every server is found. -/
lemma found_of_sorted (h : cn.Sorted) (replica : Str) :
    (∃ srv, getServerOplogByNode cn replica = some srv ∧ srv.name = replica) ↔
      replica ∈ cn.names := by
  constructor
  · rintro ⟨srv, hsrv, rfl⟩
    exact mem_map_of_mem (name_of_found hsrv).2
  · intro hmem
    obtain ⟨i, hi, rfl⟩ := getElem_of_mem hmem
    have hlen : cn.names.length = cn.servers.length := length_map _
    have hcmp : strcmp (cn.nameAt i) cn.names[i] = .eq := by
      rw [nameAt_eq hi]
      exact Std.ReflCmp.compare_self
    have hfuel : cn.servers.length - 1 < 0 + cn.servers.length := by omega
    obtain ⟨k, hk⟩ := BinarySearch.search_complete (rising_of_sorted h cn.names[i]) hcmp hfuel
      (Nat.zero_le i) (by omega) (by omega)
    have hle := (BinarySearch.search_sound hk).2
    have hfound : getServerOplogByNode cn cn.names[i] = some cn.servers[k] := by
      rw [getServerOplogByNode, if_neg (length_pos_iff.1 (by omega)), hk]
      exact List.getElem?_eq_getElem (by omega)
    exact ⟨_, hfound, (name_of_found hfound).1⟩

end Search

/-! ## Membership -/

/-- The table of servers is in order: sorted and numbered, the entries of the Maglev table point
at servers, and the search by name finds the servers. -/
structure ClusterNode.Consistent (cn : ClusterNode) : Prop where
  sorted : cn.Sorted
  index : ∀ (i : Nat) (srv : ClusterServer), cn.servers[i]? = some srv → srv.index = i
  entries : ∀ ref ∈ cn.entries, ∃ srv, cn.deref ref = some srv
  found : ∀ replica, (∃ srv, getServerOplogByNode cn replica = some srv ∧ srv.name = replica) ↔
    replica ∈ cn.names

lemma names_mapIdx (size : Nat) (me : Option Str) (names : List Str) :
    (names.mapIdx (ClusterServer.make size me)).map ClusterServer.name = names := by
  refine List.ext_getElem? fun i => ?_
  rw [List.getElem?_map, List.getElem?_mapIdx, Option.map_map]
  exact Option.map_id_apply

lemma index_mapIdx {size : Nat} {me : Option Str} {names : List Str}
    (h : (names.mapIdx (ClusterServer.make size me))[i]? = some srv) : srv.index = i := by
  rw [List.getElem?_mapIdx] at h
  obtain ⟨name, -, rfl⟩ := map_eq_some_iff.1 h
  rfl

variable {cluster : ClusterConfig} {cn : ClusterNode}

section

variable (h : Configured cluster cn)
include h

/-- The entries of the table point into the first array. -/
lemma Configured.entries (ref : ServerRef) (href : ref ∈ cn.entries) :
    ∃ i, i < cluster.sortedNames.length ∧ ref = ⟨0, i⟩ := by
  rw [ClusterNode.entries, h.maglevArray] at href
  have hmaglev := h.maglev
  split_ifs at hmaglev with hempty
  · rw [hmaglev] at href
    cases href
  · obtain ⟨psrv, hpsrv, -, hlen, hfull⟩ := maglevBuild_spec hempty
    rw [hmaglev, hpsrv] at href
    obtain ⟨i, hi, rfl⟩ := mem_map.1 href
    obtain ⟨entry, hentry, rfl⟩ := mem_filterMap.1 hi
    obtain ⟨c, hc, hget⟩ := getElem_of_mem hentry
    obtain ⟨i', hi', hget'⟩ := hfull c (hlen ▸ hc)
    rw [List.getElem?_eq_getElem hc, hget] at hget'
    obtain rfl : i = i' := some.inj (some.inj hget')
    exact ⟨i, hi', rfl⟩

/-- After the configuration everything is in order. -/
lemma Configured.consistent : cn.Consistent := by
  have hsorted : cn.Sorted := by
    rw [ClusterNode.Sorted, names, h.servers, names_mapIdx]
    exact pairwise_sortedNames cluster
  refine ⟨hsorted, ?_, ?_, found_of_sorted hsorted⟩
  · intro i srv hsrv
    rw [h.servers] at hsrv
    exact index_mapIdx hsrv
  · intro ref href
    obtain ⟨i, hi, rfl⟩ := h.entries ref href
    have hlt : i < cn.servers.length := h.length.symm ▸ hi
    exact ⟨cn.servers[i], by rw [deref, if_pos h.array.symm, List.getElem?_eq_getElem hlt]⟩

lemma Configured.entries_ne (hne : cluster.sortedNames ≠ []) : ∃ ref, ref ∈ cn.entries := by
  obtain ⟨psrv, hpsrv, hpos, hlen, hfull⟩ := maglevBuild_spec hne
  have hmaglev := h.maglev
  rw [if_neg hne, hpsrv] at hmaglev
  obtain ⟨i, -, hget⟩ := hfull 0 hpos
  refine ⟨⟨cn.maglevArray, i⟩, ?_⟩
  rw [ClusterNode.entries, hmaglev]
  exact mem_map_of_mem (mem_filterMap.2 ⟨some i, mem_of_getElem? hget, rfl⟩)

end

def afterUpdates (me : Option Str) (cn : ClusterNode) (lists : List (List Str)) : ClusterNode :=
  lists.foldl (clusterK8sPeersUpdateServers me) cn

section Updates

variable (me : Option Str) {lists : List (List Str)} {l : List Str}

lemma update_keeps (cn : ClusterNode) (hl : l ≠ []) :
    (clusterK8sPeersUpdateServers me cn l).array = cn.array + 1 ∧
    (clusterK8sPeersUpdateServers me cn l).entries = cn.entries := by
  rw [clusterK8sPeersUpdateServers, if_neg hl]
  exact ⟨rfl, rfl⟩

lemma afterUpdates_keeps (hne : ∀ l ∈ lists, l ≠ []) (cn : ClusterNode) :
    (afterUpdates me cn lists).array = cn.array + lists.length ∧
    (afterUpdates me cn lists).entries = cn.entries := by
  induction lists generalizing cn with
  | nil => exact ⟨rfl, rfl⟩
  | cons l lists ih =>
    obtain ⟨harray, hentries⟩ := update_keeps me cn (hne l mem_cons_self)
    obtain ⟨harray', hentries'⟩ := ih (forall_mem_cons.1 hne).2
      (clusterK8sPeersUpdateServers me cn l)
    refine ⟨harray'.trans ?_, hentries'.trans hentries⟩
    rw [length_cons]
    omega

lemma servers_afterUpdates (lists : List (List Str)) (cn : ClusterNode) (hl : l ≠ []) :
    ∃ size, (afterUpdates me cn (lists ++ [l])).servers = l.mapIdx (.make size me) := by
  rw [afterUpdates, foldl_append, foldl_cons, clusterK8sPeersUpdateServers, if_neg hl]
  exact ⟨_, rfl⟩

variable {cluster : ClusterConfig} {cn : ClusterNode}

/-- The Maglev table of a cluster with servers outlives its array. -/
lemma Configured.not_consistent (h : Configured cluster cn) (hservers : cluster.sortedNames ≠ [])
    (hne : ∀ l ∈ lists, l ≠ []) (hlists : lists ≠ []) :
    ¬ (afterUpdates me cn lists).Consistent := by
  intro hcons
  obtain ⟨harray, hentries⟩ := afterUpdates_keeps me hne cn
  obtain ⟨ref, href⟩ := h.entries_ne hservers
  obtain ⟨srv, hsrv⟩ := hcons.entries ref (hentries ▸ href)
  obtain ⟨i, -, rfl⟩ := h.entries ref href
  have hpos := length_pos_iff.2 hlists
  have hold : ¬ (0 = (afterUpdates me cn lists).array) := by
    omega
  rw [deref, if_neg hold] at hsrv
  cases hsrv

/-- Without a Maglev table it is the order of the last list that counts. -/
lemma Configured.consistent_of_last (h : Configured cluster cn) (hservers : cluster.sortedNames = [])
    (hne : ∀ m ∈ lists ++ [l], m ≠ []) : (afterUpdates me cn (lists ++ [l])).Consistent ↔
      l.Pairwise fun a b => clusterSortCompare a b = true := by
  obtain ⟨-, hentries⟩ := afterUpdates_keeps me hne cn
  have hl : l ≠ [] := hne l (mem_append_right _ mem_cons_self)
  obtain ⟨size, hsize⟩ := servers_afterUpdates me lists cn hl
  have hsorted : (afterUpdates me cn (lists ++ [l])).Sorted ↔
      l.Pairwise fun a b => clusterSortCompare a b = true := by
    rw [ClusterNode.Sorted, names, hsize, names_mapIdx]
  refine ⟨fun hcons => hsorted.1 hcons.sorted, fun hl => ?_⟩
  refine ⟨hsorted.2 hl, fun i srv hsrv => ?_, fun ref href => ?_, found_of_sorted (hsorted.2 hl)⟩
  · rw [hsize] at hsrv
    exact index_mapIdx hsrv
  · rw [hentries] at href
    obtain ⟨i, hi, -⟩ := h.entries ref href
    rw [hservers] at hi
    cases hi

lemma sortedNames_eq_nil : cluster.sortedNames = [] ↔ cluster.serverNames = [] := by
  have hperm := mergeSort_perm cluster.serverNames clusterSortCompare
  exact ⟨fun h => nil_perm.1 (h ▸ hperm), fun h => perm_nil.1 (h ▸ hperm)⟩

/-- The table of servers stays in order exactly as long as it is not updated, or, for a cluster
that was configured without servers, when the last list is sorted. -/
theorem server_table_iff (hpush : clusterPushJson cluster = some cn) (hne : ∀ l ∈ lists, l ≠ []) :
    (afterUpdates me cn lists).Consistent ↔ lists = [] ∨ cluster.serverNames = [] ∧
        ∀ l ∈ lists.getLast?, l.Pairwise fun a b => clusterSortCompare a b = true := by
  have h := configured_of_push hpush
  rw [← sortedNames_eq_nil]
  rcases eq_nil_or_concat lists with rfl | ⟨ls, l, rfl⟩
  · exact ⟨fun _ => .inl rfl, fun _ => h.consistent⟩
  · rw [concat_eq_append] at *
    have hcat : ls ++ [l] ≠ [] := append_ne_nil_of_right_ne_nil _ (cons_ne_nil _ _)
    rw [or_iff_right hcat]
    by_cases hservers : cluster.sortedNames = []
    · rw [h.consistent_of_last me hservers hne]
      simp [hservers]
    · exact ⟨fun hcons => absurd hcons (h.not_consistent me hservers hne hcat),
        fun hright => absurd hright.1 hservers⟩

end Updates

/-- A cluster without servers takes the servers of a sorted list. -/
theorem server_table_sorted : ∃ cn, clusterPushJson (plainCluster []) = some cn ∧
    (afterUpdates none cn [[cstr "b"], [cstr "a", cstr "b"]]).Consistent := by
  obtain ⟨cn, hcn⟩ := exists_plainCluster []
  refine ⟨cn, hcn, (server_table_iff none hcn (by decide)).2 (.inr ⟨rfl, ?_⟩)⟩
  intro l hl
  obtain rfl : [cstr "a", cstr "b"] = l := some.inj hl
  decide

/-- The peers of a cluster of two servers are reported unchanged. -/
theorem server_table_stale :
    ∃ cn, clusterPushJson (plainCluster [some (cstr "a"), some (cstr "b")]) = some cn ∧
      ¬ (afterUpdates none cn [[cstr "a", cstr "b"]]).Consistent := by
  obtain ⟨cn, hcn⟩ := exists_plainCluster [some (cstr "a"), some (cstr "b")]
  refine ⟨cn, hcn, (configured_of_push hcn).not_consistent none ?_ (by decide) (by decide)⟩
  rw [ne_eq, sortedNames_eq_nil]
  decide

end Alligator
