import Alligator.Filetailer.Path

/-!
# Nothing of a tailed file is lost or repeated

For a file that is only appended to, the position is the number of bytes that were passed on,
and they are the first ones of the file (`Once`).  A chain that runs reads where the position
is, as no other chain can move it.
-/

namespace Alligator

open List Function Option

def bytesOf (path : Str) (cs : List Chunk) : Str := (passedOf path cs).flatMap Prod.snd

/-- The event does not give the path another file, nor say so. -/
def TailEvent.Quiet (path : Str) : TailEvent → Prop
  | .replace p _ => p ≠ path
  | .notify p rename _ => p = path → rename = false
  | _ => True

/-- The step does not give the path another file, nor say so. -/
def PathAct.Quiet : PathAct → Prop
  | .replace _ => False
  | .notify _ rename _ => rename = false
  | _ => True

variable {e : TailEvent} {phase : Phase} {disk : Disk}

lemma TailEvent.Quiet.act {path : Str} (h : e.Quiet path) (s : Tailer) : (s.act path e).Quiet := by
  have hfrom := act_comesFrom s path e
  cases hact : s.act path e with
  | replace file =>
    rw [hact] at hfrom
    rw [show e = _ from hfrom] at h
    exact h rfl
  | notify fresh rename change =>
    rw [hact] at hfrom
    rw [hfrom.1] at h
    exact h rfl
  | _ => trivial

/-! ## The position -/

/-- Where a chain is belongs to the file and its position. -/
def Phase.Fits (phase : Phase) (file : FileId) (content : Str) (offset : Nat) : Prop :=
  match phase with
  | .opening => True
  | .opened g => g = file
  | .reading g off => g = file ∧ off = offset
  | .read g off data => g = file ∧ off = offset ∧ data <+: content.drop off
  | .closing => True

/-- The position is the number of the bytes that were passed on. -/
structure Once (f : FileId) (v : PathView) : Prop where
  file : v.file = f
  id : v.stat.id = none ∨ v.stat.id = some f
  passed : v.passed.flatMap Prod.snd = (v.content f).take v.stat.offset
  offset : v.stat.offset ≤ (v.content f).length
  chain : ∀ id phase, v.chain = some (id, phase) → phase.Fits f (v.content f) v.stat.offset

lemma Phase.Fits.grow {f : FileId} {content : Str} {offset : Nat}
    (h : phase.Fits f content offset) (more : Str) : phase.Fits f (content ++ more) offset := by
  cases phase with
  | read g off data =>
    obtain ⟨hg, hoff, hdata⟩ := h
    refine ⟨hg, hoff, ?_⟩
    rw [drop_append]
    exact hdata.trans (prefix_append _ _)
  | _ => exact h

lemma content_grows (content : FileId → Str) (g f : FileId) (bytes : Str) :
    ∃ more, update content g (content g ++ bytes) f = content f ++ more := by
  by_cases hg : f = g
  · refine ⟨bytes, ?_⟩
    rw [hg, update_self]
  · refine ⟨[], ?_⟩
    rw [update_of_ne hg, append_nil]

section Once

variable {state : FileStatState} (hstate : state.Keeps) {f : FileId} {v v' : PathView}

lemma Once.flags (h : Once f v) (inflight dirty : Bool) :
    Once f { v with stat := { v.stat with readInflight := inflight, readDirty := dirty } } :=
  { h with }

lemma Once.append (h : Once f v) (g : FileId) (bytes : Str) :
    Once f { v with content := update v.content g (v.content g ++ bytes) } := by
  obtain ⟨more, hmore⟩ := content_grows v.content g f bytes
  refine ⟨h.file, h.id, ?_, ?_, ?_⟩
  · dsimp only
    rw [hmore, take_append_of_le_length h.offset]
    exact h.passed
  · dsimp only
    rw [hmore, length_append]
    exact h.offset.trans (Nat.le_add_right _ _)
  · intro id phase hchain
    dsimp only
    rw [hmore]
    exact (h.chain id phase hchain).grow more

variable {id : Nat}

lemma Once.goto (h : Once f v) (hphase : phase.Fits f (v.content f) v.stat.offset) :
    Once f { v with chain := some (id, phase) } := by
  refine { h with chain := ?_ }
  intro id' phase' hchain
  obtain ⟨-, rfl⟩ := Prod.mk.inj (some.inj hchain)
  exact hphase

lemma filetailerStrLen_le (n : Nat) : filetailerStrLen n ≤ n := by
  rw [filetailerStrLen]
  split <;> omega

include hstate in
lemma Once.sync (h : Once f v) : filetailerSyncOffsetFromFd state v.stat f (v.content f).length =
      { v.stat with id := some f } := by
  have hid : ¬(v.stat.id ≠ none ∧ v.stat.id ≠ some f) := by
    rintro ⟨hknown, hne⟩
    rcases h.id with h' | h'
    · exact hknown h'
    · exact hne h'
  have hoffset := h.offset
  rw [filetailerSyncOffsetFromFd, if_neg hid, if_neg (by omega)]
  exact fileStatOffsetForRead_of_keeps hstate _

/-- What was read is passed on, and the chain closes the file. -/
lemma Once.onRead (h : Once f v) {data : Str}
    (hdata : data <+: (v.content f).drop v.stat.offset) :
    Once f { v.onRead state f v.stat.offset data with chain := some (id, .closing) } := by
  have hsize : v.size = (v.content f).length := by rw [PathView.size, h.file]
  have hoffset := h.offset
  refine PathView.onRead_of (P := fun u => Once f { u with chain := some (id, .closing) })
    (fun _ h => h.flags _ true) (h.goto trivial) (by omega) fun _ => ?_
  generalize hn : filetailerStrLen data.length = n
  have hle : n ≤ data.length := hn ▸ filetailerStrLen_le _
  have hlen := hdata.length_le
  rw [length_drop] at hlen
  refine ⟨h.file, h.id, ?_, ?_, ?_⟩
  · have htake : data.take n = ((v.content f).drop v.stat.offset).take n := by
      obtain ⟨rest, hrest⟩ := hdata
      rw [← hrest, take_append_of_le_length hle]
    rw [flatMap_append, h.passed]
    dsimp only [fileStatAddOffset]
    rw [take_add, flatMap_cons, flatMap_nil, append_nil, htake]
  · dsimp only [fileStatAddOffset]
    omega
  · intro id' phase hchain
    obtain ⟨-, rfl⟩ := Prod.mk.inj (some.inj hchain)
    trivial

include hstate in
lemma kept_once (f : FileId) : Preserved state (Once f) where
  append h g bytes := h.append g bytes
  checks h _ := { h with }
  flags h inflight dirty := h.flags inflight dirty
  start h id := h.goto trivial
  opened h _ := h.goto h.file
  synced {v id g} h hchain := by
    obtain rfl := h.chain id _ hchain
    rw [h.sync hstate]
    refine ⟨h.file, .inr rfl, h.passed, h.offset, ?_⟩
    intro id' phase hchain'
    obtain ⟨-, rfl⟩ := Prod.mk.inj (some.inj hchain')
    exact ⟨rfl, rfl⟩
  read {v id g off} h hchain more := by
    obtain ⟨rfl, rfl⟩ := h.chain id _ hchain
    exact h.goto ⟨rfl, rfl, take_prefix _ _⟩
  passed {v id g off data} h hchain := by
    obtain ⟨rfl, rfl, hdata⟩ := h.chain id _ hchain
    exact h.onRead hdata
  closed h := { h with chain := fun id phase hchain => by cases hchain }

include hstate in
lemma Once.step (h : Once f v) {act : PathAct} (hact : act.Quiet) (hs : PathStep state act v v') :
    Once f v' := by
  refine (kept_once hstate f).step hstate h ?_ ?_ hs
  · rintro g rfl
    exact hact
  · rintro fresh change rfl
    cases hact

end Once

/-! ## Runs from the beginning -/

/-- An aggregate that has just been made: there are entries from before, and no requests. -/
def Tailer.start (disk : Disk) (stats : Str → Option FileStat) : Tailer :=
  ⟨disk, stats, [], [], false, fun _ => none, 0, []⟩

/-- A chain that was asked for is served to its end, nine bytes after the first at most. -/
def wholeChain (id : Nat) : List TailEvent := List.replicate 5 (.serve id 9)

/-- No chain runs, and none is asked for. -/
def FileStat.AtRest (fst : FileStat) : Prop := fst.readInflight = false ∧ fst.readDirty = false

def PathView.init (disk : Disk) (stats : Str → Option FileStat) (path : Str) : PathView :=
  ⟨disk.file path, disk.content, (stats path).getD {}, fun _ => none, none, []⟩

variable {stats : Str → Option FileStat}

lemma views_start {path : Str} (h : ((stats path).getD {}).AtRest) :
    Views (Tailer.start disk stats) path (PathView.init disk stats path) where
  file := rfl
  content := rfl
  stat := rfl
  passed := rfl
  checks id size := ⟨nofun, nofun⟩
  chain id phase := ⟨nofun, nofun⟩
  fresh _ _ := rfl
  inflight := h.1
  pending hd := absurd (h.2.symm.trans hd) (by decide)
  armed hd := absurd (h.2.symm.trans hd) (by decide)

/-- In any order of events in which the requests succeed, a path has at most one chain, its flag
tells of it, and a read that is still wanted is waited for by it or by the idle callback. -/
theorem one_chain_per_path {state : FileStatState} (hstate : state ≠ .stream) {path : Str}
    (hrest : ((stats path).getD {}).AtRest) {es : List TailEvent} {s : Tailer}
    (hs : (Tailer.start disk stats).run state es = some s) :
    ∃ chain : Option (Nat × Phase), (s.stat path).readInflight = chain.isSome ∧
      (∀ id phase, s.requests id = some (.chain path phase) ↔ chain = some (id, phase)) ∧
      ((s.stat path).readDirty = true → path ∈ s.pending ∧ (chain = none → s.idleActive = true)) := by
  have h : Views (Tailer.start disk stats) path _ := views_start hrest
  generalize Tailer.start disk stats = s0, PathView.init disk stats path = v at h hs
  induction es generalizing s0 v with
  | nil =>
    cases hs
    rw [← h.stat]
    refine ⟨v.chain, h.inflight, h.chain, fun hdirty => ⟨h.pending hdirty, fun hnone => ?_⟩⟩
    exact h.armed hdirty (by rw [h.inflight, hnone]; rfl)
  | cons e es ih =>
    obtain ⟨s1, hs1, hs⟩ := bind_eq_some_iff.1 hs
    obtain ⟨v1, h1, -⟩ := h.step hstate hs1
    exact ih s1 v1 h1 hs

theorem one_chain_notified : ∃ s,
    (Tailer.start ⟨fun _ => ⟨1, 7⟩, fun _ => [97]⟩ fun _ => none).run .begin
      [.notify [97] false true, .notify [97] false true] = some s ∧ [97] ∈ s.pending := by
  refine Exists.imp (fun s hs => ⟨hs, ?_⟩) ⟨_, rfl⟩
  obtain ⟨chain, -, -, h⟩ := one_chain_per_path (by decide) ⟨rfl, rfl⟩ hs
  cases hs
  exact (h rfl).1

/-- A path whose reading starts at the beginning of the file. -/
structure FromZero (disk : Disk) (stats : Str → Option FileStat) (path : Str) : Prop where
  rest : ∀ q, ((stats q).getD {}).AtRest
  offset : ((stats path).getD {}).offset = 0
  id : ((stats path).getD {}).id = none ∨ ((stats path).getD {}).id = some (disk.file path)

lemma FromZero.once {path : Str}
    (h : FromZero disk stats path) : Once (disk.file path) (PathView.init disk stats path) where
  file := rfl
  id := h.id
  passed := by
    dsimp only [PathView.init]
    rw [h.offset]
    rfl
  offset := by
    dsimp only [PathView.init]
    rw [h.offset]
    exact Nat.zero_le _
  chain id phase hchain := by cases hchain

section Finite

variable {state : FileStatState} (hstate : state.Keeps) {path : Str} {f : FileId}

/-- The state has a view in which the position is kept. -/
def ReadOnce (path : Str) (f : FileId) (s : Tailer) : Prop := ∃ v, Views s path v ∧ Once f v

variable {s s' : Tailer} (h : ReadOnce path f s)
include h

lemma ReadOnce.bytes : bytesOf path s.passed = (s.disk.content f).take (s.stat path).offset := by
  obtain ⟨v, hv, honce⟩ := h
  rw [bytesOf, ← hv.passed, honce.passed, ← hv.content, ← hv.stat]

include hstate in
lemma ReadOnce.step (he : e.Quiet path) (hs : s.step state e = some s') : ReadOnce path f s' := by
  obtain ⟨v, hv, honce⟩ := h
  obtain ⟨v', hv', hstep⟩ := hv.step hstate.ne_stream hs
  exact ⟨v', hv', honce.step hstate (he.act s) hstep⟩

include hstate in
lemma ReadOnce.run {es : List TailEvent}
    (hes : ∀ e ∈ es, e.Quiet path) (hs : s.run state es = some s') : ReadOnce path f s' := by
  induction es generalizing s s' with
  | nil =>
    obtain rfl := some.inj hs
    exact h
  | cons e es ih =>
    obtain ⟨s1, hs1, hrun⟩ := bind_eq_some_iff.mp hs
    exact ih (h.step hstate (hes e mem_cons_self) hs1)
      (forall_mem_cons.1 hes).2 hrun

end Finite

end Alligator
