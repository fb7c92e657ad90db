import Alligator.Filetailer.Model

/-!
# One path of an aggregate

An aggregate may tail many files.  For each path it behaves like a machine of its own
(`PathView`): the entry of the path, its chain if there is one, and what was passed on.  The
entry and the chain belong together (`Views`): `read_inflight` is up exactly while there is a
chain, so there is never a second one, and a path with `read_dirty` is in the pending set, with
the idle callback armed if no chain will arm it.

`Views.step` says what a step of the aggregate is for one path: nothing, or a step of the
machine of that path.  This needs an entry that is made without looking at the file, so the
state is not `stream`.
-/

namespace Alligator

open List Function Option Tailer

variable {id : Nat} {r : Request} {phase : Phase}

/-! ## The machine of a path -/

/-- What belongs to a path: its file, its entry, the sizes that crawls saw, its chain and what
was passed on of it. -/
structure PathView where
  file : FileId
  content : FileId → Str
  stat : FileStat
  checks : Nat → Option Nat
  chain : Option (Nat × Phase)
  passed : List (FileId × Str)

inductive PathAct where
  | other
  | append (file : FileId) (bytes : Str)
  | replace (file : FileId)
  | crawl (fresh : Nat)
  | check (id fresh size : Nat)
  | notify (fresh : Nat) (rename change : Bool)
  | serve (more : Nat)
  | idle (fresh : Nat)

namespace PathView

def size (v : PathView) : Nat := (v.content v.file).length

def start (v : PathView) (fresh : Nat) : PathView :=
  { v with
    stat := { v.stat with readInflight := true, readDirty := false }
    chain := some (fresh, .opening) }

def mark (v : PathView) : PathView := { v with stat := { v.stat with readDirty := true } }

variable (state : FileStatState)

/-- A chain is started unless there is one, or nothing to read. -/
def check (v : PathView) (fresh size : Nat) : PathView :=
  if v.stat.readInflight then v.mark
  else
    let v := { v with stat := fileStatOffsetForRead state v.stat }
    if filetailerShouldScheduleOpen v.stat v.file size then v.start fresh else v

/-- The position is given up, as the path was renamed. -/
def rename (v : PathView) : PathView :=
  { v with stat := { fileStatResetOnRotation state v.stat v.size with id := some v.file } }

def notify (v : PathView) (fresh : Nat) (rename change : Bool) : PathView :=
  let v := if rename then v.rename state else v
  if rename || change then v.check state fresh v.size else v

def onRead (v : PathView) (file : FileId) (readOffset : Nat) (data : Str) : PathView :=
  if data = [] then
    if v.size < readOffset then
      { v with stat := fileStatResetOnRotation state v.stat v.size }
    else if readOffset < v.size then v.mark
    else v
  else
    let strLen := filetailerStrLen data.length
    let v := { v with
      stat := fileStatAddOffset state v.stat strLen
      passed := v.passed ++ [(file, data.take strLen)] }
    if readOffset + strLen < v.size then v.mark else v

def serve (v : PathView) (more : Nat) : PathView :=
  match v.chain with
  | none => v
  | some (id, .opening) => { v with chain := some (id, .opened v.file) }
  | some (id, .opened file) =>
    let stat := filetailerSyncOffsetFromFd state v.stat file (v.content file).length
    { v with stat := stat, chain := some (id, .reading file stat.offset) }
  | some (id, .reading file offset) =>
    { v with chain := some (id, .read file offset (readAt (v.content file) offset more)) }
  | some (id, .read file offset data) =>
    { v.onRead state file offset data with chain := some (id, .closing) }
  | some (_, .closing) =>
    { v with stat := { v.stat with readInflight := false }, chain := none }

end PathView

/-- A step of the machine of a path.  The idle callback may start another path. -/
def PathStep (state : FileStatState) : PathAct → PathView → PathView → Prop
  | .other, v, v' => v' = v
  | .append file bytes, v, v' =>
    v' = { v with content := update v.content file (v.content file ++ bytes) }
  | .replace file, v, v' => v' = { v with file := file }
  | .crawl fresh, v, v' => v' = { v with checks := update v.checks fresh (some v.size) }
  | .check id fresh size, v, v' =>
    v' = { v with checks := update v.checks id none }.check state fresh size
  | .notify fresh rename change, v, v' => v' = v.notify state fresh rename change
  | .serve more, v, v' => v' = v.serve state more
  | .idle fresh, v, v' =>
    v' = v ∨ (v.stat.readDirty = true ∧ v.stat.readInflight = false ∧ v' = v.start fresh)

def Tailer.act (s : Tailer) (path : Str) : TailEvent → PathAct
  | .append file bytes => .append file bytes
  | .replace p file => if p = path then .replace file else .other
  | .crawl p => if p = path then .crawl s.next else .other
  | .notify p rename change => if p = path then .notify s.next rename change else .other
  | .serve id more =>
    match s.requests id with
    | some (.stat p size) => if p = path then .check id s.next size else .other
    | some (.chain p _) => if p = path then .serve more else .other
    | none => .other
  | .idle _ => .idle s.next

def PathAct.ComesFrom (s : Tailer) (path : Str) (e : TailEvent) : PathAct → Prop
  | .other => True
  | .append file bytes => e = .append file bytes
  | .replace file => e = .replace path file
  | .crawl fresh => e = .crawl path ∧ fresh = s.next
  | .check id fresh size =>
    (∃ more, e = .serve id more) ∧ s.requests id = some (.stat path size) ∧ fresh = s.next
  | .notify fresh rename change => e = .notify path rename change ∧ fresh = s.next
  | .serve more => ∃ id phase, e = .serve id more ∧ s.requests id = some (.chain path phase)
  | .idle fresh => (∃ walk, e = .idle walk) ∧ fresh = s.next

lemma act_comesFrom (s : Tailer) (path : Str) (e : TailEvent) :
    (s.act path e).ComesFrom s path e := by
  cases e with
  | append file bytes => rfl
  | replace p file =>
    rw [act]
    split
    · rename_i hp
      rw [hp]
      rfl
    · trivial
  | crawl p | notify p rename change =>
    rw [act]
    split
    · rename_i hp
      rw [hp]
      exact ⟨rfl, rfl⟩
    · trivial
  | serve id more =>
    rw [act]
    split
    · rename_i p size hreq
      split
      · rename_i hp
        exact ⟨⟨more, rfl⟩, hp ▸ hreq, rfl⟩
      · trivial
    · rename_i p phase hreq
      split
      · rename_i hp
        exact ⟨id, phase, rfl, hp ▸ hreq⟩
      · trivial
    · trivial
  | idle walk => exact ⟨⟨walk, rfl⟩, rfl⟩

/-! ### What a step of a path leaves alone -/

variable {act : PathAct}

section Frame

variable {state : FileStatState} {v v' : PathView}

section

variable (state : FileStatState) (v : PathView)

lemma PathView.check_frame (fresh size : Nat) : (v.check state fresh size).checks = v.checks ∧
      (v.check state fresh size).content = v.content := by
  rw [PathView.check]
  split
  · exact ⟨rfl, rfl⟩
  · dsimp only
    split <;> exact ⟨rfl, rfl⟩

lemma PathView.notify_frame (fresh : Nat)
    (rename change : Bool) : (v.notify state fresh rename change).checks = v.checks ∧
      (v.notify state fresh rename change).content = v.content := by
  have hrename : (if rename = true then v.rename state else v).checks = v.checks ∧
      (if rename = true then v.rename state else v).content = v.content := by
    split <;> exact ⟨rfl, rfl⟩
  rw [PathView.notify]
  generalize (if rename = true then v.rename state else v) = u at hrename ⊢
  split
  · obtain ⟨h1, h2⟩ := u.check_frame state fresh u.size
    exact ⟨h1.trans hrename.1, h2.trans hrename.2⟩
  · exact hrename

variable {state v} in
/-- An answer resets the offset, passes data on or leaves the view, and may mark it. -/
lemma PathView.onRead_of {P : PathView → Prop} {file : FileId} {offset : Nat} {data : Str}
    (mark : ∀ u, P u → P u.mark) (keep : P v) (reset : data = [] → v.size < offset →
      P { v with stat := fileStatResetOnRotation state v.stat v.size })
    (pass : data ≠ [] → P { v with
      stat := fileStatAddOffset state v.stat (filetailerStrLen data.length)
      passed := v.passed ++ [(file, data.take (filetailerStrLen data.length))] }) :
    P (v.onRead state file offset data) := by
  rw [PathView.onRead]
  split_ifs with hdata hlt hmore
  · exact reset hdata hlt
  · exact mark v keep
  · exact keep
  · dsimp only
    split
    · exact mark _ (pass hdata)
    · exact pass hdata

lemma PathView.onRead_frame (file : FileId) (offset : Nat)
    (data : Str) : (v.onRead state file offset data).checks = v.checks ∧
      (v.onRead state file offset data).content = v.content :=
  onRead_of (P := fun u => u.checks = v.checks ∧ u.content = v.content) (fun _ h => h) ⟨rfl, rfl⟩
    (fun _ _ => ⟨rfl, rfl⟩) fun _ => ⟨rfl, rfl⟩

lemma PathView.serve_frame (more : Nat) :
    (v.serve state more).checks = v.checks ∧ (v.serve state more).content = v.content := by
  rw [PathView.serve]
  split
  · exact ⟨rfl, rfl⟩
  · exact ⟨rfl, rfl⟩
  · exact ⟨rfl, rfl⟩
  · exact ⟨rfl, rfl⟩
  · exact v.onRead_frame state _ _ _
  · exact ⟨rfl, rfl⟩

end

/-- A step that does not append to a file leaves what is in it. -/
lemma PathStep.content_eq {f : FileId} (hact : ∀ bytes, act ≠ .append f bytes)
    (hs : PathStep state act v v') : v'.content f = v.content f := by
  cases act with
  | append g bytes =>
    obtain rfl := hs
    exact update_of_ne (fun h => hact bytes (by rw [h])) _ _
  | check id fresh size =>
    obtain rfl := hs
    rw [(PathView.check_frame state _ fresh size).2]
  | notify fresh rename change =>
    obtain rfl := hs
    rw [(v.notify_frame state fresh rename change).2]
  | serve more =>
    obtain rfl := hs
    rw [(v.serve_frame state more).2]
  | idle fresh =>
    rcases hs with rfl | ⟨-, -, rfl⟩ <;> rfl
  | _ =>
    obtain rfl := hs
    rfl

/-- What a crawl saw is kept until its callback runs. -/
lemma PathStep.checks_eq {size : Nat} (hchecks : v.checks id = some size)
    (hcrawl : act ≠ .crawl id) (hcheck : ∀ fresh n, act ≠ .check id fresh n)
    (hs : PathStep state act v v') : v'.checks id = some size := by
  cases act with
  | crawl fresh =>
    obtain rfl := hs
    have hne : id ≠ fresh := fun h => hcrawl (by rw [h])
    exact (update_of_ne hne _ _).trans hchecks
  | check id' fresh n =>
    obtain rfl := hs
    have hne : id ≠ id' := fun h => hcheck fresh n (by rw [h])
    rw [(PathView.check_frame state _ fresh n).1]
    exact (update_of_ne hne _ _).trans hchecks
  | notify fresh rename change =>
    obtain rfl := hs
    rw [(v.notify_frame state fresh rename change).1]
    exact hchecks
  | serve more =>
    obtain rfl := hs
    rw [(v.serve_frame state more).1]
    exact hchecks
  | idle fresh =>
    rcases hs with rfl | ⟨-, -, rfl⟩ <;> exact hchecks
  | _ =>
    obtain rfl := hs
    exact hchecks

end Frame

/-! ### What every step of a path keeps -/

/-- A state in which the position of a file is kept and used. -/
def FileStatState.Keeps (state : FileStatState) : Prop := state = .begin ∨ state = .save

variable {state : FileStatState}

lemma FileStatState.Keeps.ne_stream (h : state.Keeps) : state ≠ .stream := by
  rcases h with rfl | rfl <;> decide

lemma fileStatOffsetForRead_of_keeps (h : state.Keeps) (fst : FileStat) :
    fileStatOffsetForRead state fst = fst := by
  rcases h with rfl | rfl <;> rfl

/-- What is kept by everything that can happen to a path, apart from another file and its
announcement. -/
structure Preserved (state : FileStatState) (P : PathView → Prop) : Prop where
  append : ∀ {v}, P v → ∀ file bytes,
    P { v with content := update v.content file (v.content file ++ bytes) }
  checks : ∀ {v}, P v → ∀ checks, P { v with checks := checks }
  flags : ∀ {v}, P v → ∀ inflight dirty,
    P { v with stat := { v.stat with readInflight := inflight, readDirty := dirty } }
  start : ∀ {v}, P v → ∀ id, P { v with chain := some (id, .opening) }
  opened : ∀ {v id}, P v → v.chain = some (id, .opening) →
    P { v with chain := some (id, .opened v.file) }
  synced : ∀ {v id file}, P v → v.chain = some (id, .opened file) →
    let stat := filetailerSyncOffsetFromFd state v.stat file (v.content file).length
    P { v with stat := stat, chain := some (id, .reading file stat.offset) }
  read : ∀ {v id file offset}, P v → v.chain = some (id, .reading file offset) → ∀ more,
    P { v with chain := some (id, .read file offset (readAt (v.content file) offset more)) }
  passed : ∀ {v id file offset data}, P v → v.chain = some (id, .read file offset data) →
    P { v.onRead state file offset data with chain := some (id, .closing) }
  closed : ∀ {v}, P v → P { v with chain := none }

section Preserved

variable {state : FileStatState} (hstate : state.Keeps) {P : PathView → Prop} {v v' : PathView}

variable (h : Preserved state P)
include h

include hstate in
lemma Preserved.check (hv : P v) (fresh size : Nat) : P (v.check state fresh size) := by
  rw [PathView.check]
  split
  · exact h.flags hv _ true
  · dsimp only
    rw [fileStatOffsetForRead_of_keeps hstate]
    split
    · exact h.start (h.flags hv true false) fresh
    · exact hv

lemma Preserved.serve (hv : P v) (more : Nat) : P (v.serve state more) := by
  rw [PathView.serve]
  split
  · exact hv
  · exact h.opened hv ‹_›
  · exact h.synced hv ‹_›
  · exact h.read hv ‹_› more
  · exact h.passed hv ‹_›
  · exact h.closed (h.flags hv false v.stat.readDirty)

include hstate in
/-- A step keeps it, if the announcement of another file does. -/
lemma Preserved.step (hv : P v) (hfile : ∀ file, act ≠ .replace file)
    (hrename : ∀ fresh change, act = .notify fresh true change → P (v.rename state))
    (hs : PathStep state act v v') : P v' := by
  cases act with
  | other =>
    obtain rfl := hs
    exact hv
  | append file bytes =>
    obtain rfl := hs
    exact h.append hv file bytes
  | replace file => exact absurd rfl (hfile file)
  | crawl fresh =>
    obtain rfl := hs
    exact h.checks hv _
  | check id fresh size =>
    obtain rfl := hs
    exact h.check hstate (h.checks hv _) fresh size
  | notify fresh rename change =>
    obtain rfl := hs
    rw [PathView.notify]
    cases rename with
    | true =>
      exact h.check hstate (hrename fresh change rfl) fresh _
    | false =>
      split
      · exact h.check hstate hv fresh _
      · exact hv
  | serve more =>
    obtain rfl := hs
    exact h.serve hv more
  | idle fresh =>
    rcases hs with rfl | ⟨-, -, rfl⟩
    · exact hv
    · exact h.start (h.flags hv true false) fresh

end Preserved

/-! ## The view of a state -/

def passedOf (path : Str) (cs : List Chunk) : List (FileId × Str) :=
  (cs.filter (·.path = path)).map fun c => (c.file, c.data)

def Request.path : Request → Str
  | .stat path _ => path
  | .chain path _ => path

structure Shows (s : Tailer) (path : Str) (v : PathView) : Prop where
  file : v.file = s.disk.file path
  content : v.content = s.disk.content
  stat : v.stat = s.stat path
  passed : v.passed = passedOf path s.passed
  checks : ∀ id size, s.requests id = some (.stat path size) ↔ v.checks id = some size
  chain : ∀ id phase, s.requests id = some (.chain path phase) ↔ v.chain = some (id, phase)
  fresh : ∀ id, s.next ≤ id → s.requests id = none

/-- A state seen from a path, between two callbacks. -/
structure Views (s : Tailer) (path : Str) (v : PathView) : Prop extends Shows s path v where
  inflight : v.stat.readInflight = v.chain.isSome
  pending : v.stat.readDirty = true → path ∈ s.pending
  armed : v.stat.readDirty = true → v.stat.readInflight = false → s.idleActive = true

variable {s : Tailer} {path : Str}

lemma Shows.size {v : PathView} (h : Shows s path v) : v.size = s.disk.size path := by
  rw [PathView.size, Disk.size, h.file, h.content]

lemma Shows.stat_eq {v : PathView} (h : Shows s path v) : s.stat path = v.stat:= h.stat.symm

/-! ### Small changes -/

variable {next : Option Request}

section Small

variable {s : Tailer} {path : Str} {v : PathView}

lemma stat_setStat (s : Tailer) (path q : Str) (fst : FileStat) :
    (s.setStat q fst).stat path = if path = q then fst else s.stat path := by
  rw [stat, setStat]
  dsimp only
  by_cases h : path = q
  · rw [if_pos h, h, update_self]
    rfl
  · rw [if_neg h, update_of_ne h]
    rfl

section

variable (h : Shows s path v)
include h

lemma Shows.setStat (fst : FileStat) : Shows (s.setStat path fst) path { v with stat := fst } :=
  { h with stat := by rw [stat_setStat, if_pos rfl] }

lemma Shows.setStat_of_ne {q : Str} (hq : q ≠ path) (fst : FileStat) :
    Shows (s.setStat q fst) path v :=
  { h with stat := by rw [stat_setStat, if_neg hq.symm]; exact h.stat }

omit h in
lemma Shows.getOrCreate (hstate : state ≠ .stream) (h : Shows s path v)
    (q : Str) : Shows (fileStatGetOrCreate state s q) path v := by
  rw [fileStatGetOrCreate]
  cases hq : s.stats q with
  | some fst => exact h
  | none =>
    refine { h with stat := ?_ }
    rw [stat_setStat]
    split
    · rename_i heq
      rw [h.stat, Tailer.stat, heq, hq]
      rfl
    · exact h.stat

lemma Shows.pendingAdd (q : Str) : Shows (filetailerPendingAdd s q) path v := by
  rw [filetailerPendingAdd]
  split
  · exact h
  · exact { h with }

lemma Shows.lt_next (hid : s.requests id = some r) : id < s.next := by
  by_contra hle
  rw [h.fresh id (by omega)] at hid
  cases hid

lemma Shows.next_unused :
    (∀ size, v.checks s.next ≠ some size) ∧ ∀ phase, v.chain ≠ some (s.next, phase) := by
  have hnone := h.fresh s.next le_rfl
  refine ⟨fun size hs => ?_, fun phase hp => ?_⟩
  · rw [(h.checks _ _).mpr hs] at hnone
    cases hnone
  · rw [(h.chain _ _).mpr hp] at hnone
    cases hnone

end

variable {x : Option Request} (h : Shows s path v)
include h

/-- One place of the requests changes. -/
lemma Shows.put {next : Nat}
    {checks : Nat → Option Nat} {chain : Option (Nat × Phase)} (hid : id < next)
    (hnext : s.next ≤ next) (hchecks : ∀ i ≠ id, v.checks i = checks i)
    (hcheck : ∀ size, x = some (.stat path size) ↔ checks id = some size)
    (hchains : ∀ i ≠ id, ∀ ph, v.chain = some (i, ph) ↔ chain = some (i, ph))
    (hchain : ∀ ph, x = some (.chain path ph) ↔ chain = some (id, ph)) :
    Shows { s with requests := update s.requests id x, next := next } path
      { v with checks := checks, chain := chain } := by
  refine { h with checks := fun i size => ?_, chain := fun i ph => ?_, fresh := fun i hi => ?_ } <;>
    dsimp only
  · by_cases heq : i = id
    · rw [heq, update_self, hcheck]
    · rw [update_of_ne heq, h.checks, hchecks i heq]
  · by_cases heq : i = id
    · rw [heq, update_self, hchain]
    · rw [update_of_ne heq, h.chain, hchains i heq]
  · rw [update_of_ne (hid.trans_le hi).ne']
    exact h.fresh i (hnext.trans hi)

lemma Shows.put_of_ne {next : Nat} (hid : id < next)
    (hnext : s.next ≤ next) (hold : ∀ r ∈ s.requests id, r.path ≠ path)
    (hnew : ∀ r ∈ x, r.path ≠ path) :
    Shows { s with requests := update s.requests id x, next := next } path v := by
  refine h.put hid hnext (fun _ _ => rfl) (fun size => ?_) (fun _ _ _ => Iff.rfl) fun ph => ?_
  · rw [← h.checks]
    exact ⟨fun hx => absurd rfl (hnew _ hx), fun hx => absurd rfl (hold _ hx)⟩
  · rw [← h.chain]
    exact ⟨fun hx => absurd rfl (hnew _ hx), fun hx => absurd rfl (hold _ hx)⟩

lemma Shows.submit (hchain : v.chain = none) (phase : Phase) :
    Shows (s.submit (.chain path phase)) path { v with chain := some (s.next, phase) } := by
  refine h.put s.next.lt_succ_self s.next.le_succ (fun _ _ => rfl) ?_ (fun i hi ph => ?_) ?_
  · simp [h.next_unused.1]
  · simp [hchain, hi.symm]
  · simp

lemma Shows.submit_stat (size : Nat) : Shows (s.submit (.stat path size)) path
      { v with checks := update v.checks s.next (some size) } := by
  refine h.put s.next.lt_succ_self s.next.le_succ (fun i hi => (update_of_ne hi ..).symm) ?_
    (fun _ _ _ => Iff.rfl) ?_
  · simp
  · simp [h.next_unused.2]

lemma Shows.submit_of_ne (hr : r.path ≠ path) : Shows (s.submit r) path v := by
  refine h.put_of_ne s.next.lt_succ_self s.next.le_succ ?_ ?_
  · simp [h.fresh s.next le_rfl]
  · simpa using hr

lemma Shows.answer (hchain : v.chain = some (id, phase)) (next : Option Phase) :
    Shows (s.answer id (next.map (.chain path))) path { v with chain := next.map (id, ·) } := by
  have hid := (h.chain id phase).mpr hchain
  refine h.put (h.lt_next hid) le_rfl (fun _ _ => rfl) (fun size => ?_) (fun i hi ph => ?_) ?_
  · rw [← h.checks, hid]
    cases next <;> simp
  · rw [hchain]
    cases next <;> simp [hi.symm]
  · cases next <;> simp

lemma Shows.answer_stat {size : Nat} (hid : s.requests id = some (.stat path size)) :
    Shows (s.answer id none) path { v with checks := update v.checks id none } := by
  refine h.put (h.lt_next hid) le_rfl (fun i hi => (update_of_ne hi ..).symm) ?_
    (fun _ _ _ => Iff.rfl) fun ph => ?_
  · simp
  · rw [← h.chain, hid]
    simp

lemma Shows.answer_of_ne (hid : s.requests id = some r) (hr : r.path ≠ path)
    (hnext : ∀ r', next = some r' → r'.path ≠ path) : Shows (s.answer id next) path v := by
  refine h.put_of_ne (h.lt_next hid) le_rfl ?_ hnext
  rw [hid]
  simpa using hr

end Small

/-! ### Changes that belong to another path -/

/-- A change that leaves a path alone. -/
structure Aside (path : Str) (s s' : Tailer) : Prop where
  shows : ∀ {v}, Shows s path v → Shows s' path v
  pending : path ∈ s.pending → path ∈ s'.pending
  armed : s.idleActive = true → s'.idleActive = true

lemma Aside.refl (path : Str) (s : Tailer) : Aside path s s :=
  ⟨fun h => h, fun h => h, fun h => h⟩

lemma Aside.trans {s1 s2 : Tailer} (h : Aside path s s1) (h' : Aside path s1 s2) :
    Aside path s s2 :=
  ⟨fun hv => h'.shows (h.shows hv), fun hp => h'.pending (h.pending hp),
    fun ha => h'.armed (h.armed ha)⟩

lemma Views.aside {s' : Tailer} {v : PathView} (h : Views s path v)
    (ha : Aside path s s') : Views s' path v :=
  { ha.shows h.toShows with
    inflight := h.inflight
    pending := fun hd => ha.pending (h.pending hd)
    armed := fun hd hi => ha.armed (h.armed hd hi) }

section Aside

variable {state : FileStatState} (hstate : state ≠ .stream) {path q : Str} (hq : q ≠ path)

section

variable (s : Tailer)

include hstate in
lemma aside_getOrCreate (q : Str) : Aside path s (fileStatGetOrCreate state s q) := by
  refine ⟨fun h => h.getOrCreate hstate q, ?_, ?_⟩
  · rw [fileStatGetOrCreate]
    split <;> exact fun h => h
  · rw [fileStatGetOrCreate]
    split <;> exact fun h => h

include hq in
lemma aside_setStat (fst : FileStat) : Aside path s (s.setStat q fst) :=
  ⟨fun h => h.setStat_of_ne hq fst, fun h => h, fun h => h⟩

lemma mem_pendingAdd (q : Str) : q ∈ (filetailerPendingAdd s q).pending := by
  rw [filetailerPendingAdd]
  split
  · assumption
  · exact mem_append_right _ (mem_singleton_self q)

lemma aside_pendingAdd (q : Str) : Aside path s (filetailerPendingAdd s q) := by
  refine ⟨fun h => h.pendingAdd q, ?_, ?_⟩
  · rw [filetailerPendingAdd]
    split
    · exact fun h => h
    · exact fun h => mem_append_left _ h
  · rw [filetailerPendingAdd]
    split <;> exact fun h => h

include hq in
lemma aside_pendingRemove : Aside path s (filetailerPendingRemove s q) :=
  ⟨fun h => { h with }, fun h => mem_filter.mpr ⟨h, by simpa using hq.symm⟩, fun h => h⟩

lemma aside_arm : Aside path s (filetailerArmRestartIdle s) :=
  ⟨fun h => { h with }, fun h => h, fun _ => rfl⟩

lemma aside_submit (hr : r.path ≠ path) : Aside path s (s.submit r) :=
  ⟨fun h => h.submit_of_ne hr, fun h => h, fun h => h⟩

end

lemma aside_answer (hid : s.requests id = some r)
    (hr : r.path ≠ path) (hnext : ∀ r', next = some r' → r'.path ≠ path) :
    Aside path s (s.answer id next) :=
  ⟨fun h => h.answer_of_ne hid hr hnext, fun h => h, fun h => h⟩

variable (s : Tailer)

include hstate hq in
lemma aside_startChain : Aside path s (filetailerStartChain state s q) := by
  rw [filetailerStartChain]
  refine (aside_getOrCreate hstate s q).trans ?_
  split
  · exact (aside_setStat hq _ _).trans (aside_pendingAdd _ q)
  · exact (aside_setStat hq _ _).trans ((aside_pendingRemove hq _).trans
      (aside_submit _ hq))

include hstate hq in
lemma aside_scheduleContentReadSz (filesize : Nat) :
    Aside path s (filetailerScheduleContentReadSz state s q filesize) := by
  rw [filetailerScheduleContentReadSz]
  refine (aside_getOrCreate hstate s q).trans ?_
  dsimp only
  split
  · exact (aside_setStat hq _ _).trans (aside_pendingAdd _ q)
  · generalize fileStatGetOrCreate state s q = s1
    refine (aside_setStat hq s1 (fileStatOffsetForRead state (s1.stat q))).trans ?_
    split
    · exact aside_startChain hstate hq _
    · exact Aside.refl path _

include hstate hq in
lemma aside_markMoreData : Aside path s (filetailerMarkMoreData state s q) := by
  exact (aside_getOrCreate hstate s q).trans ((aside_setStat hq _ _).trans (aside_pendingAdd _ q))

include hstate hq in
lemma aside_onFileChange (rename change : Bool) :
    Aside path s (onFileChange state s q rename change) := by
  have hschedule : ∀ s1, Aside path s1 (if (rename || change) = true then
      filetailerScheduleContentReadSz state s1 q (s.disk.size q) else s1) := by
    intro s1
    split
    · exact aside_scheduleContentReadSz hstate hq s1 _
    · exact Aside.refl path s1
  rw [onFileChange]
  refine Aside.trans ?_ (hschedule _)
  split
  · exact (aside_getOrCreate hstate s q).trans (aside_setStat hq _ _)
  · exact Aside.refl path s

end Aside

/-! ### Changes that belong to the path -/

lemma next_getOrCreate (state : FileStatState) (s : Tailer) (path : Str) :
    (fileStatGetOrCreate state s path).next = s.next := by
  rw [fileStatGetOrCreate]
  split <;> rfl

section Own

variable {state : FileStatState} (hstate : state ≠ .stream) {s : Tailer} {path : Str} {v : PathView}

section

variable (h : Views s path v)
include h

include hstate in
lemma Views.getOrCreate : Views (fileStatGetOrCreate state s path) path v :=
  h.aside (aside_getOrCreate hstate s path)

lemma Views.mark (hv : v.stat.readInflight = true) :
    Views (filetailerPendingAdd (s.setStat path { v.stat with readDirty := true }) path) path v.mark
    where
  toShows := (h.setStat _).pendingAdd path
  inflight := h.inflight
  pending _ := mem_pendingAdd _ path
  armed _ hi := by
    rw [PathView.mark, hv] at hi
    cases hi

lemma Views.chain_none (hv : v.stat.readInflight = false) : v.chain = none := by
  have := h.inflight
  rw [hv] at this
  exact not_isSome_iff_eq_none.mp (by rw [← this]; decide)

omit h in
lemma Shows.start (h : Shows s path v) (hchain : v.chain = none) :
    Views ((filetailerPendingRemove (s.setStat path
      { v.stat with readInflight := true, readDirty := false }) path).submit
        (.chain path .opening)) path (v.start s.next) := by
  have hstat : Shows (filetailerPendingRemove (s.setStat path
      { v.stat with readInflight := true, readDirty := false }) path) path
      { v with stat := { v.stat with readInflight := true, readDirty := false } } :=
    { h.setStat _ with }
  exact
    { hstat.submit hchain .opening with
      inflight := rfl
      pending := fun hd => by cases hd
      armed := fun hd => by cases hd }

omit h in
include hstate in
lemma Shows.startChain (h : Shows s path v) (hchain : v.chain = none)
    (hv : v.stat.readInflight = false) :
    Views (filetailerStartChain state s path) path (v.start s.next) := by
  have hnext := next_getOrCreate state s path
  have hg := h.getOrCreate hstate path
  rw [filetailerStartChain]
  rw [hg.stat_eq, if_neg (by rw [hv]; decide), ← hnext]
  exact hg.start hchain

include hstate in
lemma Views.scheduleContentReadSz (filesize : Nat) :
    Views (filetailerScheduleContentReadSz state s path filesize) path
      (v.check state s.next filesize) := by
  have hnext := next_getOrCreate state s path
  have hg := h.getOrCreate hstate
  rw [filetailerScheduleContentReadSz, PathView.check]
  dsimp only
  rw [hg.stat_eq]
  generalize fileStatGetOrCreate state s path = s1 at hg hnext
  by_cases hv : v.stat.readInflight = true
  · rw [if_pos hv, if_pos hv]
    exact hg.mark hv
  · rw [if_neg hv, if_neg hv, ← hnext]
    have hflags : (fileStatOffsetForRead state v.stat).readInflight = v.stat.readInflight ∧
        (fileStatOffsetForRead state v.stat).readDirty = v.stat.readDirty := by
      rw [fileStatOffsetForRead]
      split <;> exact ⟨rfl, rfl⟩
    have hset : Views (s1.setStat path (fileStatOffsetForRead state v.stat)) path
        { v with stat := fileStatOffsetForRead state v.stat } :=
      { hg.setStat _ with
        inflight := hflags.1.trans hg.inflight
        pending := fun hd => hg.pending (hflags.2.symm.trans hd)
        armed := fun hd hi => hg.armed (hflags.2.symm.trans hd) (hflags.1.symm.trans hi) }
    have hfile : (s1.setStat path (fileStatOffsetForRead state v.stat)).disk.file path = v.file :=
      hset.file.symm
    rw [hfile]
    split
    · have hfree := hflags.1.trans (Bool.not_eq_true _ ▸ hv)
      exact hset.toShows.startChain hstate (hset.chain_none hfree) hfree
    · exact hset

include hstate in
lemma Views.rename : Views ((fileStatGetOrCreate state s path).setStat path
      { fileStatResetOnRotation state ((fileStatGetOrCreate state s path).stat path)
          (s.disk.size path) with
        id := some ((fileStatGetOrCreate state s path).disk.file path) }) path (v.rename state) := by
  have hg := h.getOrCreate hstate
  rw [hg.stat_eq, ← h.size, ← hg.file]
  exact
    { hg.setStat _ with
      inflight := hg.inflight
      pending := hg.pending
      armed := hg.armed }

include hstate in
lemma Views.onFileChange (rename change : Bool) :
    Views (onFileChange state s path rename change) path (v.notify state s.next rename change) := by
  rw [Alligator.onFileChange, PathView.notify]
  cases rename with
  | true =>
    have hsize : (v.rename state).size = s.disk.size path := h.size
    simp only [Bool.true_or, ↓reduceIte]
    rw [hsize, ← next_getOrCreate state s path]
    exact (h.rename hstate).scheduleContentReadSz hstate _
  | false =>
    cases change with
    | true =>
      simp only [Bool.or_true, Bool.false_eq_true, ↓reduceIte]
      rw [h.size]
      exact h.scheduleContentReadSz hstate _
    | false => exact h

end

/-! ### The chain -/

lemma fileStat_flags_sync (state : FileStatState) (fst : FileStat) (file : FileId) (size : Nat) :
    (filetailerSyncOffsetFromFd state fst file size).readInflight = fst.readInflight ∧
      (filetailerSyncOffsetFromFd state fst file size).readDirty = fst.readDirty := by
  rw [filetailerSyncOffsetFromFd, fileStatOffsetForRead]
  split <;> split <;> (try split) <;> exact ⟨rfl, rfl⟩

variable {file : FileId} (h : Views s path v)
include h

include hstate in
lemma Views.fileOnOpen (hchain : v.chain = some (id, .opened file)) (more : Nat) :
    Views (fileOnOpen state s id path file) path (v.serve state more) := by
  have hg := h.getOrCreate hstate
  rw [Alligator.fileOnOpen, PathView.serve, hchain]
  dsimp only
  rw [hg.stat_eq, ← hg.content]
  generalize hstat : filetailerSyncOffsetFromFd state v.stat file (v.content file).length = stat
  obtain ⟨hinflight, hdirty⟩ := fileStat_flags_sync state v.stat file (v.content file).length
  rw [hstat] at hinflight hdirty
  have hanswer := (hg.setStat stat).answer hchain (some (.reading file stat.offset))
  exact
    { hanswer with
      inflight := hinflight.trans (hg.inflight.trans (by rw [hchain]; rfl))
      pending := fun hd => hg.pending (hdirty.symm.trans hd)
      armed := fun hd hi => hg.armed (hdirty.symm.trans hd) (hinflight.symm.trans hi) }

lemma Views.setStat {fst : FileStat}
    (hi : fst.readInflight = v.stat.readInflight) (hd : fst.readDirty = v.stat.readDirty) :
    Views (s.setStat path fst) path { v with stat := fst } :=
  { h.toShows.setStat fst with
    inflight := hi.trans h.inflight
    pending := fun h' => h.pending (hd.symm.trans h')
    armed := fun h' h'' => h.armed (hd.symm.trans h') (hi.symm.trans h'') }

lemma Views.answer (hchain : v.chain = some (id, phase)) (next : Phase) :
    Views (s.answer id (some (.chain path next))) path { v with chain := some (id, next) } :=
  { h.toShows.answer hchain (some next) with
    inflight := h.inflight.trans (by rw [hchain]; rfl)
    pending := h.pending
    armed := h.armed }

include hstate in
lemma Views.markMoreData (hv : v.stat.readInflight = true) :
    Views (filetailerMarkMoreData state s path) path v.mark := by
  have hg := h.getOrCreate hstate
  rw [filetailerMarkMoreData]
  rw [hg.stat_eq]
  exact hg.mark hv

omit h in
lemma Shows.pass (h : Shows s path v) (file : FileId) (data : Str) :
    Shows { s with passed := s.passed ++ [⟨path, file, data⟩] } path
      { v with passed := v.passed ++ [(file, data)] } :=
  { h with
    passed := by
      rw [h.passed, passedOf, passedOf, filter_append]
      simp }

include hstate in
lemma Views.filetailerOnRead {offset : Nat} {data : Str}
    (hchain : v.chain = some (id, .read file offset data)) (more : Nat) :
    Views (filetailerOnRead state s id path file offset data) path (v.serve state more) := by
  have hv : v.stat.readInflight = true := by rw [h.inflight, hchain]; rfl
  have hkeep : (v.onRead state file offset data).chain = v.chain :=
    PathView.onRead_of (P := fun u => u.chain = v.chain) (fun _ h => h) rfl (fun _ _ => rfl)
      fun _ => rfl
  rw [Alligator.filetailerOnRead, PathView.serve, hchain]
  refine Views.answer (v := v.onRead state file offset data) ?_ (hkeep.trans hchain) .closing
  rw [PathView.onRead, ← h.size]
  dsimp only
  split
  · have hg := h.getOrCreate hstate
    split
    · rw [hg.stat_eq]
      exact hg.setStat rfl rfl
    · split
      · exact hg.markMoreData hstate hv
      · exact hg
  · rw [h.stat_eq]
    have hset : Views (s.setStat path
        (fileStatAddOffset state v.stat (filetailerStrLen data.length))) path _ :=
      h.setStat rfl rfl
    have hpass : Views { s.setStat path
        (fileStatAddOffset state v.stat (filetailerStrLen data.length)) with
        passed := s.passed ++ [⟨path, file, data.take (filetailerStrLen data.length)⟩] } path _ :=
      { hset.pass file (data.take (filetailerStrLen data.length)) with
        inflight := hset.inflight
        pending := hset.pending
        armed := hset.armed }
    by_cases hmore : offset + filetailerStrLen data.length < v.size
    · rw [if_pos hmore]
      split
      · exact hpass.markMoreData hstate hv
      · exact absurd hmore ‹_›
    · rw [if_neg hmore]
      split
      · exact absurd ‹_› hmore
      · exact hpass

include hstate in
lemma Views.filetailerClose (hchain : v.chain = some (id, .closing))
    (more : Nat) : Views (filetailerClose state s id path) path (v.serve state more) := by
  have hanswer := (h.toShows.answer hchain none).getOrCreate hstate path
  rw [Alligator.filetailerClose, PathView.serve, hchain]
  dsimp only [map_none] at hanswer ⊢
  have hpending : v.stat.readDirty = true →
      path ∈ (fileStatGetOrCreate state (s.answer id none) path).pending := fun hd =>
    (aside_getOrCreate hstate (s.answer id none) path).pending (h.pending hd)
  generalize fileStatGetOrCreate state (s.answer id none) path = s1 at hanswer hpending ⊢
  have hset := hanswer.setStat { v.stat with readInflight := false }
  rw [hanswer.stat_eq]
  split
  · exact
      { hset.pendingAdd path with
        inflight := rfl
        pending := fun _ => mem_pendingAdd _ path
        armed := fun _ _ => rfl }
  · rename_i hclean
    exact
      { hset with
        inflight := rfl
        pending := hpending
        armed := fun hd => absurd hd hclean }

end Own

/-! ### The idle callback -/

def Tailer.Runnable (s : Tailer) (path : Str) : Prop :=
  (s.stat path).readDirty = true ∧ (s.stat path).readInflight = false

/-- What the walk over the pending set finds. -/
structure Picked (s : Tailer) (seen : List Str) (ctx : PickCtx) : Prop where
  first : ∀ p, ctx.first = some p → p ∈ seen ∧ s.Runnable p
  after : ∀ p, ctx.after = some p → p ∈ seen ∧ s.Runnable p
  some_first : (∃ p ∈ seen, s.Runnable p) → ctx.first.isSome = true

lemma Picked.foreach {seen : List Str} {ctx : PickCtx} (h : Picked s seen ctx)
    (path : Str) : Picked s (seen ++ [path]) (filetailerPendingPickForeach s ctx path) := by
  have hseen : ∀ {p}, p ∈ seen ∧ s.Runnable p → p ∈ seen ++ [path] ∧ s.Runnable p :=
    fun hp => ⟨mem_append_left _ hp.1, hp.2⟩
  rw [filetailerPendingPickForeach]
  dsimp only
  by_cases hrun : s.Runnable path
  · have hpath : path ∈ seen ++ [path] ∧ s.Runnable path := ⟨by simp, hrun⟩
    rw [if_neg (by rw [hrun.1, hrun.2]; decide)]
    have hfirst : Picked s (seen ++ [path])
        (if ctx.first.isNone = true then { ctx with first := some path } else ctx) := by
      split
      · refine ⟨fun p hp => ?_, fun p hp => hseen (h.after p hp), fun _ => rfl⟩
        obtain rfl := some.inj hp
        exact hpath
      · rename_i hsome
        refine ⟨fun p hp => hseen (h.first p hp), fun p hp => hseen (h.after p hp), fun _ => ?_⟩
        cases hf : ctx.first with
        | none =>
          rw [hf] at hsome
          exact absurd rfl hsome
        | some p => rfl
    generalize (if ctx.first.isNone = true then { ctx with first := some path } else ctx) = ctx1
      at hfirst ⊢
    split
    · exact ⟨hfirst.first, hfirst.after, hfirst.some_first⟩
    · split
      · exact hfirst
      · split
        · refine ⟨hfirst.first, fun p hp => ?_, hfirst.some_first⟩
          obtain rfl := some.inj hp
          exact hpath
        · exact hfirst
  · have hskip : (!(s.stat path).readDirty || (s.stat path).readInflight) = true := by
      by_contra hno
      rw [Bool.not_eq_true, Bool.or_eq_false_iff, Bool.not_eq_false'] at hno
      exact hrun hno
    rw [if_pos hskip]
    refine ⟨fun p hp => hseen (h.first p hp), fun p hp => hseen (h.after p hp), ?_⟩
    rintro ⟨p, hp, hr⟩
    rcases mem_append.mp hp with hp | hp
    · exact h.some_first ⟨p, hp, hr⟩
    · rw [mem_singleton.mp hp] at hr
      exact absurd hr hrun

lemma picked (s : Tailer) : Picked s s.pending (filetailerPendingPick s) := by
  have hfold : ∀ {todo seen : List Str} {ctx : PickCtx}, Picked s seen ctx →
      Picked s (seen ++ todo) (todo.foldl (filetailerPendingPickForeach s) ctx) := by
    intro todo
    induction todo with
    | nil =>
      intro seen ctx h
      rw [append_nil]
      exact h
    | cons p todo ih =>
      intro seen ctx h
      have := ih (h.foreach p)
      rw [append_assoc] at this
      exact this
  have hnone : Picked s [] {} := by
    refine ⟨?_, ?_, ?_⟩
    · intro p hp
      cases hp
    · intro p hp
      cases hp
    · rintro ⟨p, hp, -⟩
      cases hp
  exact hfold hnone

/-- The idle callback starts a path that can be started, if there is one. -/
lemma pickNext_cases (s : Tailer) :
    (filetailerPendingPickNext s = (s, none) ∧ ∀ p ∈ s.pending, ¬s.Runnable p) ∨
      ∃ path ∈ s.pending, s.Runnable path ∧
        filetailerPendingPickNext s = ({ s with rrAfter := path.take 1023 }, some path) := by
  have h := picked s
  rw [filetailerPendingPickNext]
  generalize filetailerPendingPick s = ctx at h ⊢
  obtain ⟨first, after, seenRr⟩ := ctx
  cases after with
  | some p => exact .inr ⟨p, (h.after p rfl).1, (h.after p rfl).2, rfl⟩
  | none =>
    cases first with
    | some p => exact .inr ⟨p, (h.first p rfl).1, (h.first p rfl).2, rfl⟩
    | none =>
      refine .inl ⟨rfl, fun p hp hr => ?_⟩
      have := h.some_first ⟨p, hp, hr⟩
      cases this

section Idle

variable {state : FileStatState} (hstate : state ≠ .stream) {s : Tailer} {path : Str} {v : PathView}

lemma armed_of_runnable (h : ∃ p ∈ s.pending, s.Runnable p) :
    (if filetailerPendingHasRunnable s then filetailerArmRestartIdle s else s).idleActive =
      true := by
  have hfirst : filetailerPendingHasRunnable s = true := (picked s).some_first h
  rw [if_pos hfirst]
  rfl

lemma Shows.rearm (h : Shows s path v) :
    Shows (if filetailerPendingHasRunnable s then filetailerArmRestartIdle s else s) path v := by
  split
  · exact { h with }
  · exact h

lemma pending_rearm (s : Tailer) :
    (if filetailerPendingHasRunnable s then filetailerArmRestartIdle s else s).pending =
      s.pending := by
  split <;> rfl

/-- What the idle callback does is seen from a path: its chain is started, or nothing
happens. -/
lemma Views.rearm (h : Shows s path v) (hi : v.stat.readInflight = v.chain.isSome)
    (hp : v.stat.readDirty = true → path ∈ s.pending) :
    Views (if filetailerPendingHasRunnable s then filetailerArmRestartIdle s else s) path v where
  toShows := h.rearm
  inflight := hi
  pending hd := by
    rw [pending_rearm]
    exact hp hd
  armed hd hi' := by
    refine armed_of_runnable ⟨path, hp hd, ?_⟩
    rw [Tailer.Runnable, h.stat_eq]
    exact ⟨hd, hi'⟩

include hstate in
/-- The idle callback starts the chain of the path, or there is another path to be started. -/
lemma Views.restartIdleCb (h : Views s path v) {walk : List Str} (hwalk : walk.Perm s.pending) :
    ∃ v', Views (filetailerRestartIdleCb state { s with pending := walk }) path v' ∧
      ((v' = v ∧ (s.Runnable path → ∃ q, q ≠ path ∧ s.Runnable q)) ∨
        (s.Runnable path ∧ v' = v.start s.next)) := by
  have hpending : v.stat.readDirty = true → path ∈ walk := fun hd =>
    hwalk.mem_iff.mpr (h.pending hd)
  have hoff : Shows { s with pending := walk, idleActive := false } path v := { h.toShows with }
  rw [filetailerRestartIdleCb]
  rcases pickNext_cases { s with pending := walk, idleActive := false } with
    ⟨hpick, hnone⟩ | ⟨q, hq, hrun, hpick⟩
  · rw [hpick]
    refine ⟨v, Views.rearm hoff h.inflight hpending, .inl ⟨rfl, fun hrun => ?_⟩⟩
    rw [Tailer.Runnable, h.stat_eq] at hrun
    exact absurd (by rw [Tailer.Runnable, hoff.stat_eq]; exact hrun) (hnone path (hpending hrun.1))
  · rw [hpick]
    have hafter : Shows
        { s with pending := walk, idleActive := false, rrAfter := q.take 1023 } path v :=
      { h.toShows with }
    by_cases hpath : q = path
    · -- the path itself is started
      rw [hpath] at hrun hafter ⊢
      have hv : v.stat.readDirty = true ∧ v.stat.readInflight = false := by
        rw [h.stat]
        exact hrun
      have hstart := hafter.startChain hstate (h.chain_none hv.2) hv.2
      exact ⟨v.start s.next, Views.rearm hstart.toShows hstart.inflight hstart.pending,
        .inr ⟨hrun, rfl⟩⟩
    · have haside := aside_startChain hstate hpath
        { s with pending := walk, idleActive := false, rrAfter := q.take 1023 }
      exact ⟨v, Views.rearm (haside.shows hafter) h.inflight
        (fun hd => haside.pending (hpending hd)), .inl ⟨rfl, fun _ => ⟨q, hpath, hrun⟩⟩⟩

end Idle

/-! ## Steps -/

section Step

variable {state : FileStatState} (hstate : state ≠ .stream) {s s' : Tailer} {path : Str}
  {v : PathView}

lemma requests_getOrCreate (state : FileStatState) (s : Tailer) (q : Str) :
    (fileStatGetOrCreate state s q).requests = s.requests := by
  rw [fileStatGetOrCreate]
  split <;> rfl

lemma requests_pendingAdd (s : Tailer) (q : Str) :
    (filetailerPendingAdd s q).requests = s.requests := by
  rw [filetailerPendingAdd]
  split <;> rfl

lemma requests_markMoreData (state : FileStatState) (s : Tailer) (q : Str) :
    (filetailerMarkMoreData state s q).requests = s.requests := by
  rw [filetailerMarkMoreData, requests_pendingAdd]
  exact requests_getOrCreate state s q

lemma aside_pass {q : Str} (hq : q ≠ path) (s : Tailer) (file : FileId) (data : Str) :
    Aside path s { s with passed := s.passed ++ [⟨q, file, data⟩] } := by
  refine ⟨fun h => { h with passed := ?_ }, fun h => h, fun h => h⟩
  rw [h.passed, passedOf, passedOf, filter_append]
  simp [hq]

include hstate in
lemma aside_serve {q : Str} (hq : q ≠ path) (hid : s.requests id = some (.chain q phase))
    (more : Nat) : Aside path s (s.serve state id more (.chain q phase)) := by
  have hanswer : ∀ s1 : Tailer, s1.requests = s.requests → ∀ next,
      Aside path s1 (s1.answer id (some (.chain q next))) := by
    intro s1 hreq next
    refine aside_answer (r := .chain q phase) (by rw [hreq]; exact hid) hq fun r' hr' => ?_
    obtain rfl := some.inj hr'
    exact hq
  have hcreate : Aside path s (fileStatGetOrCreate state s q) := aside_getOrCreate hstate s q
  have hcreq := requests_getOrCreate state s q
  cases phase with
  | opening | reading file offset => exact hanswer s rfl _
  | opened file =>
    exact hcreate.trans ((aside_setStat hq _ _).trans (hanswer (setStat ..) hcreq _))
  | read file offset data =>
    have hbefore : ∀ s1 : Tailer, Aside path s s1 ∧ s1.requests = s.requests →
        Aside path s (s1.answer id (some (.chain q .closing))) :=
      fun s1 h => h.1.trans (hanswer s1 h.2 _)
    apply hbefore
    split
    · generalize fileStatGetOrCreate state s q = s1 at hcreate hcreq ⊢
      split
      · exact ⟨hcreate.trans (aside_setStat hq _ _), hcreq⟩
      · split
        · exact ⟨hcreate.trans (aside_markMoreData hstate hq _),
            (requests_markMoreData state s1 q).trans hcreq⟩
        · exact ⟨hcreate, hcreq⟩
    · dsimp only
      generalize fileStatAddOffset state _ _ = fst
      generalize data.take _ = chunk
      have hpass : Aside path s
          { s.setStat q fst with passed := s.passed ++ [⟨q, file, chunk⟩] } :=
        (aside_setStat hq s fst).trans (aside_pass hq (s.setStat q fst) file chunk)
      split
      · exact ⟨hpass.trans (aside_markMoreData hstate hq _), requests_markMoreData state _ q⟩
      · exact ⟨hpass, rfl⟩
  | closing =>
    rw [serve, filetailerClose]
    have hnone : Aside path s (s.answer id none) := aside_answer hid hq fun r' hr' => by cases hr'
    refine (hnone.trans (aside_getOrCreate hstate _ q)).trans ?_
    generalize fileStatGetOrCreate state (s.answer id none) q = s1
    split
    · exact (aside_setStat hq s1 _).trans ((aside_pendingAdd _ q).trans (aside_arm _))
    · exact aside_setStat hq s1 _

include hstate in
lemma Views.serve (h : Views s path v) (hid : s.requests id = some (.chain path phase))
    (more : Nat) : Views (s.serve state id more (.chain path phase)) path (v.serve state more) := by
  have hchain := (h.chain id phase).mp hid
  cases phase with
  | opening | reading file offset =>
    rw [serve, PathView.serve, hchain]
    first | rw [← h.file] | rw [← h.content]
    exact h.answer hchain _
  | opened file => exact h.fileOnOpen hstate hchain more
  | read file offset data => exact h.filetailerOnRead hstate hchain more
  | closing => exact h.filetailerClose hstate hchain more

include hstate in
/-- What a step of the aggregate is for a path. -/
lemma Views.step (h : Views s path v) {e : TailEvent} (hs : s.step state e = some s') :
    ∃ v', Views s' path v' ∧ PathStep state (s.act path e) v v' := by
  cases e with
  | append file bytes =>
    obtain rfl := some.inj hs
    refine ⟨{ v with content := update v.content file (v.content file ++ bytes) },
      { h with content := ?_ }, rfl⟩
    rw [h.content]
  | replace p file =>
    obtain rfl := some.inj hs
    rw [act]
    by_cases hp : p = path
    · rw [if_pos hp]
      refine ⟨{ v with file := file }, { h with file := ?_ }, rfl⟩
      rw [hp]
      exact (update_self path file s.disk.file).symm
    · rw [if_neg hp]
      refine ⟨v, { h with file := ?_ }, rfl⟩
      rw [h.file]
      exact (update_of_ne (Ne.symm hp) file s.disk.file).symm
  | crawl p =>
    obtain rfl := some.inj hs
    rw [act]
    by_cases hp : p = path
    · rw [if_pos hp, hp, ← h.size]
      exact ⟨_, { h.submit_stat v.size with
        inflight := h.inflight
        pending := h.pending
        armed := h.armed }, rfl⟩
    · rw [if_neg hp]
      exact ⟨v, h.aside (aside_submit s hp), rfl⟩
  | notify p rename change =>
    obtain rfl := some.inj hs
    rw [act]
    by_cases hp : p = path
    · rw [if_pos hp, hp]
      exact ⟨_, h.onFileChange hstate rename change, rfl⟩
    · rw [if_neg hp]
      exact ⟨v, h.aside (aside_onFileChange hstate hp s rename change), rfl⟩
  | serve id more =>
    obtain ⟨r, hr, rfl⟩ := map_eq_some_iff.mp hs
    rw [act, hr]
    cases r with
    | stat p size =>
      dsimp only
      by_cases hp : p = path
      · rw [if_pos hp, hp]
        rw [hp] at hr
        have hdone : Views (s.answer id none) path
            { v with checks := update v.checks id none } :=
          { h.answer_stat hr with
            inflight := h.inflight
            pending := h.pending
            armed := h.armed }
        exact ⟨_, hdone.scheduleContentReadSz hstate size, rfl⟩
      · rw [if_neg hp]
        have hdone : Aside path s (s.answer id none) :=
          aside_answer hr hp fun r' hr' => by cases hr'
        exact ⟨v, h.aside (hdone.trans (aside_scheduleContentReadSz hstate hp _ size)), rfl⟩
    | chain p phase =>
      dsimp only
      by_cases hp : p = path
      · rw [if_pos hp, hp]
        rw [hp] at hr
        exact ⟨_, h.serve hstate hr more, rfl⟩
      · rw [if_neg hp]
        exact ⟨v, h.aside (aside_serve hstate hp hr more), rfl⟩
  | idle walk =>
    rw [Tailer.step] at hs
    split at hs
    · rename_i hidle
      obtain rfl := some.inj hs
      obtain ⟨v', hv', ⟨heq, -⟩ | ⟨hrun, heq⟩⟩ := h.restartIdleCb hstate hidle.2
      · exact ⟨v', hv', .inl heq⟩
      · rw [Tailer.Runnable, h.stat_eq] at hrun
        exact ⟨v', hv', .inr ⟨hrun.1, hrun.2, heq⟩⟩
    · cases hs

/-- A state has one view of a path. -/
lemma Shows.unique {v' : PathView} (h : Shows s path v) (h' : Shows s path v') : v = v' := by
  have hchecks : v.checks = v'.checks := by
    funext id
    refine Option.ext fun size => ?_
    rw [← h.checks, h'.checks]
  have hchain : v.chain = v'.chain := by
    refine Option.ext fun ⟨id, phase⟩ => ?_
    rw [← h.chain, h'.chain]
  obtain ⟨file, content, stat, checks, chain, passed⟩ := v
  obtain ⟨file', content', stat', checks', chain', passed'⟩ := v'
  obtain rfl : file = file' := h.file.trans h'.file.symm
  obtain rfl : content = content' := h.content.trans h'.content.symm
  obtain rfl : stat = stat' := h.stat.trans h'.stat.symm
  obtain rfl : passed = passed' := h.passed.trans h'.passed.symm
  obtain rfl : checks = checks' := hchecks
  obtain rfl : chain = chain' := hchain
  rfl

end Step

end Alligator
