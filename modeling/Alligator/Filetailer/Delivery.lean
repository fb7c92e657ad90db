import Alligator.Filetailer.ReadOnce
import Alligator.Lib.Runs

/-!
# A tailed file is read to its end

That the end of the file is reached is a matter of not losing a wake-up (`PathView.Awake`): as
long as there is more to read and a chain runs that has not read yet, or `read_dirty` is up, the
next callback that is served brings the aggregate nearer to passing on another byte.  The
distance is the number of callbacks that are still to be served before that (`PathView.rank`).
-/

namespace Alligator

open Runs List Function Option PathView

variable {u : PathView} {n id start : Nat} {phase : Phase} {e : TailEvent} {s : Tailer}

/-! ## Nothing is forgotten -/

/-- How many callbacks are still to be served before a byte is passed on. -/
def Phase.distance : Phase → Nat
  | .opening => 4
  | .opened _ => 3
  | .reading _ _ => 2
  | .read _ _ data => if data = [] then 7 else 1
  | .closing => 6

namespace PathView

def distance (v : PathView) : Nat :=
  match v.chain with
  | none => 5
  | some (_, phase) => phase.distance

/-- The bytes that are not read yet, and the distance to the next one. -/
def rank (v : PathView) : Nat := 8 * (v.size - v.stat.offset) + v.distance

/-- A chain will read on, or will be started again. -/
def Awake (v : PathView) : Prop :=
  match v.chain with
  | none => v.stat.readDirty = true
  | some (_, .closing) => v.stat.readDirty = true
  | some _ => True

end PathView

section Awake

variable {state : FileStatState} (hstate : state.Keeps) {f : FileId} {v v' : PathView}

lemma PathView.Awake.mark (v : PathView) : v.mark.Awake := by
  rw [PathView.Awake, PathView.mark]
  dsimp only
  split
  · rfl
  · rfl
  · trivial

lemma PathView.rank_start (hchain : v.chain = none) (fresh : Nat) :
    (v.start fresh).rank < v.rank := by
  rw [rank, rank, distance, distance, hchain]
  exact Nat.add_lt_add_left (by decide : 4 < 5) _

include hstate in
/-- A check keeps a path awake, and wakes it up if it sees that there is more. -/
lemma PathView.check_awake (hin : v.stat.readInflight = v.chain.isSome) (fresh size : Nat)
    (h : v.Awake ∨ v.stat.offset < size) :
    (v.check state fresh size).Awake ∧ (v.check state fresh size).rank ≤ v.rank := by
  rw [check]
  by_cases hv : v.stat.readInflight = true
  · rw [if_pos hv]
    exact ⟨PathView.Awake.mark v, le_rfl⟩
  · rw [if_neg hv]
    have hchain : v.chain = none := by
      rw [hin] at hv
      exact not_isSome_iff_eq_none.mp hv
    dsimp only
    rw [fileStatOffsetForRead_of_keeps hstate]
    split
    · exact ⟨trivial, (rank_start hchain fresh).le⟩
    · rename_i hopen
      refine ⟨?_, le_rfl⟩
      rcases h with h | h
      · exact h
      · exact absurd (by simp [filetailerShouldScheduleOpen, h]) hopen

lemma PathView.rank_lt (hsize : u.size = v.size) (hoffset : u.stat.offset = v.stat.offset)
    (hdistance : u.distance < v.distance) : u.rank < v.rank := by
  rw [rank, rank]
  omega

lemma PathView.rank_lt_of_read (hsize : u.size = v.size) (hoffset : v.stat.offset < u.stat.offset)
    (hmore : v.stat.offset < v.size) (hdistance : u.distance < 8) : u.rank < v.rank := by
  rw [rank, rank]
  omega

lemma filetailerStrLen_pos (h : 0 < n) : 0 < filetailerStrLen n := by
  rw [filetailerStrLen, filetailerBufferLen]
  split <;> omega

/-- The answer to a read: a byte is passed on, or the chain is started again. -/
lemma PathView.onRead_awake (hmore : v.stat.offset < v.size) {data : Str}
    (hchain : v.chain = some (id, .read f v.stat.offset data)) :
    let u := { v.onRead state f v.stat.offset data with chain := some (id, .closing) }
    (u.Awake ∨ u.size ≤ u.stat.offset) ∧ u.rank < v.rank := by
  have hdistance : v.distance = if data = [] then 7 else 1 := by
    rw [distance, hchain]
    rfl
  rw [onRead]
  by_cases hdata : data = []
  · -- the read was made before the file grew
    rw [if_pos hdata] at hdistance ⊢
    rw [if_neg (by omega), if_pos hmore]
    refine ⟨.inl rfl, rank_lt rfl rfl ?_⟩
    rw [hdistance]
    exact (by decide : 6 < 7)
  · rw [if_neg hdata]
    have hpos := filetailerStrLen_pos (length_pos_iff.mpr hdata)
    dsimp only
    generalize filetailerStrLen data.length = n at hpos ⊢
    have hlt : v.stat.offset < v.stat.offset + n := by omega
    split
    · exact ⟨.inl rfl, rank_lt_of_read rfl hlt hmore (by decide : 6 < 8)⟩
    · rename_i hend
      exact ⟨.inr (Nat.le_of_not_lt hend), rank_lt_of_read rfl hlt hmore (by decide : 6 < 8)⟩

include hstate in
/-- A chain that is served comes nearer to passing on a byte. -/
lemma Once.serve_awake (h : Once f v) (hchain : v.chain = some (id, phase)) (hawake : v.Awake)
    (hmore : v.stat.offset < v.size) (more : Nat) :
    ((v.serve state more).Awake ∨ (v.serve state more).size ≤ (v.serve state more).stat.offset) ∧
      (v.serve state more).rank < v.rank := by
  have hdistance : v.distance = phase.distance := by
    rw [distance, hchain]
  have hfits := h.chain id phase hchain
  rw [serve, hchain]
  cases phase with
  | opening => exact ⟨.inl trivial, rank_lt rfl rfl (hdistance ▸ (by decide : 3 < 4))⟩
  | opened g =>
    obtain rfl := hfits
    dsimp only
    rw [h.sync hstate]
    exact ⟨.inl trivial, rank_lt rfl rfl (hdistance ▸ (by decide : 2 < 3))⟩
  | reading g off =>
    obtain ⟨rfl, rfl⟩ := hfits
    refine ⟨.inl trivial, rank_lt rfl rfl ?_⟩
    have hread : readAt (v.content g) v.stat.offset more ≠ [] := by
      have hsize : v.size = (v.content g).length := by rw [size, h.file]
      rw [readAt, filetailerBufferLen, ← length_pos_iff, length_take, length_drop]
      omega
    rw [hdistance]
    show (if _ then 7 else 1) < 2
    rw [if_neg hread]
    decide
  | read g off data =>
    obtain ⟨rfl, rfl, -⟩ := hfits
    exact onRead_awake hmore hchain
  | closing =>
    rw [PathView.Awake, hchain] at hawake
    exact ⟨.inl hawake, rank_lt rfl rfl (hdistance ▸ (by decide : 5 < 6))⟩

/-- A quiet step serves the chain, looks at the file, starts a chain or leaves both alone. -/
lemma PathStep.quiet_cases {act : PathAct} (hact : act.Quiet) (hs : PathStep state act v v') :
    (∃ more, act = .serve more ∧ v' = v.serve state more) ∨
    (∃ content checks, v' = { v with content := content, checks := checks }) ∨
    (∃ checks fresh size, v' = { v with checks := checks }.check state fresh size) ∨
    ∃ fresh, v.stat.readInflight = false ∧ v' = v.start fresh := by
  cases act with
  | other | append g bytes | crawl fresh => exact .inr (.inl ⟨_, _, hs⟩)
  | replace g => exact absurd hact (by intro h; exact h)
  | check id fresh size => exact .inr (.inr (.inl ⟨_, fresh, size, hs⟩))
  | notify fresh rename change =>
    obtain rfl : rename = false := hact
    cases change with
    | false => exact .inr (.inl ⟨_, _, hs⟩)
    | true => exact .inr (.inr (.inl ⟨_, fresh, _, hs⟩))
  | serve more => exact .inl ⟨more, rfl, hs⟩
  | idle fresh =>
    rcases hs with hs | ⟨-, hfree, hs⟩
    · exact .inr (.inl ⟨_, _, hs⟩)
    · exact .inr (.inr (.inr ⟨fresh, hfree, hs⟩))

include hstate in
/-- While there is more to read, a step keeps a path awake and does not lead away. -/
lemma Once.step_awake (h : Once f v) (hin : v.stat.readInflight = v.chain.isSome)
    (hawake : v.Awake) (hmore : v.stat.offset < v.size) {act : PathAct} (hact : act.Quiet)
    (hstill : ∀ bytes, act ≠ .append f bytes) (hs : PathStep state act v v') :
    (v'.Awake ∨ v'.size ≤ v'.stat.offset) ∧ v'.rank ≤ v.rank := by
  have hcontent := hs.content_eq hstill
  rcases hs.quiet_cases hact with ⟨more, -, rfl⟩ | ⟨content, checks, rfl⟩ |
    ⟨checks, fresh, size, rfl⟩ | ⟨fresh, hfree, rfl⟩
  · cases hchain : v.chain with
    | none =>
      rw [serve, hchain]
      exact ⟨.inl hawake, le_rfl⟩
    | some c =>
      obtain ⟨h1, h2⟩ := h.serve_awake hstate hchain hawake hmore more
      exact ⟨h1, h2.le⟩
  · refine ⟨.inl hawake, le_of_eq ?_⟩
    rw [rank, rank, size, size, h.file, hcontent]
    rfl
  · obtain ⟨h1, h2⟩ := check_awake (v := { v with checks := checks }) hstate hin fresh size
      (.inl hawake)
    exact ⟨.inl h1, h2⟩
  · rw [hin] at hfree
    have hchain := not_isSome_iff_eq_none.mp (Bool.eq_false_iff.mp hfree)
    exact ⟨.inl trivial, (rank_start hchain fresh).le⟩

include hstate in
lemma PathView.chain_check (hin : v.stat.readInflight = v.chain.isSome) (fresh size : Nat) :
    (v.check state fresh size).chain = v.chain ∨
      (v.chain = none ∧ (v.check state fresh size).rank < v.rank) := by
  rw [check]
  split
  · exact .inl rfl
  · rename_i hv
    rw [hin] at hv
    dsimp only
    rw [fileStatOffsetForRead_of_keeps hstate]
    split
    · have hnone := not_isSome_iff_eq_none.mp hv
      exact .inr ⟨hnone, rank_start hnone fresh⟩
    · exact .inl rfl

include hstate in
/-- A step that does not serve the chain leaves it where it is, or starts one. -/
lemma PathStep.chain_cases (hin : v.stat.readInflight = v.chain.isSome) {act : PathAct}
    (hact : act.Quiet) (hserve : ∀ more, act ≠ .serve more) (hs : PathStep state act v v') :
    v'.chain = v.chain ∨ (v.chain = none ∧ v'.rank < v.rank) := by
  rcases hs.quiet_cases hact with ⟨more, e, -⟩ | ⟨content, checks, rfl⟩ |
    ⟨checks, fresh, size, rfl⟩ | ⟨fresh, hfree, rfl⟩
  · exact absurd e (hserve more)
  · exact .inl rfl
  · exact chain_check (v := { v with checks := checks }) hstate hin fresh size
  · rw [hin] at hfree
    have hnone := not_isSome_iff_eq_none.mp (Bool.eq_false_iff.mp hfree)
    exact .inr ⟨hnone, rank_start hnone fresh⟩

end Awake

/-! ## Every callback is served -/

def TailEvent.Only (path : Str) : TailEvent → Prop
  | .append _ _ => True
  | .replace p _ => p ≠ path
  | .crawl p => p = path
  | .notify p rename _ => p = path ∧ rename = false
  | .serve _ _ => True
  | .idle _ => True

/-- Every callback that is due runs at some time. -/
structure Fair {state : FileStatState} (r : Run (Tailer.step state)) : Prop where
  requests : ∀ n id, (r.state n).requests id ≠ none →
    ∃ m, n ≤ m ∧ ∃ more, r.event m = .serve id more
  idle : ∀ n, (r.state n).idleActive = true → ∃ m, n ≤ m ∧ ∃ walk, r.event m = .idle walk

lemma TailEvent.Only.quiet {path : Str} (h : e.Only path) : e.Quiet path := by
  cases e with
  | replace p file => exact h
  | notify p rename change => exact fun _ => h.2
  | _ => trivial

def Untouched (path : Str) (s : Tailer) : Prop :=
  ∃ v, Views s path v ∧ v.stat.readDirty = false ∧ v.chain = none ∧ ∀ id, v.checks id = none

lemma Untouched.not_runnable {path : Str} (h : Untouched path s) : ¬s.Runnable path := by
  obtain ⟨v, hv, hdirty, -⟩ := h
  rintro ⟨hrun, -⟩
  rw [hv.stat_eq, hdirty] at hrun
  cases hrun

/-- An aggregate on one file leaves other paths alone. -/
lemma Untouched.step {state : FileStatState} (hstate : state ≠ .stream) {path q : Str}
    (hq : q ≠ path) {s' : Tailer} (h : Untouched q s) (he : e.Only path)
    (hs : s.step state e = some s') : Untouched q s' := by
  obtain ⟨v, hv, hdirty, hchain, hchecks⟩ := h
  obtain ⟨v', hv', hstep⟩ := hv.step hstate hs
  have hfrom := act_comesFrom s q e
  cases hact : s.act q e with
  | other | append file bytes | replace file =>
    rw [hact] at hstep
    obtain rfl := hstep
    exact ⟨_, hv', hdirty, hchain, hchecks⟩
  | crawl fresh =>
    rw [hact] at hfrom
    rw [hfrom.1] at he
    exact absurd he hq
  | check id fresh size =>
    rw [hact] at hfrom
    have hsome := (hv.checks id size).mp hfrom.2.1
    rw [hchecks] at hsome
    cases hsome
  | notify fresh rename change =>
    rw [hact] at hfrom
    rw [hfrom.1] at he
    exact absurd he.1 hq
  | serve more =>
    rw [hact] at hfrom
    obtain ⟨id, phase, -, hreq⟩ := hfrom
    have hsome := (hv.chain id phase).mp hreq
    rw [hchain] at hsome
    cases hsome
  | idle fresh =>
    rw [hact] at hstep
    rcases hstep with rfl | ⟨hd, -⟩
    · exact ⟨_, hv', hdirty, hchain, hchecks⟩
    · rw [hdirty] at hd
      cases hd

/-! ## The end of the file is reached -/

section Live

variable {state : FileStatState} (hstate : state.Keeps) {path : Str} {f : FileId}
  {r : Run (Tailer.step state)}

/-- What is known of a run of an aggregate on one file: the view of every state, how each
follows from the one before, and that no other path can be started. -/
structure Watched (path : Str) (f : FileId) (r : Run (Tailer.step state)) (v : Nat → PathView) :
    Prop where
  only : ∀ n, (r.event n).Only path
  views : ∀ n, Views (r.state n) path (v n)
  once : ∀ n, Once f (v n)
  step : ∀ n, PathStep state ((r.state n).act path (r.event n)) (v n) (v (n + 1))
  alone : ∀ n q, q ≠ path → ¬(r.state n).Runnable q

include hstate in
lemma exists_watched (hones : ∀ n, (r.event n).Only path) (h0 : ReadOnce path f (r.state 0))
    (halone : ∀ q, q ≠ path → Untouched q (r.state 0)) : ∃ v, Watched path f r v := by
  have hread : ∀ n, ReadOnce path f (r.state n) :=
    r.invariant h0 fun n h => h.step hstate (hones n).quiet (r.next n)
  choose v hv using hread
  refine ⟨v, hones, fun n => (hv n).1, fun n => (hv n).2, fun n => ?_, fun n q hq => ?_⟩
  · obtain ⟨v', hv', hstep⟩ := (hv n).1.step hstate.ne_stream (r.next n)
    rw [(hv (n + 1)).1.toShows.unique hv'.toShows]
    exact hstep
  · have huntouched : Untouched q (r.state n) :=
      r.invariant (halone q hq) (fun n h => h.step hstate.ne_stream hq (hones n) (r.next n)) n
    exact huntouched.not_runnable

variable {v : Nat → PathView}

/-- From some time on nothing is appended to the file. -/
def NoAppendFrom (r : Run (Tailer.step state)) (f : FileId) (start : Nat) : Prop :=
  ∀ n, start ≤ n → ∀ bytes, r.event n ≠ .append f bytes

lemma act_ne_append (path : Str) (h : ∀ bytes, e ≠ .append f bytes) (s : Tailer) :
    ∀ bytes, s.act path e ≠ .append f bytes := by
  intro bytes hact
  have hfrom := act_comesFrom s path e
  rw [hact] at hfrom
  exact h bytes hfrom

/-- There is more to read, and it will be read. -/
structure Live (v : Nat → PathView) (start n : Nat) : Prop where
  later : start ≤ n
  awake : (v n).Awake
  more : (v n).stat.offset < (v n).size

def AtEnd (v : PathView) : Prop := v.size ≤ v.stat.offset

section

variable (hw : Watched path f r v)
include hw

include hstate in
/-- A path that will be read is read to the end, or will be read still. -/
lemma Watched.live_step (hquiet : NoAppendFrom r f start) (h : Live v start n) :
    AtEnd (v (n + 1)) ∨ (Live v start (n + 1) ∧ (v (n + 1)).rank ≤ (v n).rank) := by
  have hact := (hw.only n).quiet.act (r.state n)
  have hstill := act_ne_append path (hquiet n h.later) (r.state n)
  obtain ⟨hawake, hrank⟩ := (hw.once n).step_awake hstate (hw.views n).inflight h.awake h.more hact
    hstill (hw.step n)
  by_cases hend : AtEnd (v (n + 1))
  · exact .inl hend
  · have hmore : (v (n + 1)).stat.offset < (v (n + 1)).size := Nat.lt_of_not_le hend
    have hlater := h.later
    exact .inr ⟨⟨by omega, hawake.resolve_right hend, hmore⟩, hrank⟩

omit hw in
lemma act_eq_serve {more : Nat} (h : s.act path e = .serve more) :
    ∃ id phase, e = .serve id more ∧ s.requests id = some (.chain path phase) := by
  have hfrom := act_comesFrom s path e
  rw [h] at hfrom
  exact hfrom

lemma Watched.serve_iff (hchain : (v n).chain = some (id, phase))
    (more : Nat) : (r.state n).act path (r.event n) = .serve more ↔ r.event n = .serve id more := by
  constructor
  · intro h
    obtain ⟨id', phase', he, hreq⟩ := act_eq_serve h
    have hchain' := ((hw.views n).chain id' phase').mp hreq
    rw [hchain] at hchain'
    obtain ⟨rfl, -⟩ := Prod.mk.inj (some.inj hchain')
    exact he
  · intro h
    rw [h, Tailer.act, ((hw.views n).chain id phase).mpr hchain]
    exact if_pos rfl

include hstate in
/-- A chain that stays as it is until the event `P` of a later step brings the rank down. -/
lemma Watched.progress_of (hquiet : NoAppendFrom r f start) (h : Live v start n) {P : Nat → Prop}
    {m : Nat} (hle : n ≤ m) (hm : P m) (hserve : ∀ k, Live v start k → (v k).chain = (v n).chain →
      P k → (v (k + 1)).rank < (v k).rank)
    (hact : ∀ k, Live v start k → (v k).chain = (v n).chain → ¬P k →
      ∀ more, (r.state k).act path (r.event k) ≠ .serve more) :
    ∃ m, n ≤ m ∧ (AtEnd (v m) ∨ (Live v start m ∧ (v m).rank < (v n).rank)) := by
  let Waits (k : Nat) : Prop :=
    Live v start k ∧ (v k).chain = (v n).chain ∧ (v k).rank ≤ (v n).rank
  have hwait : ∀ k, Waits k → (AtEnd (v (k + 1)) ∨ (Live v start (k + 1) ∧
      (v (k + 1)).rank < (v n).rank)) ∨ (¬P k ∧ Waits (k + 1)) := by
    rintro k ⟨hlive, hk, hrank⟩
    rcases hw.live_step hstate hquiet hlive with hend | ⟨hlive', hrank'⟩
    · exact .inl (.inl hend)
    · by_cases hP : P k
      · exact .inl (.inr ⟨hlive', (hserve k hlive hk hP).trans_le hrank⟩)
      · rcases PathStep.chain_cases hstate (hw.views k).inflight ((hw.only k).quiet.act (r.state k))
          (hact k hlive hk hP) (hw.step k) with hkeep | ⟨-, hlt⟩
        · exact .inr ⟨hP, hlive', hkeep.trans hk, hrank'.trans hrank⟩
        · exact .inl (.inr ⟨hlive', hlt.trans_le hrank⟩)
  exact eventually_of_waiting hwait hle ⟨h, rfl, le_rfl⟩ hm

include hstate in
/-- A chain that will be served brings the path nearer to the end. -/
lemma Watched.progress_chain (hserved : Fair r)
    (hquiet : NoAppendFrom r f start) (h : Live v start n) (hchain : (v n).chain = some (id, phase)) :
    ∃ m, n ≤ m ∧ (AtEnd (v m) ∨ (Live v start m ∧ (v m).rank < (v n).rank)) := by
  have hreq := ((hw.views n).chain id phase).mpr hchain
  obtain ⟨m, hle, hm⟩ := hserved.requests n id (by rw [hreq]; exact some_ne_none _)
  refine hw.progress_of (P := fun k => ∃ more, r.event k = .serve id more) hstate hquiet h hle hm
    (fun k hlive hk hserve => ?_) fun k _ hk hserve more hact => ?_
  · obtain ⟨more, hmore⟩ := hserve
    have hstep := hw.step k
    rw [(hw.serve_iff (hk.trans hchain) more).mpr hmore] at hstep
    obtain ⟨-, hlt⟩ := (hw.once k).serve_awake hstate (hk.trans hchain) hlive.awake hlive.more more
    rwa [show v (k + 1) = _ from hstep]
  · exact hserve ⟨more, (hw.serve_iff (hk.trans hchain) more).mp hact⟩

include hstate in
lemma Watched.idle_starts {walk : List Str} (he : r.event n = .idle walk)
    (hdirty : (v n).stat.readDirty = true) (hchain : (v n).chain = none) :
    (v (n + 1)).rank < (v n).rank := by
  have hv := hw.views n
  have hrun : (r.state n).Runnable path := by
    rw [Tailer.Runnable, hv.stat_eq]
    exact ⟨hdirty, by rw [hv.inflight, hchain]; rfl⟩
  have hnext := r.next n
  rw [he, Tailer.step] at hnext
  split_ifs at hnext with hidle
  obtain ⟨v', hv', hcases⟩ := hv.restartIdleCb hstate.ne_stream hidle.2
  rw [some.inj hnext] at hv'
  rw [(hw.views (n + 1)).toShows.unique hv'.toShows]
  rcases hcases with ⟨-, hother⟩ | ⟨-, rfl⟩
  · obtain ⟨q, hq, hrunq⟩ := hother hrun
    exact absurd hrunq (hw.alone n q hq)
  · exact rank_start hchain _

include hstate in
/-- A path that is to be started again will be. -/
lemma Watched.progress_idle (hserved : Fair r)
    (hquiet : NoAppendFrom r f start) (h : Live v start n) (hchain : (v n).chain = none) :
    ∃ m, n ≤ m ∧ (AtEnd (v m) ∨ (Live v start m ∧ (v m).rank < (v n).rank)) := by
  have hdirty : ∀ {k}, Live v start k → (v k).chain = none → (v k).stat.readDirty = true := by
    intro k hlive hk
    have hawake := hlive.awake
    rw [PathView.Awake, hk] at hawake
    exact hawake
  have hfree : (v n).stat.readInflight = false := by
    rw [(hw.views n).inflight, hchain]
    rfl
  obtain ⟨m, hle, hm⟩ := hserved.idle n ((hw.views n).armed (hdirty h hchain) hfree)
  refine hw.progress_of (P := fun k => ∃ walk, r.event k = .idle walk) hstate hquiet h hle hm
    (fun k hlive hk ⟨_, hidle⟩ => ?_) fun k _ hk _ more hact => ?_
  · exact hw.idle_starts hstate hidle (hdirty hlive (hk.trans hchain)) (hk.trans hchain)
  · obtain ⟨id, phase, -, hreq⟩ := act_eq_serve hact
    have hsome := ((hw.views k).chain id phase).mp hreq
    rw [hk, hchain] at hsome
    cases hsome

include hstate in
lemma Watched.reaches_end (hserved : Fair r)
    (hquiet : NoAppendFrom r f start) (h : Live v start n) : ∃ m, n ≤ m ∧ AtEnd (v m) := by
  refine @eventually_of_rank (Live v start) (fun m => AtEnd (v m)) (fun m => (v m).rank) ?_ n h
  intro k hk
  cases hchain : (v k).chain with
  | none => exact hw.progress_idle hstate hserved hquiet hk hchain
  | some c => exact hw.progress_chain hstate hserved hquiet hk hchain

end

/-! ### Waking up -/

lemma Watched.size_eq (hw : Watched path f r v) (hquiet : NoAppendFrom r f start) (hn : start ≤ n) :
    (v (n + 1)).size = (v n).size := by
  have hstill := act_ne_append path (hquiet n hn) (r.state n)
  rw [size, size, (hw.once (n + 1)).file, (hw.once n).file, PathStep.content_eq hstill (hw.step n)]

include hstate in
lemma PathView.offset_check (u : PathView) (fresh size : Nat) :
    (u.check state fresh size).stat.offset = u.stat.offset := by
  rw [check]
  split
  · rfl
  · dsimp only
    rw [fileStatOffsetForRead_of_keeps hstate]
    split <;> rfl

include hstate in
/-- A check that saw the whole file wakes the path up, or there is nothing to read. -/
lemma Watched.check_wakes (hw : Watched path f r v) (hquiet : NoAppendFrom r f start)
    (hn : start ≤ n) (hu : u.stat = (v n).stat) (huc : u.chain = (v n).chain) {fresh : Nat}
    (hnext : v (n + 1) = u.check state fresh (v n).size) :
    AtEnd (v (n + 1)) ∨ Live v start (n + 1) := by
  by_cases hend : AtEnd (v (n + 1))
  · exact .inl hend
  · have hmore : (v (n + 1)).stat.offset < (v (n + 1)).size := Nat.lt_of_not_le hend
    have hseen : u.stat.offset < (v n).size := by
      have hoffset := offset_check hstate u fresh (v n).size
      rw [hw.size_eq hquiet hn, hnext, hoffset] at hmore
      exact hmore
    have hin : u.stat.readInflight = u.chain.isSome := by
      rw [hu, huc]
      exact (hw.views n).inflight
    refine .inr ⟨by omega, ?_, hmore⟩
    rw [hnext]
    exact (check_awake hstate hin fresh (v n).size (.inr hseen)).1

include hstate in
/-- A crawl or a notification wakes the path up, or there is nothing to read. -/
lemma Watched.wakes (hw : Watched path f r v) (hserved : Fair r) (hquiet : NoAppendFrom r f start)
    (hn : start ≤ n) (he : r.event n = .crawl path ∨ r.event n = .notify path false true) :
    ∃ m, n ≤ m ∧ (AtEnd (v m) ∨ Live v start m) := by
  have hstep := hw.step n
  rcases he with he | he
  · -- what the crawl saw is kept until its callback runs
    rw [he, Tailer.act, if_pos rfl] at hstep
    have hseen : (v (n + 1)).checks (r.state n).next = some (v (n + 1)).size := by
      rw [hw.size_eq hquiet hn, show v (n + 1) = _ from hstep]
      exact update_self _ _ _
    generalize (r.state n).next = id at hseen
    have hreq := ((hw.views (n + 1)).checks id _).mpr hseen
    obtain ⟨m, hle, more, hm⟩ := hserved.requests (n + 1) id (by rw [hreq]; exact some_ne_none _)
    let Waits (k : Nat) : Prop := start ≤ k ∧ (v k).checks id = some (v k).size
    have hwait : ∀ k, Waits k → (AtEnd (v (k + 1)) ∨ Live v start (k + 1)) ∨
        (¬(∃ more, r.event k = .serve id more) ∧ Waits (k + 1)) := by
      rintro k ⟨hk, hsees⟩
      have hreq := ((hw.views k).checks id _).mpr hsees
      have hstep := hw.step k
      by_cases hserve : ∃ more, r.event k = .serve id more
      · obtain ⟨more', hmore'⟩ := hserve
        rw [hmore', Tailer.act, hreq] at hstep
        dsimp only at hstep
        rw [if_pos rfl] at hstep
        exact .inl (hw.check_wakes hstate hquiet hk (u := { v k with
          checks := update (v k).checks id none }) rfl rfl hstep)
      · refine .inr ⟨hserve, by omega, ?_⟩
        rw [hw.size_eq hquiet hk]
        have hfrom := act_comesFrom (r.state k) path (r.event k)
        refine PathStep.checks_eq hsees ?_ ?_ hstep
        · intro hact
          rw [hact] at hfrom
          have hnone := (hw.views k).fresh (r.state k).next le_rfl
          rw [← hfrom.2, hreq] at hnone
          cases hnone
        · intro fresh size hact
          rw [hact] at hfrom
          exact hserve hfrom.1
    have hseen' : Waits (n + 1) := ⟨by omega, hseen⟩
    obtain ⟨k, hk, haim⟩ := @eventually_of_waiting Waits
      (fun k => ∃ more, r.event k = .serve id more) (fun k => AtEnd (v k) ∨ Live v start k) hwait
      (n + 1) m hle hseen' ⟨more, hm⟩
    exact ⟨k, by omega, haim⟩
  · rw [he, Tailer.act, if_pos rfl] at hstep
    exact ⟨n + 1, by omega, hw.check_wakes hstate hquiet hn (u := v n) rfl rfl hstep⟩

end Live

/-! ## Exactly once -/

lemma untouched_start {disk : Disk} {stats : Str → Option FileStat} {path : Str}
    (h : ((stats path).getD {}).AtRest) : Untouched path (Tailer.start disk stats) :=
  ⟨_, views_start h, h.2, rfl, fun _ => rfl⟩

/-- A file that is only appended to is read exactly once.  What was passed on is always the
part of the file before the position; and if a crawl or a notification comes after the last
append and every callback is served, the whole file is passed on. -/
theorem tailed_file_read_once {state : FileStatState} (hstate : state.Keeps) {disk : Disk}
    {stats : Str → Option FileStat} {path : Str} (hzero : FromZero disk stats path) :
    (∀ es s, (∀ e ∈ es, e.Quiet path) → (Tailer.start disk stats).run state es = some s →
      bytesOf path s.passed = (s.disk.content (disk.file path)).take (s.stat path).offset) ∧
    ∀ r : Run (Tailer.step state), r.state 0 = Tailer.start disk stats →
      (∀ n, (r.event n).Only path) → Fair r → ∀ last, NoAppendFrom r (disk.file path) last →
      (∃ n, last ≤ n ∧ (r.event n = .crawl path ∨ r.event n = .notify path false true)) →
      ∃ m, last ≤ m ∧
        bytesOf path (r.state m).passed = (r.state m).disk.content (disk.file path) := by
  have hstart : ReadOnce path (disk.file path) (Tailer.start disk stats) :=
    ⟨_, views_start (hzero.rest path), hzero.once⟩
  refine ⟨fun es s hes hs => (hstart.run hstate hes hs).bytes, ?_⟩
  intro r h0 honly hserved last hquiet ⟨n, hn, he⟩
  obtain ⟨v, hw⟩ := exists_watched hstate honly (h0 ▸ hstart) fun q _ =>
    h0 ▸ untouched_start (hzero.rest q)
  have hend : ∃ m, n ≤ m ∧ AtEnd (v m) := by
    obtain ⟨k, hk, hend | hlive⟩ := hw.wakes hstate hserved hquiet hn he
    · exact ⟨k, hk, hend⟩
    · obtain ⟨m, hm, hend⟩ := hw.reaches_end hstate hserved hquiet hlive
      exact ⟨m, hk.trans hm, hend⟩
  obtain ⟨m, hm, hend⟩ := hend
  refine ⟨m, hn.trans hm, ?_⟩
  have honce : ReadOnce path (disk.file path) (r.state m) := ⟨v m, hw.views m, hw.once m⟩
  have hsize : (v m).size = ((v m).content (disk.file path)).length := by
    rw [size, (hw.once m).file]
  rw [honce.bytes, ← (hw.views m).stat, ← (hw.views m).content, take_of_length_le]
  rw [← hsize]
  exact hend

def oneByte : Disk := ⟨fun _ => ⟨1, 7⟩, fun _ => [97]⟩

/-- A byte is appended, and a chain reads each of the two. -/
def twoChains : List TailEvent :=
  [.append ⟨1, 7⟩ [98], .notify [47] false true] ++ replicate 5 (.serve 0 0) ++
    .idle [[47]] :: replicate 5 (.serve 1 0)

/-- A notification about nothing. -/
def noChange : TailEvent := .notify [47] false false

def eventAt (n : Nat) : TailEvent := twoChains[n]?.getD noChange

def stateAt : Nat → Tailer
  | 0 => Tailer.start oneByte fun _ => none
  | n + 1 => ((stateAt n).step .begin (eventAt n)).getD (stateAt n)

lemma getD_mem_cons (l : List TailEvent) (n : Nat) (e : TailEvent) : l[n]?.getD e ∈ e :: l := by
  cases h : l[n]? with
  | none => exact mem_cons_self
  | some e => exact mem_cons_of_mem _ (mem_of_getElem? h)

lemma stateAt_cases (n : Nat) : n < 13 ∨ stateAt n = stateAt 13 ∧ eventAt n = noChange := by
  rcases lt_or_ge n 13 with hn | hn
  · exact .inl hn
  · obtain ⟨k, rfl⟩ := Nat.exists_eq_add_of_le' hn
    refine .inr ⟨?_, rfl⟩
    induction k with
    | zero => rfl
    | succ k ih => exact ih (by omega)

def twoChainsRun : Run (Tailer.step .begin) where
  state := stateAt
  event := eventAt
  next n := by
    have hsome : ((stateAt n).step .begin (eventAt n)).isSome = true := by
      rcases stateAt_cases n with hn | ⟨hstate, hevent⟩
      · revert n
        decide +kernel
      · rw [hstate, hevent]
        rfl
    obtain ⟨s, hs⟩ := isSome_iff_exists.1 hsome
    rw [stateAt, hs]
    rfl

lemma eventAt_only (n : Nat) : (eventAt n).Only [47] := by
  have h : ∀ e ∈ noChange :: twoChains, e.Only [47] := by
    simp [twoChains, noChange, TailEvent.Only]
  exact h _ (getD_mem_cons _ _ _)

lemma oneByte_fromZero : FromZero oneByte (fun _ => none) [47] :=
  ⟨fun _ => ⟨rfl, rfl⟩, rfl, .inl rfl⟩

lemma twoChainsRun_served : Fair twoChainsRun where
  requests n id h := by
    have hread : ReadOnce [47] ⟨1, 7⟩ (stateAt n) :=
      twoChainsRun.invariant ⟨_, views_start (oneByte_fromZero.rest [47]), oneByte_fromZero.once⟩
        (fun n h => h.step (.inl rfl) (eventAt_only n).quiet (twoChainsRun.next n)) n
    obtain ⟨v, hv, -⟩ := hread
    have hnext : ∀ n < 14, (stateAt n).next ≤ 2 := by decide +kernel
    have hid : (stateAt n).next ≤ 2 → id < 2 := fun hle => by
      by_contra hge
      exact h (hv.fresh id (by omega))
    rcases stateAt_cases n with hn | ⟨hstate, -⟩
    · have hserved : ∀ n < 13, ∀ id < 2, (stateAt n).requests id ≠ none →
          ∃ m < 13, n ≤ m ∧ eventAt m = .serve id 0 := by decide +kernel
      obtain ⟨m, -, hm, he⟩ := hserved n hn id (hid (hnext n (by omega))) h
      exact ⟨m, hm, 0, he⟩
    · have hrest : ∀ i < 2, (stateAt 13).requests i = none := by decide +kernel
      refine absurd ?_ h
      show (stateAt n).requests id = none
      rw [hstate]
      exact hrest id (hid (hstate ▸ hnext 13 (by decide)))
  idle n h := by
    have hidle : ∀ n < 13, (stateAt n).idleActive = true → n ≤ 7 := by decide +kernel
    rcases stateAt_cases n with hn | ⟨hstate, -⟩
    · exact ⟨7, hidle n hn h, _, rfl⟩
    · have hrest : (stateAt 13).idleActive = false := by decide +kernel
      exact absurd (hrest.symm.trans (hstate ▸ h)) Bool.false_ne_true

/-- The bytes are passed on, and before that nothing but a part of them. -/
theorem tailed_file_read_once_two_bytes : (∀ es s, (∀ e ∈ es, e.Quiet [47]) →
      (Tailer.start oneByte fun _ => none).run .begin es = some s →
      bytesOf [47] s.passed = (s.disk.content ⟨1, 7⟩).take (s.stat [47]).offset) ∧
    ∃ m, bytesOf [47] (stateAt m).passed = (stateAt m).disk.content ⟨1, 7⟩ := by
  obtain ⟨hsafe, hlive⟩ := tailed_file_read_once (.inl rfl : FileStatState.Keeps .begin)
    oneByte_fromZero
  have hquiet : NoAppendFrom twoChainsRun ⟨1, 7⟩ 1 := by
    intro n hn bytes
    obtain ⟨k, rfl⟩ := Nat.exists_eq_add_of_le' hn
    have h : ∀ e ∈ noChange :: twoChains.tail, e ≠ .append ⟨1, 7⟩ bytes := by
      simp [twoChains, noChange]
    exact h _ (getD_mem_cons _ k _)
  obtain ⟨m, -, hm⟩ := hlive twoChainsRun rfl eventAt_only twoChainsRun_served 1 hquiet
    ⟨1, le_rfl, .inr rfl⟩
  exact ⟨hsafe, m, hm⟩

end Alligator
