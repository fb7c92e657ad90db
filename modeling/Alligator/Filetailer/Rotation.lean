import Alligator.Filetailer.ReadOnce

/-!
# A path gets another file

When a path leads to another file, the position of the old one must be given up, and nothing of
the new one may be lost or read again.  The change is noticed when the file is opened, as the
entry knows the file that its position refers to; there nothing can go wrong (`Turned`).  The
notification of the rename gives the position up as well, at whatever time it arrives: if
something of the new file was passed on before, it is read again, and if a read of the old file
is under way, its length is added to the position in the new file (`rotation_goes_wrong`).  So
the notification has to come while nothing of the new file was passed on and no read of another
file is under way (`Timely`).
-/

namespace Alligator

open List PathView

variable {g : FileId} {id : Nat} {phase : Phase}

def bytesFrom (f : FileId) (passed : List (FileId × Str)) : Str :=
  (passed.filter (·.1 = f)).flatMap Prod.snd

lemma bytesFrom_concat_self (f : FileId) (passed : List (FileId × Str)) (data : Str) :
    bytesFrom f (passed ++ [(f, data)]) = bytesFrom f passed ++ data := by
  simp [bytesFrom]

lemma bytesFrom_concat_other {f : FileId} (h : g ≠ f) (passed : List (FileId × Str)) (data : Str) :
    bytesFrom f (passed ++ [(g, data)]) = bytesFrom f passed := by
  simp [bytesFrom, h]

section Rotation

variable {state : FileStatState} (hstate : state.Keeps) {f old : FileId} {v v' : PathView}

lemma filetailerSyncOffsetFromFd_id (state : FileStatState) (fst : FileStat) (file : FileId)
    (size : Nat) : (filetailerSyncOffsetFromFd state fst file size).id = some file := by
  rw [filetailerSyncOffsetFromFd, fileStatOffsetForRead]
  split <;> rfl

/-! ## Before -/

/-- A chain is on the old file, and the entry knows it when a read is under way. -/
def Phase.OnOld (old : FileId) (id : Option FileId) : Phase → Prop
  | .opened g => g = old
  | .reading g _ => g = old ∧ id = some old
  | .read g _ _ => g = old ∧ id = some old
  | _ => True

/-- Before the path gets another file, all that was read is from the old one. -/
structure Before (old : FileId) (v : PathView) : Prop where
  file : v.file = old
  id : v.stat.id = none ∨ v.stat.id = some old
  passed : ∀ c ∈ v.passed, c.1 = old
  chain : ∀ id phase, v.chain = some (id, phase) → phase.OnOld old v.stat.id

lemma Before.goto (h : Before old v) (hphase : phase.OnOld old v.stat.id) :
    Before old { v with chain := some (id, phase) } := by
  refine { h with chain := ?_ }
  intro id' phase' hchain
  obtain ⟨-, rfl⟩ := Prod.mk.inj (Option.some.inj hchain)
  exact hphase

lemma Before.onRead (h : Before old v) (id offset : Nat) (data : Str) :
    Before old { v.onRead state old offset data with chain := some (id, .closing) } := by
  refine PathView.onRead_of (P := fun u => Before old { u with chain := some (id, .closing) })
    (fun _ h => { h with }) (h.goto trivial) (fun _ _ => ?_) fun _ => ?_
  · refine ⟨h.file, .inl rfl, h.passed, ?_⟩
    rintro id' phase ⟨⟩
    trivial
  · refine ⟨h.file, h.id, ?_, ?_⟩
    · rw [forall_mem_append, forall_mem_singleton]
      exact ⟨h.passed, rfl⟩
    · rintro id' phase ⟨⟩
      trivial

lemma kept_before (state : FileStatState) (old : FileId) : Preserved state (Before old) where
  append h _ _ := { h with }
  checks h _ := { h with }
  flags h _ _ := { h with }
  start h _ := h.goto trivial
  opened h _ := h.goto h.file
  synced {v id g} h hchain := by
    obtain rfl := h.chain id _ hchain
    have hid := filetailerSyncOffsetFromFd_id state v.stat g (v.content g).length
    refine ⟨h.file, .inr hid, h.passed, ?_⟩
    intro id' phase hchain'
    obtain ⟨-, rfl⟩ := Prod.mk.inj (Option.some.inj hchain')
    exact ⟨rfl, hid⟩
  read {v id g off} h hchain more := by
    have hold := h.chain id _ hchain
    exact h.goto hold
  passed {v id g off data} h hchain := by
    obtain ⟨rfl, -⟩ := h.chain id _ hchain
    exact h.onRead id off data
  closed h := { h with chain := fun id phase hchain => by cases hchain }

lemma Before.rename (h : Before old v) : Before old (v.rename state) := by
  have hid : (v.rename state).stat.id = some old := congrArg some h.file
  refine ⟨h.file, .inr hid, h.passed, ?_⟩
  intro id phase hchain
  have hold := h.chain id phase hchain
  cases phase with
  | reading g off | read g off data => exact ⟨hold.1, hid⟩
  | _ => exact hold

/-! ## After -/

/-- Where a chain is after the path has got another file.  As long as it is on another file,
nothing of the new one was read. -/
def Phase.Turns (f : FileId) (content : Str) (id : Option FileId) (done : Str) : Phase → Prop
  | .opened g => g ≠ f → done = []
  | .reading g off =>
    (g = f → off = done.length ∧ id = some f) ∧ (g ≠ f → done = [] ∧ id = some g)
  | .read g off data =>
    (g = f → off = done.length ∧ id = some f ∧ data <+: content.drop off) ∧
      (g ≠ f → done = [] ∧ (data = [] ∨ id = some g))
  | _ => True

/-- After the path has got another file, what was passed on of it is its beginning, and the
position is the end of that unless it is known to be one in another file. -/
structure Turned (f : FileId) (v : PathView) : Prop where
  file : v.file = f
  part : bytesFrom f v.passed <+: v.content f
  own : (v.stat.id = none ∨ v.stat.id = some f) → v.stat.offset = (bytesFrom f v.passed).length
  other : v.stat.id ≠ none → v.stat.id ≠ some f → bytesFrom f v.passed = []
  chain : ∀ id phase, v.chain = some (id, phase) →
    phase.Turns f (v.content f) v.stat.id (bytesFrom f v.passed)

variable {content done data : Str} {off : Nat}

lemma Phase.turns_closing {file : Option FileId} :
    ∀ id' phase, some (id, Phase.closing) = some (id', phase) → phase.Turns f content file done := by
  intro id' phase hchain
  obtain ⟨-, rfl⟩ := Prod.mk.inj (Option.some.inj hchain)
  trivial

lemma offset_reset (hstate : state.Keeps) (fst : FileStat) (size : Nat) :
    (fileStatResetOnRotation state fst size).offset = 0 := if_neg hstate.ne_stream

section

variable (h : Turned f v)
include h

lemma Turned.goto (hphase : phase.Turns f (v.content f) v.stat.id (bytesFrom f v.passed)) :
    Turned f { v with chain := some (id, phase) } := by
  refine { h with chain := ?_ }
  intro id' phase' hchain
  obtain ⟨-, rfl⟩ := Prod.mk.inj (Option.some.inj hchain)
  exact hphase

omit h in
lemma Phase.Turns.grow {id : Option FileId}
    (h : phase.Turns f content id done) (more : Str) : phase.Turns f (content ++ more) id done := by
  cases phase with
  | read g off data =>
    refine ⟨fun hg => ?_, h.2⟩
    obtain ⟨hoff, hid, hdata⟩ := h.1 hg
    refine ⟨hoff, hid, ?_⟩
    rw [drop_append]
    exact hdata.trans (prefix_append _ _)
  | _ => exact h

lemma Turned.append (g : FileId) (bytes : Str) :
    Turned f { v with content := Function.update v.content g (v.content g ++ bytes) } := by
  obtain ⟨more, hmore⟩ := content_grows v.content g f bytes
  refine { h with part := ?_, chain := ?_ }
  · dsimp only
    rw [hmore]
    exact h.part.trans (prefix_append _ _)
  · intro id phase hchain
    dsimp only
    rw [hmore]
    exact (h.chain id phase hchain).grow more

include hstate in
/-- Opening the new file. -/
lemma Turned.sync : (filetailerSyncOffsetFromFd state v.stat f (v.content f).length).offset =
      (bytesFrom f v.passed).length := by
  rw [filetailerSyncOffsetFromFd, fileStatOffsetForRead_of_keeps hstate]
  dsimp only
  split
  · rename_i hother
    rw [offset_reset hstate, h.other hother.1 hother.2]
    rfl
  · rename_i hown
    have hid : v.stat.id = none ∨ v.stat.id = some f := by
      by_cases hnone : v.stat.id = none
      · exact .inl hnone
      · exact .inr (not_not.mp fun hne => hown ⟨hnone, hne⟩)
    have hoffset := h.own hid
    have hle := h.part.length_le
    rw [if_neg (by omega)]
    exact hoffset

include hstate in
lemma Turned.synced (hchain : v.chain = some (id, .opened g)) :
    let stat := filetailerSyncOffsetFromFd state v.stat g (v.content g).length
    Turned f { v with stat := stat, chain := some (id, .reading g stat.offset) } := by
  have hid := filetailerSyncOffsetFromFd_id state v.stat g (v.content g).length
  by_cases hg : g = f
  · rw [hg] at hid ⊢
    have hoffset := h.sync hstate
    refine ⟨h.file, h.part, fun _ => hoffset, fun _ hne => absurd hid hne, ?_⟩
    intro id' phase hchain'
    obtain ⟨-, rfl⟩ := Prod.mk.inj (Option.some.inj hchain')
    exact ⟨fun _ => ⟨hoffset, hid⟩, fun hne => absurd rfl hne⟩
  · have hdone : bytesFrom f v.passed = [] := h.chain id _ hchain hg
    refine ⟨h.file, h.part, ?_, fun _ _ => hdone, ?_⟩
    · dsimp only
      rw [hid]
      rintro (hnone | hsome)
      · cases hnone
      · exact absurd (Option.some.inj hsome) hg
    · intro id' phase hchain'
      obtain ⟨-, rfl⟩ := Prod.mk.inj (Option.some.inj hchain')
      exact ⟨fun heq => absurd heq hg, fun _ => ⟨hdone, hid⟩⟩

/-- A read of the new file is answered. -/
lemma Turned.onRead_own (hoff : off = (bytesFrom f v.passed).length) (hid : v.stat.id = some f)
    (hdata : data <+: (v.content f).drop off) :
    Turned f { v.onRead state f off data with chain := some (id, .closing) } := by
  have hsize : v.size = (v.content f).length := by rw [size, h.file]
  have hle := h.part.length_le
  refine onRead_of (P := fun u => Turned f { u with chain := some (id, .closing) })
    (fun _ h => { h with }) (h.goto trivial) (by omega) fun _ => ?_
  generalize hn : filetailerStrLen data.length = n
  have hbytes := bytesFrom_concat_self f v.passed (data.take n)
  refine ⟨h.file, ?_, ?_, fun _ hne => absurd hid hne, Phase.turns_closing⟩
  · obtain ⟨rest, hrest⟩ := h.part
    rw [hoff, ← hrest, drop_left] at hdata
    rw [hbytes, ← hrest, prefix_append_right_inj]
    exact (List.take_prefix n data).trans hdata
  · intro _
    dsimp only [fileStatAddOffset]
    rw [hbytes, length_append, h.own (.inr hid), length_take,
      min_eq_left (hn ▸ filetailerStrLen_le _)]

include hstate in
/-- A read of another file is answered. -/
lemma Turned.onRead_other (hg : g ≠ f)
    (hdone : bytesFrom f v.passed = []) (hid : data = [] ∨ v.stat.id = some g) :
    Turned f { v.onRead state g off data with chain := some (id, .closing) } := by
  refine onRead_of (P := fun u => Turned f { u with chain := some (id, .closing) })
    (fun _ h => { h with }) (h.goto trivial) (fun _ _ => ?_) fun hdata => ?_
  · -- the position is given up, as the new file is shorter
    refine ⟨h.file, h.part, fun _ => ?_, fun _ _ => hdone, Phase.turns_closing⟩
    dsimp only
    rw [offset_reset hstate, hdone]
    rfl
  · have hidg := hid.resolve_left hdata
    have hbytes := bytesFrom_concat_other hg v.passed (data.take (filetailerStrLen data.length))
    refine ⟨h.file, ?_, ?_, fun _ _ => hbytes.trans hdone, Phase.turns_closing⟩
    · dsimp only
      rw [hbytes]
      exact h.part
    · rintro (hnone | hsome)
      · exact absurd (hidg.symm.trans hnone) (Option.some_ne_none g)
      · exact absurd (Option.some.inj (hidg.symm.trans hsome)) hg

end

include hstate in
lemma kept_turned (f : FileId) : Preserved state (Turned f) where
  append h g bytes := h.append g bytes
  checks h _ := { h with }
  flags h _ _ := { h with }
  start h _ := h.goto trivial
  opened {v id} h _ := h.goto fun hne => absurd h.file hne
  synced h hchain := h.synced hstate hchain
  read {v id g off} h hchain more := by
    obtain ⟨hown, hother⟩ := h.chain id _ hchain
    refine h.goto ⟨fun hg => ?_, fun hg => ?_⟩
    · obtain ⟨hoff, hid⟩ := hown hg
      refine ⟨hoff, hid, ?_⟩
      rw [hg]
      exact take_prefix _ _
    · obtain ⟨hdone, hid⟩ := hother hg
      exact ⟨hdone, .inr hid⟩
  passed {v id g off data} h hchain := by
    obtain ⟨hown, hother⟩ := h.chain id _ hchain
    by_cases hg : g = f
    · obtain ⟨hoff, hid, hdata⟩ := hown hg
      rw [hg]
      exact h.onRead_own hoff hid hdata
    · obtain ⟨hdone, hid⟩ := hother hg
      exact h.onRead_other hstate hg hdone hid
  closed h := { h with chain := fun id phase hchain => by cases hchain }

/-- It is no read of another file, unless it found nothing. -/
def Phase.NotOther (f : FileId) : Phase → Prop
  | .reading g _ => g = f
  | .read g _ data => g = f ∨ data = []
  | _ => True

instance (f : FileId) : (phase : Phase) → Decidable (phase.NotOther f)
  | .opening => inferInstanceAs (Decidable True)
  | .opened _ => inferInstanceAs (Decidable True)
  | .reading g _ => inferInstanceAs (Decidable (g = f))
  | .read g _ data => inferInstanceAs (Decidable (g = f ∨ data = []))
  | .closing => inferInstanceAs (Decidable True)

include hstate in
/-- The announcement of the new file does no harm while nothing of it was read. -/
lemma Turned.rename (h : Turned f v) (hdone : bytesFrom f v.passed = [])
    (hold : ∀ id phase, v.chain = some (id, phase) → phase.NotOther f) :
    Turned f (v.rename state) := by
  have hid : (v.rename state).stat.id = some f := congrArg some h.file
  have hoffset : (v.rename state).stat.offset = 0 := offset_reset hstate v.stat v.size
  refine ⟨h.file, h.part, fun _ => ?_, fun _ hne => absurd hid hne, ?_⟩
  · rw [hoffset]
    exact congrArg List.length hdone.symm
  · intro id phase hchain
    have hturns := h.chain id phase hchain
    have hno := hold id phase hchain
    cases phase with
    | reading g off =>
      have hg : g = f := hno
      exact ⟨fun _ => ⟨(hturns.1 hg).1, hid⟩, fun hne => absurd hg hne⟩
    | read g off data =>
      refine ⟨fun hg => ⟨(hturns.1 hg).1, hid, (hturns.1 hg).2.2⟩, fun hne => ⟨hdone, .inl ?_⟩⟩
      rcases hno with hg | hnil
      · exact absurd hg hne
      · exact hnil
    | _ => exact hturns

/-- The path gets another file. -/
lemma Before.replace (h : Before old v) (hf : f ≠ old)
    (hknown : v.stat.id = none → v.stat.offset = 0) : Turned f { v with file := f } := by
  have hdone : bytesFrom f v.passed = [] := by
    rw [bytesFrom, flatMap_eq_nil_iff]
    intro c hc
    rw [mem_filter] at hc
    have hold := h.passed c hc.1
    exact absurd ((of_decide_eq_true hc.2).symm.trans hold) hf
  refine ⟨rfl, ?_, ?_, fun _ _ => hdone, ?_⟩
  · rw [hdone]
    exact nil_prefix
  · rw [hdone]
    rintro (hnone | hsome)
    · exact hknown hnone
    · rcases h.id with hid | hid
      · exact hknown hid
      · exact absurd (Option.some.inj (hsome.symm.trans hid)) hf
  · intro id phase hchain
    have hold := h.chain id phase hchain
    rw [hdone]
    cases phase with
    | opened g => exact fun _ => rfl
    | reading g off =>
      exact ⟨fun hg => absurd (hg.symm.trans hold.1) hf, fun _ => ⟨rfl, hold.1 ▸ hold.2⟩⟩
    | read g off data =>
      exact ⟨fun hg => absurd (hg.symm.trans hold.1) hf, fun _ => ⟨rfl, .inr (hold.1 ▸ hold.2)⟩⟩
    | _ => trivial

end Rotation

/-! ## Runs -/

def Tailer.chainsOf (s : Tailer) (path : Str) : List Phase :=
  (List.range s.next).filterMap fun id =>
    match s.requests id with
    | some (.chain p phase) => if p = path then some phase else none
    | _ => none

/-- The path keeps its file, and a notification of a rename comes before anything of the file
was passed on and while no read of another file is under way. -/
def Timely (path : Str) (s : Tailer) : TailEvent → Prop
  | .replace p _ => p ≠ path
  | .notify p true _ => p = path →
      (∀ c ∈ passedOf path s.passed, c.1 ≠ s.disk.file path) ∧
        ∀ phase ∈ s.chainsOf path, phase.NotOther (s.disk.file path)
  | _ => True

/-- Every event meets a condition in the state before it. -/
def Tailer.Each (state : FileStatState) (C : Tailer → TailEvent → Prop) :
    Tailer → List TailEvent → Prop
  | _, [] => True
  | s, e :: es =>
    C s e ∧
      match s.step state e with
      | none => True
      | some s' => s'.Each state C es

section Runs

variable {state : FileStatState} (hstate : state.Keeps) {path : Str} {f old : FileId}

lemma Shows.mem_chainsOf {s : Tailer} {v : PathView} (h : Shows s path v)
    (hchain : v.chain = some (id, phase)) : phase ∈ s.chainsOf path := by
  have hreq := (h.chain id phase).mpr hchain
  refine mem_filterMap.mpr ⟨id, mem_range.mpr (h.lt_next hreq), ?_⟩
  rw [hreq]
  exact if_pos rfl

variable {es : List TailEvent}

include hstate in
/-- The state before the path gets another file. -/
lemma before_run : ∀ {s s' : Tailer},
    (∃ v, Views s path v ∧ Before old v) → (∀ e ∈ es, ∀ g, e ≠ .replace path g) →
    s.run state es = some s' → ∃ v, Views s' path v ∧ Before old v := by
  induction es with
  | nil =>
    intro s s' h _ hs
    obtain rfl := Option.some.inj hs
    exact h
  | cons e es ih =>
    intro s s' ⟨v, hv, hbefore⟩ hes hs
    obtain ⟨s1, hs1, hrun⟩ := Option.bind_eq_some_iff.mp hs
    obtain ⟨v', hv', hstep⟩ := hv.step hstate.ne_stream hs1
    refine ih ⟨v', hv', ?_⟩ (forall_mem_cons.1 hes).2 hrun
    refine (kept_before state old).step hstate hbefore ?_ (fun _ _ _ => hbefore.rename) hstep
    intro g hact
    have hfrom := act_comesFrom s path e
    rw [hact] at hfrom
    exact hes e mem_cons_self g hfrom

include hstate in
/-- The states after the path has got another file. -/
lemma turned_run : ∀ {s s' : Tailer},
    (∃ v, Views s path v ∧ Turned f v) → s.Each state (Timely path) es →
    s.run state es = some s' → ∃ v, Views s' path v ∧ Turned f v := by
  induction es with
  | nil =>
    intro s s' h _ hs
    obtain rfl := Option.some.inj hs
    exact h
  | cons e es ih =>
    intro s s' ⟨v, hv, hturned⟩ ⟨htimely, heach⟩ hs
    obtain ⟨s1, hs1, hrun⟩ := Option.bind_eq_some_iff.mp hs
    rw [hs1] at heach
    obtain ⟨v', hv', hstep⟩ := hv.step hstate.ne_stream hs1
    refine ih ⟨v', hv', ?_⟩ heach hrun
    have hfrom := act_comesFrom s path e
    have hfile : s.disk.file path = f := hv.file.symm.trans hturned.file
    refine (kept_turned hstate f).step hstate hturned ?_ ?_ hstep
    · intro g hact
      rw [hact] at hfrom
      rw [show e = _ from hfrom] at htimely
      exact htimely rfl
    · intro fresh change hact
      rw [hact] at hfrom
      rw [hfrom.1] at htimely
      obtain ⟨hnone, hchains⟩ := htimely rfl
      rw [hfile] at hnone hchains
      refine hturned.rename hstate ?_ fun id phase hchain =>
        hchains phase (hv.toShows.mem_chainsOf hchain)
      rw [bytesFrom, flatMap_eq_nil_iff]
      intro c hc
      rw [mem_filter, hv.passed] at hc
      exact absurd (of_decide_eq_true hc.2) (hnone c hc.1)

end Runs

/-- Rotation loses and repeats nothing of the new file, if the position of the old one was not
taken from before the first open, and the notification of the rename comes before anything of
the new file was passed on and while no read of the old one is under way. -/
theorem rotation_read_in_order {state : FileStatState} (hstate : state.Keeps) {disk : Disk}
    {stats : Str → Option FileStat} {path : Str} (hrest : ((stats path).getD {}).AtRest)
    (hid : ((stats path).getD {}).id = none ∨ ((stats path).getD {}).id = some (disk.file path))
    {f : FileId} (hf : f ≠ disk.file path) {before after : List TailEvent} {s s₁ s' : Tailer}
    (hbefore : ∀ e ∈ before, ∀ g, e ≠ .replace path g)
    (hs : (Tailer.start disk stats).run state before = some s)
    (hknown : (s.stat path).id = none → (s.stat path).offset = 0)
    (hs₁ : s.step state (.replace path f) = some s₁) (htimely : s₁.Each state (Timely path) after)
    (hs' : s₁.run state after = some s') :
    bytesFrom f (passedOf path s'.passed) <+: s'.disk.content f := by
  have hstart : Before (disk.file path) (init disk stats path) := ⟨rfl, hid, nofun, nofun⟩
  obtain ⟨v, hv, hold⟩ := before_run hstate ⟨_, views_start hrest, hstart⟩ hbefore hs
  obtain ⟨v1, hv1, hstep⟩ := hv.step hstate.ne_stream hs₁
  rw [Tailer.act, if_pos rfl] at hstep
  have hturned : Turned f v1 := by
    rw [show v1 = _ from hstep]
    refine hold.replace hf ?_
    rw [hv.stat]
    exact hknown
  obtain ⟨v', hv', hend⟩ := turned_run hstate ⟨v1, hv1, hturned⟩ htimely hs'
  rw [← hv'.passed, ← hv'.content]
  exact hend.part

/-- An old file and a new one; the path leads to the old one. -/
def rotated : Disk :=
  ⟨fun _ => ⟨1, 7⟩, fun g => if g = ⟨1, 8⟩ then [100, 101, 102, 103, 104] else [97, 98, 99]⟩

/-- The old file is read, the path gets the new one, and the rename is announced before it is
read. -/
theorem rotation_read_in_order_announced :
    ∃ s s₁ s', (Tailer.start rotated fun _ => none).run .begin
        (.notify [47] false true :: wholeChain 0) = some s ∧
      s.step .begin (.replace [47] ⟨1, 8⟩) = some s₁ ∧
      s₁.run .begin (.notify [47] true false :: wholeChain 1) = some s' ∧
      bytesFrom ⟨1, 8⟩ (passedOf [47] s'.passed) = [100, 101, 102, 103, 104] ∧
      bytesFrom ⟨1, 8⟩ (passedOf [47] s'.passed) <+: s'.disk.content ⟨1, 8⟩ := by
  refine ⟨_, _, _, rfl, rfl, rfl, by decide, ?_⟩
  refine @rotation_read_in_order .begin (.inl rfl) rotated (fun _ => none) [47] ⟨rfl, rfl⟩ (.inl rfl)
    ⟨1, 8⟩ (by decide) (.notify [47] false true :: wholeChain 0)
    (.notify [47] true false :: wholeChain 1) _ _ _ ?_ rfl ?_ rfl ?_ rfl
  · intro e he g heq
    rw [heq] at he
    simp [wholeChain] at he
  · exact fun h => absurd h (by decide)
  · exact ⟨fun _ => ⟨by decide, by decide⟩, trivial, trivial, trivial, trivial,
      trivial, trivial⟩

/-- Two ways in which the notification goes wrong.  It comes while a read of the old file is
under way, whose length is then added to the position in the new file; or it comes after the new
file was read, which is then read again. -/
theorem rotation_goes_wrong : (∃ s, (Tailer.start rotated fun _ => none).run .begin
        ([.notify [47] false true, .serve 0 9, .serve 0 9, .serve 0 9, .replace [47] ⟨1, 8⟩,
          .notify [47] true false, .serve 0 9, .serve 0 9, .idle [[47]]] ++ wholeChain 1) = some s ∧
      bytesFrom ⟨1, 8⟩ (passedOf [47] s.passed) = [103, 104] ∧
      ¬bytesFrom ⟨1, 8⟩ (passedOf [47] s.passed) <+: s.disk.content ⟨1, 8⟩) ∧
    ∃ s, (Tailer.start rotated fun _ => none).run .begin
        ([.replace [47] ⟨1, 8⟩, .notify [47] false true] ++ wholeChain 0 ++
          [.notify [47] true false] ++ wholeChain 1) = some s ∧
      bytesFrom ⟨1, 8⟩ (passedOf [47] s.passed) =
        [100, 101, 102, 103, 104, 100, 101, 102, 103, 104] ∧
      ¬bytesFrom ⟨1, 8⟩ (passedOf [47] s.passed) <+: s.disk.content ⟨1, 8⟩ := by
  refine ⟨⟨_, rfl, ?_, ?_⟩, _, rfl, ?_, ?_⟩ <;> decide

end Alligator
