import Alligator.Metric.Namespace

/-!
# The cap on the series

A namespace may have a cap, `max_series`.  `metric_upsert` refuses a sample of a
new series once the cap is reached, unless the call bypasses it; deletions and
purges only take series away, and the report of a purge is an upsert that does
not bypass the cap.  So runs without bypass keep the cap (`WithinCap.run`).
-/

namespace Alligator

open List Memory

variable {addDouble : AddDouble} {clock : Clock} {u : Upsert} {p : Ptr} {c : Nat}
  {s s' : Store} {L : List Record} {sp : Spaces} {w : Space}

/-- The operation does not bypass the cap of the namespace. -/
def Op.Capped (w : Space) : Op → Prop
  | .upsert w' _ _ _ u => w' = w → u.bypass = false
  | .delete .. | .purge .. => True

/-- The store has the cap `c` and keeps it. -/
structure WithinCap (c : Nat) (s : Store) : Prop where
  pos : 0 < c
  cap : s.maxSeries = c
  le : s.contents.length ≤ c

lemma Holds.count (h : Holds s L) : s.count = L.length := by
  obtain ⟨T, lists, S, -⟩ := h
  exact S.count

namespace WithinCap

lemma upsertSample (hw : WithinCap c s) (h : Holds s L) {name : Str} {hash : LabelHash}
    (hu : u.bypass = false)
    (e : Alligator.upsertSample addDouble clock s name hash u = some (s', p)) :
    WithinCap c s' := by
  obtain ⟨s1, p1, L', x, e1, h', up, -, -, -, hmax⟩ := upsertSample_spec h addDouble clock name hash u
  cases e1.symm.trans e
  refine ⟨hw.pos, hmax.trans hw.cap, ?_⟩
  have hle := hw.le
  rw [h.contents_eq] at hle
  rw [h'.contents_eq]
  cases up with
  | written => simpa using hle
  | dropped => exact hle
  | inserted missing hfull =>
    -- the cap is not reached yet
    have hpos := hw.pos
    simp only [capped, hu, hw.cap, h.count, Bool.not_false, Bool.true_and,
      Bool.and_eq_false_iff, decide_eq_false_iff_not] at hfull
    simp only [length_append, length_cons] at hfull ⊢
    omega

lemma sublist (hw : WithinCap c s) (h : Holds s L) {L' : List Record} (h' : Holds s' L')
    (hsub : L'.Sublist L) (hmax : s'.maxSeries = s.maxSeries) : WithinCap c s' := by
  have hle := hw.le
  rw [h.contents_eq] at hle
  refine ⟨hw.pos, hmax.trans hw.cap, ?_⟩
  rw [h'.contents_eq]
  exact hsub.length_le.trans hle

lemma reportPurge (hw : WithinCap c s) (h : Holds s L) {report : Report}
    (e : Alligator.reportPurge addDouble clock report 0 s = some s') : WithinCap c s' := by
  by_cases hempty : s.count = 0
  · simp only [Alligator.reportPurge, hempty, if_true, Option.bind_eq_bind, Option.bind_some,
      Option.some.injEq] at e
    rwa [← e]
  · simp only [Alligator.reportPurge, hempty, if_true, if_false, Option.bind_eq_bind,
      Option.bind_fun_some, Option.map_eq_some_iff] at e
    obtain ⟨⟨s2, p⟩, e2, rfl⟩ := e
    exact hw.upsertSample h rfl e2

/-- A store of one namespace changes. -/
lemma set {w' : Space} (hw : WithinCap c (sp.get w)) (hs : w' = w → WithinCap c s) :
    WithinCap c ((sp.set w' s).get w) := by
  by_cases e : w' = w
  · subst e
    rw [Spaces.get_set_self]
    exact hs rfl
  · rwa [Spaces.get_set_ne sp (Ne.symm e)]

lemma step (hw : WithinCap c (sp.get w)) (h : sp.Good) (addDouble : AddDouble) {op : Op}
    (hop : op.Capped w) :
    ∃ sp', sp.step addDouble op = some sp' ∧ sp'.Good ∧ WithinCap c (sp'.get w) := by
  cases op with
  | upsert w' clock name hash u =>
    obtain ⟨L, hL⟩ := h w'
    obtain ⟨s', p, L', x, e, h', -⟩ := upsertSample_spec hL addDouble clock name hash u
    refine ⟨sp.set w' s', by simp [Spaces.step, e], h.set h', hw.set ?_⟩
    rintro rfl
    exact hw.upsertSample hL (hop rfl) e
  | delete w' base name hash =>
    obtain ⟨L, hL⟩ := h w'
    obtain ⟨s', -, hmax, hcases⟩ := deleteSample_spec hL base name hash
    obtain ⟨ret, L', e, h', hsub⟩ : ∃ ret L', deleteSample base (sp.get w') name hash =
        some (s', ret) ∧ Holds s' L' ∧ L'.Sublist L := by
      rcases hcases with ⟨e, h', -⟩ | ⟨L1, x, L2, e, rfl, -, h'⟩
      · exact ⟨_, _, e, h', .refl _⟩
      · exact ⟨_, _, e, h', (sublist_cons_self _ _).append_left _⟩
    refine ⟨sp.set w' s', by simp [Spaces.step, e], h.set h', hw.set ?_⟩
    rintro rfl
    exact hw.sublist hL h' hsub hmax
  | purge w' clock key report =>
    obtain ⟨L, T, lists, S, hs⟩ := h w'
    obtain ⟨s, T', lists', L', e, S', hsub, -, hmax, -⟩ := purgeTree_spec S hs clock.base key
    have hs' : Holds s L' := ⟨T', lists', S', hs.sublist hsub⟩
    have hw1 : WithinCap c ((sp.set w' s).get w) := hw.set <| by
      rintro rfl
      exact hw.sublist ⟨T, lists, S, hs⟩ hs' hsub hmax
    -- the report goes to the default namespace
    obtain ⟨L1, h1⟩ := h.set hs' .main
    obtain ⟨main, L2, e2, h2, -⟩ := reportPurge_spec h1 addDouble clock report
    refine ⟨(sp.set w' s).set .main main, ?_, (h.set hs').set h2, hw1.set ?_⟩
    · simp only [Spaces.step, expirePurge, e, Option.bind_eq_bind, Option.bind_some]
      rw [show Alligator.reportPurge addDouble clock report 0 (sp.set w' s).main = some main from e2]
      rfl
    · rintro rfl
      exact hw1.reportPurge h1 e2

lemma run {ops : List Op} (hw : WithinCap c (sp.get w)) (h : sp.Good) (addDouble : AddDouble)
    (hops : ∀ op ∈ ops, op.Capped w) :
    ∃ sp', sp.run addDouble ops = some sp' ∧ WithinCap c (sp'.get w) := by
  induction ops generalizing sp with
  | nil => exact ⟨sp, rfl, hw⟩
  | cons op ops ih =>
    rw [forall_mem_cons] at hops
    obtain ⟨sp1, e1, h1, hw1⟩ := hw.step h addDouble hops.1
    obtain ⟨sp', e', hw'⟩ := ih hw1 h1 hops.2
    refine ⟨sp', ?_, hw'⟩
    simp only [Spaces.run, e1, Option.bind_eq_bind, Option.bind_some]
    exact e'

end WithinCap

/-- A refused `metric_upsert` counts the sample and changes nothing else. -/
lemma metricUpsert_refused {labels : Labels}
    (h : metricUpsert addDouble clock s labels u = some (s', none)) :
    s' = { s with seriesDropped := s.seriesDropped + 1 } := by
  obtain ⟨found, -, h⟩ := Option.bind_eq_some_iff.mp h
  cases found with
  | some m =>
    split_ifs at h
    all_goals
      obtain ⟨s, -, hs⟩ := Option.bind_eq_some_iff.mp h
      cases hs
  | none =>
    dsimp only at h
    split_ifs at h
    · cases h
      rfl
    · obtain ⟨s, -, hs⟩ := Option.bind_eq_some_iff.mp h
      cases hs

/-- From any state in which the cap of a namespace is kept, runs without bypass keep it.  In any
state, a series that is there is not refused, and a refused sample is counted and changes nothing
but the plan. -/
theorem cap_refuses (addDouble : AddDouble) {maxMain maxOther : Nat} {before : List Op}
    {sp : Spaces} (w : Space)
    (hsp : Spaces.run addDouble (.init maxMain maxOther) before = some sp)
    (hcap : 0 < (sp.get w).maxSeries) :
    ((sp.get w).contents.length ≤ (sp.get w).maxSeries →
      ∀ ops : List Op, (∀ op ∈ ops, op.Capped w) → ∃ sp', sp.run addDouble ops = some sp' ∧
        (sp'.get w).contents.length ≤ (sp.get w).maxSeries) ∧
    ∀ clock name hash u, ∃ s' p,
      upsertSample addDouble clock (sp.get w) name hash u = some (s', p) ∧
      ((∃ x ∈ (sp.get w).contents,
        seriesKey x.series.labels = seriesKey (chainOf (sp.get w) name hash)) → p ≠ none) ∧
      (p = none → s' = { sp.get w with
        plan := planAfter (sp.get w) name hash
        seriesDropped := (sp.get w).seriesDropped + 1 }) := by
  obtain ⟨sp1, e, h⟩ := run_good addDouble before (good_init maxMain maxOther)
  obtain rfl : sp1 = sp := Option.some.inj (e.symm.trans hsp)
  refine ⟨fun hle ops hops => ?_, fun clock name hash u => ?_⟩
  · have hw : WithinCap (sp1.get w).maxSeries (sp1.get w) := ⟨hcap, rfl, hle⟩
    obtain ⟨sp', e', hw'⟩ := hw.run h addDouble hops
    exact ⟨sp', e', hw'.le⟩
  · obtain ⟨L, hL⟩ := h w
    obtain ⟨s', p, L', y, e', -, up, hp, -⟩ := upsertSample_spec hL addDouble clock name hash u
    refine ⟨s', p, e', ?_, ?_⟩
    · rintro ⟨x, hx, hkey⟩ rfl
      obtain rfl := hp.1 rfl
      cases up with
      | dropped missing =>
        rw [hL.contents_eq] at hx
        obtain ⟨T, lists, S, -⟩ := hL
        exact missing x hx ((sortKey_eq_iff
          ((S.fits x hx).grows (labelsInitiate_grows (sp1.get w).plan hash name))
          (labelsInitiate_fits (sp1.get w).plan hash name)).2 hkey)
    · rintro rfl
      exact metricUpsert_refused e'

/-- Two series with a cap of one. -/
theorem cap_refuses_second :
    ∃ sp', (Spaces.init 1 0).run (fun a _ => a)
        [.upsert .main ⟨0, 0⟩ (cstr "a") .empty ⟨.uint, 1, 10, false, false⟩,
          .upsert .main ⟨0, 0⟩ (cstr "b") .empty ⟨.uint, 1, 10, false, false⟩] = some sp' ∧
      (sp'.get .main).contents.length ≤ 1 :=
  (cap_refuses (fun a _ => a) .main
    (rfl : Spaces.run (fun a _ => a) (.init 1 0) [] = some (.init 1 0))
    (by decide)).1 (by decide) _ (by simp [Op.Capped])

end Alligator
