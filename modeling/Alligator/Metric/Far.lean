import Alligator.Metric.Store

/-!
# The list beyond the wheel

`FarCall` are the calls that a `far` list sees from outside.  A node that is put in is new to the
heap of the tree and one that is unlinked leaves it.  Its key may be nearer than what
`expire_schedule` puts on `far`, which is what `Loose` allows over `Timed`.
-/

namespace Alligator

open Memory DList List Function Heap

inductive FarCall where
  | insertFar (key : Int) (metric : Ptr)
  | unlink (n : Addr)
  | advance (wall now : Int)

def FarCall.apply (t : ExpireTree) : FarCall → Option ExpireTree
  | .insertFar key metric =>
    let (nodes, n) := t.nodes.alloc ⟨⟨none, none⟩, key, metric, .far⟩
    expireInsertFar { t with nodes := nodes } n
  | .unlink n =>
    match t.nodes.get n with
    | none => some t
    | some _ => do
      let t ← expireUnlink t n
      return { t with nodes := t.nodes.free n }
  | .advance wall now => expireWheelAdvance wall t now

structure Loose (t : ExpireTree) (lists : Buckets) : Prop where
  wheel : Wheel t lists []
  placed : 0 < t.cursor →
    ∃ f ≤ t.cursor, AllPlaced ⟨t.cursor, t.cursor, t.cursor, t.cursor, f⟩ t lists

variable {t : ExpireTree} {lists : Buckets}

lemma Timed.loose (T : Timed t lists) : Loose t lists :=
  ⟨T.wheel, fun h => ⟨_, Int.le_refl _, T.placed h⟩⟩

variable (T : Loose t lists)
include T

lemma Loose.forward (wall : Int) {now : Int} (hpos : 0 < t.cursor) (hle : t.cursor ≤ now)
    (hspan : now - t.cursor ≤ span1) : ∃ t' lists', expireWheelAdvance wall t now = some t' ∧
      Timed t' lists' ∧ t'.cursor = now := by
  obtain ⟨f, hf, placed⟩ := T.placed hpos
  obtain ⟨t1, t', lists', e1, e', T', -, c⟩ := T.wheel.forward hpos hf rfl placed wall hle
  refine ⟨t', lists', ?_, T', c⟩
  rw [expireWheelAdvance, if_neg (by omega), if_neg (by omega), if_neg (by omega),
    if_neg (by omega), e1]
  exact e'

lemma Loose.insertFar (key : Int) (m : Ptr) :
    ∃ t' lists', (FarCall.insertFar key m).apply t = some t' ∧ Loose t' lists' := by
  obtain ⟨hkey, hold⟩ := T.wheel.keyAt_alloc ⟨⟨none, none⟩, key, m, .far⟩
  obtain ⟨t', lists', e, W, adds, k, -⟩ := expireInsertFar_spec
    (T.wheel.alloc ⟨⟨none, none⟩, key, m, .far⟩ t.count) (by simp [homes, view_alloc])
  have hcur : t'.cursor = t.cursor := k.cursor
  refine ⟨t', lists', e, W, fun hpos => ?_⟩
  rw [hcur] at hpos ⊢
  obtain ⟨f, hf, placed⟩ := T.placed hpos
  refine ⟨min f (key - span3), by omega, fun b c hc => ?_⟩
  rw [k.key c]
  rcases (adds c b).mp hc with ⟨rfl, rfl⟩ | hc
  · rw [hkey]
    show span3 ≤ key - min f (key - span3)
    omega
  · rw [hold b c hc]
    exact (placed b c hc).mono (Int.le_refl _) (Int.le_refl _) (Int.le_refl _) (Int.le_refl _)
      (Int.min_le_left ..)

lemma Loose.unlink (n : Addr) :
    ∃ t' lists', (FarCall.unlink n).apply t = some t' ∧ Loose t' lists' := by
  cases hn : t.nodes.get n with
  | none => exact ⟨t, lists, by simp [FarCall.apply, hn], T⟩
  | some e =>
    obtain ⟨b, hb⟩ := T.wheel.mem_of_infos (view_of_get _ hn)
    obtain ⟨t', lists', e', -, c, W, -⟩ := T.wheel.forget hb
    refine ⟨_, lists', by simp [FarCall.apply, hn, e'], (W t'.count).1, fun hpos => ?_⟩
    obtain ⟨f, hf, placed⟩ := T.placed (c ▸ hpos)
    exact ⟨f, c.symm ▸ hf, c.symm ▸ (W t'.count).2 _ placed⟩

lemma Loose.advance (wall now : Int) :
    ∃ t' lists', expireWheelAdvance wall t now = some t' ∧ Loose t' lists' := by
  by_cases hfwd : 0 < t.cursor ∧ t.cursor ≤ now ∧ now - t.cursor ≤ span1
  · obtain ⟨t', lists', e, T', -⟩ := T.forward wall hfwd.1 hfwd.2.1 hfwd.2.2
    exact ⟨t', lists', e, T'.loose⟩
  · obtain ⟨t', lists', e, T', -⟩ := T.wheel.rebuild wall now
    unfold expireWheelAdvance
    split_ifs with h h0 hback hjump
    · exact ⟨t', lists', e, T'.loose⟩
    · exact ⟨t, lists, rfl, T⟩
    · obtain ⟨f, hf, placed⟩ := T.placed (by omega)
      refine ⟨_, lists, rfl, { T.wheel with }, fun _ => ⟨min f now, Int.min_le_right .., ?_⟩⟩
      have hle : now ≤ t.cursor := by omega
      exact fun b a ha => (placed b a ha).mono hle hle hle hle (Int.min_le_left ..)
    · exact ⟨t', lists', e, T'.loose⟩
    · omega

lemma Loose.run (calls : List FarCall) :
    ∃ t' lists', calls.foldlM FarCall.apply t = some t' ∧ Loose t' lists' := by
  induction calls generalizing t lists with
  | nil => exact ⟨t, lists, rfl, T⟩
  | cons call calls ih =>
    obtain ⟨t1, lists1, e1, T1⟩ : ∃ t' lists', call.apply t = some t' ∧ Loose t' lists' := by
      cases call with
      | insertFar key m => exact T.insertFar key m
      | unlink n => exact T.unlink n
      | advance wall now => exact T.advance wall now
    rw [foldlM_cons, e1]
    exact ih T1

end Alligator
