import Mathlib.Data.List.Basic

/-!
# Taking frames from a growing buffer

A reader keeps what it has received in a buffer and takes whole frames from its
front, until the rest is only a part of one.  If the parser takes a frame that is
there and waits for one that is not (`Reads`), then of any beginning of a sequence
of frames exactly the whole ones are taken, and a part of the next one is left
(`drain_frames`).
-/

namespace Framing

open List

variable {σ β φ : Type}

/-- What a parser makes of the front of a buffer. -/
inductive Parsed (σ : Type) where
  | malformed
  | incomplete
  | frame (state : σ) (size : Nat)
deriving DecidableEq

/-- Take frames from the front until one is not whole.  The flag is down if one was
malformed. -/
def drain (one : σ → List β → Parsed σ) : Nat → σ → List β → σ × List β × Bool
  | 0, s, buf => (s, buf, true)
  | fuel + 1, s, buf =>
    match one s buf with
    | .malformed => (s, buf, false)
    | .incomplete => (s, buf, true)
    | .frame s' size => drain one fuel s' (buf.drop size)

variable {one : σ → List β → Parsed σ}
  {fuel : Nat} {s : σ} {fs todo : List φ} {Ok : σ → φ → Prop} {rest : List β}

/-- What every frame preserves is preserved. -/
lemma drain_invariant {P : σ → Prop}
    (h : ∀ {s buf s' size}, P s → one s buf = .frame s' size → P s')
    {buf : List β} (hs : P s) : P (drain one fuel s buf).1 := by
  induction fuel generalizing s buf with
  | zero => exact hs
  | succ fuel ih =>
    rw [drain]
    cases hone : one s buf with
    | malformed | incomplete => exact hs
    | frame s' size => exact ih (h hs hone)

lemma drain_suffix (one : σ → List β → Parsed σ) (fuel : Nat) (s : σ) (buf : List β) :
    (drain one fuel s buf).2.1 <:+ buf := by
  induction fuel generalizing s buf with
  | zero => exact suffix_rfl
  | succ fuel ih =>
    rw [drain]
    cases one s buf with
    | malformed | incomplete => exact suffix_rfl
    | frame s' size => exact (ih s' _).trans (drop_suffix size buf)

/-- The parser reads the frames that are in order: it takes a whole frame whatever is
behind it, and waits as long as a part is missing. -/
structure Reads (one : σ → List β → Parsed σ) (wire : φ → List β) (apply : σ → φ → σ)
    (Ok : σ → φ → Prop) : Prop where
  whole : ∀ {s f}, Ok s f → ∀ rest, one s (wire f ++ rest) = .frame (apply s f) (wire f).length
  cut : ∀ {s f b}, Ok s f → b <+: wire f → b ≠ wire f → one s b = .incomplete
  nothing : ∀ s, one s [] = .incomplete
  wire_ne : ∀ f, wire f ≠ []

/-- All the frames are in order, each in the state that those before it lead to. -/
def AllOk (apply : σ → φ → σ) (Ok : σ → φ → Prop) : σ → List φ → Prop
  | _, [] => True
  | s, f :: fs => Ok s f ∧ AllOk apply Ok (apply s f) fs

variable {apply : σ → φ → σ}

lemma AllOk.append {gs : List φ} : ∀ {s : σ}, AllOk apply Ok s (fs ++ gs) ↔
      AllOk apply Ok s fs ∧ AllOk apply Ok (fs.foldl apply s) gs := by
  induction fs with
  | nil => exact ⟨fun h => ⟨trivial, h⟩, fun h => h.2⟩
  | cons f fs ih =>
    intro s
    rw [cons_append, AllOk, AllOk, ih, and_assoc]
    rfl

lemma AllOk.of_forall {P : φ → Prop} (h : ∀ f ∈ fs, P f) (s) :
    AllOk apply (fun _ f => P f) s fs := by
  induction fs generalizing s with
  | nil => exact trivial
  | cons f fs ih =>
    exact ⟨h f mem_cons_self, ih (forall_mem_cons.1 h).2 _⟩

/-- What is left is a part of the next frame. -/
def Waits (wire : φ → List β) (todo : List φ) (rest : List β) : Prop :=
  match todo with
  | [] => rest = []
  | f :: _ => rest <+: wire f ∧ rest ≠ wire f

variable {wire : φ → List β}

/-- Of a beginning of the frames, the whole ones are taken. -/
lemma drain_frames (h : Reads one wire apply Ok)
    {b : List β} (hok : AllOk apply Ok s fs) (hb : b <+: fs.flatMap wire) (hlen : b.length ≤ fuel) :
    ∃ done todo rest, fs = done ++ todo ∧ b = done.flatMap wire ++ rest ∧ Waits wire todo rest ∧
        drain one (fuel + 1) s b = (done.foldl apply s, rest, true) := by
  induction fuel generalizing s fs b with
  | zero =>
    obtain rfl := length_eq_zero_iff.mp (Nat.le_zero.mp hlen)
    refine ⟨[], fs, [], rfl, rfl, ?_, ?_⟩
    · cases fs with
      | nil => rfl
      | cons f fs => exact ⟨List.nil_prefix, (h.wire_ne f).symm⟩
    · rw [drain, h.nothing]
      rfl
  | succ fuel ih =>
    cases fs with
    | nil =>
      obtain rfl := prefix_nil.mp hb
      refine ⟨[], [], [], rfl, rfl, rfl, ?_⟩
      rw [drain, h.nothing]
      rfl
    | cons f fs =>
      rw [flatMap_cons] at hb
      obtain ⟨hf, hfs⟩ := hok
      by_cases hwhole : wire f <+: b
      · obtain ⟨b', rfl⟩ := hwhole
        have hpos := length_pos_iff.mpr (h.wire_ne f)
        rw [length_append] at hlen
        obtain ⟨done, todo, rest, rfl, hb', hw, hd⟩ := ih hfs
          ((prefix_append_right_inj _).mp hb) (show b'.length ≤ fuel by omega)
        refine ⟨f :: done, todo, rest, rfl, ?_, hw, ?_⟩
        · rw [hb', flatMap_cons, append_assoc]
        · rw [drain, h.whole hf]
          dsimp only
          rw [drop_left, hd]
          rfl
      · have hcut : b <+: wire f :=
          (List.prefix_or_prefix_of_prefix hb (prefix_append (wire f) _)).resolve_right hwhole
        have hne : b ≠ wire f := by
          rintro rfl
          exact hwhole prefix_rfl
        refine ⟨[], f :: fs, b, rfl, rfl, ⟨hcut, hne⟩, ?_⟩
        rw [drain, h.cut hf hcut hne]
        rfl

/-- Frames that were whole in a part of the buffer are taken from the buffer. -/
lemma Waits.covers {done : List φ} (h : Waits wire todo rest) (hfs : fs <+: done ++ todo)
    (hlen : (fs.flatMap wire).length ≤ (done.flatMap wire ++ rest).length) : fs <+: done := by
  rcases prefix_or_prefix_of_prefix hfs (prefix_append done todo) with hle | ⟨more, rfl⟩
  · exact hle
  · cases more with
    | nil =>
      simp
    | cons f more =>
      obtain ⟨todo', rfl⟩ := (prefix_append_right_inj _).mp hfs
      obtain ⟨hpart, hne⟩ := h
      have hlt : rest.length < (wire f).length := by
        refine Nat.lt_of_le_of_ne (List.IsPrefix.length_le hpart) fun heq => hne ?_
        exact List.IsPrefix.eq_of_length hpart heq
      rw [flatMap_append, flatMap_cons, length_append, length_append, length_append] at hlen
      omega

/-- When everything has been received, nothing is left. -/
lemma Waits.all (h : Waits wire todo rest) (hall : rest = todo.flatMap wire) : todo = [] := by
  cases todo with
  | nil => rfl
  | cons f todo =>
    obtain ⟨hle, hne⟩ := h
    rw [flatMap_cons] at hall
    rw [hall] at hle hne
    have := List.IsPrefix.length_le hle
    rw [length_append] at this
    obtain hnil := length_eq_zero_iff.mp (show (todo.flatMap wire).length = 0 by omega)
    rw [hnil, append_nil] at hne
    exact absurd rfl hne

end Framing
