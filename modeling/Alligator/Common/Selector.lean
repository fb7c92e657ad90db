import Alligator.Parsers.Multicollector

/-!
# Plain texts

`plain_parse_family` reads names and values that stand between separators.  It copies every name
behind a prefix into a buffer of its own.  The length of the copy is bounded by the size of the
buffer, not by what the prefix leaves of it, so a name that does not fit is written past the end
(`writes_inside_iff`).
-/

namespace Alligator

open Text List

def plainMetricSize : Nat := 1000

/-- The text from a name on, and the length of the name. -/
structure PlainName where
  tmp : Str
  next : Nat

/-- The loop of `plain_parse_family`: the names that are copied.  The rest of the text is given
with the number of bytes that are left of the size, and an empty value ends the loop. -/
def plainNames (sep nlsep : Str) : Nat → Str → Nat → List PlainName
  | 0, _, _ => []
  | i + 1, text, left =>
    if left = 0 then []
    else
      let tmp := text.dropWhile nlsep.contains
      let next := (tmp.takeWhile fun c => !sep.contains c).length
      let value := (tmp.drop next).dropWhile sep.contains
      let rest := value.dropWhile fun c => !nlsep.contains c
      ⟨tmp, next⟩ :: if rest = value then []
        else plainNames sep nlsep i rest (left - (text.length - rest.length))

def copySize (psize next : Nat) : Nat :=
  if next + 1 + psize > plainMetricSize then plainMetricSize else next

/-- The places that `strlcpy` writes, the zero at the end included. -/
def strlcpyWrites (dst : Nat) (src : Str) (size : Nat) : List Nat :=
  List.range' dst (if size = 0 then 0 else min src.length (size - 1) + 1)

/-- The places that `metric_name_normalizer` writes. -/
def normalizerWrites (dst : Nat) (str : Str) : List Nat :=
  (List.range' dst str.length).filter fun k => !labelChar (str.getD (k - dst) 0)

/-- All places of `metric_name` that `plain_parse_family` writes. -/
def plainParseFamilyWrites (text : Str) (size : Nat) (sep nlsep pre : Str) : List Nat :=
  strlcpyWrites 0 pre (pre.length + 1) ++
    (plainNames sep nlsep 1000 text size).flatMap fun name =>
      strlcpyWrites pre.length name.tmp (copySize pre.length name.next + 1) ++
        normalizerWrites pre.length (name.tmp.take (copySize pre.length name.next))

lemma next_le_length {sep nlsep : Str} {i left : Nat} {text : Str} {name : PlainName}
    (h : name ∈ plainNames sep nlsep i text left) : name.next ≤ name.tmp.length := by
  induction i generalizing text left with
  | zero => cases h
  | succ i ih =>
    rw [plainNames] at h
    split_ifs at h with hleft
    · cases h
    · rcases mem_cons.1 h with rfl | h
      · exact IsPrefix.length_le (List.takeWhile_prefix _)
      · split_ifs at h
        · cases h
        · exact ih h

/-- All writes are inside of the buffer if and only if every name fits behind the prefix. -/
theorem writes_inside_iff (text : Str) (size : Nat) (sep nlsep : Str) {pre : Str}
    (hpre : pre.length < plainMetricSize) :
    (∀ k ∈ plainParseFamilyWrites text size sep nlsep pre, k < plainMetricSize) ↔
      ∀ name ∈ plainNames sep nlsep 1000 text size, pre.length + name.next < plainMetricSize := by
  have hcopied : ∀ (dst : Nat) (src : Str) (n k : Nat),
      k ∈ strlcpyWrites dst src (n + 1) ↔ dst ≤ k ∧ k ≤ dst + min src.length n := by
    intro dst src n k
    rw [strlcpyWrites, if_neg (Nat.succ_ne_zero n), mem_range'_1, Nat.add_sub_cancel]
    omega
  rw [plainParseFamilyWrites]
  constructor
  · intro h name hname
    by_contra hover
    -- the copy then has the size of the buffer, so its end is behind the buffer
    have hsize : copySize pre.length name.next = plainMetricSize := if_pos (by omega)
    have hlen := next_le_length hname
    have hlast := h (pre.length + min name.tmp.length plainMetricSize)
      (mem_append_right _ (mem_flatMap.2 ⟨name, hname, mem_append_left _ (by
        rw [hsize, hcopied]
        omega)⟩))
    omega
  · intro h k hk
    rcases mem_append.1 hk with hk | hk
    · rw [hcopied] at hk
      omega
    · obtain ⟨name, hname, hk⟩ := mem_flatMap.1 hk
      have hfit := h name hname
      rw [copySize, if_neg (by omega), mem_append, hcopied] at hk
      rcases hk with hk | hk
      · omega
      · have hrange := mem_range'_1.1 (mem_filter.1 hk).1
        rw [length_take] at hrange
        omega

theorem writes_inside_short :
    (plainParseFamilyWrites (cstr "used:10") 7 [58] [10] (cstr "mem_")).Forall
      (· < plainMetricSize) :=
  forall_iff_forall_mem.2 <| (writes_inside_iff (cstr "used:10") 7 [58] [10] (by decide)).2 (by
    have hnames : (plainNames [58] [10] 1000 (cstr "used:10") 7).map PlainName.next = [4] := by
      decide
    intro name hname
    have hnext : name.next ∈ [4] := hnames ▸ mem_map_of_mem hname
    rw [mem_singleton.1 hnext]
    decide)

/-- A name of 1000 bytes is written up to the place 1000. -/
theorem writes_inside_missed :
    1000 ∈ plainParseFamilyWrites (List.replicate 1000 97) 1000 [58] [10] [] := by
  decide +kernel

end Alligator
