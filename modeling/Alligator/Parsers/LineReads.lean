import Alligator.Parsers.TextPush

/-!
# The parser and its line

Where the parser of a sample line reads.  The functions of this module move the cursor as the
parser does, and give nothing once it reads behind the NUL that ends the line.  No string
function gets there from a place inside the line.
-/

namespace Alligator

open Text List Option

/-! ## Reads -/

/-- `++i`, if that is not behind the terminating NUL. -/
def Cursor.next (cur : Cursor) : Option Cursor :=
  if cur.rest = [] then none else some (cur.advance 1)

/-- Over a number sign or a comma. -/
def Cursor.skipMark (cur : Cursor) : Option Cursor :=
  if cur.char = 35 ∨ cur.char = 44 then cur.next else some cur

/-- The reads of the loop of `parse_statsd_labels`: the cursor after it. -/
def statsdLoopReads : Nat → Cursor → Option Cursor
  | 0, cur => some cur
  | n + 1, cur =>
    if cur.left = 0 ∨ cur.char = 58 ∨ cur.char = 0 then some cur
    else do
      let cur := multicollectorSkipSpaces (multicollectorGetName (← cur.skipMark)).2.2
      if cur.left = 0 then return cur
      -- spaces are looked for even behind the size
      let cur ← cur.next
      statsdLoopReads n (multicollectorSkipSpaces (multicollectorGetValue cur).2.2)

/-- The reads of `parse_statsd_labels`. -/
def statsdReads (cur : Cursor) : Option Cursor :=
  if cur.left = 0 then some cur
  else cur.skipMark.bind (statsdLoopReads maxLabelCount)

/-- What follows the labels is read by string functions only. -/
def promReads : Nat → Cursor → Option Unit
  | 0, _ => some ()
  | fuel + 1, cur =>
    if cur.left = 0 then some ()
    else
      let (labelName, labelNameSize, cur) := multicollectorGetName (multicollectorSkipSpaces cur)
      let cur := multicollectorSkipSpaces cur
      if cur.left = 0 ∨ cur.char ≠ 61 then some ()
      else do
        let (rc, _, cur) := multicollectorGetQuotes (multicollectorSkipSpaces (← cur.next))
        if !rc || !metricNameValidator labelName labelNameSize then return
        let cur := multicollectorSkipSpaces cur
        if cur.left = 0 ∨ cur.char ≠ 44 then return
        let cur := multicollectorSkipSpaces (← cur.next)
        if cur.left = 0 ∨ cur.char = 125 then return
        promReads fuel cur

/-- The text behind the name of a line. -/
def behindName (str : Str) (size : Nat) : Cursor :=
  multicollectorSkipSpaces (multicollectorGetMetricName (multicollectorSkipSpaces ⟨str, size⟩)).2.2

/-- The value of a line of statsd and the tags behind it. -/
def valueReads (cur : Cursor) : Option Unit :=
  if cur.left ≤ 1 then some ()
  else do
    let cur ← cur.next
    discard (statsdReads (cur.advance (cur.strcspn [35])))

/-- The reads of `multicollector_field_get`. -/
def fieldReads (str : Str) (size : Nat) : Option Unit := do
  let (metricName, metricLen, cur) :=
    multicollectorGetMetricName (multicollectorSkipSpaces ⟨str, size⟩)
  if !metricNameValidatorPromstatsd metricName metricLen || cur.left = 0 then return
  let cur := behindName str size
  if cur.left = 0 then return
  if cur.char = 123 then
    cur.next.bind (promReads cur.left)
  else if cur.char = 58 ∨ cur.char = 35 ∨ cur.char = 44 then
    (statsdReads cur).bind valueReads

variable {cur : Cursor}

lemma next_of_char {c : UInt8} (h : cur.char = c) (hc : c ≠ 0) :
    cur.next = some (cur.advance 1) := by
  refine if_neg fun hnil => hc ?_
  rw [← h, Cursor.char, hnil]
  rfl

lemma promReads_eq (fuel : Nat) (cur : Cursor) : promReads fuel cur = some () := by
  induction fuel generalizing cur with
  | zero => rfl
  | succ fuel ih =>
    rw [promReads]
    split_ifs
    · rfl
    · generalize multicollectorGetName (multicollectorSkipSpaces cur) = name
      dsimp only
      split_ifs with hname
      · rfl
      · rw [not_or, not_not] at hname
        rw [next_of_char hname.2 (by decide)]
        dsimp only [bind, Option.bind]
        split_ifs with hbad hend
        · rfl
        · rfl
        · rw [not_or, not_not] at hend
          rw [next_of_char hend.2 (by decide)]
          dsimp only
          split_ifs
          · rfl
          · exact ih _

/-! ## Lines that are longer than their size -/

/-- The size is not behind the end of the text. -/
def Cursor.Short (cur : Cursor) : Prop := cur.left ≤ cur.rest.length

section

variable (h : cur.Short)
include h

lemma Cursor.Short.advance (n : Nat) : (cur.advance n).Short := by
  rw [Short, Cursor.advance, length_drop]
  exact Nat.sub_le_sub_right h n

lemma Cursor.Short.getUntil (reject : Str) : (getUntil reject cur).2.2.Short := by
  rw [Alligator.getUntil]
  split_ifs
  · exact h
  · exact h.advance _

lemma Cursor.Short.next (hleft : cur.left ≠ 0) : cur.next = some (cur.advance 1) := by
  refine if_neg fun hnil => hleft (Nat.le_zero.1 ?_)
  rwa [Short, hnil] at h

lemma Cursor.Short.skipMark : ∃ cur', cur.skipMark = some cur' ∧ cur'.Short := by
  rw [Cursor.skipMark]
  split_ifs with hc
  · refine ⟨_, ?_, h.advance 1⟩
    rcases hc with hc | hc <;> exact next_of_char hc (by decide)
  · exact ⟨cur, rfl, h⟩

omit h in
lemma Cursor.Short.statsdLoop (n : Nat) (h : cur.Short) :
    ∃ cur', statsdLoopReads n cur = some cur' ∧ cur'.Short := by
  induction n generalizing cur with
  | zero => exact ⟨cur, rfl, h⟩
  | succ n ih =>
    rw [statsdLoopReads]
    obtain ⟨cur1, hskip, h1⟩ := h.skipMark
    split_ifs with hend
    · exact ⟨cur, rfl, h⟩
    · rw [hskip]
      dsimp only [bind, Option.bind]
      have h2 : (multicollectorSkipSpaces (multicollectorGetName cur1).2.2).Short :=
        (h1.getUntil _).advance _
      split_ifs with hleft
      · exact ⟨_, rfl, h2⟩
      · rw [h2.next hleft]
        exact ih (((h2.advance 1).getUntil _).advance _)

lemma Cursor.Short.statsd : ∃ cur', statsdReads cur = some cur' ∧ cur'.Short := by
  rw [statsdReads]
  split_ifs
  · exact ⟨cur, rfl, h⟩
  · obtain ⟨cur', hskip, h'⟩ := h.skipMark
    rw [hskip]
    exact h'.statsdLoop _

end

/-! ## Lines whose size is behind their end -/

/-- Without a number sign or a comma at its head. -/
def unmarked (s : Str) : Str := if s.headD 0 = 35 ∨ s.headD 0 = 44 then s.tail else s

/-- The text behind some bytes and the spaces after them. -/
def behind (reject s : Str) : Str :=
  (s.dropWhile fun c => !reject.contains c).dropWhile fun c => [9, 13, 32].contains c

/-- The text behind at most `n` tags, unless one of their names is the last thing in it. -/
def tagsEnd : Nat → Str → Option Str
  | 0, s => some s
  | n + 1, s =>
    if s.headD 0 = 58 ∨ s.headD 0 = 0 then some s
    else
      match behind [9, 13, 58, 61, 123, 125, 44, 35, 32] (unmarked s) with
      | [] => none
      | _ :: t => tagsEnd n (behind [9, 13, 123, 125, 44, 35, 32] t)

/-- No name of a tag behind a value is the last thing.  A size that is more than one behind the end
needs a value. -/
def ValueClosed (k : Nat) : Str → Prop
  | [] => k = 0
  | _ :: v => (tagsEnd maxLabelCount (unmarked (v.dropWhile (· ≠ 35)))).isSome

/-- In a text behind the name of a metric, no name of a tag is the last thing, neither in front of
the value nor behind it. -/
def TagsClosed (k : Nat) (t : Str) : Prop :=
  ∃ u, tagsEnd maxLabelCount (unmarked t) = some u ∧ ValueClosed k u

section

variable {k : Nat} {s : Str}

lemma advance_span (p : UInt8 → Bool) (s : Str) :
    (Cursor.within k s).advance (s.takeWhile p).length = .within k (s.dropWhile p) := by
  have h := advance_within (k := k) (s.takeWhile p) (s.dropWhile p)
  rwa [takeWhile_append_dropWhile] at h

lemma char_within : (Cursor.within k s).char = s.headD 0 := rfl

lemma left_within_succ : (Cursor.within (k + 1) s).left ≠ 0 := Nat.succ_ne_zero _

lemma next_within : (Cursor.within k s).next =
    match s with
    | [] => none
    | _ :: t => some (.within k t) := by
  cases s with
  | nil => rfl
  | cons c t => exact congrArg some (advance_within_cons c t)

lemma skipMark_within : (Cursor.within k s).skipMark = some (.within k (unmarked s)) := by
  rw [Cursor.skipMark, unmarked, next_within]
  cases s with
  | nil => rfl
  | cons c t =>
    simp only [Cursor.char, Cursor.within, headD_cons, tail_cons]
    by_cases h : c = 35 ∨ c = 44 <;> simp only [h, if_true, if_false]

lemma getUntil_within_succ (reject : Str) :
    multicollectorSkipSpaces (getUntil reject (.within (k + 1) s)).2.2 =
      .within (k + 1) (behind reject s) := by
  rw [getUntil, if_neg left_within_succ]
  exact (congrArg multicollectorSkipSpaces (advance_span _ s)).trans (advance_span _ _)

lemma statsdLoopReads_within (n : Nat) (s : Str) :
    statsdLoopReads n (.within (k + 1) s) = (tagsEnd n s).map (.within (k + 1)) := by
  induction n generalizing s with
  | zero => rfl
  | succ n ih =>
    have hname := getUntil_within_succ (k := k) (s := unmarked s)
      [9, 13, 58, 61, 123, 125, 44, 35, 32]
    rw [statsdLoopReads, tagsEnd, skipMark_within]
    dsimp only [bind, Option.bind]
    rw [multicollectorGetName, hname]
    simp only [char_within, left_within_succ, false_or]
    by_cases hend : s.headD 0 = 58 ∨ s.headD 0 = 0
    · rw [if_pos hend, if_pos hend]
      rfl
    · rw [if_neg hend, if_neg hend, if_neg not_false, next_within]
      cases behind [9, 13, 58, 61, 123, 125, 44, 35, 32] (unmarked s) with
      | nil => rfl
      | cons c t =>
        dsimp only
        rw [multicollectorGetValue, getUntil_within_succ]
        exact ih _

lemma statsdReads_within (s : Str) : statsdReads (.within (k + 1) s) =
    (tagsEnd maxLabelCount (unmarked s)).map (.within (k + 1)) := by
  rw [statsdReads, if_neg left_within_succ, skipMark_within]
  exact statsdLoopReads_within _ _

lemma tagReads_within (t : Str) :
    (statsdReads (.within (k + 1) t)).bind valueReads = some () ↔ TagsClosed k t := by
  have hvalue : ∀ u : Str, valueReads (.within (k + 1) u) = some () ↔ ValueClosed k u := by
    intro u
    cases u with
    | nil =>
      rw [valueReads, next_within, ValueClosed]
      cases k <;> simp [Cursor.within]
    | cons c v =>
      have hleft : ¬(Cursor.within (k + 1) (c :: v)).left ≤ 1 := by
        simp only [Cursor.within, length_cons]
        omega
      have hspan : (Cursor.within (k + 1) v).advance ((Cursor.within (k + 1) v).strcspn [35]) =
          .within (k + 1) (v.dropWhile (· ≠ 35)) := by
        refine (advance_span _ v).trans (congrArg _ (congrArg (dropWhile · v) ?_))
        funext x
        simp
      rw [valueReads, if_neg hleft, next_within]
      dsimp only [bind, Option.bind]
      rw [hspan, statsdReads_within, ValueClosed]
      cases tagsEnd maxLabelCount (unmarked (v.dropWhile (· ≠ 35))) with
      | none => exact iff_of_false (fun h => by cases h) (fun h => by cases h)
      | some w => exact iff_of_true rfl rfl
  rw [statsdReads_within, TagsClosed]
  cases tagsEnd maxLabelCount (unmarked t) with
  | none => simp
  | some u => simpa using hvalue u

end

/-- The parser stays inside its line if and only if the size is not larger than the length of the
text, or the line is refused for its name or has no mark behind it, or its tags are closed. -/
theorem reads_inside_iff (str : Str) (size : Nat) :
    fieldReads str size = some () ↔ size ≤ str.length ∨
      (let name := multicollectorGetMetricName (multicollectorSkipSpaces ⟨str, size⟩);
        metricNameValidatorPromstatsd name.1 name.2.1 = false) ∨
      (behindName str size).char ∉ [58, 35, 44] ∨
      TagsClosed (size - str.length - 1) (behindName str size).rest := by
  rcases le_or_gt size str.length with hsize | hsize
  · refine iff_of_true ?_ (.inl hsize)
    have hshort : (behindName str size).Short := by
      have hcur : Cursor.Short ⟨str, size⟩ := hsize
      refine Cursor.Short.advance ?_ _
      rw [multicollectorGetMetricName]
      split_ifs <;> exact (hcur.advance _).getUntil _
    rw [fieldReads]
    generalize multicollectorGetMetricName (multicollectorSkipSpaces ⟨str, size⟩) = name
    dsimp only
    split_ifs with hbad hend hprom hstatsd
    · rfl
    · rfl
    · rw [next_of_char hprom (by decide)]
      exact promReads_eq _ _
    · obtain ⟨cur, hcur, h1⟩ := hshort.statsd
      rw [hcur, Option.bind_some, valueReads]
      split_ifs with hleft
      · rfl
      obtain ⟨cur', hcur', -⟩ := ((h1.advance 1).advance ((cur.advance 1).strcspn [35])).statsd
      rw [h1.next (by omega)]
      dsimp only [bind, Option.bind]
      rw [hcur']
      rfl
    · rfl
  obtain ⟨k, rfl⟩ : ∃ k, size = str.length + (k + 1) := ⟨size - str.length - 1, by omega⟩
  obtain ⟨s, hs⟩ : ∃ s, multicollectorSkipSpaces ⟨str, str.length + (k + 1)⟩ =
      .within (k + 1) s := ⟨_, advance_span _ str⟩
  obtain ⟨t, ht⟩ : ∃ t, behindName str (str.length + (k + 1)) = .within (k + 1) t := by
    rw [behindName, hs, multicollectorGetMetricName]
    split_ifs <;> exact ⟨_, getUntil_within_succ _⟩
  have hleft : (multicollectorGetMetricName (.within (k + 1) s)).2.2.left ≠ 0 := by
    rw [multicollectorGetMetricName]
    split_ifs <;> rw [getUntil, if_neg left_within_succ] <;>
      exact (congrArg Cursor.left (advance_span _ s)).trans_ne left_within_succ
  rw [fieldReads, ht, hs, or_iff_right (by omega)]
  have hk : str.length + (k + 1) - str.length - 1 = k := by omega
  generalize multicollectorGetMetricName (.within (k + 1) s) = name at hleft ⊢
  dsimp only
  rw [hk]
  cases hname : metricNameValidatorPromstatsd name.1 name.2.1 with
  | false => simp
  | true =>
    simp only [Bool.not_true, Bool.false_or, decide_eq_true_eq, if_neg hleft, if_neg left_within_succ,
      Bool.true_eq_false, false_or]
    by_cases hprom : (Cursor.within (k + 1) t).char = 123
    · simp [hprom, next_of_char hprom, promReads_eq]
    · rw [if_neg hprom]
      split_ifs with hmark
      · rw [tagReads_within, or_iff_right (not_not.2 (by simpa using hmark))]
        rfl
      · exact iff_of_true rfl (.inl (by simpa using hmark))

/-- A label name at the end of a line with a line feed: the NUL is stepped over. -/
theorem reads_behind : charFgets 4 (cstr "a#b\n") = [(cstr "a#b", 4)] ∧
    fieldReads (cstr "a#b") 4 = none := by
  decide

end Alligator
