import Alligator.Lib.RingBuffer
import Alligator.Metric.Labels

/-!
# The oplog of a peer

A node keeps the records that a peer has not fetched yet in a ring.  `oplog_record_insert` drops
the oldest record when the ring is full, `oplog_record_shift_string` hands out records up to a
number of bytes, and `oplog_record_get_string` shows them without taking them out.

A ring refines the queue of `Fifo`, whose records are shifted or dropped from the front only.
-/

namespace Alligator

open List

/-! ## The ring -/

/-- `oplog_record`, whose `begin` is `first` and whose `end` is `next`.  A slot that was never
written has no string. -/
abbrev OplogRecord := RingBuffer (Option Str)

def oplogRecordInit (size : Nat) : OplogRecord where
  size := if size < 2 then 2 else size
  first := 0
  next := 0
  cell := fun _ => none
  two_le := by split <;> omega
  first_lt := by split <;> omega
  next_lt := by split <;> omega

/-- `oplog_record_insert`, with 1 for a record that was dropped. -/
def oplogRecordInsert (oplog : OplogRecord) (data : Str) : OplogRecord × Int :=
  let r := oplog.push (some data)
  (r.1, if r.2 then 1 else 0)

def oplogSyncMaxBytes : Nat := 1024 * 1024

/-- The string of a slot, empty where there is none. -/
def OplogRecord.entry (oplog : OplogRecord) (i : Nat) : Str := (oplog.cell (oplog.index i)).getD []

/-- The loop of `oplog_record_get_string`: `n` rounds from `i` on, with what was read so far. -/
def getLoop (oplog : OplogRecord) : Nat → Nat → Str → Str
  | 0, _, ret => ret
  | n + 1, i, ret =>
    if oplog.index i = oplog.next then ret
    else if oplog.entry i = [] then getLoop oplog n (i + 1) ret
    else if oplogSyncMaxBytes < ret.length + (oplog.entry i).length then ret
    else getLoop oplog n (i + 1) (ret ++ oplog.entry i)

def oplogRecordGetString (oplog : OplogRecord) : Str := getLoop oplog oplog.size 0 []

/-- The loop of `oplog_record_shift_string`, with the new beginning. -/
def shiftLoop (oplog : OplogRecord) : Nat → Nat → Str → Nat → Str × Nat
  | 0, _, ret, newBegin => (ret, newBegin)
  | n + 1, i, ret, newBegin =>
    let following := (oplog.index i + 1) % oplog.size
    if oplog.index i = oplog.next then (ret, newBegin)
    else if oplog.entry i = [] then shiftLoop oplog n (i + 1) ret following
    else if oplogSyncMaxBytes < ret.length + (oplog.entry i).length then
      -- a record that alone exceeds the budget is shipped all the same
      if ret = [] then (ret ++ oplog.entry i, following) else (ret, newBegin)
    else shiftLoop oplog n (i + 1) (ret ++ oplog.entry i) following

variable {i n dropped : Nat} {ret : Str}

lemma shiftLoop_lt {oplog : OplogRecord} {newBegin : Nat}
    (h : newBegin < oplog.size) : (shiftLoop oplog n i ret newBegin).2 < oplog.size := by
  induction n generalizing i ret newBegin with
  | zero => exact h
  | succ n ih =>
    rw [shiftLoop]
    split_ifs
    · exact h
    · exact ih (oplog.mod_lt _)
    · exact oplog.mod_lt _
    · exact h
    · exact ih (oplog.mod_lt _)

def oplogRecordShiftString (oplog : OplogRecord) : OplogRecord × Str :=
  let r := shiftLoop oplog oplog.size 0 [] oplog.first
  (oplog.moveTo r.2 (shiftLoop_lt oplog.first_lt), r.1)

/-- The records of a ring, the oldest one first. -/
def OplogRecord.records (oplog : OplogRecord) : List Str := oplog.contents.map fun o => o.getD []

/-! ## How far the loops read -/

/-- How many records a shift takes, with the number of bytes read so far. -/
def batch (read : Nat) : List Str → Nat
  | [] => 0
  | entry :: rest =>
    if entry = [] then batch read rest + 1
    else if oplogSyncMaxBytes < read + entry.length then if read = 0 then 1 else 0
    else batch (read + entry.length) rest + 1

def shown (read : Nat) : List Str → Nat
  | [] => 0
  | entry :: rest =>
    if entry = [] then shown read rest + 1
    else if oplogSyncMaxBytes < read + entry.length then 0
    else shown (read + entry.length) rest + 1

section Loops

variable {oplog : OplogRecord}

lemma index_succ (oplog : OplogRecord) (i : Nat) :
    (oplog.index i + 1) % oplog.size = oplog.index (i + 1) := by
  rw [RingBuffer.index, Nat.mod_add_mod]
  congr 1
  omega

lemma length_records (oplog : OplogRecord) : oplog.records.length = oplog.count := by
  rw [OplogRecord.records, length_map, oplog.length_contents]

lemma drop_records (h : i < oplog.count) :
    oplog.records.drop i = oplog.entry i :: oplog.records.drop (i + 1) := by
  rw [drop_eq_getElem_cons (by rwa [length_records])]
  congr 1
  have hget := oplog.getElem?_contents h
  rw [List.getElem?_eq_getElem (by rwa [oplog.length_contents])] at hget
  simp [OplogRecord.records, Option.some.inj hget, OplogRecord.entry]

lemma index_eq_next (hi : i < oplog.size) (h : oplog.index i = oplog.next) :
    oplog.records.drop i = [] := by
  rw [(oplog.index_eq_next_iff hi).1 h]
  exact drop_eq_nil_of_le (length_records oplog).le

lemma lt_count (hi : i < oplog.size) (hc : i ≤ oplog.count)
    (h : oplog.index i ≠ oplog.next) : i < oplog.count :=
  lt_of_le_of_ne hc fun heq => h ((oplog.index_eq_next_iff hi).2 heq)

lemma shiftLoop_eq (hi : i + n = oplog.size) (hc : i ≤ oplog.count) :
    shiftLoop oplog n i ret (oplog.index i) =
      (ret ++ ((oplog.records.drop i).take (batch ret.length (oplog.records.drop i))).flatten,
        oplog.index (i + batch ret.length (oplog.records.drop i))) := by
  induction n generalizing i ret with
  | zero =>
    have := oplog.count_lt
    omega
  | succ n ih =>
    have hsize : i < oplog.size := by omega
    rw [shiftLoop, index_succ]
    by_cases hend : oplog.index i = oplog.next
    · rw [if_pos hend, index_eq_next hsize hend]
      simp [batch]
    · have hlt := lt_count hsize hc hend
      have hnext : ∀ k, i + 1 + k = i + (k + 1) := by omega
      rw [if_neg hend, drop_records hlt, batch]
      by_cases hempty : oplog.entry i = []
      · rw [if_pos hempty, if_pos hempty, ih (i := i + 1) (by omega) hlt, take_succ_cons,
          flatten_cons, hempty, nil_append, hnext]
      · rw [if_neg hempty, if_neg hempty]
        by_cases hbig : oplogSyncMaxBytes < ret.length + (oplog.entry i).length
        · rw [if_pos hbig, if_pos hbig]
          by_cases hret : ret = [] <;> simp [hret]
        · rw [if_neg hbig, if_neg hbig, ih (i := i + 1) (by omega) hlt, take_succ_cons,
            flatten_cons, length_append, append_assoc, hnext]

lemma getLoop_eq (hi : i + n = oplog.size) (hc : i ≤ oplog.count) : getLoop oplog n i ret =
      ret ++ ((oplog.records.drop i).take (shown ret.length (oplog.records.drop i))).flatten := by
  induction n generalizing i ret with
  | zero =>
    have := oplog.count_lt
    omega
  | succ n ih =>
    have hsize : i < oplog.size := by omega
    rw [getLoop]
    by_cases hend : oplog.index i = oplog.next
    · rw [if_pos hend, index_eq_next hsize hend]
      simp [shown]
    · have hlt := lt_count hsize hc hend
      rw [if_neg hend, drop_records hlt, shown]
      by_cases hempty : oplog.entry i = []
      · rw [if_pos hempty, if_pos hempty, ih (by omega) hlt, take_succ_cons,
          flatten_cons, hempty, nil_append]
      · rw [if_neg hempty, if_neg hempty]
        by_cases hbig : oplogSyncMaxBytes < ret.length + (oplog.entry i).length
        · rw [if_pos hbig, if_pos hbig, take_zero, flatten_nil, append_nil]
        · rw [if_neg hbig, if_neg hbig, ih (by omega) hlt, take_succ_cons,
            flatten_cons, length_append, append_assoc]

lemma batch_le (l : List Str) (read) : batch read l ≤ l.length := by
  induction l generalizing read with
  | nil => exact le_rfl
  | cons entry rest ih =>
    have hrest := ih read
    have hmore := ih (read + entry.length)
    rw [batch, length_cons]
    split_ifs <;> omega

/-- A get never shows more than a shift takes. -/
lemma shown_le_batch (l : List Str) (read) : shown read l ≤ batch read l := by
  induction l generalizing read with
  | nil => exact le_rfl
  | cons entry rest ih =>
    have hrest := ih read
    have hmore := ih (read + entry.length)
    rw [shown, batch]
    split_ifs <;> omega

end Loops

/-! ## The operations on the queue -/

section

variable (oplog : OplogRecord)

lemma insert_records (data : Str) : (oplogRecordInsert oplog data).1.records =
      if (oplogRecordInsert oplog data).2 = 1 then (oplog.records ++ [data]).tail
      else oplog.records ++ [data] := by
  simp only [oplogRecordInsert, OplogRecord.records, oplog.contents_push (some data)]
  by_cases h : (oplog.push (some data)).2 = true <;> simp [h]

lemma shift_records :
    (oplogRecordShiftString oplog).1.records = oplog.records.drop (batch 0 oplog.records) ∧
      (oplogRecordShiftString oplog).2 = (oplog.records.take (batch 0 oplog.records)).flatten := by
  have hfirst : oplog.first = oplog.index 0 := by
    rw [RingBuffer.index, Nat.zero_add, Nat.mod_eq_of_lt oplog.first_lt]
  have hloop : shiftLoop oplog oplog.size 0 [] (oplog.index 0) = _ :=
    shiftLoop_eq (Nat.zero_add oplog.size) (Nat.zero_le _)
  rw [← hfirst, drop_zero, nil_append, length_nil, Nat.zero_add] at hloop
  have hle : batch 0 oplog.records ≤ oplog.count := (batch_le _ 0).trans (length_records oplog).le
  have hmove : (oplogRecordShiftString oplog).1 =
      oplog.moveTo (oplog.index (batch 0 oplog.records)) (oplog.index_lt _) := by
    simp only [oplogRecordShiftString, hloop]
  refine ⟨?_, by simp only [oplogRecordShiftString, hloop]⟩
  rw [hmove, OplogRecord.records, oplog.contents_moveTo hle, map_drop]
  rfl

lemma get_records :
    oplogRecordGetString oplog = (oplog.records.take (shown 0 oplog.records)).flatten := by
  rw [oplogRecordGetString, getLoop_eq (Nat.zero_add _) (Nat.zero_le _), drop_zero,
    nil_append, length_nil]

/-- The peek is the beginning of what the next shift hands out. -/
lemma get_prefix_shift : oplogRecordGetString oplog <+: (oplogRecordShiftString oplog).2 := by
  rw [get_records, (shift_records oplog).2]
  exact (take_prefix_take_left (shown_le_batch _ 0)).flatten

end

/-! ## Runs -/

/-- A queue of records: the records inserted so far, how many of them were dropped, those that
were shifted and those that it holds.  Records leave it at the front only. -/
inductive Fifo : List Str → Nat → List Str → List Str → Prop where
  | empty : Fifo [] 0 [] []
  | insert {inserted shifted held : List Str} {dropped : Nat} (data : Str) :
      Fifo inserted dropped shifted held →
      Fifo (inserted ++ [data]) dropped shifted (held ++ [data])
  | overflow {inserted shifted held : List Str} {dropped : Nat} (data : Str) :
      Fifo inserted dropped shifted held →
      Fifo (inserted ++ [data]) (dropped + 1) shifted (held ++ [data]).tail
  | shift {inserted shifted held : List Str} {dropped : Nat} (n : Nat) :
      Fifo inserted dropped shifted held →
      Fifo inserted dropped (shifted ++ held.take n) (held.drop n)

variable {inserted shifted held : List Str}

/-- What is shifted or held was inserted, in this order. -/
lemma Fifo.sublist
    (h : Fifo inserted dropped shifted held) : (shifted ++ held).Sublist inserted := by
  induction h with
  | empty => exact List.Sublist.refl _
  | insert data _ ih =>
    rw [← append_assoc]
    exact ih.append_right [data]
  | @overflow inserted shifted held dropped data _ ih =>
    have hall : (shifted ++ (held ++ [data])).Sublist (inserted ++ [data]) := by
      rw [← append_assoc]
      exact ih.append_right [data]
    exact ((tail_sublist _).append_left shifted).trans hall
  | shift n _ ih => rwa [append_assoc, take_append_drop]

lemma Fifo.length (h : Fifo inserted dropped shifted held) :
    (shifted ++ held).length + dropped = inserted.length := by
  induction h with
  | empty => rfl
  | insert data _ ih | overflow data _ ih =>
    simp only [length_append, length_singleton, length_tail] at ih ⊢
    omega
  | shift n _ ih => rwa [append_assoc, take_append_drop]

inductive OplogOp where
  | insert (data : Str)
  | shift

/-- A ring in use, with all that was shifted out of it and the number of inserts that
returned 1. -/
structure OplogRun where
  oplog : OplogRecord
  out : Str
  overflows : Nat

def OplogRun.step (run : OplogRun) : OplogOp → OplogRun
  | .insert data =>
    let r := oplogRecordInsert run.oplog data
    ⟨r.1, run.out, if r.2 = 1 then run.overflows + 1 else run.overflows⟩
  | .shift =>
    let r := oplogRecordShiftString run.oplog
    ⟨r.1, run.out ++ r.2, run.overflows⟩

def OplogRun.run (size : Nat) (ops : List OplogOp) : OplogRun :=
  ops.foldl OplogRun.step ⟨oplogRecordInit size, [], 0⟩

/-- The records that are inserted, in their order. -/
def insertedBy (ops : List OplogOp) : List Str :=
  ops.filterMap fun op =>
    match op with
    | .insert data => some data
    | .shift => none

/-- A ring behaves as the queue does. -/
def OplogRun.Refines (run : OplogRun) (inserted : List Str) : Prop :=
  ∃ shifted, Fifo inserted run.overflows shifted run.oplog.records ∧ run.out = shifted.flatten

variable {run : OplogRun}

lemma OplogRun.Refines.step (h : run.Refines inserted)
    (op : OplogOp) : (run.step op).Refines (inserted ++ insertedBy [op]) := by
  obtain ⟨shifted, hfifo, hout⟩ := h
  cases op with
  | insert data =>
    refine ⟨shifted, ?_, hout⟩
    have hrecords := insert_records run.oplog data
    simp only [OplogRun.step, insertedBy, filterMap_cons, filterMap_nil, hrecords]
    split
    · exact hfifo.overflow data
    · exact hfifo.insert data
  | shift =>
    obtain ⟨hrecords, hstring⟩ := shift_records run.oplog
    refine ⟨shifted ++ run.oplog.records.take (batch 0 run.oplog.records), ?_, ?_⟩
    · simp only [OplogRun.step, insertedBy, filterMap_cons, filterMap_nil, append_nil, hrecords]
      exact hfifo.shift _
    · simp [OplogRun.step, hstring, hout]

lemma OplogRun.Refines.foldl (h : run.Refines inserted)
    (ops : List OplogOp) : (ops.foldl OplogRun.step run).Refines (inserted ++ insertedBy ops) := by
  induction ops using List.reverseRecOn with
  | nil => rwa [insertedBy, filterMap_nil, append_nil]
  | append_singleton ops op ih =>
    have hstep := ih.step op
    rwa [append_assoc, insertedBy, insertedBy, ← filterMap_append,
      ← foldl_concat (f := OplogRun.step)] at hstep

lemma OplogRun.step_size (run : OplogRun) (op : OplogOp) :
    (run.step op).oplog.size = run.oplog.size := by
  cases op with
  | insert data => exact run.oplog.push_size (some data)
  | shift => rfl

lemma OplogRun.run_size (size : Nat) (ops : List OplogOp) :
    (OplogRun.run size ops).oplog.size = if size < 2 then 2 else size := by
  induction ops using List.reverseRecOn with
  | nil => rfl
  | append_singleton ops op ih => rwa [run, foldl_concat, OplogRun.step_size]

/-- After any inserts and shifts, what was shifted out and what the ring holds are the inserted
records in their order without as many as inserts returned 1, each of which was the oldest one
in the ring when it was dropped.  The ring holds less records than it has slots, and a get shows
the beginning of what a shift hands out. -/
theorem oplog_fifo (size : Nat) (ops : List OplogOp) :
    let run := OplogRun.run size ops
    (∃ shifted, Fifo (insertedBy ops) run.overflows shifted run.oplog.records ∧
      run.out = shifted.flatten ∧ (shifted ++ run.oplog.records).Sublist (insertedBy ops) ∧
      (shifted ++ run.oplog.records).length + run.overflows = (insertedBy ops).length) ∧
    run.oplog.records.length ≤ (if size < 2 then 2 else size) - 1 ∧
    oplogRecordGetString run.oplog <+: (oplogRecordShiftString run.oplog).2 := by
  intro run
  have hstart : OplogRun.Refines ⟨oplogRecordInit size, [], 0⟩ [] := ⟨[], .empty, rfl⟩
  obtain ⟨shifted, hfifo, hout⟩ := hstart.foldl ops
  refine ⟨⟨shifted, hfifo, hout, hfifo.sublist, hfifo.length⟩, ?_, get_prefix_shift _⟩
  have hcount := run.oplog.count_lt
  rw [length_records, ← OplogRun.run_size size ops]
  exact Nat.le_sub_one_of_lt hcount

end Alligator
