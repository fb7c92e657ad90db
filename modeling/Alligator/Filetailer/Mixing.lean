import Alligator.Filetailer.ReadOnce
import Alligator.Parsers.Multiline

/-!
# Lines of several files

All files of an aggregate are parsed through one `alligator_linebuf`, that of the `context_arg`:
the open line it keeps may be of another file than the chunk that comes next.  The records are
the lines of the files if a chunk that ends a line only comes while the buffer has the open line
of its own file (`Undivided`).
-/

namespace Alligator

open Text List Function

/-- The chunks are parsed in the order in which they were read: the records, with the path of the
chunk in which they ended. -/
def parseChunks (carg : LineCarg) : List Chunk → List (Str × Str)
  | [] => []
  | c :: cs =>
    let r := recordHandler carg c.data
    r.2.map (c.path, ·) ++ parseChunks r.1 cs

variable (path : Str)

def recordsFrom (rs : List (Str × Str)) : List Str :=
  (rs.filter (·.1 = path)).map Prod.snd

/-- A chunk with a line feed comes when the open line of all that was parsed is the open line of
its own file. -/
def Undivided (cs : List Chunk) : Prop :=
  ∀ before c after, cs = before ++ c :: after → 10 ∈ c.data →
    openLine (before.flatMap Chunk.data) = openLine (bytesOf c.path before)

/-- The files are read in whole lines. -/
lemma undivided_of_whole_lines {cs : List Chunk} (h : ∀ c ∈ cs, openLine c.data = []) :
    Undivided cs := by
  rintro before c after rfl _
  have hbefore (d : Chunk) (hd : d ∈ before) : openLine d.data = [] := h d (mem_append_left _ hd)
  rw [openLine_flatMap hbefore, bytesOf, passedOf, flatMap_map, openLine_flatMap]
  exact fun d hd => hbefore d (mem_of_mem_filter hd)

lemma recordsFrom_append (rs rs' : List (Str × Str)) :
    recordsFrom path (rs ++ rs') = recordsFrom path rs ++ recordsFrom path rs' := by
  rw [recordsFrom, filter_append, map_append]
  rfl

lemma recordsFrom_map (path q : Str) (rs : List Str) :
    recordsFrom path (rs.map (q, ·)) = if q = path then rs else [] := by
  rw [recordsFrom, filter_map, map_map]
  split
  · rename_i hq
    simp [comp_def, hq]
  · rename_i hq
    simp [comp_def, hq]

lemma bytesOf_append (cs : List Chunk) (c : Chunk) :
    bytesOf path (cs ++ [c]) = bytesOf path cs ++ if c.path = path then c.data else [] := by
  rw [bytesOf, bytesOf, passedOf, passedOf, filter_append, map_append, flatMap_append]
  split
  · rename_i hq
    simp [hq]
  · rename_i hq
    simp [hq]

/-- What comes after some chunks: the records of each path go on with its own lines. -/
lemma recordsFrom_parseChunks {cs : List Chunk} {carg : LineCarg}
    {before : List Chunk} (hcarg : HasRead carg (before.flatMap Chunk.data))
    (hcs : Undivided (before ++ cs)) :
    recordsOf (bytesOf path before) ++ recordsFrom path (parseChunks carg cs) =
      recordsOf (bytesOf path (before ++ cs)) := by
  induction cs generalizing carg before with
  | nil =>
    rw [append_nil]
    exact append_nil _
  | cons c cs ih =>
    obtain ⟨hnext, hrecords⟩ := hcarg.recordHandler c.data
    have hsplit : before ++ c :: cs = (before ++ [c]) ++ cs := by
      rw [append_assoc]
      rfl
    have hbytes : (before ++ [c]).flatMap Chunk.data = before.flatMap Chunk.data ++ c.data := by
      rw [flatMap_append, flatMap_cons, flatMap_nil, append_nil]
    rw [← hbytes] at hnext
    rw [hsplit, ← ih hnext (hsplit ▸ hcs), parseChunks, recordsFrom_append, recordsFrom_map,
      hrecords, ← append_assoc, bytesOf_append]
    congr 1
    split
    · rename_i hpath
      rw [recordsOf_append (bytesOf path before) c.data]
      congr 1
      by_cases hfeed : 10 ∈ c.data
      · rw [hcs before c cs rfl hfeed, hpath]
      · -- neither open line ends
        have hopen (text : Str) : recordsOf (openLine text ++ c.data) = [] := by
          refine recordsOf_of_not_mem ?_
          rw [mem_append, not_or]
          exact ⟨not_mem_openLine text, hfeed⟩
        rw [hopen, hopen]
    · rw [append_nil, append_nil]

/-- The records of every file are its lines in order, if no chunk that ends a line comes while the
buffer has an open line of another file. -/
theorem lines_of_each_file {state : FileStatState} (hstate : state.Keeps) {disk : Disk}
    {stats : Str → Option FileStat} (hstart : ∀ path, FromZero disk stats path)
    {es : List TailEvent} (hes : ∀ e ∈ es, ∀ path, e.Quiet path) {s : Tailer}
    (hs : (Tailer.start disk stats).run state es = some s) (hundivided : Undivided s.passed)
    (path : Str) : recordsFrom path (parseChunks {} s.passed) =
        recordsOf ((s.disk.content (disk.file path)).take (s.stat path).offset) ∧
      recordsFrom path (parseChunks {} s.passed) <+:
        recordsOf (s.disk.content (disk.file path)) := by
  have honce : ReadOnce path (disk.file path) s := by
    refine ReadOnce.run hstate ⟨_, views_start ((hstart path).rest path), (hstart path).once⟩ ?_ hs
    exact fun e he => hes e he path
  have hrecords : recordsFrom path (parseChunks {} s.passed) =
      recordsOf ((s.disk.content (disk.file path)).take (s.stat path).offset) := by
    have h := @recordsFrom_parseChunks path s.passed {} [] hasRead_nil hundivided
    rw [← honce.bytes]
    exact h
  refine ⟨hrecords, ?_⟩
  rw [hrecords]
  exact (completeLines_mono (List.take_prefix _ _)).map chomp

def twoFiles : Disk :=
  ⟨fun path => if path = [97] then ⟨1, 7⟩ else ⟨1, 8⟩,
    fun f => if f = ⟨1, 7⟩ then [97, 98, 10] else [120, 10]⟩

/-- The files are read one after the other. -/
theorem lines_of_each_file_in_turn : ∃ s, (Tailer.start twoFiles fun _ => none).run .begin
        (.notify [97] false true :: wholeChain 0 ++ .notify [98] false true :: wholeChain 1) =
          some s ∧ parseChunks {} s.passed = [([97], [97, 98]), ([98], [120])] ∧
      recordsFrom [97] (parseChunks {} s.passed) <+:
        recordsOf (s.disk.content (twoFiles.file [97])) := by
  refine ⟨_, rfl, by decide, ?_⟩
  refine (@lines_of_each_file .begin (.inl rfl) twoFiles (fun _ => none)
    (fun path => ⟨fun _ => ⟨rfl, rfl⟩, rfl, .inl rfl⟩)
    (.notify [97] false true :: wholeChain 0 ++ .notify [98] false true :: wholeChain 1)
    ?_ _ rfl ?_ [97]).2
  · intro e he path
    have hcases : e = .notify [97] false true ∨ e = .serve 0 9 ∨ e = .notify [98] false true ∨
        e = .serve 1 9 := by simpa [wholeChain] using he
    rcases hcases with rfl | rfl | rfl | rfl
    · exact fun _ => rfl
    · trivial
    · exact fun _ => rfl
    · trivial
  · refine undivided_of_whole_lines ?_
    decide

/-- The first byte of one file is read, and then the other file: the record is of neither. -/
theorem lines_mixed : ∃ s, (Tailer.start twoFiles fun _ => none).run .begin
        ([.notify [97] false true, .serve 0 9, .serve 0 9, .serve 0 0, .serve 0 9,
          .notify [98] false true] ++ wholeChain 1) = some s ∧
      parseChunks {} s.passed = [([98], [97, 120])] ∧
      recordsOf (s.disk.content (twoFiles.file [97])) = [[97, 98]] ∧
      recordsOf (s.disk.content (twoFiles.file [98])) = [[120]] := by
  refine ⟨_, rfl, ?_, ?_, ?_⟩ <;> decide

end Alligator
