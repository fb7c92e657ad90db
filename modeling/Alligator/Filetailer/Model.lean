import Alligator.Metric.Labels

/-!
# Tailing files

An aggregate over a file or a directory reads what is appended to its files.  A read is a chain
of three requests to the event loop (open, read, close), each answered by a callback, and the
position in a file is kept in its `file_stat`.  Two flags of the `file_stat` make sure that only
one chain runs per file: `read_inflight` is up while a chain runs, and `read_dirty` notes that
there was a reason to start another one meanwhile.  Files with the second flag up are in a
pending set from which an idle callback starts one chain per turn.

What happens outside is an event as well: bytes are appended to a file, a path gets another
file, a notification arrives, a crawl looks at the size of a file, and a request is worked on by
the thread pool or is answered.  A chain keeps the number of its first request, as its callbacks
share one `file_handle`.

The model is about an aggregate that parses what it reads.  Every path leads to a regular file,
requests never fail, and the aggregate is neither locked nor stopped.
-/

namespace Alligator

/-! ## Files -/

/-- `FILESTAT_STATE_*` -/
inductive FileStatState where
  | stream
  | begin
  | save
  | forget
  deriving DecidableEq

/-- A file is known by its device and its inode, which is not 0. -/
structure FileId where
  dev : Nat
  ino : Nat
  deriving DecidableEq

/-- `file_stat`.  The file that the offset refers to is not known until the first open; `ino` is
0 then. -/
structure FileStat where
  modify : Nat := 0
  offset : Nat := 0
  state : FileStatState := .stream
  id : Option FileId := none
  readInflight : Bool := false
  readDirty : Bool := false
  deriving DecidableEq

/-- The files that paths lead to, and what is in them. -/
structure Disk where
  file : Str → FileId
  content : FileId → Str

/-- `get_file_size` -/
def Disk.size (d : Disk) (path : Str) : Nat := (d.content (d.file path)).length

/-! ## Requests -/

/-- Where a chain is.  `opened` and `read` are answers whose callback has not run yet. -/
inductive Phase where
  | opening
  | opened (file : FileId)
  | reading (file : FileId) (offset : Nat)
  | read (file : FileId) (offset : Nat) (data : Str)
  | closing
  deriving DecidableEq

/-- A request whose callback has not run: the size that a crawl saw, or a chain. -/
inductive Request where
  | stat (path : Str) (size : Nat)
  | chain (path : Str) (phase : Phase)
  deriving DecidableEq

/-- A piece of a file that was given to `alligator_multiparser`. -/
structure Chunk where
  path : Str
  file : FileId
  data : Str
  deriving DecidableEq

/-- The aggregate, the files and the requests.  `pending` is a set, in whatever order, and `next` is
the number of the next request. -/
structure Tailer where
  disk : Disk
  stats : Str → Option FileStat
  pending : List Str
  rrAfter : Str
  idleActive : Bool
  requests : Nat → Option Request
  next : Nat
  passed : List Chunk

inductive TailEvent where
  | append (file : FileId) (bytes : Str)
  | replace (path : Str) (file : FileId)
  | crawl (path : Str)
  | notify (path : Str) (rename change : Bool)
  | serve (id : Nat) (more : Nat)
  /-- The idle callback, which walks the hash of the pending set in some order. -/
  | idle (walk : List Str)
  deriving DecidableEq

/-! ## `file_stat.c` -/

def fileStatResetOnRotation (state : FileStatState) (fst : FileStat) (filesize : Nat) : FileStat :=
  { fst with id := none, offset := if state = .stream then filesize else 0 }

/-- `file_stat_offset_for_read`: the offset of the result is the offset to read from. -/
def fileStatOffsetForRead (state : FileStatState) (fst : FileStat) : FileStat :=
  if state = .forget then { fst with offset := 0 } else fst

def fileStatAddOffset (state : FileStatState) (fst : FileStat) (addOffset : Nat) : FileStat :=
  { fst with modify := fst.modify + 1, offset := fst.offset + addOffset, state := state }

namespace Tailer

def stat (s : Tailer) (path : Str) : FileStat := (s.stats path).getD {}

def setStat (s : Tailer) (path : Str) (fst : FileStat) : Tailer :=
  { s with stats := Function.update s.stats path (some fst) }

def submit (s : Tailer) (r : Request) : Tailer :=
  { s with requests := Function.update s.requests s.next (some r), next := s.next + 1 }

/-- A request is answered, and perhaps the next one of its chain is made. -/
def answer (s : Tailer) (id : Nat) (r : Option Request) : Tailer :=
  { s with requests := Function.update s.requests id r }

end Tailer

section Callbacks

variable (state : FileStatState)

def fileStatGetOrCreate (s : Tailer) (path : Str) : Tailer :=
  match s.stats path with
  | some _ => s
  | none => s.setStat path { offset := if state = .stream then s.disk.size path else 0 }

/-! ## The pending set -/

def filetailerPendingAdd (s : Tailer) (path : Str) : Tailer :=
  if path ∈ s.pending then s else { s with pending := s.pending ++ [path] }

def filetailerPendingRemove (s : Tailer) (path : Str) : Tailer :=
  { s with pending := s.pending.filter (· ≠ path) }

/-- `filetailer_pick_ctx` -/
structure PickCtx where
  first : Option Str := none
  after : Option Str := none
  seenRr : Bool := false

def filetailerPendingPickForeach (s : Tailer) (ctx : PickCtx) (path : Str) : PickCtx :=
  let fst := s.stat path
  if !fst.readDirty || fst.readInflight then ctx
  else
    let ctx := if ctx.first.isNone then { ctx with first := some path } else ctx
    if s.rrAfter ≠ [] ∧ path = s.rrAfter then { ctx with seenRr := true }
    else if s.rrAfter ≠ [] ∧ !ctx.seenRr then ctx
    else if ctx.after.isNone then { ctx with after := some path }
    else ctx

def filetailerPendingPick (s : Tailer) : PickCtx :=
  s.pending.foldl (filetailerPendingPickForeach s) {}

def filetailerPendingPickNext (s : Tailer) : Tailer × Option Str :=
  let ctx := filetailerPendingPick s
  match ctx.after.or ctx.first with
  | none => (s, none)
  | some path => ({ s with rrAfter := path.take 1023 }, some path)

def filetailerPendingHasRunnable (s : Tailer) : Bool := (filetailerPendingPick s).first.isSome

/-! ## Starting a chain -/

def filetailerStartChain (s : Tailer) (path : Str) : Tailer :=
  let s := fileStatGetOrCreate state s path
  let fst := s.stat path
  if fst.readInflight then filetailerPendingAdd (s.setStat path { fst with readDirty := true }) path
  else
    let s := s.setStat path { fst with readInflight := true, readDirty := false }
    (filetailerPendingRemove s path).submit (.chain path .opening)

/-- `filetailer_should_schedule_open`, given the file that the path leads to. -/
def filetailerShouldScheduleOpen (fst : FileStat) (file : FileId) (filesize : Nat) : Bool :=
  fst.offset < filesize || filesize < fst.offset || (fst.id ≠ none && fst.id ≠ some file)

def filetailerScheduleContentReadSz (s : Tailer) (path : Str) (filesize : Nat) : Tailer :=
  let s := fileStatGetOrCreate state s path
  let fst := s.stat path
  if fst.readInflight then filetailerPendingAdd (s.setStat path { fst with readDirty := true }) path
  else
    let fst := fileStatOffsetForRead state fst
    let s := s.setStat path fst
    if filetailerShouldScheduleOpen fst (s.disk.file path) filesize then
      filetailerStartChain state s path
    else s

def filetailerMarkMoreData (s : Tailer) (path : Str) : Tailer :=
  let s := fileStatGetOrCreate state s path
  filetailerPendingAdd (s.setStat path { s.stat path with readDirty := true }) path

def filetailerArmRestartIdle (s : Tailer) : Tailer := { s with idleActive := true }

def filetailerRestartIdleCb (s : Tailer) : Tailer :=
  let r := filetailerPendingPickNext { s with idleActive := false }
  let s := match r.2 with
    | some path => filetailerStartChain state r.1 path
    | none => r.1
  if filetailerPendingHasRunnable s then filetailerArmRestartIdle s else s

/-! ## The callbacks of a chain -/

/-- `filetailer_sync_offset_from_fd` on the entry of the path. -/
def filetailerSyncOffsetFromFd (fst : FileStat) (file : FileId) (filesize : Nat) : FileStat :=
  let fst := if fst.id ≠ none ∧ fst.id ≠ some file then fileStatResetOnRotation state fst filesize
    else if filesize < fst.offset then fileStatResetOnRotation state fst filesize
    else fst
  fileStatOffsetForRead state { fst with id := some file }

def fileOnOpen (s : Tailer) (id : Nat) (path : Str) (file : FileId) : Tailer :=
  let s := fileStatGetOrCreate state s path
  let fst := filetailerSyncOffsetFromFd state (s.stat path) file (s.disk.content file).length
  (s.setStat path fst).answer id (some (.chain path (.reading file fst.offset)))

/-- The length of the read buffer, `FILETAILER_MAX_READ_SIZE - 1`. -/
def filetailerBufferLen : Nat := 999999

/-- The bytes that are passed on of those that were read: one less if the buffer is full. -/
def filetailerStrLen (nread : Nat) : Nat :=
  if filetailerBufferLen ≤ nread then filetailerBufferLen - 1 else nread

def filetailerOnRead (s : Tailer) (id : Nat) (path : Str) (file : FileId) (readOffset : Nat)
    (data : Str) : Tailer :=
  let filesize := s.disk.size path
  let s := if data = [] then
      let s := fileStatGetOrCreate state s path
      if filesize < readOffset then
        s.setStat path (fileStatResetOnRotation state (s.stat path) filesize)
      else if readOffset < filesize then filetailerMarkMoreData state s path
      else s
    else
      let strLen := filetailerStrLen data.length
      let s := s.setStat path (fileStatAddOffset state (s.stat path) strLen)
      let s := { s with passed := s.passed ++ [⟨path, file, data.take strLen⟩] }
      if readOffset + strLen < filesize then filetailerMarkMoreData state s path else s
  s.answer id (some (.chain path .closing))

/-- `filetailer_close` with `filetailer_gate_release` and `filetailer_schedule_restart`. -/
def filetailerClose (s : Tailer) (id : Nat) (path : Str) : Tailer :=
  let s := fileStatGetOrCreate state (s.answer id none) path
  let fst := s.stat path
  let s := s.setStat path { fst with readInflight := false }
  if fst.readDirty then filetailerArmRestartIdle (filetailerPendingAdd s path) else s

def onFileChange (s : Tailer) (path : Str) (rename change : Bool) : Tailer :=
  let filesize := s.disk.size path
  let s := if rename then
      let s := fileStatGetOrCreate state s path
      s.setStat path
        { fileStatResetOnRotation state (s.stat path) filesize with
          id := some (s.disk.file path) }
    else s
  if rename || change then filetailerScheduleContentReadSz state s path filesize else s

/-! ## Steps -/

/-- What a read returns: at least one byte if there is one, and at most what the buffer
takes. -/
def readAt (content : Str) (offset more : Nat) : Str :=
  (content.drop offset).take (min filetailerBufferLen (more + 1))

/-- The thread pool works on a request, or its callback runs. -/
def Tailer.serve (s : Tailer) (id more : Nat) : Request → Tailer
  | .stat path size => filetailerScheduleContentReadSz state (s.answer id none) path size
  | .chain path .opening => s.answer id (some (.chain path (.opened (s.disk.file path))))
  | .chain path (.opened file) => fileOnOpen state s id path file
  | .chain path (.reading file offset) =>
    s.answer id
      (some (.chain path (.read file offset (readAt (s.disk.content file) offset more))))
  | .chain path (.read file offset data) => filetailerOnRead state s id path file offset data
  | .chain path .closing => filetailerClose state s id path

/-- A step, if the event can happen. -/
def Tailer.step (s : Tailer) : TailEvent → Option Tailer
  | .append file bytes =>
    some { s with disk := { s.disk with
      content := Function.update s.disk.content file (s.disk.content file ++ bytes) } }
  | .replace path file =>
    some { s with disk := { s.disk with file := Function.update s.disk.file path file } }
  | .crawl path => some (s.submit (.stat path (s.disk.size path)))
  | .notify path rename change => some (onFileChange state s path rename change)
  | .serve id more => (s.requests id).map (s.serve state id more)
  | .idle walk =>
    if s.idleActive ∧ walk.Perm s.pending then
      some (filetailerRestartIdleCb state { s with pending := walk })
    else none

def Tailer.run (s : Tailer) : List TailEvent → Option Tailer
  | [] => some s
  | e :: es => (s.step state e).bind fun s => s.run es

end Callbacks

end Alligator
