import BPTreeDB.Model.Codec

/-!
# The state of a database process

A `World` is the data directory together with the objects of one `DB` handle.
The engine is a program over it that may raise: `Eng`.  An exception keeps the
state reached, as it does in the source, where nothing is rolled back.

## Files and crashes

Every file carries its current bytes and its bytes at the last fsync, the model
of the crash tests' `FaultyFile`.  `power` is the number of file-system calls
that the machine still performs: the call after the last one raises `powerLoss`
instead of taking effect, so a run with every possible `power` visits every
crash point.  `none` is a machine that never loses power.

## Page objects

The buffer pool hands out page *objects* that callers change in place, also
after the pool has evicted them.  `objects` is the heap of these objects and a
`Ref` names one of them.
-/

namespace BPTreeDB

open Lib

/-- A file: its current bytes and its bytes when it was last fsynced. -/
structure FileState where
  content : Bytes
  synced : Bytes
  deriving DecidableEq, Repr

/-- The data directory. -/
structure Disk where
  /-- `bptreedb.dat`. -/
  data : Option FileState
  /-- `bptreedb.wal`. -/
  wal : Option FileState
  /-- `bptreedb.wal.new`. -/
  walTemp : Option FileState
  /-- The log that a `rename` has replaced, until the directory is fsynced. -/
  replacedWal : Option FileState
  deriving DecidableEq, Repr

/-- The reference to a page object. -/
abbrev Ref := ℕ

/-- A page held in the buffer pool, paired with its dirty bit. -/
structure CachedPage where
  page : Ref
  isDirty : Bool
  deriving DecidableEq, Repr

/-- The fields of `Pager`.  `isOpen` says that `_file` is not `None`. -/
structure Pager where
  pageSizeBytes : ℕ
  isOpen : Bool
  metaPage : Option MetaPage
  isMetaDirty : Bool
  freelistCache : List (ℕ × FreelistPage)
  dirtyFreelistPageIds : List ℕ
  deriving DecidableEq, Repr

/-- The fields of `BufferPool`.  The cache is an `OrderedDict`, least recently
used page first. -/
structure BufferPool where
  capacityPages : ℕ
  cache : List (ℕ × CachedPage)
  evictionEnabled : Bool
  objects : List Page
  deriving DecidableEq, Repr

/-- The fields of `WAL`.  `isOpen` says that `_fd` is not `None`. -/
structure WAL where
  isOpen : Bool
  currentLsn : ℕ
  deriving DecidableEq, Repr

/-- The parameters of `DB`.  `dirtyRatioExceeds d c` is the outcome of the
floating-point comparison `d / c > checkpoint_dirty_page_ratio`. -/
structure Config where
  pageSizeBytes : ℕ
  cacheCapacityPages : ℕ
  checkpointWalSizeBytes : ℤ
  dirtyRatioExceeds : ℕ → ℕ → Bool

/-- The data directory and one `DB` handle on it. -/
structure World where
  disk : Disk
  power : Option ℕ
  pager : Pager
  pool : BufferPool
  wal : WAL
  config : Config
  isOpened : Bool
  versionCounter : ℕ
  recoveryLastCheckpointLsn : ℕ

/-- A program of the engine. -/
abbrev Eng := EStateM Err World

namespace Eng

/-- Run a computation of the codec. -/
def codec {α : Type} : Except Err α → Eng α
  | .ok a => pure a
  | .error e => throw e

/-- `assert`. -/
def assert (condition : Bool) (message : String) : Eng Unit :=
  if condition then pure () else throw (.assertionError message)

/-- A file-system call is about to take effect. -/
def fileSystemCall : Eng Unit := do
  match (← get).power with
  | none => pure ()
  | some 0 => throw .powerLoss
  | some (n + 1) => modify fun w => { w with power := some n }

end Eng

/-! ## File handles -/

namespace FileState

/-- The file after its bytes became `content`, not yet fsynced. -/
def write (file : FileState) (content : Bytes) : FileState := { file with content }

/-- The file after an fsync. -/
def fsync (file : FileState) : FileState := { file with synced := file.content }

/-- A file that was just created. -/
def empty : FileState := ⟨[], []⟩

end FileState

/-! ## Page objects -/

namespace Eng

/-- Create a page object. -/
def newObject (page : Page) : Eng Ref := do
  let w ← get
  set { w with pool := { w.pool with objects := w.pool.objects ++ [page] } }
  return w.pool.objects.length

/-- The current content of a page object. -/
def deref (ref : Ref) : Eng Page := do
  match (← get).pool.objects[ref]? with
  | some page => return page
  | none => throw (.assertionError "dangling page reference")

/-- Change a page object in place. -/
def assign (ref : Ref) (page : Page) : Eng Unit :=
  modify fun w => { w with pool := { w.pool with objects := w.pool.objects.set ref page } }

/-- `assert isinstance(page, InternalPage)` on a page object. -/
def derefInternal (ref : Ref) : Eng InternalPage := do
  match ← deref ref with
  | .internal page => return page
  | .leaf _ => throw (.assertionError "isinstance(page, InternalPage)")

end Eng

end BPTreeDB
