import BPTreeDB.Model.Wal

/-!
# The database

The facade of `db.py`: recovery, the public operations and the checkpoint.
-/

namespace BPTreeDB.DB

open Lib Eng Codec

/-! ## Handles -/

/-- A new `DB` object on a data directory. -/
def handle (config : Config) (disk : Disk) (power : Option ℕ) : World where
  disk := disk
  power := power
  pager := ⟨config.pageSizeBytes, false, none, false, [], []⟩
  pool := ⟨config.cacheCapacityPages, [], true, []⟩
  wal := ⟨false, 0⟩
  config := config
  isOpened := false
  versionCounter := 0
  recoveryLastCheckpointLsn := 0

/-- An argument of a public operation, which may have any Python type. -/
inductive PyArg where
  | bytes (value : Bytes)
  | other
  deriving DecidableEq, Repr

/-- `_check_if_opened`. -/
def checkIfOpened : Eng Unit := do
  if ¬ (← get).isOpened then throw .closed

/-- `_ensure_bytes_type`. -/
def ensureBytesType (value : PyArg) (paramName : String) : Eng Bytes :=
  match value with
  | .bytes value => return value
  | .other => throw (.typeError (paramName ++ " must have the bytes type"))

/-! ## Checkpoints -/

/-- The first half of `checkpoint`, up to the return of `append_checkpoint`: flush the
dirty pages, fsync the data file and log the CHECKPOINT record. -/
def checkpointBegin : Eng ℕ := do
  let checkpointLsn := (← get).wal.currentLsn + 1
  BufferPool.flushAll
  Pager.flushDirtyFreelistPages
  Pager.fsync
  let m ← Pager.getMeta
  let _ ← WAL.appendCheckpoint m.rootPageId m.freelistHeadPageId m.nextPageId
  return checkpointLsn

/-- The second half of `checkpoint`: publish the meta page and rotate the log. -/
def checkpointCommit (checkpointLsn : ℕ) : Eng Unit := do
  Pager.updateMeta fun m => { m with lastCheckpointLsn := checkpointLsn }
  Pager.flushMeta
  Pager.fsync
  WAL.truncateBefore checkpointLsn

/-- `DB.checkpoint`. -/
def checkpoint : Eng Unit := do
  let checkpointLsn ← checkpointBegin
  checkpointCommit checkpointLsn

/-- The condition of `_maybe_checkpoint`. -/
def shouldCheckpoint : Eng Bool := do
  let size ← WAL.sizeBytes
  if (← get).config.checkpointWalSizeBytes < size then return true
  BufferPool.dirtyRatioExceeds

/-- `_maybe_checkpoint`. -/
def maybeCheckpoint : Eng Unit := do
  if ← shouldCheckpoint then checkpoint

/-! ## Recovery -/

/-- The newest CHECKPOINT record of a list, as `(lsn, root, freelist head, next page)`. -/
def latestCheckpoint : List (WALRecord × ℕ) → Option (ℕ × ℕ × ℕ × ℕ) →
    Option (ℕ × ℕ × ℕ × ℕ)
  | [], latest => latest
  | (.checkpoint lsn root head next, _) :: rest, none =>
      latestCheckpoint rest (some (lsn, root, head, next))
  | (.checkpoint lsn root head next, _) :: rest, some latest =>
      latestCheckpoint rest (if latest.1 < lsn then some (lsn, root, head, next) else some latest)
  | _ :: rest, latest => latestCheckpoint rest latest

/-- `_repair_pager_meta_from_wal_checkpoint`. -/
def repairPagerMetaFromWalCheckpoint : Eng Unit := do
  let m ← Pager.getMeta
  let f ← WAL.file
  let iteration := WAL.iterRecords f.content
  match iteration.error with
  | some e => throw e
  | none => pure ()
  match latestCheckpoint iteration.records none with
  | none => return
  | some (lsn, root, head, next) =>
      if lsn ≤ m.lastCheckpointLsn then return
      Pager.updateMeta fun m => { m with
        rootPageId := root, freelistHeadPageId := head, nextPageId := next,
        lastCheckpointLsn := lsn }

/-- `_apply_wal_record`. -/
def applyWalRecord (record : WALRecord) : Eng Unit := do
  if record.lsn ≤ (← get).recoveryLastCheckpointLsn then return
  match record with
  | .put lsn key value => BPlusTree.insert key value lsn
  | .delete lsn key => let _ ← BPlusTree.delete key lsn
  | .checkpoint .. => return

/-- Set `_eviction_enabled`. -/
def setEviction (enabled : Bool) : Eng Unit :=
  modify fun w => { w with pool := { w.pool with evictionEnabled := enabled } }

/-- Repair and replay, the part of `_recover` that runs without eviction. -/
def repairAndReplay : Eng Unit := do
  repairPagerMetaFromWalCheckpoint
  let m ← Pager.getMeta
  modify fun w => { w with recoveryLastCheckpointLsn := m.lastCheckpointLsn }
  WAL.replay applyWalRecord

/-- `with buffer_pool.eviction_disabled()` around repair and replay. -/
def replayPhase : Eng Unit := do
  let previous := (← get).pool.evictionEnabled
  setEviction false
  try repairAndReplay
  catch e => do
    setEviction previous
    throw e
  setEviction previous

/-- `_recover`. -/
def recover : Eng Unit := do
  replayPhase
  checkpoint

/-- The handler in `DB.open`: close both files and raise again.  A machine without
power runs no handler. -/
def closeFilesAndRaise (e : Err) : Eng Unit := do
  if e = .powerLoss then throw e
  WAL.close
  Pager.close
  throw e

/-- `DB.open`. -/
def open_ : Eng Unit := do
  Pager.open_
  WAL.open_
  tryCatch recover closeFilesAndRaise
  modify fun w => { w with isOpened := true }

/-- The body of `DB.close` under its `try`. -/
def closeFiles : Eng Unit := do
  checkpoint
  WAL.close
  Pager.close

/-- Mark the handle closed. -/
def markClosed : Eng Unit :=
  modify fun w => { w with isOpened := false, versionCounter := 0 }

/-- `DB.close`. -/
def close : Eng Unit := do
  if ¬ (← get).isOpened then return
  tryCatch closeFiles fun e => do
    markClosed
    throw e
  markClosed

/-! ## Public operations -/

/-- The part of `put` between its two checkpoint opportunities: log, then insert. -/
def logAndInsert (key value : Bytes) : Eng Unit := do
  let lsn ← WAL.appendPut key value
  BPlusTree.insert key value lsn
  modify fun w => { w with versionCounter := w.versionCounter + 1 }

/-- `DB.put`. -/
def put (key value : PyArg) : Eng Unit := do
  checkIfOpened
  let key ← ensureBytesType key "key"
  let value ← ensureBytesType value "value"
  BPlusTree.raiseIfRecordTooLarge key value
  maybeCheckpoint
  logAndInsert key value
  maybeCheckpoint

/-- `DB.get`. -/
def get (key : PyArg) : Eng (Option Bytes) := do
  checkIfOpened
  let key ← ensureBytesType key "key"
  BPlusTree.search key

/-- The part of `delete` between its two checkpoint opportunities: log, then delete. -/
def logAndDelete (key : Bytes) : Eng Unit := do
  let lsn ← WAL.appendDelete key
  let wasDeleted ← BPlusTree.delete key lsn
  assert wasDeleted "tree.delete returned False right after a positive pre-search"
  modify fun w => { w with versionCounter := w.versionCounter + 1 }

/-- `DB.delete`. -/
def delete (key : PyArg) : Eng Bool := do
  checkIfOpened
  let key ← ensureBytesType key "key"
  if (← BPlusTree.search key).isNone then return false
  maybeCheckpoint
  logAndDelete key
  maybeCheckpoint
  return true

/-- The optional bounds of a scan. -/
def ensureBound (bound : Option PyArg) (paramName : String) : Eng (Option Bytes) :=
  match bound with
  | none => return none
  | some value => do return some (← ensureBytesType value paramName)

/-- `DB.scan`, fully consumed.  The version check of the iterator compares equal
numbers, because nothing is changed between two steps of the iteration. -/
def scan (startKeyInclusive endKeyExclusive : Option PyArg) : Eng (List (Bytes × Bytes)) := do
  checkIfOpened
  let startKey ← ensureBound startKeyInclusive "start_key_inclusive"
  let endKey ← ensureBound endKeyExclusive "end_key_exclusive"
  BPlusTree.scan startKey endKey

end BPTreeDB.DB
