import BPTreeDB.Model.Tree

/-!
# The write-ahead log

The operations of `wal.py`.  The file is opened in append mode, so every write
goes to its end.
-/

namespace BPTreeDB.WAL

open Lib Eng Codec

/-! ## The log file -/

/-- The open log file; the methods of the log assert that there is one. -/
def file : Eng FileState := do
  let w ← get
  match w.wal.isOpen, w.disk.wal with
  | true, some f => return f
  | _, _ => throw (.assertionError "self._fd is not None")

/-- Replace the state of the log file. -/
def setFile (f : FileState) : Eng Unit :=
  modify fun w => { w with disk := { w.disk with wal := some f } }

/-- `fsync_file(self._fd)`. -/
def fsync : Eng Unit := do
  let f ← file
  fileSystemCall
  setFile f.fsync

/-- `size_bytes`, which asks the file system for the file at the log's path. -/
def sizeBytes : Eng ℕ := do
  match (← get).disk.wal with
  | some f => return f.content.length
  | none => throw (.assertionError "stat of a missing file")

/-- `WAL.open`. -/
def open_ : Eng Unit := do
  if (← get).wal.isOpen then return
  if (← get).disk.walTemp.isSome then
    fileSystemCall
    modify fun w => { w with disk := { w.disk with walTemp := none } }
  if (← get).disk.wal.isNone then
    fileSystemCall
    modify fun w => { w with disk := { w.disk with wal := some .empty } }
  modify fun w => { w with wal := { isOpen := true, currentLsn := 0 } }

/-- `WAL.close`. -/
def close : Eng Unit := do
  if (← get).wal.isOpen then
    fsync
    modify fun w => { w with wal := { w.wal with isOpen := false } }

/-! ## Appending -/

/-- `_append`. -/
def append (record : WALRecord) : Eng ℕ := do
  let f ← file
  let encoded ← codec (encodeWalRecord record)
  modify fun w => { w with wal := { w.wal with currentLsn := record.lsn } }
  fileSystemCall
  setFile (f.write (f.content ++ encoded))
  fsync
  return record.lsn

/-- `append_put`. -/
def appendPut (key value : Bytes) : Eng ℕ := do
  append (.put ((← get).wal.currentLsn + 1) key value)

/-- `append_delete`. -/
def appendDelete (key : Bytes) : Eng ℕ := do
  append (.delete ((← get).wal.currentLsn + 1) key)

/-- `append_checkpoint`. -/
def appendCheckpoint (rootPageId freelistHead nextPageId : ℕ) : Eng ℕ := do
  append (.checkpoint ((← get).wal.currentLsn + 1) rootPageId freelistHead nextPageId)

/-! ## Reading -/

/-- What `_iter_records` yields: the records, each with the file position behind it,
and the exception that ends the iteration, if any. -/
structure Iteration where
  records : List (WALRecord × ℕ)
  error : Option Err
  deriving DecidableEq, Repr

/-- The loop of `_iter_records` on the unread bytes at `position`.  Every round
consumes the length field of a record, so `fuel` beyond the number of bytes is never
used up. -/
def iterLoop : (fuel : ℕ) → (unread : Bytes) → (position lastLsn : ℕ) → (broken : Bool) →
    Iteration
  | 0, _, _, _, _ => ⟨[], some .diverges⟩
  | fuel + 1, unread, position, lastLsn, broken =>
      match decodeNextWalRecord unread with
      | (.error .eofError, _) => ⟨[], none⟩
      | (.error (.checksum _ _), rest) =>
          iterLoop fuel rest (position + (unread.length - rest.length)) lastLsn true
      | (.error e, _) => ⟨[], some e⟩
      | (.ok record, rest) =>
          if broken then
            ⟨[], some (.corrupted "WAL contains a broken record followed by a valid record")⟩
          else if lastLsn ≠ 0 ∧ record.lsn ≠ lastLsn + 1 then
            ⟨[], some (.corrupted ("WAL contains non-sequential LSNs: " ++ toString lastLsn ++
              " followed by " ++ toString record.lsn))⟩
          else
            let position := position + (unread.length - rest.length)
            let tail := iterLoop fuel rest position record.lsn false
            { tail with records := (record, position) :: tail.records }

/-- `_iter_records`, and `peek_records`, on the bytes of the log. -/
def iterRecords (log : Bytes) : Iteration :=
  iterLoop (log.length + 1) log 0 0 false

/-- The callback loop of `replay`; it returns the position behind the last record. -/
def replayLoop (callback : WALRecord → Eng Unit) : List (WALRecord × ℕ) → ℕ → Eng ℕ
  | [], lastGoodFilePos => return lastGoodFilePos
  | (record, position) :: rest, _ => do
      modify fun w => { w with wal := { w.wal with currentLsn := record.lsn } }
      callback record
      replayLoop callback rest position

/-- `replay`: run the callback on every record, then cut off a partial record. -/
def replay (callback : WALRecord → Eng Unit) : Eng Unit := do
  let f ← file
  modify fun w => { w with wal := { w.wal with currentLsn := 0 } }
  let iteration := iterRecords f.content
  let lastGoodFilePos ← replayLoop callback iteration.records 0
  match iteration.error with
  | some e => throw e
  | none =>
      fileSystemCall
      setFile (f.write (f.content.take lastGoodFilePos))
      fsync

/-! ## Rotation -/

/-- The records that `truncate_before` keeps, encoded. -/
def encodeFrom (lsn : ℕ) : List (WALRecord × ℕ) → Except Err Bytes
  | [] => .ok []
  | (record, _) :: rest => do
      if lsn ≤ record.lsn then return (← encodeWalRecord record) ++ (← encodeFrom lsn rest)
      else encodeFrom lsn rest

/-- Replace the state of the temporary log. -/
def setTemp (f : FileState) : Eng Unit :=
  modify fun w => { w with disk := { w.disk with walTemp := some f } }

/-- `truncate_before`. -/
def truncateBefore (lsn : ℕ) : Eng Unit := do
  let f ← file
  fileSystemCall
  setTemp .empty
  let iteration := iterRecords f.content
  let kept ← codec (encodeFrom lsn iteration.records)
  fileSystemCall
  setTemp (FileState.empty.write kept)
  match iteration.error with
  | some e => throw e
  | none => pure ()
  fileSystemCall
  setTemp ⟨kept, kept⟩
  modify fun w => { w with wal := { w.wal with isOpen := false } }
  -- The rename, which is durable only after the fsync of the directory.
  fileSystemCall
  modify fun w => { w with disk := { w.disk with
    wal := some ⟨kept, kept⟩, walTemp := none, replacedWal := some f } }
  fileSystemCall
  modify fun w => { w with
    disk := { w.disk with replacedWal := none }, wal := { w.wal with isOpen := true } }

end BPTreeDB.WAL
