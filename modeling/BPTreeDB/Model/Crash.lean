import BPTreeDB.Lib.Blocks
import BPTreeDB.Model.DB

/-!
# Crashes

What a crash leaves of the data directory.  A crash keeps what was fsynced, and keeps or drops
what was written since.  The log is appended to, so that the bytes of an append may be cut
short.  The data file is written in place, one page at a time: each of its pages survives in
its fsynced version or in the one that was written last, whatever became of the others, and
bytes behind the fsynced part may be lost or be anything.  That a page is written as a whole
is assumed, of the meta page as of the others.
-/

namespace BPTreeDB

open Lib Codec

/-! ## The log -/

/-- The bytes that a crash may leave of a file that is appended to. -/
def FileState.Survives (file : FileState) (bytes : Bytes) : Prop :=
  bytes = file.synced ∨ bytes = file.content ∨ file.synced <+: bytes ∧ bytes <+: file.content

/-- A log before and after a crash. -/
inductive Survivor : Option FileState → Option FileState → Prop
  | missing : Survivor none none
  | left {file : FileState} {bytes : Bytes} : file.Survives bytes →
      Survivor (some file) (some ⟨bytes, bytes⟩)

/-! ## The data file -/

/-- The page size of a data file, as its fsynced meta page has it.  Without a meta page every
byte counts on its own. -/
def FileState.pageSize (file : FileState) : ℕ :=
  match decodeMetaPage file.synced with
  | .ok m => m.pageSizeBytes
  | .error _ => 1

/-- The bytes that a crash may leave of a file that is written in place. -/
structure FileState.SurvivesInPlace (file : FileState) (bytes : Bytes) : Prop where
  length : bytes.length ≤ max file.synced.length file.content.length
  pages : MixesPages file.pageSize file.synced file.content bytes

/-- A data file before and after a crash. -/
inductive DataSurvivor : Option FileState → Option FileState → Prop
  | missing : DataSurvivor none none
  | left {file : FileState} {bytes : Bytes} : file.SurvivesInPlace bytes →
      DataSurvivor (some file) (some ⟨bytes, bytes⟩)

/-- A crash turns the directory `disk` into `disk'`.  A rename that is not durable yet may
be undone, and a temporary log may be left behind. -/
structure Crash (disk disk' : Disk) : Prop where
  data : DataSurvivor disk.data disk'.data
  wal : Survivor disk.wal disk'.wal ∨
    disk.replacedWal ≠ none ∧ Survivor disk.replacedWal disk'.wal
  replacedWal : disk'.replacedWal = none

/-- The same process on a machine that performs another number of file-system calls. -/
def World.powered (w : World) (power : Option ℕ) : World := { w with power }

/-- The records in the log of a directory, up to a torn tail. -/
def Disk.loggedRecords (disk : Disk) : List WALRecord :=
  match disk.wal with
  | some file => (WAL.iterRecords file.content).records.map Prod.fst
  | none => []

/-- The directory with every file rolled back to its last fsync. -/
def Disk.rolledBack (disk : Disk) : Disk where
  data := disk.data.map fun file => ⟨file.synced, file.synced⟩
  wal := disk.wal.map fun file => ⟨file.synced, file.synced⟩
  walTemp := none
  replacedWal := none

theorem FileState.survives_synced (file : FileState) : file.Survives file.synced := .inl rfl

/-- A log whose bytes are all fsynced survives as it is. -/
theorem FileState.survives_durable {bytes bytes' : Bytes}
    (h : FileState.Survives ⟨bytes, bytes⟩ bytes') : bytes' = bytes := by
  rcases h with rfl | rfl | ⟨h, h'⟩
  · rfl
  · rfl
  · exact h'.eq_of_length_le h.length_le

theorem Survivor.of_durable {bytes : Bytes} {file : Option FileState}
    (hs : Survivor (some ⟨bytes, bytes⟩) file) : file = some ⟨bytes, bytes⟩ := by
  cases hs with
  | left hbytes => rw [FileState.survives_durable hbytes]

theorem Survivor.rolledBack (file : Option FileState) :
    Survivor file (file.map fun file => ⟨file.synced, file.synced⟩) := by
  cases file with
  | none => exact .missing
  | some file => exact .left file.survives_synced

/-- A data file whose bytes are all fsynced survives as it is. -/
theorem FileState.SurvivesInPlace.eq_of_durable {bytes bytes' : Bytes}
    (h : FileState.SurvivesInPlace ⟨bytes, bytes⟩ bytes')
    (hP : 0 < FileState.pageSize ⟨bytes, bytes⟩) : bytes' = bytes := by
  have hbegins : bytes <+: bytes' := h.pages.grown hP List.prefix_rfl
  exact (hbegins.eq_of_length_le (h.length.trans_eq (max_self _))).symm

theorem DataSurvivor.rolledBack (file : Option FileState) :
    DataSurvivor file (file.map fun file => ⟨file.synced, file.synced⟩) := by
  cases file with
  | none => exact .missing
  | some file => exact .left ⟨le_max_left _ _, mixesPages_old _ _ _⟩

/-- Dropping everything that was not fsynced is a crash. -/
theorem crash_rolledBack (disk : Disk) : Crash disk disk.rolledBack :=
  ⟨.rolledBack disk.data, .inl (.rolledBack disk.wal), rfl⟩

theorem Crash.wal_survivor {disk disk' : Disk} (h : Crash disk disk')
    (hreplaced : disk.replacedWal = none) :
    Survivor disk.wal disk'.wal :=
  h.wal.resolve_right fun hother => hother.1 hreplaced

end BPTreeDB
