import BPTreeDB.Runs.LogDiscipline

/-!
# The operation in flight

A moment of a life, looked at more closely than in its trace.  A change that stops between its
two automatic checkpoints is part of the recovered map if and only if its whole record has
survived in the log.  That is so whatever the crash left of the record's bytes, and also if the
tree had already been changed half way.
-/

namespace BPTreeDB.Runs

open Lib Eng Codec Lib.Program Lib.Transitions PageStore Engine DB WAL

variable {R : Regime} {M : KeyMap} {C : Content} {o : Option Content} {w w' : World}
  {disk disk' : Disk} {rs : List WALRecord} {config : Config} {lsn : ℕ}

/-! ## Changes -/

/-- A change of the map. -/
inductive Change where
  | put (key value : Bytes)
  | delete (key : Bytes)

/-- The part of the public operation between its two automatic checkpoints. -/
def Change.run : Change → Eng Unit
  | .put key value => DB.logAndInsert key value
  | .delete key => DB.logAndDelete key

def Change.record (lsn : ℕ) : Change → WALRecord
  | .put key value => .put lsn key value
  | .delete key => .delete lsn key

/-- The map after a change. -/
def Change.after (M : KeyMap) : Change → KeyMap
  | .put key value => Function.update M key (some value)
  | .delete key => Function.update M key none

/-- The record with which a process would log the change. -/
def Change.next (change : Change) (w : World) : WALRecord := change.record (w.wal.currentLsn + 1)

end BPTreeDB.Runs
