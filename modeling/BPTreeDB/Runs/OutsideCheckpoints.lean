import BPTreeDB.Runs.LogDiscipline
import BPTreeDB.Runs.StaleHandles

/-!
# Crashes outside of checkpoints

In a life whose checkpoints all complete, a crash falls between two operations, into an append
to the log, into the change of the tree behind it, or into the replay of a recovery.  Then the
recovered map is known exactly: it is the map of the acknowledged operations and of those
interrupted ones whose whole record is in the log that survived.  `OutsideStep` labels every
interruption with this fact, so that `OutsideEvent.after` computes the map from the events.

A process that goes on after a change has raised is not part of this.  The tree in memory may
then lack records, and the next checkpoint makes the loss durable.
-/

namespace BPTreeDB.Runs

open Lib Eng Codec Lib.Program Lib.Transitions PageStore Engine DB WAL

variable {R : Regime} {P : ℕ} {M : KeyMap} {C : Content} {w w' : World} {disk disk' : Disk}
  {rs : List WALRecord} {config : Config} {power : Option ℕ} {e : Err}

/-! ## The system -/

/-- The record with which a call is logged. -/
def Call.record (lsn : ℕ) : Call → Option WALRecord
  | .put key value => some (.put lsn key value)
  | .delete key => some (.delete lsn key)
  | _ => none

/-- What happens to a database: an event of its life that is no interruption, a recovery that
stops before its checkpoint, or a call that stops.  Of the latter, the record is in the log that
survives or not. -/
inductive OutsideEvent where
  | event (e : LifeEvent)
  | recoveryCut
  | cut (c : Call) (logged : Bool)
  deriving DecidableEq

/-- The map after an event: an interrupted call counts if its record has survived. -/
def OutsideEvent.after (M : KeyMap) : OutsideEvent → KeyMap
  | .event (.answered c _) => c.after M
  | .cut c true => c.after M
  | _ => M

end BPTreeDB.Runs
