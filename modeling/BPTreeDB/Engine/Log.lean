import BPTreeDB.Format.Logs
import BPTreeDB.Engine.Frame

/-!
# Operations of the log

What the operations of the log do to the log file, call by call of the file system: an
append writes and fsyncs, a replay cuts off a torn tail, and a rotation puts a new file in
the place of the old one.
-/

namespace BPTreeDB.Engine

open Lib Eng Codec Lib.Program WAL

variable {w : World} {f : FileState} {r : WALRecord} {rs : List WALRecord} {part : Bytes}

/-- A world with other power and another log file. -/
def withLog (w : World) (power : Option ℕ) (f : FileState) : World :=
  { w with power := power, disk := { w.disk with wal := some f } }

/-- A world with another LSN counter. -/
def withLsn (w : World) (lsn : ℕ) : World :=
  { w with wal := { w.wal with currentLsn := lsn } }

/-- A world with other eviction. -/
def withEviction (w : World) (enabled : Bool) : World :=
  { w with pool := { w.pool with evictionEnabled := enabled } }

theorem walFile_eq (hopen : w.wal.isOpen = true) (hf : w.disk.wal = some f) :
    WAL.file w = .ok f w := by
  simp [WAL.file, run_bind, hopen, hf]

/-- `fsync_file(self._fd)`: it takes place, or the machine has lost its power. -/
theorem walFsync_cases (hopen : w.wal.isOpen = true) (hf : w.disk.wal = some f) :
    (w.power = some 0 ∧ WAL.fsync w = .error .powerLoss w) ∨
      ∃ power, (w.power = none → power = none) ∧
        WAL.fsync w = .ok () (withLog w power f.fsync) := by
  obtain ⟨hpower, hcall⟩ | ⟨power, hpower, hcall⟩ := fileSystemCall_cases w
  · exact .inl ⟨hpower, by rw [WAL.fsync, run_bind_ok (walFile_eq hopen hf), run_bind_error hcall]⟩
  · refine .inr ⟨power, hpower, ?_⟩
    rw [WAL.fsync, run_bind_ok (walFile_eq hopen hf), run_bind_ok hcall]
    rfl

/-! ## Opening and closing -/

/-- A world whose log has just been opened: a temporary log is gone. -/
def withOpenLog (w : World) (power : Option ℕ) : World :=
  { w with power := power, disk := { w.disk with walTemp := none }, wal := ⟨true, 0⟩ }

/-- `WAL.open` on an existing log: it takes place, or the machine has lost its power. -/
theorem walOpen_cases (hclosed : w.wal.isOpen = false) (hf : w.disk.wal = some f) :
    (w.power = some 0 ∧ WAL.open_ w = .error .powerLoss w) ∨
      ∃ power, (w.power = none → power = none) ∧ WAL.open_ w = .ok () (withOpenLog w power) := by
  cases htemp : w.disk.walTemp with
  | none =>
      refine .inr ⟨w.power, id, ?_⟩
      have hdisk : w.disk = { w.disk with walTemp := none } := by rw [← htemp]
      have hrun : WAL.open_ w = .ok () { w with wal := ⟨true, 0⟩ } := by
        simp [WAL.open_, run_bind, hclosed, htemp, hf]
      rw [hrun, withOpenLog, ← hdisk]
  | some g =>
      obtain ⟨hpower, hcall⟩ | ⟨power, hpower, hcall⟩ := fileSystemCall_cases w
      · exact .inl ⟨hpower, by simp [WAL.open_, run_bind, hclosed, htemp, hcall]⟩
      · exact .inr ⟨power, hpower, by
          simp [WAL.open_, run_bind, hclosed, htemp, hcall, hf, withOpenLog]⟩

/-- A world whose log has just been closed. -/
def withClosedLog (w : World) (power : Option ℕ) (f : FileState) : World :=
  { withLog w power f with wal := { w.wal with isOpen := false } }

theorem walClose_cases (hopen : w.wal.isOpen = true) (hf : w.disk.wal = some f) :
    (w.power = some 0 ∧ WAL.close w = .error .powerLoss w) ∨
      ∃ power, (w.power = none → power = none) ∧
        WAL.close w = .ok () (withClosedLog w power f.fsync) := by
  have hclose : WAL.close w = (WAL.fsync >>= fun _ =>
      modify fun w => { w with wal := { w.wal with isOpen := false } }) w := by
    rw [WAL.close, run_bind_ok (run_get w), if_pos hopen]
  rw [hclose]
  obtain ⟨hpower, hsync⟩ | ⟨power, hpower, hsync⟩ := walFsync_cases hopen hf
  · exact .inl ⟨hpower, run_bind_error hsync⟩
  · exact .inr ⟨power, hpower, run_bind_ok hsync⟩

/-! ## Appending -/

/-- The file after a record was written and before it is fsynced. -/
def appendedFile (f : FileState) (r : WALRecord) : FileState :=
  f.write (f.content ++ recordBytes r)

/-- What `_append` may end in. -/
inductive AppendOutcome (w : World) (f : FileState) (r : WALRecord) :
    EStateM.Result Err World ℕ → Prop
  /-- The record cannot be encoded. -/
  | refused {e : Err} : ¬ WalEncodable r → AppendOutcome w f r (.error e w)
  | lostBefore : WalEncodable r → w.power ≠ none →
      AppendOutcome w f r (.error .powerLoss (withLsn w r.lsn))
  | lostBetween {power : Option ℕ} : WalEncodable r → w.power ≠ none →
      AppendOutcome w f r (.error .powerLoss (withLog (withLsn w r.lsn) power (appendedFile f r)))
  | done {power : Option ℕ} : WalEncodable r → (w.power = none → power = none) →
      AppendOutcome w f r (.ok r.lsn (withLog (withLsn w r.lsn) power (appendedFile f r).fsync))

theorem append_outcome (hopen : w.wal.isOpen = true) (hf : w.disk.wal = some f) (r : WALRecord) :
    AppendOutcome w f r (WAL.append r w) := by
  rw [WAL.append, run_bind_ok (walFile_eq hopen hf)]
  cases hencode : encodeWalRecord r with
  | error e =>
      have hnot : ¬ WalEncodable r := by
        intro h
        rw [encodeWalRecord_eq_ok h] at hencode
        cases hencode
      exact .refused hnot
  | ok encoded =>
      obtain ⟨hencodable, rfl⟩ := encodeWalRecord_ok_iff.mp hencode
      rw [show Eng.codec (.ok (recordBytes r)) = pure (recordBytes r) from rfl, pure_bind,
        run_bind_ok (show (modify fun w : World => { w with wal := { w.wal with
          currentLsn := r.lsn } } : Eng Unit) w = .ok () (withLsn w r.lsn) from rfl)]
      obtain ⟨hpower, hcall⟩ | ⟨power, hpower, hcall⟩ := fileSystemCall_cases (withLsn w r.lsn)
      · rw [run_bind_error hcall]
        have hpower : w.power = some 0 := hpower
        exact .lostBefore hencodable (by simp [hpower])
      · rw [run_bind_ok hcall, run_bind_ok (show WAL.setFile _ _ = .ok () (withLog (withLsn w r.lsn)
          power (appendedFile f r)) from rfl)]
        obtain ⟨hpower', hsync⟩ | ⟨power', hpower', hsync⟩ := walFsync_cases
          (w := withLog (withLsn w r.lsn) power (appendedFile f r)) hopen rfl
        · rw [run_bind_error hsync]
          refine .lostBetween hencodable fun hnone => ?_
          have hlost : power = some 0 := hpower'
          rw [hpower hnone] at hlost
          cases hlost
        · rw [run_bind_ok hsync]
          exact .done hencodable fun hnone => hpower' (hpower hnone)

/-! ## Replaying -/

/-- The records of a log can be read back. -/
structure Readable (rs : List WALRecord) : Prop where
  encodable : ∀ r ∈ rs, WalEncodable r
  numbered : ∃ base, Numbered (base + 1) rs

theorem Readable.iterRecords (h : Readable rs) (hpart : Torn part) :
    iterRecords (logBytes rs ++ part) = ⟨positioned 0 rs, none⟩ := by
  obtain ⟨base, hnumbered⟩ := h.numbered
  exact iterRecords_log hnumbered h.encodable (Nat.le_add_left 1 base) hpart

/-- The end of `replay`: the file is cut behind the last whole record. -/
def cutTail (f : FileState) (rs : List WALRecord) : Eng Unit := do
  fileSystemCall
  WAL.setFile (f.write (logBytes rs))
  WAL.fsync

/-- `replay` runs the callback on each whole record, and cuts off the rest. -/
theorem replay_eq (hopen : w.wal.isOpen = true) (hf : w.disk.wal = some f)
    (hcontent : f.content = logBytes rs ++ part) (hread : Readable rs) (hpart : Torn part)
    (callback : WALRecord → Eng Unit) :
    WAL.replay callback w = (replayAll callback rs >>= fun _ => cutTail f rs) (withLsn w 0) := by
  have hloop := replayLoop_positioned callback 0 rs
  rw [WAL.replay, run_bind_ok (walFile_eq hopen hf), hcontent, hread.iterRecords hpart,
    run_bind_ok (show (modify fun w : World => { w with wal := { w.wal with
      currentLsn := 0 } } : Eng Unit) w = .ok () (withLsn w 0) from rfl)]
  simp only [hloop, bind_assoc, pure_bind, Nat.zero_add, List.take_left]
  rfl

/-- A callback that returns and leaves the log alone. -/
def LeavesLog (callback : WALRecord → Eng Unit) : Prop :=
  ∀ r w, ∃ w', callback r w = .ok () w' ∧ w'.wal = w.wal ∧ w'.disk.wal = w.disk.wal ∧
    (w.power = none → w'.power = none)

/-- The LSN of the last record, 0 if there is none. -/
def lastLsn (rs : List WALRecord) : ℕ := (rs.getLast?.map WALRecord.lsn).getD 0

theorem lastLsn_eq {base : ℕ} (h : Numbered (base + 1) rs) (hrs : rs ≠ []) :
    lastLsn rs = base + rs.length := by
  obtain ⟨front, r, rfl⟩ := List.eq_nil_or_concat rs |>.resolve_left hrs
  rw [List.concat_eq_append] at h ⊢
  obtain ⟨-, hlsn, -⟩ := numbered_append.mp h
  rw [lastLsn, List.getLast?_concat, List.length_append, List.length_singleton]
  simp only [Option.map_some, Option.getD_some, hlsn]
  omega

/-- The calls of such a callback return; the counter ends at the last LSN. -/
theorem replayAll_of_leavesLog {callback : WALRecord → Eng Unit} (hcallback : LeavesLog callback)
    (rs : List WALRecord) : ∀ {w : World}, w.wal.isOpen = true → w.power = none →
      w.disk.wal = some f → ∃ w', replayAll callback rs w = .ok () w' ∧ w'.wal.isOpen = true ∧
        w'.power = none ∧ w'.disk.wal = some f ∧
        w'.wal.currentLsn = if rs = [] then w.wal.currentLsn else lastLsn rs := by
  induction rs with
  | nil => exact fun {w} hopen hpower hf => ⟨w, rfl, hopen, hpower, hf, rfl⟩
  | cons r rs ih =>
      intro w hopen hpower hf
      obtain ⟨w₁, hrun, hwal, hdisk, hpower₁⟩ := hcallback r (withLsn w r.lsn)
      obtain ⟨w', hrest, hopen', hpower', hf', hlsn⟩ := ih (w := w₁) (by rw [hwal]; exact hopen)
        (hpower₁ hpower) (hdisk.trans hf)
      refine ⟨w', ?_, hopen', hpower', hf', ?_⟩
      · rw [replayAll, run_bind_ok (show (modify fun w : World => { w with wal := { w.wal with
          currentLsn := r.lsn } } : Eng Unit) w = .ok () (withLsn w r.lsn) from rfl),
          run_bind_ok hrun]
        exact hrest
      · rw [hlsn, hwal, if_neg (List.cons_ne_nil r rs)]
        cases rs with
        | nil => rfl
        | cons r' rs =>
            rw [if_neg (List.cons_ne_nil r' rs), lastLsn, lastLsn, List.getLast?_cons_cons]

/-- The cut of the tail, on a machine with power. -/
theorem cutTail_eq (hopen : w.wal.isOpen = true) (hpower : w.power = none) (f : FileState)
    (rs : List WALRecord) :
    cutTail f rs w = .ok () (withLog w none ⟨logBytes rs, logBytes rs⟩) := by
  obtain ⟨hlost, -⟩ | ⟨power, hpower₁, hcall⟩ := fileSystemCall_cases w
  · rw [hpower] at hlost
    cases hlost
  · obtain rfl := hpower₁ hpower
    obtain ⟨hlost, -⟩ | ⟨power, hpower₂, hsync⟩ := walFsync_cases
      (w := withLog w none (f.write (logBytes rs))) hopen rfl
    · cases hlost
    · obtain rfl := hpower₂ rfl
      rw [cutTail, run_bind_ok hcall]
      exact (run_bind_ok (show WAL.setFile _ _ = .ok () (withLog w none
        (f.write (logBytes rs))) from rfl)).trans hsync

/-! ## The replay phase of a recovery -/

variable {w' : World}

theorem replayPhase_ok (h : DB.repairAndReplay (withEviction w false) = .ok () w') :
    DB.replayPhase w = .ok () (withEviction w' w.pool.evictionEnabled) := by
  rw [DB.replayPhase, run_bind_ok (run_get w), run_bind_ok (show DB.setEviction false w =
    .ok () (withEviction w false) from rfl)]
  exact run_bind_ok (run_tryCatch_ok h)

theorem replayPhase_error {e : Err} (h : DB.repairAndReplay (withEviction w false) = .error e w') :
    DB.replayPhase w = .error e (withEviction w' w.pool.evictionEnabled) := by
  rw [DB.replayPhase, run_bind_ok (run_get w), run_bind_ok (show DB.setEviction false w =
    .ok () (withEviction w false) from rfl)]
  exact run_bind_error (run_tryCatch_error h)

end BPTreeDB.Engine
