import BPTreeDB.Runs.InFlight
import BPTreeDB.Runs.OutsideCheckpoints

/-!
# From the CHECKPOINT record onward

A checkpoint becomes the start of every later recovery when its CHECKPOINT record is fsynced,
before the meta page and the log are replaced.  A crash behind that point leaves the meta page
and the log in their old or new versions.  Every combination recovers the map, with nothing to
re-execute.  A recovery takes a checkpoint of its own, and the same holds of that one.
-/

namespace BPTreeDB.Runs

open Lib Eng Codec Lib.Program Lib.Transitions PageStore Engine DB WAL

variable {R : Regime} {P : ℕ} {M : KeyMap} {C : Content} {w w' : World} {disk disk' : Disk}
  {rs : List WALRecord} {config : Config} {power : Option ℕ} {lsn : ℕ}

/-! ## Checkpoints -/

/-- After the replay phase the handle starts from the newest checkpoint. -/
theorem SettledFiles.recovery (h : SettledFiles R M C lsn disk)
    (hconfig : minPageSize ≤ config.pageSizeBytes) {power : Option ℕ} {w₁ w₂ : World}
    (hpager : Pager.open_ (DB.handle config disk power) = .ok () w₁)
    (hreplay : openLogAndReplay w₁ = .ok () w₂) : w₂.recoveryLastCheckpointLsn = lsn := by
  obtain ⟨rs, part, content, m, hdata, hlog, hanchor, hlsn, -⟩ := h.files
  obtain ⟨u, hpager', -, hopening⟩ := opening_of_anchor power hconfig hanchor hdata hlog
    h.replacedWal
  cases hpager.symm.trans hpager'
  obtain ⟨C', hdone⟩ := hopening.replayed hreplay
  exact hdone.recovery.trans hlsn

theorem SettledFiles.lsn_le (h : SettledFiles R M C lsn disk) :
    ∀ r ∈ disk.loggedRecords, r.lsn ≤ lsn := by
  obtain ⟨rs, part, content, m, -, hlog, hanchor, -, hlast⟩ := h.files
  rw [hlog.loggedRecords hanchor.log, ← hlast]
  exact fun r hr => hanchor.log.lsn_le hr

end BPTreeDB.Runs
