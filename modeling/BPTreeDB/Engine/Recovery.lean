import BPTreeDB.Engine.Checkpoint

/-!
# Recovery

What `DB.open` does with a log that can be read: it takes the newest CHECKPOINT record for
the meta page if that one is older, re-applies the records behind it, cuts off a torn tail
and takes a checkpoint.
-/

namespace BPTreeDB.Engine

open Lib Eng Codec Lib.Program PageStore WAL

variable {w w' : World} {f : FileState} {rs : List WALRecord} {m : MetaPage} {part : Bytes}

/-! ## Repairing the meta page -/

/-- The meta page, or what the newest CHECKPOINT record says if that is newer. -/
def newestMeta (m : MetaPage) (records : List (WALRecord × ℕ)) : MetaPage :=
  match DB.latestCheckpoint records none with
  | none => m
  | some (lsn, root, head, next) =>
      if lsn ≤ m.lastCheckpointLsn then m
      else { m with
        rootPageId := root, freelistHeadPageId := head, nextPageId := next,
        lastCheckpointLsn := lsn }

/-- The meta page after the repair. -/
def repairedMeta (m : MetaPage) (rs : List WALRecord) : MetaPage := newestMeta m (positioned 0 rs)

/-- The world in which the replay starts. -/
def repaired (w : World) (m : MetaPage) (dirty : Bool) : World :=
  { w with
    pager := { w.pager with metaPage := some m, isMetaDirty := dirty }
    recoveryLastCheckpointLsn := m.lastCheckpointLsn }

/-- The repair by a reader that raised nothing. -/
theorem repair_of_readable (hopen : w.wal.isOpen = true) (hf : w.disk.wal = some f)
    (hread : (iterRecords f.content).error = none) (hm : w.pager.metaPage = some m) :
    ∃ dirty, DB.repairPagerMetaFromWalCheckpoint w = .ok () { w with
      pager := { w.pager with
        metaPage := some (newestMeta m (iterRecords f.content).records)
        isMetaDirty := dirty } } := by
  have hget : Pager.getMeta w = .ok m w := by simp [Pager.getMeta, run_bind, hm]
  rw [DB.repairPagerMetaFromWalCheckpoint, run_bind_ok hget, run_bind_ok (walFile_eq hopen hf)]
  have hsame : w = { w with
      pager := { w.pager with metaPage := some m, isMetaDirty := w.pager.isMetaDirty } } := by
    rw [← hm]
  unfold newestMeta
  simp only [hread]
  cases hlatest : DB.latestCheckpoint (iterRecords f.content).records none with
  | none =>
      refine ⟨w.pager.isMetaDirty, ?_⟩
      dsimp only
      exact congrArg _ hsame
  | some latest =>
      obtain ⟨lsn, root, head, next⟩ := latest
      by_cases hle : lsn ≤ m.lastCheckpointLsn
      · refine ⟨w.pager.isMetaDirty, ?_⟩
        simp only [if_pos hle]
        exact congrArg _ hsame
      · refine ⟨true, ?_⟩
        simp only [if_neg hle]
        show Pager.updateMeta _ w = _
        rw [Pager.updateMeta, run_bind_ok hget]
        rfl

/-- The repair of a log that can be read. -/
theorem repair_eq (rs : List WALRecord) (part : Bytes) (hopen : w.wal.isOpen = true)
    (hf : w.disk.wal = some f) (hcontent : f.content = logBytes rs ++ part) (hread : Readable rs)
    (hpart : Torn part) (hm : w.pager.metaPage = some m) :
    ∃ dirty, DB.repairPagerMetaFromWalCheckpoint w = .ok () { w with
      pager := { w.pager with metaPage := some (repairedMeta m rs), isMetaDirty := dirty } } := by
  have hrecords : iterRecords f.content = ⟨positioned 0 rs, none⟩ := by
    rw [hcontent, hread.iterRecords hpart]
  have hrepair := repair_of_readable hopen hf (by rw [hrecords]) hm
  rw [hrecords] at hrepair
  exact hrepair

/-- The replay of a log that can be read. -/
theorem repairAndReplay_of_repair {dirty : Bool} (rs : List WALRecord) (part : Bytes)
    (hopen : w.wal.isOpen = true) (hf : w.disk.wal = some f)
    (hcontent : f.content = logBytes rs ++ part) (hread : Readable rs) (hpart : Torn part)
    (hrepair : DB.repairPagerMetaFromWalCheckpoint w = .ok () { w with
      pager := { w.pager with metaPage := some (repairedMeta m rs), isMetaDirty := dirty } }) :
    DB.repairAndReplay w = (replayAll DB.applyWalRecord rs >>= fun _ => cutTail f rs)
      (withLsn (repaired w (repairedMeta m rs) dirty) 0) := by
  rw [DB.repairAndReplay, run_bind_ok hrepair]
  exact replay_eq (w := repaired w (repairedMeta m rs) dirty) hopen hf hcontent hread hpart _

/-- Repair and replay of a log that can be read. -/
theorem repairAndReplay_eq (rs : List WALRecord) (part : Bytes) (hopen : w.wal.isOpen = true)
    (hf : w.disk.wal = some f) (hcontent : f.content = logBytes rs ++ part) (hread : Readable rs)
      (hpart : Torn part)
    (hm : w.pager.metaPage = some m) :
    ∃ dirty, DB.repairAndReplay w = (replayAll DB.applyWalRecord rs >>= fun _ => cutTail f rs)
      (withLsn (repaired w (repairedMeta m rs) dirty) 0) := by
  obtain ⟨dirty, hrepair⟩ := repair_eq rs part hopen hf hcontent hread hpart hm
  exact ⟨dirty, repairAndReplay_of_repair rs part hopen hf hcontent hread hpart hrepair⟩

/-- The log is read before anything is repaired or replayed. -/
theorem repairAndReplay_raises {m : MetaPage} (hm : w.pager.metaPage = some m)
    (hopen : w.wal.isOpen = true)
    (hf : w.disk.wal = some f) {e : Err} (he : (iterRecords f.content).error = some e) :
    DB.repairAndReplay w = .error e w := by
  have hget : Pager.getMeta w = .ok m w := by simp [Pager.getMeta, run_bind, hm]
  have hrepair : DB.repairPagerMetaFromWalCheckpoint w = .error e w := by
    rw [DB.repairPagerMetaFromWalCheckpoint, run_bind_ok hget, run_bind_ok (walFile_eq hopen hf)]
    simp only [he]
    rfl
  rw [DB.repairAndReplay, run_bind_error hrepair]

/-! ## Skipping records -/

/-- A record that the pages already contain is skipped. -/
theorem applyWalRecord_skip {r : WALRecord} (h : r.lsn ≤ w.recoveryLastCheckpointLsn) :
    DB.applyWalRecord r w = .ok () w := by
  unfold DB.applyWalRecord
  rw [run_bind_ok (run_get w), if_pos h]
  rfl

theorem replayAll_cons (callback : WALRecord → Eng Unit) (r : WALRecord) (rs : List WALRecord) :
    replayAll callback (r :: rs) w = (callback r >>= fun _ => replayAll callback rs)
      (withLsn w r.lsn) :=
  rfl

/-- Records up to the last checkpoint only set the counter. -/
theorem replayAll_skip (rs : List WALRecord) : ∀ {w : World} {r : WALRecord},
    (∀ q ∈ r :: rs, q.lsn ≤ w.recoveryLastCheckpointLsn) →
      replayAll DB.applyWalRecord (r :: rs) w = .ok () (withLsn w (lastLsn (r :: rs))) := by
  induction rs with
  | nil =>
      intro w r h
      have hskip : r.lsn ≤ (withLsn w r.lsn).recoveryLastCheckpointLsn :=
        h r (List.mem_cons_self ..)
      rw [replayAll_cons, run_bind_ok (applyWalRecord_skip hskip)]
      rfl
  | cons q rs ih =>
      intro w r h
      have hskip : r.lsn ≤ (withLsn w r.lsn).recoveryLastCheckpointLsn :=
        h r (List.mem_cons_self ..)
      rw [replayAll_cons, run_bind_ok (applyWalRecord_skip hskip),
        ih (w := withLsn w r.lsn) fun p hp => h p (List.mem_cons_of_mem _ hp)]
      rw [lastLsn, lastLsn, List.getLast?_cons_cons]
      rfl

/-! ## Opening -/

theorem closeFilesAndRaise_ne_ok (e : Err) : DB.closeFilesAndRaise e w ≠ .ok () w' := by
  intro hrun
  unfold DB.closeFilesAndRaise at hrun
  split at hrun
  · cases hrun
  · obtain ⟨_, w₁, -, hrun⟩ := bind_eq_ok.mp hrun
    obtain ⟨_, w₂, -, hrun⟩ := bind_eq_ok.mp hrun
    cases hrun

/-- The stages of an `open` that returned. -/
theorem open_eq_ok (hrun : DB.open_ w = .ok () w') :
    ∃ w₁ w₂ w₃, Pager.open_ w = .ok () w₁ ∧ WAL.open_ w₁ = .ok () w₂ ∧ DB.recover w₂ = .ok () w₃ ∧
      w' = { w₃ with isOpened := true } := by
  obtain ⟨_, w₁, hpager, hrun⟩ := bind_eq_ok.mp hrun
  obtain ⟨_, w₂, hwal, hrun⟩ := bind_eq_ok.mp hrun
  obtain ⟨_, w₃, htry, hmark⟩ := bind_eq_ok.mp hrun
  cases hmark
  refine ⟨w₁, w₂, w₃, hpager, hwal, ?_, rfl⟩
  cases hrecover : DB.recover w₂ with
  | ok _ w₄ =>
      rw [run_tryCatch_ok hrecover] at htry
      cases htry
      rfl
  | error e w₄ =>
      rw [run_tryCatch_error hrecover] at htry
      exact absurd htry (closeFilesAndRaise_ne_ok e)

/-- The stages of a recovery that returned. -/
theorem recover_eq_ok (hrun : DB.recover w = .ok () w') :
    ∃ w₁, DB.repairAndReplay (withEviction w false) = .ok () w₁ ∧
      DB.checkpoint (withEviction w₁ w.pool.evictionEnabled) = .ok () w' := by
  obtain ⟨_, w₁, hphase, hcheckpoint⟩ := bind_eq_ok.mp hrun
  cases hreplay : DB.repairAndReplay (withEviction w false) with
  | ok _ w₂ =>
      rw [replayPhase_ok hreplay] at hphase
      cases hphase
      exact ⟨w₂, rfl, hcheckpoint⟩
  | error e w₂ =>
      rw [replayPhase_error hreplay] at hphase
      cases hphase

end BPTreeDB.Engine
