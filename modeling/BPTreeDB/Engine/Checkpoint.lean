import BPTreeDB.Engine.Log
import BPTreeDB.Engine.Opening

/-!
# Checkpoints

A checkpoint writes the dirty pages, makes them durable, logs where the tree is, publishes
the meta page and rotates the log.  The lemmas follow these stages and say of each what it
leaves on disk, also where the machine loses its power in the middle of it.  After a
checkpoint that returned, the data file alone holds the content of the process and the log
holds the CHECKPOINT record alone.
-/

namespace BPTreeDB.Engine

open Lib Eng Codec Lib.Program PageStore WAL

variable {w w' : World} {C : Content} {f g : FileState} {rs : List WALRecord} {m : MetaPage}

/-! ## Rotating the log -/

/-- The world after the log was replaced by a shorter one. -/
def rotated (w : World) (power : Option ℕ) (kept : Bytes) : World :=
  { w with
    power := power
    disk := { w.disk with wal := some ⟨kept, kept⟩, walTemp := none, replacedWal := none }
    wal := { w.wal with isOpen := true } }

/-- What `truncate_before` may end in.  Where the machine loses its power, the log is still
the old one, or it is the new one and the rename is not durable yet. -/
inductive RotateOutcome (w : World) (f : FileState) (kept : Bytes) :
    EStateM.Result Err World Unit → Prop
  | lostBefore {w' : World} : w.power ≠ none → w'.disk.data = w.disk.data →
      w'.disk.wal = some f → w'.disk.replacedWal = w.disk.replacedWal →
      RotateOutcome w f kept (.error .powerLoss w')
  | lostAfter {w' : World} : w.power ≠ none → w'.disk.data = w.disk.data →
      w'.disk.wal = some ⟨kept, kept⟩ → w'.disk.replacedWal = some f →
      RotateOutcome w f kept (.error .powerLoss w')
  | done {power : Option ℕ} : (w.power = none → power = none) →
      RotateOutcome w f kept (.ok () (rotated w power kept))

/-- The world with other power and another temporary log. -/
def withTemp (w : World) (power : Option ℕ) (f : FileState) : World :=
  { w with power := power, disk := { w.disk with walTemp := some f } }

/-- One write to the temporary log: it takes place, or the machine has lost its power. -/
theorem setTemp_cases (w : World) (f : FileState) (rest : Eng Unit) :
    (w.power = some 0 ∧
        (do fileSystemCall; WAL.setTemp f; rest : Eng Unit) w = .error .powerLoss w) ∨
      ∃ power, (w.power = none → power = none) ∧
        (do fileSystemCall; WAL.setTemp f; rest : Eng Unit) w = rest (withTemp w power f) := by
  obtain ⟨hpower, hcall⟩ | ⟨power, hpower, hcall⟩ := fileSystemCall_cases w
  · exact .inl ⟨hpower, run_bind_error hcall⟩
  · refine .inr ⟨power, hpower, ?_⟩
    rw [run_bind_ok hcall]
    rfl

/-- The rename and the fsync of the directory. -/
def switchLog (f : FileState) (kept : Bytes) : Eng Unit := do
  modify fun w => { w with wal := { w.wal with isOpen := false } }
  fileSystemCall
  modify fun w => { w with disk := { w.disk with
    wal := some ⟨kept, kept⟩, walTemp := none, replacedWal := some f } }
  fileSystemCall
  modify fun w => { w with
    disk := { w.disk with replacedWal := none }, wal := { w.wal with isOpen := true } }

theorem switchLog_outcome (hf : w.disk.wal = some f) (kept : Bytes) :
    RotateOutcome w f kept (switchLog f kept w) := by
  rw [switchLog, run_bind_ok (run_modify _ w)]
  set w₁ : World := { w with wal := { w.wal with isOpen := false } } with hw₁
  obtain ⟨hpower, hcall⟩ | ⟨power₁, hpower₁, hcall⟩ := fileSystemCall_cases w₁
  · rw [run_bind_error hcall]
    have hlost : w.power = some 0 := hpower
    exact .lostBefore (by simp [hlost]) rfl hf rfl
  · rw [run_bind_ok hcall, run_bind_ok (run_modify _ _)]
    set w₂ : World := { w₁ with power := power₁, disk := { w₁.disk with
      wal := some ⟨kept, kept⟩, walTemp := none, replacedWal := some f } } with hw₂
    obtain ⟨hpower, hcall⟩ | ⟨power₂, hpower₂, hcall⟩ := fileSystemCall_cases w₂
    · rw [run_bind_error hcall]
      refine .lostAfter (fun hnone => ?_) rfl rfl rfl
      have hlost : power₁ = some 0 := hpower
      rw [hpower₁ hnone] at hlost
      cases hlost
    · rw [run_bind_ok hcall]
      exact .done fun hnone => hpower₂ (hpower₁ hnone)

theorem RotateOutcome.of_temp {power : Option ℕ} {kept : Bytes} {r : EStateM.Result Err World Unit}
    (hpower : w.power = none → power = none)
    (h : RotateOutcome (withTemp w power g) f kept r) : RotateOutcome w f kept r := by
  cases h with
  | lostBefore hlost hdata hwal hreplaced =>
      exact .lostBefore (fun hnone => hlost (hpower hnone)) hdata hwal hreplaced
  | lostAfter hlost hdata hwal hreplaced =>
      exact .lostAfter (fun hnone => hlost (hpower hnone)) hdata hwal hreplaced
  | done hpower' => exact .done fun hnone => hpower' (hpower hnone)

/-- `truncate_before` keeps the records from the given LSN on. -/
theorem truncateBefore_outcome (rs : List WALRecord) (hopen : w.wal.isOpen = true)
    (hf : w.disk.wal = some f) (hcontent : f.content = logBytes rs)
      (hread : Readable rs) (lsn : ℕ) :
    RotateOutcome w f (logBytes (rs.filter fun r => decide (lsn ≤ r.lsn)))
      (WAL.truncateBefore lsn w) := by
  set kept := logBytes (rs.filter fun r => decide (lsn ≤ r.lsn)) with hkept
  have hrecords : iterRecords f.content = ⟨positioned 0 rs, none⟩ := by
    have := hread.iterRecords torn_nil
    rwa [List.append_nil, ← hcontent] at this
  have hencode : encodeFrom lsn (positioned 0 rs) = .ok kept :=
    encodeFrom_positioned lsn 0 hread.encodable
  have hrun : WAL.truncateBefore lsn w = (do
      fileSystemCall
      WAL.setTemp .empty
      fileSystemCall
      WAL.setTemp (FileState.empty.write kept)
      fileSystemCall
      WAL.setTemp ⟨kept, kept⟩
      switchLog f kept : Eng Unit) w := by
    rw [WAL.truncateBefore, run_bind_ok (walFile_eq hopen hf), hrecords]
    simp only [hencode]
    rfl
  rw [hrun]
  -- The power may go at each of the three calls on the new file; the old log is untouched until
  -- then.
  obtain ⟨hpower, hrun⟩ | ⟨power₁, hpower₁, hrun⟩ := setTemp_cases w .empty _
  · rw [hrun]
    exact .lostBefore (by simp [hpower]) rfl hf rfl
  rw [hrun]
  refine RotateOutcome.of_temp (g := .empty) hpower₁ ?_
  obtain ⟨hpower, hrun⟩ | ⟨power₂, hpower₂, hrun⟩ :=
    setTemp_cases (withTemp w power₁ .empty) (FileState.empty.write kept) _
  · rw [hrun]
    exact .lostBefore (by simp [hpower]) rfl hf rfl
  rw [hrun]
  refine RotateOutcome.of_temp (g := FileState.empty.write kept) hpower₂ ?_
  obtain ⟨hpower, hrun⟩ | ⟨power₃, hpower₃, hrun⟩ :=
    setTemp_cases (withTemp (withTemp w power₁ .empty) power₂ (FileState.empty.write kept))
      ⟨kept, kept⟩ _
  · rw [hrun]
    exact .lostBefore (by simp [hpower]) rfl hf rfl
  · rw [hrun]
    refine RotateOutcome.of_temp (g := ⟨kept, kept⟩) hpower₃ (switchLog_outcome ?_ kept)
    exact hf

/-! ## Writing the pages -/

/-- The content of a process is in its pager, its pool and the bytes of the data file. -/
theorem Quiet.congr (hq : Quiet w C) (hpager : w'.pager = w.pager) (hpool : w'.pool = w.pool)
    (hdata : w'.disk.data.map (·.content) = w.disk.data.map (·.content)) : Quiet w' C := by
  have hcontent : dataContent w' = dataContent w := by
    unfold dataContent
    rw [hdata]
  have hisSome : w'.disk.data.isSome := by
    have := congrArg Option.isSome hdata
    rw [Option.isSome_map, Option.isSome_map] at this
    exact this.trans hq.data
  refine ⟨?_, hisSome, ?_, ?_, ?_, fun h => h.elim, fun h => absurd trivial h⟩
  · rw [hpager]
    exact hq.isOpen
  · rw [hpager]
    exact hq.pageSize
  · rw [hpager, hcontent]
    exact hq.metaPage
  · rw [hpool, hcontent]
    exact hq.pool

/-- The part of a checkpoint that makes the pages durable. -/
def persist : Eng Unit := do
  BufferPool.flushAll
  Pager.flushDirtyFreelistPages
  Pager.fsync

/-- The world after the dirty pages were written and made durable. -/
def persisted (w : World) (power : Option ℕ) (content : Bytes) (cache : List (ℕ × CachedPage)) :
    World :=
  { w with
    power := power
    disk := { w.disk with data := some ⟨content, content⟩ }
    pool := { w.pool with cache := cache }
    pager := { w.pager with dirtyFreelistPageIds := [] } }

/-- All pages of the process are in the bytes `content` of the data file, which still has
its old meta page. -/
structure Persisted (C : Content) (m : MetaPage) (w : World) (power : Option ℕ) (content : Bytes)
    (cache : List (ℕ × CachedPage)) : Prop where
  keepsPower : w.power = none → power = none
  metaPage : w.pager.metaPage = some m
  fields : MetaSim m C.pageSize C.root C.next
  pagesOn : PagesOn content m.freelistHeadPageId C
  quiet : Quiet (persisted w power content cache) C
  clean : ∀ e ∈ cache, e.2.isDirty = false
  sameCache : cache.map (fun e => (e.1, e.2.page)) = w.pool.cache.map fun e => (e.1, e.2.page)
  metaKept : (readAt (dataContent w) 0 w.pager.pageSizeBytes).length = w.pager.pageSizeBytes →
    readAt content 0 w.pager.pageSizeBytes = readAt (dataContent w) 0 w.pager.pageSizeBytes

/-- The failure of a flush: nothing of it is durable. -/
structure FlushFails (C : Content) (w : World) (e : Err) (w' : World) : Prop where
  flushes : Flushes w w'
  quiet : Quiet w' C
  cause : (w.power ≠ none ∧ e = .powerLoss) ∨ Unencodable C e

/-- What making the pages durable may end in. -/
inductive PersistOutcome (C : Content) (m : MetaPage) (w : World) :
    EStateM.Result Err World Unit → Prop
  | failed {e : Err} {w' : World} : FlushFails C w e w' → PersistOutcome C m w (.error e w')
  | done {power : Option ℕ} {content : Bytes} {cache : List (ℕ × CachedPage)} :
      Persisted C m w power content cache →
      PersistOutcome C m w (.ok () (persisted w power content cache))

theorem persist_outcome (hst : Storable C) (hq : Quiet w C) (hm : w.pager.metaPage = some m) :
    PersistOutcome C m w (persist w) := by
  have hall := flushAll_spec hst hq
  rw [persist]
  cases hrun : BufferPool.flushAll w with
  | error e w₁ =>
      rw [hrun] at hall
      rw [run_bind_error hrun]
      exact .failed ⟨hall.2.1, hall.1, hall.2.2⟩
  | ok _ w₁ =>
      rw [hrun] at hall
      obtain ⟨hq₁, hflush₁, hclean₁⟩ := hall
      rw [run_bind_ok hrun]
      have hfree := flushDirtyFreelistPages_spec hst hq₁
      cases hrun₂ : Pager.flushDirtyFreelistPages w₁ with
      | error e w₂ =>
          rw [hrun₂] at hfree
          rw [run_bind_error hrun₂]
          have hspec := FlushSpec.after hflush₁ hfree
          exact .failed ⟨hspec.2.1, hspec.1, hspec.2.2⟩
      | ok _ w₂ =>
          rw [hrun₂] at hfree
          obtain ⟨hq₂, hflush₂, hdirty₂, hpool₂⟩ := hfree
          rw [run_bind_ok hrun₂]
          -- Both flushes returned: no page is dirty, and the sync makes what they wrote durable.
          have hflush := hflush₁.trans hflush₂
          obtain ⟨f, hf⟩ := Option.isSome_iff_exists.mp hq₂.data
          obtain ⟨hlost, hsync⟩ | ⟨power, hpower, hsync⟩ := pagerFsync_cases hq₂.isOpen hf
          · rw [hsync]
            refine .failed ⟨hflush, hq₂, .inl ⟨fun hnone => ?_, rfl⟩⟩
            rw [hflush.power hnone] at hlost
            cases hlost
          · rw [hsync]
            have hclean₂ : ∀ e ∈ w₂.pool.cache, e.2.isDirty = false := by
              rw [hpool₂]
              exact hclean₁
            obtain ⟨m', hm', hfields, hpages⟩ := hq₂.pagesOn hclean₂ hdirty₂
            obtain ⟨⟨power₂, content, cache, dirty, rfl⟩, hpower₂, hmeta, hcache⟩ := hflush
            obtain rfl : dirty = [] := hdirty₂
            obtain rfl : m = m' := Option.some.inj (hm.symm.trans hm')
            obtain ⟨f₀, hf₀⟩ := Option.isSome_iff_exists.mp hq.data
            obtain rfl : f₀.write content = f := by
              simpa [flushedTo, hf₀] using hf
            refine .done ⟨fun hnone => hpower (hpower₂ hnone), hm, hfields, ?_, ?_, hclean₂, hcache,
              ?_⟩
            · simpa [dataContent, hf] using hpages
            · exact hq₂.congr rfl rfl (by rw [hf]; rfl)
            · simpa [dataContent, flushedTo, hf₀] using hmeta

/-! ## The meta page and the record of a checkpoint -/

/-- The meta page that a checkpoint publishes. -/
def checkpointMeta (m : MetaPage) (lsn : ℕ) : MetaPage := { m with lastCheckpointLsn := lsn }

/-- The record that a checkpoint logs. -/
def checkpointRecord (m : MetaPage) (lsn : ℕ) : WALRecord :=
  .checkpoint lsn m.rootPageId m.freelistHeadPageId m.nextPageId

/-- Where the record can be written, so can the meta page. -/
theorem metaEncodable_of_walEncodable {lsn : ℕ} (h : WalEncodable (checkpointRecord m lsn))
    (hlarge : minPageSize ≤ m.pageSizeBytes) (hsmall : m.pageSizeBytes < 256 ^ 4) :
    MetaEncodable (checkpointMeta m lsn) := by
  obtain ⟨hroot, hhead, hnext⟩ := h.payload
  exact ⟨hlarge, hsmall, hroot, hnext, hhead, h.lsn⟩

/-- Writing the meta page leaves the content of the process as it is. -/
theorem Quiet.writeMeta (hq : Quiet w C) (hst : Storable C) (hf : w.disk.data = some f)
    (hm : w.pager.metaPage = some m) {lsn : ℕ} (hencodable : MetaEncodable (checkpointMeta m lsn))
    (power : Option ℕ) (synced : Bytes) (dirty : Bool) :
    Quiet (withMeta w power ⟨writeAt f.content 0 (metaPageBytes (checkpointMeta m lsn)), synced⟩
      (checkpointMeta m lsn) dirty) C := by
  obtain ⟨m', hm', hfields, hfree⟩ := hq.metaPage
  obtain rfl : m = m' := Option.some.inj (hm.symm.trans hm')
  have hlen : (metaPageBytes (checkpointMeta m lsn)).length = C.pageSize :=
    (length_metaPageBytes hencodable).trans hfields.pageSize
  have hzero : 0 ∉ C.chain.map Prod.fst :=
    fun hmem => ((chainFrom_iff hfree.heads).mp hfree.linked).2.1 0 hmem rfl
  have hcontent : dataContent w = f.content := by simp [dataContent, hf]
  have hwritten : dataContent (withMeta w power
      ⟨writeAt f.content 0 (metaPageBytes (checkpointMeta m lsn)), synced⟩ (checkpointMeta m lsn)
        dirty) =
      writeAt (dataContent w) (0 * C.pageSize) (metaPageBytes (checkpointMeta m lsn)) := by
    rw [hcontent, Nat.zero_mul]
    rfl
  refine ⟨hq.isOpen, rfl, hq.pageSize, ⟨_, rfl, ⟨hfields.pageSize, hfields.root, hfields.next⟩, ?_⟩,
    ?_, fun h => h.elim, fun h => absurd trivial h⟩
  · rw [hwritten]
    have hsim : FreelistSim (writeAt (dataContent w) (0 * C.pageSize) _) _ _ _ _ :=
      hfree.write hlen hzero
    exact ⟨hsim.linked, hsim.heads, hsim.cached, hsim.clean⟩
  · rw [hwritten]
    exact { hq.pool with disk := fun x page hx hpending hclean =>
      ⟨((hq.pool.disk x page hx hpending hclean).1).write_of_ne hlen (hst.pos x (by
        rw [show C.pages x = some page from hx]
        rfl)), trivial⟩ }

theorem Persisted.image {power : Option ℕ} {content : Bytes} {cache : List (ℕ × CachedPage)}
    (h : Persisted C m w power content cache) (hst : Storable C) {lsn : ℕ}
    (hencodable : MetaEncodable (checkpointMeta m lsn)) :
    Image (writeAt content 0 (metaPageBytes (checkpointMeta m lsn))) (checkpointMeta m lsn) C :=
  ⟨hencodable, prefix_writeAt_meta _ _, ⟨h.fields.pageSize, h.fields.root, h.fields.next⟩,
    h.pagesOn.writeMeta hst.pos hencodable h.fields.pageSize⟩

/-! ## The whole checkpoint -/

/-- The open log of the world `w` holds the records, numbered up to the LSN counter. -/
structure LogOf (rs : List WALRecord) (f : FileState) (w : World) : Prop where
  isOpen : w.wal.isOpen = true
  file : w.disk.wal = some f
  content : f.content = logBytes rs
  encodable : ∀ r ∈ rs, WalEncodable r
  numbered : ∃ base, Numbered (base + 1) rs ∧ base + rs.length = w.wal.currentLsn

/-- The world after a checkpoint. -/
def checkpointed (w : World) (power : Option ℕ) (content : Bytes) (cache : List (ℕ × CachedPage))
    (m : MetaPage) : World :=
  let log := recordBytes (checkpointRecord m m.lastCheckpointLsn)
  { w with
    power := power
    disk := ⟨some ⟨content, content⟩, some ⟨log, log⟩, none, none⟩
    pager := { w.pager with
      metaPage := some m, isMetaDirty := false, dirtyFreelistPageIds := [] }
    pool := { w.pool with cache := cache }
    wal := ⟨true, m.lastCheckpointLsn⟩ }

/-- What a checkpoint may end in, stage by stage. -/
inductive CheckpointOutcome (C : Content) (m : MetaPage) (w : World) (f : FileState) (lsn : ℕ) :
    EStateM.Result Err World Unit → Prop
  | flushing {e : Err} {w' : World} : FlushFails C w e w' →
      CheckpointOutcome C m w f lsn (.error e w')
  | refused {e : Err} {power : Option ℕ} {content : Bytes} {cache : List (ℕ × CachedPage)} :
      Persisted C m w power content cache → ¬ WalEncodable (checkpointRecord m lsn) →
      CheckpointOutcome C m w f lsn (.error e (persisted w power content cache))
  /-- The record is not durable yet. -/
  | logging {power : Option ℕ} {content : Bytes} {cache : List (ℕ × CachedPage)} {w' : World} :
      Persisted C m w power content cache → w.power ≠ none →
      WalEncodable (checkpointRecord m lsn) → w'.disk.data = some ⟨content, content⟩ →
      (w'.disk.wal = some f ∨ w'.disk.wal = some (appendedFile f (checkpointRecord m lsn))) →
      w'.disk.replacedWal = w.disk.replacedWal →
      CheckpointOutcome C m w f lsn (.error .powerLoss w')
  /-- The record is durable, the meta page may be written but is not durable. -/
  | publishing {power : Option ℕ} {content : Bytes} {cache : List (ℕ × CachedPage)} {w' : World} :
      Persisted C m w power content cache → w.power ≠ none →
      WalEncodable (checkpointRecord m lsn) →
      (w'.disk.data = some ⟨content, content⟩ ∨
        w'.disk.data = some ⟨writeAt content 0 (metaPageBytes (checkpointMeta m lsn)), content⟩) →
      w'.disk.wal = some (appendedFile f (checkpointRecord m lsn)).fsync →
      w'.disk.replacedWal = w.disk.replacedWal →
      CheckpointOutcome C m w f lsn (.error .powerLoss w')
  /-- The meta page is durable, the log is the old or the new one. -/
  | rotating {power : Option ℕ} {content content' : Bytes} {cache : List (ℕ × CachedPage)}
      {w₁ w' : World} : Persisted C m w power content cache → w.power ≠ none →
      WalEncodable (checkpointRecord m lsn) →
      content' = writeAt content 0 (metaPageBytes (checkpointMeta m lsn)) →
      w₁.disk = { w.disk with
        data := some ⟨content', content'⟩
        wal := some (appendedFile f (checkpointRecord m lsn)).fsync } →
      RotateOutcome w₁ (appendedFile f (checkpointRecord m lsn)).fsync
        (recordBytes (checkpointRecord m lsn)) (.error .powerLoss w') →
      CheckpointOutcome C m w f lsn (.error .powerLoss w')
  | done {power₀ power : Option ℕ} {content : Bytes} {cache : List (ℕ × CachedPage)} :
      Persisted C m w power₀ content cache → (w.power = none → power = none) →
      WalEncodable (checkpointRecord m lsn) →
      CheckpointOutcome C m w f lsn (.ok () (checkpointed w power
        (writeAt content 0 (metaPageBytes (checkpointMeta m lsn))) cache (checkpointMeta m lsn)))

/-- What the second half of a checkpoint may end in. -/
inductive CommitOutcome (C : Content) (m : MetaPage) (w : World) (f : FileState) (lsn : ℕ) :
    EStateM.Result Err World Unit → Prop
  | publishing {power : Option ℕ} {content : Bytes} {cache : List (ℕ × CachedPage)} {w' : World} :
      Persisted C m w power content cache → w.power ≠ none →
      WalEncodable (checkpointRecord m lsn) →
      (w'.disk.data = some ⟨content, content⟩ ∨
        w'.disk.data = some ⟨writeAt content 0 (metaPageBytes (checkpointMeta m lsn)), content⟩) →
      w'.disk.wal = some (appendedFile f (checkpointRecord m lsn)).fsync →
      w'.disk.replacedWal = w.disk.replacedWal →
      CommitOutcome C m w f lsn (.error .powerLoss w')
  | rotating {power : Option ℕ} {content content' : Bytes} {cache : List (ℕ × CachedPage)}
      {w₁ w' : World} : Persisted C m w power content cache → w.power ≠ none →
      WalEncodable (checkpointRecord m lsn) →
      content' = writeAt content 0 (metaPageBytes (checkpointMeta m lsn)) →
      w₁.disk = { w.disk with
        data := some ⟨content', content'⟩
        wal := some (appendedFile f (checkpointRecord m lsn)).fsync } →
      RotateOutcome w₁ (appendedFile f (checkpointRecord m lsn)).fsync
        (recordBytes (checkpointRecord m lsn)) (.error .powerLoss w') →
      CommitOutcome C m w f lsn (.error .powerLoss w')
  | done {power₀ power : Option ℕ} {content : Bytes} {cache : List (ℕ × CachedPage)} :
      Persisted C m w power₀ content cache → (w.power = none → power = none) →
      WalEncodable (checkpointRecord m lsn) →
      CommitOutcome C m w f lsn (.ok () (checkpointed w power
        (writeAt content 0 (metaPageBytes (checkpointMeta m lsn))) cache (checkpointMeta m lsn)))

theorem CommitOutcome.outcome {lsn : ℕ} {r : EStateM.Result Err World Unit}
    (h : CommitOutcome C m w f lsn r) : CheckpointOutcome C m w f lsn r := by
  cases h with
  | publishing hp hpower hencodable hdata hwal hreplaced =>
      exact .publishing hp hpower hencodable hdata hwal hreplaced
  | rotating hp hpower hencodable hcontent hdisk hrotate =>
      exact .rotating hp hpower hencodable hcontent hdisk hrotate
  | done hp hpower hencodable => exact .done hp hpower hencodable

/-- The record of the checkpoint is the only one that the rotation keeps. -/
theorem filter_checkpoint {base lsn : ℕ} (h : Numbered (base + 1) rs)
    (hlsn : base + rs.length + 1 = lsn) :
    (rs ++ [checkpointRecord m lsn]).filter (fun r => decide (lsn ≤ r.lsn)) =
      [checkpointRecord m lsn] := by
  have hnumbered : Numbered (base + 1) (rs ++ [checkpointRecord m lsn]) :=
    numbered_append.mpr ⟨h, by simp only [checkpointRecord, WALRecord.lsn]; omega, trivial⟩
  have hdrop := hnumbered.filter_eq_drop rs.length
  rw [show base + 1 + rs.length = lsn by omega, List.drop_left] at hdrop
  exact hdrop

theorem LogOf.append {lsn : ℕ} (h : LogOf rs f w) (hlsn : lsn = w.wal.currentLsn + 1)
    (hencodable : WalEncodable (checkpointRecord m lsn)) :
    Readable (rs ++ [checkpointRecord m lsn]) ∧
      (rs ++ [checkpointRecord m lsn]).filter (fun r => decide (lsn ≤ r.lsn)) =
        [checkpointRecord m lsn] := by
  obtain ⟨base, hnumbered, hbase⟩ := h.numbered
  refine ⟨⟨fun r hr => ?_, base, ?_⟩, filter_checkpoint hnumbered (by omega)⟩
  · rcases List.mem_append.mp hr with hr | hr
    · exact h.encodable r hr
    · rw [List.mem_singleton.mp hr]
      exact hencodable
  · refine numbered_append.mpr ⟨hnumbered, ?_, trivial⟩
    simp only [checkpointRecord, WALRecord.lsn]
    omega

/-- The second half of a checkpoint, after its record has become durable. -/
theorem checkpointCommit_outcome {power₀ power : Option ℕ} {content : Bytes}
    {cache : List (ℕ × CachedPage)} {lsn : ℕ} (hp : Persisted C m w power₀ content cache)
    (hlog : LogOf rs f w) (hlsn : lsn = w.wal.currentLsn + 1) (hst : Storable C)
    (hlarge : minPageSize ≤ C.pageSize) (hencodable : WalEncodable (checkpointRecord m lsn))
    (hpower : w.power = none → power = none) :
    CommitOutcome C m w f lsn (DB.checkpointCommit lsn
      (withLog (withLsn (persisted w power₀ content cache) lsn) power
        (appendedFile f (checkpointRecord m lsn)).fsync)) := by
  set w₄ := withLog (withLsn (persisted w power₀ content cache) lsn) power
    (appendedFile f (checkpointRecord m lsn)).fsync with hw₄
  have hopen : w₄.pager.isOpen = true := hp.quiet.isOpen
  have hmeta : MetaEncodable (checkpointMeta m lsn) := by
    refine metaEncodable_of_walEncodable hencodable ?_ ?_
    · rw [hp.fields.pageSize]
      exact hlarge
    · rw [hp.fields.pageSize]
      exact hst.pageSize
  have hget : Pager.getMeta w₄ = .ok m w₄ := by
    have hm : w₄.pager.metaPage = some m := hp.metaPage
    simp [Pager.getMeta, run_bind, hm]
  have hupdate : Pager.updateMeta (fun m => { m with lastCheckpointLsn := lsn }) w₄ =
      .ok () (withMeta w₄ power ⟨content, content⟩ (checkpointMeta m lsn) true) := by
    rw [Pager.updateMeta, run_bind_ok hget]
    rfl
  set content' := writeAt content 0 (metaPageBytes (checkpointMeta m lsn)) with hcontent'
  rw [DB.checkpointCommit, run_bind_ok hupdate]
  rcases flushMeta_cases (w := withMeta w₄ power ⟨content, content⟩ (checkpointMeta m lsn) true)
      hopen rfl rfl with ⟨hnot, -⟩ | ⟨hlost, hflush⟩ | ⟨-, power₁, hpower₁, hflush⟩
  · exact absurd hmeta hnot
  · rw [run_bind_error hflush]
    have hlost : power = some 0 := hlost
    exact .publishing hp (fun hnone => by cases (hpower hnone).symm.trans hlost)
      hencodable (.inl rfl)
      rfl rfl
  rw [run_bind_ok hflush]
  rcases pagerFsync_cases (w := withMeta w₄ power₁ ⟨content', content⟩ (checkpointMeta m lsn) false)
      hopen rfl with ⟨hlost, hsync⟩ | ⟨power₂, hpower₂, hsync⟩
  · refine (congrArg _ (run_bind_error hsync)).mpr ?_
    have hlost : power₁ = some 0 := hlost
    exact .publishing hp
      (fun hnone => by cases (hpower₁ (hpower hnone)).symm.trans hlost) hencodable
      (.inr rfl) rfl rfl
  refine (congrArg _ (run_bind_ok hsync)).mpr ?_
  -- The meta page is durable. The rotation keeps the new record alone.
  obtain ⟨hread, hfilter⟩ := hlog.append hlsn hencodable
  have hrotate := truncateBefore_outcome
    (w := withMeta w₄ power₂ ⟨content', content'⟩ (checkpointMeta m lsn) false)
    (f := (appendedFile f (checkpointRecord m lsn)).fsync) (rs ++ [checkpointRecord m lsn])
    hlog.isOpen rfl
    (by simp [appendedFile, FileState.write, FileState.fsync, hlog.content]) hread lsn
  rw [hfilter, logBytes_cons, logBytes_nil, List.append_nil] at hrotate
  have hpowers : w.power = none → power₂ = none := fun hnone => hpower₂ (hpower₁ (hpower hnone))
  show CommitOutcome C m w f lsn (WAL.truncateBefore lsn
    (withMeta w₄ power₂ ⟨content', content'⟩ (checkpointMeta m lsn) false))
  revert hrotate
  cases WAL.truncateBefore lsn
    (withMeta w₄ power₂ ⟨content', content'⟩ (checkpointMeta m lsn) false) with
  | error e w₅ =>
      intro hrotate
      have he : e = .powerLoss ∧ power₂ ≠ none := by
        cases hrotate with
        | lostBefore hlost => exact ⟨rfl, hlost⟩
        | lostAfter hlost => exact ⟨rfl, hlost⟩
      obtain ⟨rfl, hlost⟩ := he
      exact .rotating hp (fun hnone => hlost (hpowers hnone)) hencodable rfl rfl hrotate
  | ok _ w₅ =>
      intro hrotate
      cases hrotate with
      | done hpower₃ => exact .done hp (fun hnone => hpower₃ (hpowers hnone)) hencodable

/-- What `DB.checkpoint` may end in. -/
theorem checkpoint_outcome (hst : Storable C) (hlarge : minPageSize ≤ C.pageSize) (hq : Quiet w C)
    (hm : w.pager.metaPage = some m) (hlog : LogOf rs f w) :
    CheckpointOutcome C m w f (w.wal.currentLsn + 1) (DB.checkpoint w) := by
  have hbegin : DB.checkpoint w = (persist >>= fun _ => Pager.getMeta >>= fun m =>
      WAL.appendCheckpoint m.rootPageId m.freelistHeadPageId m.nextPageId >>= fun _ =>
        DB.checkpointCommit (w.wal.currentLsn + 1)) w := by
    rw [DB.checkpoint, DB.checkpointBegin, persist]
    simp only [bind_assoc, pure_bind]
    rfl
  rw [hbegin]
  have hpersist := persist_outcome hst hq hm
  cases hrun : persist w with
  | error e w₁ =>
      rw [run_bind_error hrun]
      rw [hrun] at hpersist
      cases hpersist with
      | failed hfails => exact .flushing hfails
  | ok _ w₁ =>
      rw [run_bind_ok hrun]
      rw [hrun] at hpersist
      cases hpersist with
      | @done power content cache hp =>
          -- The pages are on disk; the record that is logged next names the same meta fields.
          have hget : Pager.getMeta (persisted w power content cache) =
              .ok m (persisted w power content cache) := by
            have hm' : (persisted w power content cache).pager.metaPage = some m := hm
            simp [Pager.getMeta, run_bind, hm']
          rw [run_bind_ok hget]
          have happend := append_outcome (w := persisted w power content cache)
            hlog.isOpen hlog.file
            (checkpointRecord m (w.wal.currentLsn + 1))
          have hcall : WAL.appendCheckpoint m.rootPageId m.freelistHeadPageId m.nextPageId
              (persisted w power content cache) =
              WAL.append (checkpointRecord m (w.wal.currentLsn + 1))
                (persisted w power content cache) := rfl
          rw [← hcall] at happend
          cases hrun' : WAL.appendCheckpoint m.rootPageId m.freelistHeadPageId m.nextPageId
              (persisted w power content cache) with
          | error e w₂ =>
              rw [run_bind_error hrun']
              rw [hrun'] at happend
              cases happend with
              | refused hnot => exact .refused hp hnot
              | lostBefore hencodable hlost =>
                  exact .logging hp (fun hnone => hlost (hp.keepsPower hnone)) hencodable rfl
                    (.inl hlog.file) rfl
              | lostBetween hencodable hlost =>
                  exact .logging hp (fun hnone => hlost (hp.keepsPower hnone)) hencodable rfl
                    (.inr rfl) rfl
          | ok lsn w₂ =>
              rw [run_bind_ok hrun']
              rw [hrun'] at happend
              cases happend with
              | done hencodable hpower =>
                  exact (checkpointCommit_outcome hp hlog rfl hst hlarge hencodable fun hnone =>
                    hpower (hp.keepsPower hnone)).outcome

/-- A first half of a checkpoint that returned: the pages and the record are durable. -/
theorem checkpointBegin_ok {lsn : ℕ} (hst : Storable C) (hq : Quiet w C)
    (hm : w.pager.metaPage = some m) (hlog : LogOf rs f w)
    (hrun : DB.checkpointBegin w = .ok lsn w') :
    ∃ power₀ power content cache, Persisted C m w power₀ content cache ∧
      lsn = w.wal.currentLsn + 1 ∧ WalEncodable (checkpointRecord m lsn) ∧
      w' = withLog (withLsn (persisted w power₀ content cache) lsn) power
        (appendedFile f (checkpointRecord m lsn)).fsync := by
  have hbegin : DB.checkpointBegin w = (persist >>= fun _ => Pager.getMeta >>= fun m =>
      WAL.appendCheckpoint m.rootPageId m.freelistHeadPageId m.nextPageId >>= fun _ =>
        pure (w.wal.currentLsn + 1)) w := by
    rw [DB.checkpointBegin, persist]
    simp only [bind_assoc]
    rfl
  rw [hbegin] at hrun
  obtain ⟨_, w₁, hpersist, hrun⟩ := bind_eq_ok.mp hrun
  obtain ⟨m', w₂, hget, hrun⟩ := bind_eq_ok.mp hrun
  obtain ⟨_, w₃, happend, hpure⟩ := bind_eq_ok.mp hrun
  cases hpure
  have hp := persist_outcome hst hq hm
  rw [hpersist] at hp
  cases hp with
  | @done power₀ content cache hp =>
      have hm' : (persisted w power₀ content cache).pager.metaPage = some m := hm
      have hget' : Pager.getMeta (persisted w power₀ content cache) =
          .ok m (persisted w power₀ content cache) := by
        simp [Pager.getMeta, run_bind, hm']
      cases hget.symm.trans hget'
      have houtcome := append_outcome (w := persisted w power₀ content cache)
        hlog.isOpen hlog.file (checkpointRecord m (w.wal.currentLsn + 1))
      have hcall : WAL.appendCheckpoint m.rootPageId m.freelistHeadPageId m.nextPageId
          (persisted w power₀ content cache) =
          WAL.append (checkpointRecord m (w.wal.currentLsn + 1))
            (persisted w power₀ content cache) := rfl
      rw [← hcall, happend] at houtcome
      cases houtcome with
      | done hencodable _ => exact ⟨power₀, _, content, cache, hp, rfl, hencodable, rfl⟩

/-- A checkpoint that returned: the data file holds the content of the process under the new
meta page, no page is dirty, and the log holds the CHECKPOINT record alone. -/
structure CheckpointDone (C : Content) (m : MetaPage) (w : World) (w' : World) : Prop where
  eq : ∃ power content cache, (w.power = none → power = none) ∧
    w' = checkpointed w power content cache (checkpointMeta m (w.wal.currentLsn + 1)) ∧
    Image content (checkpointMeta m (w.wal.currentLsn + 1)) C ∧
    (∀ e ∈ cache, e.2.isDirty = false) ∧
    cache.map (fun e => (e.1, e.2.page)) = w.pool.cache.map fun e => (e.1, e.2.page)
  quiet : Quiet w' C
  encodable : WalEncodable (checkpointRecord m (w.wal.currentLsn + 1))

theorem checkpoint_done (hst : Storable C) (hlarge : minPageSize ≤ C.pageSize) (hq : Quiet w C)
    (hm : w.pager.metaPage = some m) (hlog : LogOf rs f w) (hrun : DB.checkpoint w = .ok () w') :
    CheckpointDone C m w w' := by
  have houtcome := checkpoint_outcome hst hlarge hq hm hlog
  rw [hrun] at houtcome
  cases houtcome with
  | @done power₀ power content cache hp hpower hencodable =>
      have hmeta : MetaEncodable (checkpointMeta m (w.wal.currentLsn + 1)) := by
        refine metaEncodable_of_walEncodable hencodable ?_ ?_
        · rw [hp.fields.pageSize]
          exact hlarge
        · rw [hp.fields.pageSize]
          exact hst.pageSize
      refine ⟨⟨power, _, cache, hpower, rfl, hp.image hst hmeta, hp.clean, hp.sameCache⟩, ?_,
        hencodable⟩
      have hwritten := hp.quiet.writeMeta hst (f := ⟨content, content⟩) rfl hm hmeta power
        (writeAt content 0 (metaPageBytes (checkpointMeta m (w.wal.currentLsn + 1)))) false
      exact hwritten.congr rfl rfl rfl

end BPTreeDB.Engine
