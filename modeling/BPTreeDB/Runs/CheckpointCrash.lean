import BPTreeDB.Runs.Durability

/-!
# Crashes during a checkpoint

Once the CHECKPOINT record is durable, every combination of files that a crash can leave is
`SettledFiles`: the newest checkpoint covers the whole log, so a recovery has nothing to re-apply.
The data file may have the old or the new meta page, and the log may be the old or the new
one.
-/

namespace BPTreeDB.Runs

open Lib Eng Codec Lib.Program PageStore Engine DB WAL

variable {R : Regime} {M M₀ : KeyMap} {C : Content} {w w' : World} {disk disk' : Disk}
  {rs : List WALRecord} {m m₀ : MetaPage} {content content₀ : Bytes} {L H lsn : ℕ} {T : Tree H}
  {f : FileState} {o : Option Content} {C₀ : Content}

/-! ## Anchors of a checkpoint -/

theorem HoldsMap.root_page (h : HoldsMap R L M C) : ∃ page, C.pages C.root = some page := by
  obtain ⟨H, T, hinv, -⟩ := h.tree
  obtain ⟨p, hp, hid⟩ := List.mem_map.mp (Tree.id_mem_pageIds T)
  obtain ⟨page, hpage, -⟩ := hinv.holds.stores p hp
  rw [hinv.root, ← hid]
  exact ⟨page, hpage⟩

/-- A data file that holds pages is not shorter than one page. -/
theorem HoldsMap.le_length {head : ℕ} (h : HoldsMap R L M C) (hpages : PagesOn content head C) :
    R.pageSize ≤ content.length := by
  obtain ⟨page, hpage⟩ := h.root_page
  have hlen := (hpages.pages C.root page hpage).1
  rw [readAt, List.length_take, List.length_drop] at hlen
  have := h.pageSize
  omega

/-- The new meta page is in the file. -/
theorem anchor_of_image (himage : Image content m C) (hread : Readable rs)
    (hwithin : ∀ r ∈ rs, RecordWithin R r) (hlast : lastLsn rs = m.lastCheckpointLsn)
    (hmap : HoldsMap R m.lastCheckpointLsn M C) : Anchor R M m rs content C := by
  have hsame : repairedMeta m rs = m := repairedMeta_eq fun r hr => hlast ▸ hread.lsn_le hr
  refine ⟨himage.encodable, himage.metaPage, hread, hwithin, ?_, ?_, ?_, ?_⟩
  · rw [hsame, hlast]
  · rw [hsame]
    exact himage.fields
  · rw [hsame]
    exact himage.pagesOn
  · rwa [hlast]

/-- The file still has the old meta page, and the log has the CHECKPOINT record. -/
theorem Anchor.checkpoint (h : Anchor R M₀ m₀ rs content₀ C₀) (hmeta : metaBytes m₀ <+: content)
    (hencodable : WalEncodable (checkpointRecord m lsn)) (hlsn : lsn = lastLsn rs + 1)
    (hfields : MetaSim m C.pageSize C.root C.next)
    (hpages : PagesOn content m.freelistHeadPageId C) (hmap : HoldsMap R lsn M C) :
    Anchor R M m₀ (rs ++ [checkpointRecord m lsn]) content C ∧
      (repairedMeta m₀ (rs ++ [checkpointRecord m lsn])).lastCheckpointLsn = lsn := by
  have hold : m₀.lastCheckpointLsn < lsn := by
    have := h.lsn
    have hle : m₀.lastCheckpointLsn ≤ (repairedMeta m₀ rs).lastCheckpointLsn := le_repairedMeta
    omega
  have hbelow : ∀ r ∈ rs, r.lsn < lsn := by
    intro r hr
    have := h.log.lsn_le hr
    omega
  have hrepaired : repairedMeta m₀ (rs ++ [checkpointRecord m lsn]) =
      { m₀ with rootPageId := m.rootPageId, freelistHeadPageId := m.freelistHeadPageId,
                nextPageId := m.nextPageId, lastCheckpointLsn := lsn } :=
    repairedMeta_checkpoint hbelow hold
  have hsize : m₀.pageSizeBytes = C.pageSize := by
    have := h.fields.pageSize
    rw [repairedMeta_pageSizeBytes] at this
    rw [this, h.map.pageSize, hmap.pageSize]
  have hlast : lastLsn (rs ++ [checkpointRecord m lsn]) = lsn := lastLsn_append _ _
  have hwithin : ∀ r ∈ rs ++ [checkpointRecord m lsn], RecordWithin R r := by
    intro r hr
    rcases List.mem_append.mp hr with hr | hr
    · exact h.within r hr
    · rw [List.mem_singleton.mp hr]
      trivial
  unfold checkpointRecord at hlast hrepaired hencodable hwithin ⊢
  refine ⟨⟨h.encodable, hmeta, h.log.append hencodable hlsn, hwithin, ?_, ?_, ?_, ?_⟩, ?_⟩
  · rw [hrepaired, hlast]
  · rw [hrepaired]
    exact ⟨hsize, hfields.root, hfields.next⟩
  · rw [hrepaired]
    exact hpages
  · rwa [hlast]
  · rw [hrepaired]

/-! ## SettledFiles files -/

/-- The files hold the map `M` in the pages of the checkpoint `lsn`, and the log holds nothing
newer. -/
structure SettledFiles (R : Regime) (M : KeyMap) (C : Content) (lsn : ℕ) (disk : Disk) : Prop where
  files : ∃ rs part content m, disk.data = some ⟨content, content⟩ ∧
    LogOnDisk disk.wal rs part ∧ Anchor R M m rs content C ∧
    (repairedMeta m rs).lastCheckpointLsn = lsn ∧ lastLsn rs = lsn
  replacedWal : disk.replacedWal = none

theorem SettledFiles.recoverable (h : SettledFiles R M C lsn disk) :
    ∃ rs, Recoverable R M (some C) rs disk ∧ lastLsn rs = lsn := by
  obtain ⟨rs, part, content, m, hdata, hlog, hanchor, hlsn, hlast⟩ := h.files
  have hold : ∀ r ∈ rs, r.lsn ≤ (repairedMeta m rs).lastCheckpointLsn := by
    intro r hr
    rw [hlsn, ← hlast]
    exact hanchor.log.lsn_le hr
  exact ⟨rs, ⟨⟨part, content, hdata, hlog, M, m, C, hanchor, (restored_skip hold).symm,
    (redone_skip hold).symm⟩, h.replacedWal⟩, hlast⟩

/-- The data file has the meta page before or after the checkpoint. -/
theorem settled_of_survivors {rs' : List WALRecord} {file : FileState}
    (hdata : DataSurvivor (some file) disk'.data)
    (hwal : disk'.wal = some ⟨logBytes rs', logBytes rs'⟩)
    (hanchor : ∀ bytes, file.SurvivesInPlace bytes → ∃ m, Anchor R M m rs' bytes C ∧
      (repairedMeta m rs').lastCheckpointLsn = lsn)
    (hlast : lastLsn rs' = lsn) (hreplaced : disk'.replacedWal = none) :
    SettledFiles R M C lsn disk' := by
  cases hfile : disk'.data with
  | none =>
      rw [hfile] at hdata
      cases hdata
  | some file' =>
      rw [hfile] at hdata
      cases hdata with
      | @left _ bytes hbytes =>
          obtain ⟨m, hanchored, hlsn⟩ := hanchor bytes hbytes
          refine ⟨⟨rs', [], bytes, m, hfile, ?_, hanchored, hlsn, hlast⟩, hreplaced⟩
          rw [hwal]
          exact logOnDisk_of_records rs'

/-- The second half of a checkpoint needs nothing from the power that the first half left. -/
theorem persisted_powered {power₀ : Option ℕ} {cache : List (ℕ × CachedPage)}
    (h : Persisted C m w power₀ content cache) {power : Option ℕ} (hpower : power ≠ none) :
    Persisted C m (w.powered power) power₀ content cache :=
  { keepsPower := fun hnone => absurd hnone hpower
    metaPage := h.metaPage
    fields := h.fields
    pagesOn := h.pagesOn
    quiet := h.quiet
    clean := h.clean
    sameCache := h.sameCache
    metaKept := h.metaKept }

/-- A file whose first page was not written still begins with the old meta page. -/
theorem metaBytes_prefix {n : ℕ} (hR : Sized R)
    (hdata : w.disk.data = some (grownFile content₀ n)) (hsize : w.pager.pageSizeBytes = R.pageSize)
    (hanchor : Anchor R M₀ m₀ rs content₀ C₀)
    (hkept : (readAt (dataContent w) 0 w.pager.pageSizeBytes).length = w.pager.pageSizeBytes →
      readAt content 0 w.pager.pageSizeBytes = readAt (dataContent w) 0 w.pager.pageSizeBytes) :
    metaBytes m₀ <+: content := by
  have hlen := hanchor.map.le_length hanchor.pages
  have hcontent : dataContent w = content₀ ++ List.replicate n 0 := by
    simp [dataContent, hdata, grownFile]
  have hread : readAt (dataContent w) 0 w.pager.pageSizeBytes = content₀.take R.pageSize := by
    rw [hcontent, hsize, readAt, List.drop_zero, List.take_append_of_le_length hlen]
  have hsame := hkept (by
    rw [hread, hsize, List.length_take]
    omega)
  have hprefix : metaBytes m₀ <+: content₀.take R.pageSize := by
    rw [List.prefix_take_iff, length_metaBytes]
    exact ⟨hanchor.metaPage, hR.large⟩
  rw [← hread, ← hsame, readAt, List.drop_zero] at hprefix
  exact hprefix.trans (List.take_prefix _ _)

/-- The old meta page is still in the file after the pages were written. -/
theorem metaKept {power₀ : Option ℕ} {cache : List (ℕ × CachedPage)} {n : ℕ}
    (hR : Sized R) (hp : Persisted C m w power₀ content cache)
    (hdata : w.disk.data = some (grownFile content₀ n)) (hsize : w.pager.pageSizeBytes = R.pageSize)
    (hanchor : Anchor R M₀ m₀ rs content₀ C₀) : metaBytes m₀ <+: content :=
  metaBytes_prefix hR hdata hsize hanchor hp.metaKept

/-! ## Crashes of the second half -/

/-- The data file before and after the meta page is written, while the record of the
checkpoint is in the log. -/
structure Publishing (R : Regime) (M : KeyMap) (C : Content) (m : MetaPage) (lsn : ℕ)
    (rs : List WALRecord) (content : Bytes) : Prop where
  old : ∃ m₀, Anchor R M m₀ (rs ++ [checkpointRecord m lsn]) content C ∧
    (repairedMeta m₀ (rs ++ [checkpointRecord m lsn])).lastCheckpointLsn = lsn
  new : ∀ rs', Readable rs' → (∀ r ∈ rs', RecordWithin R r) → lastLsn rs' = lsn → ∃ m₁,
    Anchor R M m₁ rs' (writeAt content 0 (metaPageBytes (checkpointMeta m lsn))) C ∧
    (repairedMeta m₁ rs').lastCheckpointLsn = lsn
  size : (metaPageBytes (checkpointMeta m lsn)).length = R.pageSize
  readable : Readable (rs ++ [checkpointRecord m lsn])
  readableLast : Readable [checkpointRecord m lsn]

theorem Publishing.of_persisted {power₀ : Option ℕ} {cache : List (ℕ × CachedPage)} (hR : Sized R)
    (hst : Storable C) (hmap : HoldsMap R w.wal.currentLsn M C) (h : Anchored R M o rs w)
    (hsize : w.pager.pageSizeBytes = R.pageSize) (hp : Persisted C m w power₀ content cache)
    (hlsn : lsn = w.wal.currentLsn + 1) (hencodable : WalEncodable (checkpointRecord m lsn)) :
    Publishing R M C m lsn rs content := by
  obtain ⟨content₀, n, hdata, M₀, m₀, C₀, hanchor, -⟩ := h.data
  have hnext : lsn = lastLsn rs + 1 := by rw [hlsn, h.lsn]
  have hmapLsn : HoldsMap R lsn M C := hmap.mono (by omega)
  have hlast : Readable [checkpointRecord m lsn] := by
    refine ⟨by simpa using hencodable, lsn - 1, ?_, trivial⟩
    show lsn = lsn - 1 + 1
    omega
  have hkept := metaKept hR hp hdata hsize hanchor
  have hmeta : MetaEncodable (checkpointMeta m lsn) := by
    refine metaEncodable_of_walEncodable hencodable ?_ ?_
    · rw [hp.fields.pageSize, hmap.pageSize]
      exact hR.large
    · rw [hp.fields.pageSize]
      exact hst.pageSize
  refine ⟨⟨m₀, hanchor.checkpoint hkept hencodable hnext hp.fields hp.pagesOn hmapLsn⟩,
    fun rs' hread hwithin hlast' => ?_,
    (length_metaPageBytes hmeta).trans (hp.fields.pageSize.trans hmap.pageSize),
    hanchor.log.append hencodable hnext, hlast⟩
  have hsame : repairedMeta (checkpointMeta m lsn) rs' = checkpointMeta m lsn :=
    repairedMeta_eq fun r hr => hlast' ▸ hread.lsn_le hr
  refine ⟨_, anchor_of_image (hp.image hst hmeta) hread hwithin hlast' hmapLsn, ?_⟩
  rw [hsame]
  rfl

/-- Whatever of the two versions of the data file survives, the checkpoint is there. -/
theorem Publishing.survives (h : Publishing R M C m lsn rs content) {file : FileState}
    (hfile : file = ⟨content, content⟩ ∨
      file = ⟨writeAt content 0 (metaPageBytes (checkpointMeta m lsn)), content⟩)
    {bytes : Bytes} (hbytes : file.SurvivesInPlace bytes) :
    ∃ m', Anchor R M m' (rs ++ [checkpointRecord m lsn]) bytes C ∧
      (repairedMeta m' (rs ++ [checkpointRecord m lsn])).lastCheckpointLsn = lsn := by
  obtain ⟨m₀, hanchor, hlsn⟩ := h.old
  rcases hfile with rfl | rfl
  · rw [hbytes.eq_of_durable (hanchor.filePageSize_pos _)]
    exact h.old
  · have hpages := hbytes.pages
    rw [hanchor.filePageSize] at hpages
    -- Only the meta page was written, and it survives in one of its two versions.
    have hP : 0 < R.pageSize := by
      rw [← hanchor.filePageSize content]
      exact hanchor.filePageSize_pos content
    rcases hpages.firstPage hP h.size (hanchor.map.le_length hanchor.pages) with
      ⟨tail, rfl⟩ | ⟨tail, rfl⟩
    · exact ⟨m₀, hanchor.append tail, hlsn⟩
    · obtain ⟨m₁, hanchor₁, hlsn₁⟩ := h.new _ h.readable hanchor.within (lastLsn_append _ _)
      exact ⟨m₁, hanchor₁.append tail, hlsn₁⟩

/-- Once the new meta page is fsynced it survives. -/
theorem Publishing.survives_new {rs' : List WALRecord} {bytes : Bytes}
    (h : Publishing R M C m lsn rs content) (hread : Readable rs')
    (hwithin : ∀ r ∈ rs', RecordWithin R r) (hlast : lastLsn rs' = lsn)
    (hbytes : FileState.SurvivesInPlace
      ⟨writeAt content 0 (metaPageBytes (checkpointMeta m lsn)),
        writeAt content 0 (metaPageBytes (checkpointMeta m lsn))⟩ bytes) :
    ∃ m₁, Anchor R M m₁ rs' bytes C ∧ (repairedMeta m₁ rs').lastCheckpointLsn = lsn := by
  obtain ⟨m₁, hanchor, hcheckpoint⟩ := h.new rs' hread hwithin hlast
  rw [hbytes.eq_of_durable (hanchor.filePageSize_pos _)]
  exact ⟨m₁, hanchor, hcheckpoint⟩

theorem appendedFile_fsync (rs : List WALRecord) (r : WALRecord) :
    (appendedFile ⟨logBytes rs, logBytes rs⟩ r).fsync =
      ⟨logBytes (rs ++ [r]), logBytes (rs ++ [r])⟩ := by
  simp [appendedFile, FileState.write, FileState.fsync]

theorem within_checkpointRecord (m : MetaPage) (lsn : ℕ) :
    ∀ r ∈ [checkpointRecord m lsn], RecordWithin R r := by
  intro r hr
  rw [List.mem_singleton.mp hr]
  trivial

/-- A crash in the second half of a checkpoint leaves settled files. -/
theorem settled_of_commit {r : EStateM.Result Err World Unit} (hR : Sized R) (hst : Storable C)
    (hmap : HoldsMap R w.wal.currentLsn M C) (h : Anchored R M o rs w)
    (hsize : w.pager.pageSizeBytes = R.pageSize) (hlsn : lsn = w.wal.currentLsn + 1)
    (hcommit : CommitOutcome C m w ⟨logBytes rs, logBytes rs⟩ lsn r)
    (hcrash : Crash (final r).disk disk') : SettledFiles R M C lsn disk' := by
  have hlast : lastLsn (rs ++ [checkpointRecord m lsn]) = lsn := lastLsn_append _ _
  cases hcommit with
  | @publishing power content cache w' hp _ hencodable hdata hwal hreplaced =>
      have hpublishing := Publishing.of_persisted hR hst hmap h hsize hp hlsn hencodable
      have hnone : w'.disk.replacedWal = none := hreplaced.trans h.replacedWal
      have hlog := hcrash.wal_survivor hnone
      rw [final_error, hwal, appendedFile_fsync] at hlog
      obtain ⟨file, hfile, hversions⟩ : ∃ file, w'.disk.data = some file ∧
          (file = ⟨content, content⟩ ∨
            file = ⟨writeAt content 0 (metaPageBytes (checkpointMeta m lsn)), content⟩) := by
        rcases hdata with hdata | hdata
        · exact ⟨_, hdata, .inl rfl⟩
        · exact ⟨_, hdata, .inr rfl⟩
      have hsurvivor := hcrash.data
      rw [final_error, hfile] at hsurvivor
      exact settled_of_survivors hsurvivor hlog.of_durable
        (fun bytes hbytes => hpublishing.survives hversions hbytes) hlast hcrash.replacedWal
  | @rotating power content content' cache w₁ w' hp _ hencodable hcontent hdisk hrotate =>
      have hpublishing := Publishing.of_persisted hR hst hmap h hsize hp hlsn hencodable
      subst hcontent
      have hnone : w₁.disk.replacedWal = none := by
        rw [hdisk]
        exact h.replacedWal
      have hdata₁ : w₁.disk.data = some ⟨writeAt content 0 (metaPageBytes (checkpointMeta m lsn)),
          writeAt content 0 (metaPageBytes (checkpointMeta m lsn))⟩ := by rw [hdisk]
      -- The new meta page is durable, whichever log survives.
      have hsettled : ∀ rs', Readable rs' → (∀ r ∈ rs', RecordWithin R r) → lastLsn rs' = lsn →
          w'.disk.data = w₁.disk.data → disk'.wal = some ⟨logBytes rs', logBytes rs'⟩ →
          SettledFiles R M C lsn disk' := by
        intro rs' hread hwithin hlast' hdata hwal
        have hsurvivor := hcrash.data
        rw [final_error, hdata, hdata₁] at hsurvivor
        refine settled_of_survivors hsurvivor hwal (fun bytes hbytes => ?_) hlast'
          hcrash.replacedWal
        exact hpublishing.survives_new hread hwithin hlast' hbytes
      have hlastOne : lastLsn [checkpointRecord m lsn] = lsn := rfl
      have hwithin : ∀ r ∈ rs ++ [checkpointRecord m lsn], RecordWithin R r := by
        obtain ⟨m', hanchor, -⟩ := hpublishing.old
        exact hanchor.within
      rw [appendedFile_fsync] at hrotate
      cases hrotate with
      | lostBefore _ hdata hwal hreplaced =>
          have hlog := hcrash.wal_survivor (hreplaced.trans hnone)
          rw [final_error, hwal] at hlog
          exact hsettled _ hpublishing.readable hwithin hlast hdata hlog.of_durable
      | lostAfter _ hdata hwal hreplaced =>
          rcases hcrash.wal with hlog | ⟨-, hlog⟩
          · rw [final_error, hwal] at hlog
            refine hsettled _ hpublishing.readableLast (within_checkpointRecord m lsn) hlastOne
              hdata ?_
            rw [hlog.of_durable, logBytes_cons, logBytes_nil, List.append_nil]
          · rw [final_error, hreplaced] at hlog
            exact hsettled _ hpublishing.readable hwithin hlast hdata hlog.of_durable
  | @done power₀ power content cache hp _ hencodable =>
      have hpublishing := Publishing.of_persisted hR hst hmap h hsize hp hlsn hencodable
      have hlog := hcrash.wal_survivor rfl
      rw [final_ok, checkpointed] at hlog
      have hsurvivor := hcrash.data
      rw [final_ok, checkpointed] at hsurvivor
      have hnew : disk'.wal = some ⟨logBytes [checkpointRecord m lsn],
          logBytes [checkpointRecord m lsn]⟩ := by
        rw [hlog.of_durable, logBytes_cons, logBytes_nil, List.append_nil]
        rfl
      refine settled_of_survivors hsurvivor hnew (fun bytes hbytes => ?_) rfl hcrash.replacedWal
      exact hpublishing.survives_new hpublishing.readableLast (within_checkpointRecord m lsn) rfl
        hbytes

/-- Once the CHECKPOINT record is durable, a crash of the checkpoint leaves settled files. -/
theorem Alive.crash_of_commit (hR : Sized R) (h : Alive R M C rs w)
    (hbegin : DB.checkpointBegin w = .ok lsn w')
    (hcrash : Crash (final (DB.checkpointCommit lsn w')).disk disk') :
    lsn = w.wal.currentLsn + 1 ∧ SettledFiles R M C lsn disk' := by
  obtain ⟨H, T, hholding⟩ := h.stands
  obtain ⟨m, hm, hfields⟩ := h.metaPage
  have hlog := h.anchored.logOf h.isOpen
  have hst := hR.storable hholding
  have hlarge : minPageSize ≤ C.pageSize := by
    rw [hholding.pageSize]
    exact hR.large
  obtain ⟨power₀, power₁, content, cache, hp, hlsn, hencodable, rfl⟩ :=
    checkpointBegin_ok hst hholding.quiet hm hlog hbegin
  have hsize : w.pager.pageSizeBytes = R.pageSize :=
    hholding.quiet.pageSize.trans hholding.pageSize
  -- The power of the world in which the checkpoint began plays no part any more.
  have hanchored : Anchored R M (some C) rs (w.powered (some 0)) := h.anchored.congr rfl rfl
  refine ⟨hlsn, settled_of_commit (w := w.powered (some 0)) (m := m) hR hst h.holdsMap
    hanchored hsize hlsn ?_ hcrash⟩
  exact checkpointCommit_outcome (persisted_powered hp (Option.some_ne_none 0))
    (hanchored.logOf h.isOpen) hlsn hst hlarge hencodable (fun hnone => by cases hnone)

end BPTreeDB.Runs
