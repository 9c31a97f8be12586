import BPTreeDB.Runs.Handles
import BPTreeDB.Runs.Redo

/-!
# What survives a crash

The data file holds the pages of a checkpoint, and the log holds the operations since then.
`Durable R M o rs content` says that the bytes `content` and the records `rs` determine the
map `M` in this way; `o` has the pages that follow from them, if the logged operations can be
re-executed.  Between two calls of the file system the files of a process are `Anchored`:
their fsynced part is durable, and the data file has grown by zero-filled pages only.
Whatever a crash leaves of such files is `Recoverable`.  A process is `Alive` if its memory
holds the map and the pages that its files determine.
-/

namespace BPTreeDB.Runs

open Lib Eng Codec Lib.Program PageStore Engine DB WAL

variable {R : Regime} {M M₀ : KeyMap} {w w' : World} {disk disk' : Disk} {r : WALRecord}
  {rs : List WALRecord} {m : MetaPage} {content part : Bytes} {C : Content} {L H lsn : ℕ}
  {T : Tree H} {o : Option Content}

/-! ## Durable files -/

/-- The content `C` holds the map `M` in a good tree with LSNs of at most `L`. -/
structure HoldsMap (R : Regime) (L : ℕ) (M : KeyMap) (C : Content) : Prop where
  tree : ∃ (H : ℕ) (T : Tree H), StoreInv L C T ∧ Tree.Good R true H T ∧
    C.pageSize = R.pageSize ∧ Represents M (entriesOf (Tree.items H T))

theorem HoldsMap.mono {L' : ℕ} (h : HoldsMap R L M C) (hL : L ≤ L') : HoldsMap R L' M C := by
  obtain ⟨H, T, hinv, htree⟩ := h.tree
  exact ⟨H, T, hinv.mono hL, htree⟩

theorem HoldsMap.pageSize (h : HoldsMap R L M C) : C.pageSize = R.pageSize := by
  obtain ⟨H, T, -, -, hsize, -⟩ := h.tree
  exact hsize

theorem holdsMap_of_holding (h : Holding R L M C T w) : HoldsMap R L M C :=
  ⟨H, T, h.inv, h.good, h.pageSize, h.records⟩

theorem Ready.holdsMap (h : Ready R M C w) : HoldsMap R w.wal.currentLsn M C := by
  obtain ⟨H, T, hholding⟩ := h.stands
  exact holdsMap_of_holding hholding

theorem HoldsMap.resting (h : HoldsMap R L M C) : ∃ (H : ℕ) (T : Tree H),
    Resting R L T (idealStore C) ∧ Represents M (entriesOf (Tree.items H T)) ∧
      touchBound H ≤ 3 * C.next + 2 := by
  obtain ⟨H, T, hinv, hgood, hsize, hM⟩ := h.tree
  refine ⟨H, T, ⟨hinv, hgood, hsize, rfl⟩, hM, ?_⟩
  have hheight := Tree.height_lt_length_pageIds H T
  have hpages := hinv.accounted.length_lt
  unfold touchBound
  omega

theorem holdsMap_of_settled {S : Store} {entries : List LeafSlot} (h : Settled R L entries S)
    (hM : Represents M entries) : HoldsMap R L M S.toContent := by
  obtain ⟨H, T, hinv, hgood, hsize, -, rfl⟩ := h
  exact ⟨H, T, hinv, hgood, hsize, hM⟩

/-- Rebalancing may get stuck in this regime. -/
def Jams (R : Regime) : Prop := ∃ e, Tolerated R e

/-- A record that fits can be inserted, unless rebalancing gets stuck. -/
theorem HoldsMap.insert {key value : Bytes} (h : HoldsMap R L M C) (hjams : ¬ Jams R)
    (hlsn : lsn ≤ L)
    (hfits : (calculateLeafRecordSize key value : ℤ) ≤ getMaxLeafRecordSize R.pageSize)
    (hkey : key.length ≤ R.maxKey) : ∃ C', (TreeCall.insert key value lsn).onContent C = some C' ∧
      HoldsMap R L (Function.update M key (some value)) C' := by
  obtain ⟨H, T, hresting, hM, hbound⟩ := h.resting
  obtain ⟨entries, hM', hspec⟩ := insert_spec hresting hM hfits hkey hlsn hbound
  cases hrun : PageStore.insert key value lsn (idealStore C) with
  | ok a S =>
      rw [hrun] at hspec
      refine ⟨S.toContent, ?_, holdsMap_of_settled hspec hM'⟩
      rw [TreeCall.onContent, hrun, contentOf]
  | error d S =>
      rw [hrun] at hspec
      cases d with
      | undisciplined => exact hspec.elim
      | raised e => exact absurd ⟨e, hspec.1⟩ hjams

/-- Any key can be deleted, unless rebalancing gets stuck. -/
theorem HoldsMap.delete (h : HoldsMap R L M C) (hjams : ¬ Jams R) (hlsn : lsn ≤ L) (key : Bytes) :
    ∃ C', (TreeCall.delete key lsn).onContent C = some C' ∧
      HoldsMap R L (Function.update M key none) C' := by
  obtain ⟨H, T, hresting, hM, hbound⟩ := h.resting
  cases hkey : M key with
  | none =>
      have hsame : Function.update M key none = M := Function.update_eq_self_iff.mpr hkey.symm
      have hbudget : H + 1 ≤ (idealStore C).budget := by
        unfold touchBound at hbound
        exact le_trans (by omega) hbound
      obtain ⟨S, hrun, hcontent, -⟩ := delete_absent lsn hresting hM hkey hbudget
      refine ⟨S.toContent, ?_, ?_⟩
      · rw [TreeCall.onContent, hrun, contentOf]
      · rw [hsame, hcontent]
        exact h
  | some v =>
      obtain ⟨entries, hM', hspec⟩ := delete_spec hresting hM hkey hlsn hbound
      cases hrun : PageStore.delete key lsn (idealStore C) with
      | ok a S =>
          rw [hrun] at hspec
          refine ⟨S.toContent, ?_, holdsMap_of_settled hspec.2 hM'⟩
          rw [TreeCall.onContent, hrun, contentOf]
      | error d S =>
          rw [hrun] at hspec
          cases d with
          | undisciplined => exact hspec.elim
          | raised e => exact absurd ⟨e, hspec.1⟩ hjams

/-- The data file holds a checkpoint of the map `M`: the pages `C` that the newer of the meta
page `m` and the newest CHECKPOINT record describes. -/
structure Anchor (R : Regime) (M : KeyMap) (m : MetaPage) (rs : List WALRecord) (content : Bytes)
    (C : Content) : Prop where
  encodable : MetaEncodable m
  metaPage : metaBytes m <+: content
  log : Readable rs
  within : ∀ r ∈ rs, RecordWithin R r
  lsn : (repairedMeta m rs).lastCheckpointLsn ≤ lastLsn rs
  fields : MetaSim (repairedMeta m rs) C.pageSize C.root C.next
  pages : PagesOn content (repairedMeta m rs).freelistHeadPageId C
  map : HoldsMap R (lastLsn rs) M C

/-- The data file and the log together hold the map `M`.  `o` has the pages that follow from
them, if the logged operations can be re-executed. -/
def Durable (R : Regime) (M : KeyMap) (o : Option Content) (rs : List WALRecord)
    (content : Bytes) : Prop :=
  ∃ M₀ m C₀, Anchor R M₀ m rs content C₀ ∧
    M = restored (repairedMeta m rs).lastCheckpointLsn M₀ rs ∧
    o = redone (repairedMeta m rs).lastCheckpointLsn C₀ rs

theorem Anchor.append (h : Anchor R M m rs content C) (tail : Bytes) :
    Anchor R M m rs (content ++ tail) C :=
  { h with
    metaPage := h.metaPage.trans (List.prefix_append _ _)
    pages := h.pages.append tail }

theorem Durable.append (h : Durable R M o rs content) (tail : Bytes) :
    Durable R M o rs (content ++ tail) := by
  obtain ⟨M₀, m, C₀, hanchor, hM, ho⟩ := h
  exact ⟨M₀, m, C₀, hanchor.append tail, hM, ho⟩

theorem Durable.readable (h : Durable R M o rs content) : Readable rs := by
  obtain ⟨M₀, m, C₀, hanchor, -⟩ := h
  exact hanchor.log

theorem Durable.within (h : Durable R M o rs content) : ∀ r ∈ rs, RecordWithin R r := by
  obtain ⟨M₀, m, C₀, hanchor, -⟩ := h
  exact hanchor.within

/-- An operation that becomes durable in the log is part of the map. -/
theorem Durable.log (h : Durable R M o rs content) (hr : IsOperation r)
    (hencodable : WalEncodable r) (hwithin : RecordWithin R r) (hlsn : r.lsn = lastLsn rs + 1) :
    Durable R (afterRecord M r) (o.bind (recordOnContent r)) (rs ++ [r]) content := by
  obtain ⟨M₀, m, C₀, hanchor, rfl, rfl⟩ := h
  have hsame : repairedMeta m (rs ++ [r]) = repairedMeta m rs := repairedMeta_append hr
  have hlast : lastLsn (rs ++ [r]) = lastLsn rs + 1 := (lastLsn_append rs r).trans hlsn
  have hold := hanchor.lsn
  have hnew : ¬ r.lsn ≤ (repairedMeta m rs).lastCheckpointLsn := by omega
  refine ⟨M₀, m, C₀, ⟨hanchor.encodable, hanchor.metaPage, hanchor.log.append hencodable hlsn,
    fun q hq => ?_, ?_, ?_, ?_, hanchor.map.mono ?_⟩, ?_, ?_⟩
  · rcases List.mem_append.mp hq with hq | hq
    · exact hanchor.within q hq
    · rw [List.mem_singleton.mp hq]
      exact hwithin
  · rw [hsame, hlast]
    omega
  · rw [hsame]
    exact hanchor.fields
  · rw [hsame]
    exact hanchor.pages
  · omega
  · rw [hsame, restored_append, if_neg hnew]
  · rw [hsame, redone_append]
    congr 1
    funext C'
    exact (if_neg hnew).symm

/-- The log on disk: the records and a torn tail.  A new database may have no log yet. -/
inductive LogOnDisk : Option FileState → List WALRecord → Bytes → Prop
  | missing : LogOnDisk none [] []
  | file {rs : List WALRecord} {part : Bytes} : Torn part →
      LogOnDisk (some ⟨logBytes rs ++ part, logBytes rs ++ part⟩) rs part

/-- The files of a directory without a process hold the map `M`: a checkpoint, and the records
`rs` in the log. -/
structure Recoverable (R : Regime) (M : KeyMap) (o : Option Content) (rs : List WALRecord)
    (disk : Disk) : Prop where
  files : ∃ part content, disk.data = some ⟨content, content⟩ ∧
    LogOnDisk disk.wal rs part ∧ Durable R M o rs content
  replacedWal : disk.replacedWal = none

/-- A file after zero bytes were appended to its fsynced bytes. -/
def grownFile (content : Bytes) (n : ℕ) : FileState := ⟨content ++ List.replicate n 0, content⟩

/-- The files of a process between two calls of the file system hold the map `M`. -/
structure Anchored (R : Regime) (M : KeyMap) (o : Option Content) (rs : List WALRecord)
    (w : World) : Prop where
  data : ∃ content n, w.disk.data = some (grownFile content n) ∧ Durable R M o rs content
  log : w.disk.wal = some ⟨logBytes rs, logBytes rs⟩
  replacedWal : w.disk.replacedWal = none
  lsn : w.wal.currentLsn = lastLsn rs

theorem grow_grownFile (content : Bytes) (n k : ℕ) :
    grow k (grownFile content n) = grownFile content (n + k) := by
  simp only [grow, grownFile, List.append_assoc, List.replicate_append_replicate]

theorem Anchor.meta_pageSize (h : Anchor R M m rs content C) : m.pageSizeBytes = R.pageSize := by
  have hsize := h.fields.pageSize
  rw [repairedMeta_pageSizeBytes] at hsize
  rw [hsize, h.map.pageSize]

/-- The page size of the data file is that of its checkpoint. -/
theorem Anchor.filePageSize (h : Anchor R M m rs content C) (written : Bytes) :
    FileState.pageSize ⟨written, content⟩ = R.pageSize := by
  rw [← h.meta_pageSize]
  obtain ⟨tail, rfl⟩ := h.metaPage
  unfold FileState.pageSize
  rw [decodeMetaPage_metaBytes h.encodable tail]

theorem Anchor.filePageSize_pos (h : Anchor R M m rs content C) (written : Bytes) :
    0 < FileState.pageSize ⟨written, content⟩ := by
  rw [h.filePageSize, ← h.meta_pageSize]
  exact Nat.lt_of_lt_of_le (by decide) h.encodable.large

/-- What a crash leaves of a checkpoint to which bytes were appended. -/
theorem Anchor.survives_grownFile {n : ℕ} {bytes : Bytes} (h : Anchor R M m rs content C)
    (hbytes : (grownFile content n).SurvivesInPlace bytes) : ∃ tail, bytes = content ++ tail := by
  obtain ⟨tail, htail⟩ := hbytes.pages.grown (h.filePageSize_pos _) (List.prefix_append _ _)
  exact ⟨tail, htail.symm⟩

/-- What a crash leaves of a durable checkpoint. -/
theorem Anchor.survivor_eq {file : Option FileState} (h : Anchor R M m rs content C)
    (hs : DataSurvivor (some ⟨content, content⟩) file) : file = some ⟨content, content⟩ := by
  cases hs with
  | left hbytes => rw [hbytes.eq_of_durable (h.filePageSize_pos _)]

/-- What a crash leaves of the data file of a durable map. -/
theorem Durable.survives {n : ℕ} {file : Option FileState} (h : Durable R M o rs content)
    (hs : DataSurvivor (some (grownFile content n)) file) :
    ∃ content', file = some ⟨content', content'⟩ ∧ Durable R M o rs content' := by
  obtain ⟨M₀, m, C₀, hanchor, -⟩ := id h
  cases hs with
  | left hbytes =>
      obtain ⟨tail, rfl⟩ := hanchor.survives_grownFile hbytes
      exact ⟨_, rfl, h.append tail⟩

theorem logOnDisk_of_records (rs : List WALRecord) :
    LogOnDisk (some ⟨logBytes rs, logBytes rs⟩) rs [] := by
  have := @LogOnDisk.file rs [] torn_nil
  rwa [List.append_nil] at this

/-- Reading the log finds its records, and leaves the torn tail out. -/
theorem LogOnDisk.loggedRecords (h : LogOnDisk disk.wal rs part) (hread : Readable rs) :
    disk.loggedRecords = rs := by
  unfold Disk.loggedRecords
  cases hwal : disk.wal with
  | none =>
      rw [hwal] at h
      cases h
      rfl
  | some file =>
      rw [hwal] at h
      cases h with
      | file hpart =>
          show (iterRecords (logBytes rs ++ part)).records.map Prod.fst = rs
          rw [hread.iterRecords hpart, map_fst_positioned]

theorem Recoverable.loggedRecords (h : Recoverable R M o rs disk) : disk.loggedRecords = rs := by
  obtain ⟨part, content, -, hlog, hdurable⟩ := h.files
  exact hlog.loggedRecords hdurable.readable

/-- Between two calls of the file system a crash loses nothing. -/
theorem Anchored.crash (h : Anchored R M o rs w) (hcrash : Crash w.disk disk') :
    Recoverable R M o rs disk' := by
  obtain ⟨content, n, hdata, hdurable⟩ := h.data
  have hsurvivor := hcrash.data
  rw [hdata] at hsurvivor
  obtain ⟨content', hdata', hdurable'⟩ := hdurable.survives hsurvivor
  have hwal := hcrash.wal_survivor h.replacedWal
  rw [h.log] at hwal
  have hlog : LogOnDisk disk'.wal rs [] := by
    rw [hwal.of_durable]
    exact logOnDisk_of_records rs
  exact ⟨⟨[], content', hdata', hlog, hdurable'⟩, hcrash.replacedWal⟩

/-- The process has changed nothing on disk but the length of the data file. -/
theorem Anchored.of_noSteal (h : Anchored R M o rs w) (hsteal : NoSteal w w') :
    Anchored R M o rs w' := by
  obtain ⟨content, n, hdata, hdurable⟩ := h.data
  obtain ⟨k, hgrow, -⟩ := hsteal.data
  refine ⟨⟨content, n + k * w.pager.pageSizeBytes, ?_, hdurable⟩, ?_, ?_, ?_⟩
  · rw [hgrow, hdata, Option.map_some, grow_grownFile]
  · exact (congrArg Frozen.walFile hsteal.frozen).trans h.log
  · exact (congrArg Frozen.replacedWal hsteal.frozen).trans h.replacedWal
  · exact (congrArg (fun f => f.wal.currentLsn) hsteal.frozen).trans h.lsn

theorem Anchored.congr (h : Anchored R M o rs w) (hdisk : w'.disk = w.disk)
    (hwal : w'.wal = w.wal) : Anchored R M o rs w' := by
  refine ⟨?_, ?_, ?_, ?_⟩
  · rw [hdisk]
    exact h.data
  · rw [hdisk]
    exact h.log
  · rw [hdisk]
    exact h.replacedWal
  · rw [hwal]
    exact h.lsn

/-! ## Appending -/

/-- What a crash leaves of a log to which a record is being appended. -/
theorem survives_appended {bytes : Bytes}
    (hencodable : WalEncodable r)
    (h : (appendedFile ⟨logBytes rs, logBytes rs⟩ r).Survives bytes) :
    bytes = logBytes (rs ++ [r]) ∨ ∃ part, Torn part ∧ bytes = logBytes rs ++ part := by
  have hfull : (appendedFile ⟨logBytes rs, logBytes rs⟩ r).content = logBytes (rs ++ [r]) := by
    simp [appendedFile, FileState.write]
  rcases h with rfl | rfl | ⟨⟨part, rfl⟩, hprefix⟩
  · exact .inr ⟨[], torn_nil, (List.append_nil _).symm⟩
  · exact .inl hfull
  · have hpart : part <+: recordBytes r := (List.prefix_append_right_inj _).mp hprefix
    by_cases heq : part = recordBytes r
    · subst heq
      exact .inl hfull
    · exact .inr ⟨part, ⟨r, hencodable, hpart, heq⟩, rfl⟩

/-- An append that may be interrupted: afterwards the record is logged, or a crash leaves the
log with the record or without it. -/
def LoggedOrLost (R : Regime) (M : KeyMap) (o : Option Content) (r : WALRecord)
    (rs : List WALRecord) (w : World) : EStateM.Result Err World ℕ → Prop
  | .ok lsn w' => lsn = r.lsn ∧
      (w'.pager = w.pager ∧ w'.pool = w.pool ∧ w'.disk.data = w.disk.data ∧
        w'.isOpened = w.isOpened ∧ w'.wal = ⟨w.wal.isOpen, r.lsn⟩) ∧
      Anchored R (afterRecord M r) (o.bind (recordOnContent r)) (rs ++ [r]) w'
  | .error _ w' => ∀ disk', Crash w'.disk disk' → Recoverable R M o rs disk' ∨
      Recoverable R (afterRecord M r) (o.bind (recordOnContent r)) (rs ++ [r]) disk'

theorem Anchored.append (h : Anchored R M o rs w) (hopen : w.wal.isOpen = true)
    (hr : IsOperation r) (hwithin : RecordWithin R r) (hlsn : r.lsn = w.wal.currentLsn + 1) :
    LoggedOrLost R M o r rs w (WAL.append r w) := by
  obtain ⟨content, n, hdata, hdurable⟩ := h.data
  have hnext : r.lsn = lastLsn rs + 1 := by rw [hlsn, h.lsn]
  -- Where nothing was written the record is lost.
  have hlost : ∀ w' : World, w'.disk = w.disk → ∀ disk', Crash w'.disk disk' →
      Recoverable R M o rs disk' := by
    intro w' hdisk disk' hcrash
    rw [hdisk] at hcrash
    exact h.crash hcrash
  have houtcome := append_outcome hopen h.log r
  revert houtcome
  cases WAL.append r w with
  | error e w' =>
      intro houtcome
      cases houtcome with
      | refused hnot => exact fun disk' hcrash => .inl (hlost _ rfl disk' hcrash)
      | lostBefore hencodable _ => exact fun disk' hcrash => .inl (hlost _ rfl disk' hcrash)
      | @lostBetween power' hencodable _ =>
          -- The bytes are written and not yet fsynced: any prefix of them may survive.
          intro disk' hcrash
          have hsurvivor : DataSurvivor (some (grownFile content n)) disk'.data := by
            rw [← hdata]
            exact hcrash.data
          obtain ⟨content', hdata', hdurable'⟩ := hdurable.survives hsurvivor
          have hwal : Survivor (some (appendedFile ⟨logBytes rs, logBytes rs⟩ r)) disk'.wal :=
            hcrash.wal_survivor h.replacedWal
          cases hfile : disk'.wal with
          | none =>
              rw [hfile] at hwal
              cases hwal
          | some file =>
              rw [hfile] at hwal
              cases hwal with
              | left hbytes =>
                  obtain rfl | ⟨part, hpart, rfl⟩ := survives_appended hencodable hbytes
                  · refine .inr ⟨⟨[], content', hdata', ?_,
                      hdurable'.log hr hencodable hwithin hnext⟩, hcrash.replacedWal⟩
                    rw [hfile]
                    exact logOnDisk_of_records _
                  · refine .inl ⟨⟨part, content', hdata', ?_, hdurable'⟩, hcrash.replacedWal⟩
                    rw [hfile]
                    exact .file hpart
  | ok lsn w' =>
      intro houtcome
      cases houtcome with
      | done hencodable _ =>
          refine ⟨rfl, ⟨rfl, rfl, rfl, rfl, rfl⟩,
            ⟨content, n, hdata, hdurable.log hr hencodable hwithin hnext⟩, ?_,
            h.replacedWal, (lastLsn_append rs r).symm⟩
          simp [withLog, appendedFile, FileState.write, FileState.fsync]

/-! ## Running processes -/

/-- A process whose memory and whose files hold the map `M`: the tree in memory has the pages
`C`, which also follow from the checkpoint in the data file and the records `rs`. -/
structure Alive (R : Regime) (M : KeyMap) (C : Content) (rs : List WALRecord) (w : World) :
    Prop where
  stands : ∃ (H : ℕ) (T : Tree H), Holding R w.wal.currentLsn M C T w
  anchored : Anchored R M (some C) rs w
  isOpen : w.wal.isOpen = true
  checkpointLsn : ∀ m, w.pager.metaPage = some m → m.lastCheckpointLsn ≤ w.wal.currentLsn

theorem Alive.holdsMap (h : Alive R M C rs w) : HoldsMap R w.wal.currentLsn M C := by
  obtain ⟨H, T, hholding⟩ := h.stands
  exact holdsMap_of_holding hholding

theorem Alive.metaPage (h : Alive R M C rs w) :
    ∃ m, w.pager.metaPage = some m ∧ MetaSim m C.pageSize C.root C.next := by
  obtain ⟨H, T, hholding⟩ := h.stands
  obtain ⟨m, hm, hfields, -⟩ := hholding.quiet.metaPage
  exact ⟨m, hm, hfields⟩

theorem Anchored.logOf (h : Anchored R M o rs w) (hopen : w.wal.isOpen = true) :
    LogOf rs ⟨logBytes rs, logBytes rs⟩ w := by
  obtain ⟨content, n, -, hdurable⟩ := h.data
  have hread := hdurable.readable
  refine ⟨hopen, h.log, rfl, hread.encodable, ?_⟩
  rw [h.lsn]
  by_cases hrs : rs = []
  · subst hrs
    exact ⟨0, trivial, rfl⟩
  · obtain ⟨base, hnumbered⟩ := hread.numbered
    exact ⟨base, hnumbered, (lastLsn_eq hnumbered hrs).symm⟩

/-- A process that is alive on a machine with power is ready for the next call. -/
theorem Alive.ready (h : Alive R M C rs w) (hpower : w.power = none) : Ready R M C w :=
  ⟨h.stands, ⟨rs, _, h.anchored.logOf h.isOpen⟩, hpower⟩

theorem Alive.congr (h : Alive R M C rs w) (hpager : w'.pager = w.pager)
    (hpool : w'.pool = w.pool) (hdisk : w'.disk = w.disk) (hwal : w'.wal = w.wal) :
    Alive R M C rs w' := by
  obtain ⟨H, T, hholding⟩ := h.stands
  refine ⟨⟨H, T, ?_⟩, h.anchored.congr hdisk hwal, ?_, ?_⟩
  · rw [hwal]
    exact Holding.congr hholding hpager hpool (by rw [hdisk])
  · rw [hwal]
    exact h.isOpen
  · rw [hwal, hpager]
    exact h.checkpointLsn

end BPTreeDB.Runs
