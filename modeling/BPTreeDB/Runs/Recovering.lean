import BPTreeDB.Runs.CheckpointCrash

/-!
# Recovering

An `open` of recoverable files reads the meta page, opens the log and re-executes the
operations behind the newest checkpoint.  Wherever a crash stops it before its checkpoint,
the files stay recoverable to the same map; if it gets through, the handle holds that map.
-/

namespace BPTreeDB.Runs

open Lib Eng Codec Lib.Program PageStore Engine DB WAL

variable {R : Regime} {P L H lsn : ℕ} {T : Tree H} {M M₀ : KeyMap} {C : Content} {w w' : World}
  {disk disk' : Disk} {r : WALRecord} {rs : List WALRecord} {m : MetaPage} {content part : Bytes}
  {C' : Content} {o : Option Content}

/-! ## Re-executing the log -/

/-- The two processes have the same parameters, and the machine keeps its power. -/
structure SameSetup (w w' : World) : Prop where
  config : w'.config = w.config
  capacity : w'.pool.capacityPages = w.pool.capacityPages
  power : w.power = none → w'.power = none

theorem SameSetup.of_noSteal (h : NoSteal w w') : SameSetup w w' :=
  ⟨congrArg Frozen.config h.frozen, congrArg Frozen.capacityPages h.frozen, h.power⟩

theorem SameSetup.trans {w'' : World} (h : SameSetup w w') (h' : SameSetup w' w'') :
    SameSetup w w'' :=
  ⟨h'.config.trans h.config, h'.capacity.trans h.capacity, fun hpower => h'.power (h.power hpower)⟩

/-- From `w` to `w'` the data file has grown by zero-filled pages, and the log file is as it
was. -/
structure OnlyGrows (w w' : World) : Prop where
  data : ∃ n, w'.disk.data = w.disk.data.map (grow n)
  log : w'.disk.wal = w.disk.wal
  replacedWal : w'.disk.replacedWal = w.disk.replacedWal
  isOpen : w'.wal.isOpen = w.wal.isOpen
  recovery : w'.recoveryLastCheckpointLsn = w.recoveryLastCheckpointLsn
  pageSize : w'.pager.pageSizeBytes = w.pager.pageSizeBytes
  checkpointLsn : w'.pager.metaPage.map (·.lastCheckpointLsn) =
    w.pager.metaPage.map (·.lastCheckpointLsn)
  setup : SameSetup w w'

theorem NoSteal.checkpointLsn (h : NoSteal w w') :
    w'.pager.metaPage.map (·.lastCheckpointLsn) = w.pager.metaPage.map (·.lastCheckpointLsn) := by
  have hfields := congrArg (fun f => f.metaFields.map Prod.snd) h.frozen
  simp only [frozen, Option.map_map] at hfields
  exact hfields

theorem OnlyGrows.of_noSteal (h : NoSteal w w') : OnlyGrows w w' := by
  obtain ⟨k, hdata, -⟩ := h.data
  exact ⟨⟨_, hdata⟩, congrArg Frozen.walFile h.frozen, congrArg Frozen.replacedWal h.frozen,
    congrArg (fun f => f.wal.isOpen) h.frozen, congrArg Frozen.recoveryLastCheckpointLsn h.frozen,
    congrArg Frozen.pageSizeBytes h.frozen, NoSteal.checkpointLsn h, .of_noSteal h⟩

theorem onlyGrows_withLsn (w : World) (lsn : ℕ) : OnlyGrows w (withLsn w lsn) :=
  ⟨⟨0, by simp [withLsn, grow_zero]⟩, rfl, rfl, rfl, rfl, rfl, rfl, ⟨rfl, rfl, id⟩⟩

instance : Std.Refl OnlyGrows := ⟨fun w => onlyGrows_withLsn w w.wal.currentLsn⟩

theorem OnlyGrows.trans {w'' : World} (h : OnlyGrows w w') (h' : OnlyGrows w' w'') :
    OnlyGrows w w'' := by
  obtain ⟨n, hdata⟩ := h.data
  obtain ⟨n', hdata'⟩ := h'.data
  refine ⟨⟨n + n', ?_⟩, h'.log.trans h.log, h'.replacedWal.trans h.replacedWal,
    h'.isOpen.trans h.isOpen, h'.recovery.trans h.recovery, h'.pageSize.trans h.pageSize,
    h'.checkpointLsn.trans h.checkpointLsn, h.setup.trans h'.setup⟩
  rw [hdata', hdata, Option.map_map]
  congr 1
  funext f
  exact grow_grow _ _ _

instance : IsTrans World OnlyGrows := ⟨fun _ _ _ => OnlyGrows.trans⟩

theorem onlyGrows_applyWalRecord (r : WALRecord) : Keeps OnlyGrows (DB.applyWalRecord r) :=
  fun w => .of_noSteal (noSteal_steps.applyWalRecord r w)

theorem onlyGrows_replayAll (rs : List WALRecord) :
    Keeps OnlyGrows (replayAll DB.applyWalRecord rs) := by
  induction rs with
  | nil => exact keeps_pure _
  | cons r rs ih =>
      refine Keeps.bind (keeps_modify fun w => onlyGrows_withLsn w r.lsn) fun _ => ?_
      exact (onlyGrows_applyWalRecord r).bind fun _ => ih

/-! ## Opening the files -/

/-- A process that has opened the pager of files with the checkpoint `m` of the map `M`, and
not yet the log. -/
structure Opening (R : Regime) (M : KeyMap) (m : MetaPage) (rs : List WALRecord)
    (part content : Bytes) (C : Content) (w : World) : Prop where
  anchor : Anchor R M m rs content C
  data : w.disk.data = some ⟨content, content⟩
  log : LogOnDisk w.disk.wal rs part
  replacedWal : w.disk.replacedWal = none
  pager : w.pager.isOpen = true
  metaPage : w.pager.metaPage = some m
  pageSize : w.pager.pageSizeBytes = R.pageSize
  freelist : w.pager.freelistCache = []
  wal : w.wal.isOpen = false
  cache : w.pool.cache = []

/-- The map that the files of an opening process hold. -/
def openingMap (M : KeyMap) (m : MetaPage) (rs : List WALRecord) : KeyMap :=
  restored (repairedMeta m rs).lastCheckpointLsn M rs

/-- The pages that the files of an opening process hold. -/
def openingContent (C : Content) (m : MetaPage) (rs : List WALRecord) : Option Content :=
  redone (repairedMeta m rs).lastCheckpointLsn C rs

/-- The files of a directory without a process hold the checkpoint `m` of the map `M` and the
records `rs`. -/
structure CheckpointFiles (R : Regime) (M : KeyMap) (m : MetaPage) (rs : List WALRecord)
    (C : Content) (disk : Disk) : Prop where
  files : ∃ part content, disk.data = some ⟨content, content⟩ ∧ LogOnDisk disk.wal rs part ∧
    Anchor R M m rs content C
  replacedWal : disk.replacedWal = none

theorem CheckpointFiles.recoverable (h : CheckpointFiles R M m rs C disk) :
    Recoverable R (openingMap M m rs) (openingContent C m rs) rs disk := by
  obtain ⟨part, content, hdata, hlog, hanchor⟩ := h.files
  exact ⟨⟨part, content, hdata, hlog, M, m, C, hanchor, rfl, rfl⟩, h.replacedWal⟩

theorem Recoverable.checkpointFiles (h : Recoverable R M o rs disk) :
    ∃ M₀ m C₀, CheckpointFiles R M₀ m rs C₀ disk ∧ M = openingMap M₀ m rs ∧
      o = openingContent C₀ m rs := by
  obtain ⟨part, content, hdata, hlog, M₀, m, C₀, hanchor, hM, ho⟩ := h.files
  exact ⟨M₀, m, C₀, ⟨⟨part, content, hdata, hlog, hanchor⟩, h.replacedWal⟩, hM, ho⟩

/-- `Pager.open` finds the pages of the checkpoint. -/
theorem opening_of_anchor {config : Config} (power : Option ℕ)
    (hconfig : minPageSize ≤ config.pageSizeBytes) (hanchor : Anchor R M m rs content C)
    (hdata : disk.data = some ⟨content, content⟩) (hlog : LogOnDisk disk.wal rs part)
    (hreplaced : disk.replacedWal = none) :
    ∃ w, Pager.open_ (DB.handle config disk power) = .ok () w ∧
      SameSetup (DB.handle config disk power) w ∧ Opening R M m rs part content C w := by
  refine ⟨_, pagerOpen_existing (w := DB.handle config disk power) rfl hdata hconfig
    hanchor.encodable hanchor.metaPage, ⟨rfl, rfl, id⟩, ?_⟩
  exact
    { anchor := hanchor
      data := hdata
      log := hlog
      replacedWal := hreplaced
      pager := rfl
      metaPage := rfl
      pageSize := hanchor.meta_pageSize
      freelist := rfl
      wal := rfl
      cache := rfl }

/-! ### The log -/

/-- A process that has opened its log. -/
def withLogOpened (w : World) (power : Option ℕ) (f : FileState) : World :=
  { w with
    power := power
    disk := { w.disk with walTemp := none, wal := some f }
    wal := ⟨true, 0⟩ }

/-- What `WAL.open` may end in. -/
inductive WalOpenOutcome (w : World) (f : FileState) : EStateM.Result Err World Unit → Prop
  | lost {w' : World} : w.power ≠ none → w'.disk.data = w.disk.data →
      w'.disk.wal = w.disk.wal → w'.disk.replacedWal = w.disk.replacedWal →
      WalOpenOutcome w f (.error .powerLoss w')
  | done {power : Option ℕ} : (w.power = none → power = none) →
      WalOpenOutcome w f (.ok () (withLogOpened w power f))

/-- `WAL.open` in a directory without a log creates an empty one. -/
theorem walOpen_missing (hclosed : w.wal.isOpen = false) (hlog : w.disk.wal = none) :
    WalOpenOutcome w .empty (WAL.open_ w) := by
  cases htemp : w.disk.walTemp with
  | none =>
      have hdisk : w.disk = { w.disk with walTemp := none } := by rw [← htemp]
      obtain ⟨hpower, hcall⟩ | ⟨power, hpower, hcall⟩ := fileSystemCall_cases w
      · have hrun : WAL.open_ w = .error .powerLoss w := by
          simp [WAL.open_, run_bind, hclosed, htemp, hlog, hcall]
        rw [hrun]
        exact .lost (by simp [hpower]) rfl rfl rfl
      · have hrun : WAL.open_ w = .ok () (withLogOpened w power .empty) := by
          simp [WAL.open_, run_bind, hclosed, htemp, hlog, hcall, withLogOpened]
        rw [hrun]
        exact .done hpower
  | some g =>
      obtain ⟨hpower, hcall⟩ | ⟨power, hpower, hcall⟩ := fileSystemCall_cases w
      · have hrun : WAL.open_ w = .error .powerLoss w := by
          simp [WAL.open_, run_bind, hclosed, htemp, hcall]
        rw [hrun]
        exact .lost (by simp [hpower]) rfl rfl rfl
      obtain ⟨hpower', hcall'⟩ | ⟨power', hpower', hcall'⟩ := fileSystemCall_cases { w with
        power := power, disk := ⟨w.disk.data, none, none, w.disk.replacedWal⟩ }
      · have hrun : WAL.open_ w = .error .powerLoss { w with
            power := power, disk := ⟨w.disk.data, none, none, w.disk.replacedWal⟩ } := by
          simp [WAL.open_, run_bind, hclosed, htemp, hcall, hlog, hcall']
        rw [hrun]
        refine .lost (fun hnone => ?_) rfl hlog.symm rfl
        have hlost : power = some 0 := hpower'
        rw [hpower hnone] at hlost
        cases hlost
      · have hrun : WAL.open_ w = .ok () (withLogOpened w power' .empty) := by
          simp [WAL.open_, run_bind, hclosed, htemp, hcall, hlog, hcall', withLogOpened]
        rw [hrun]
        exact .done fun hnone => hpower' (hpower hnone)

theorem LogOnDisk.walOpen (h : LogOnDisk w.disk.wal rs part) (hclosed : w.wal.isOpen = false) :
    Torn part ∧ WalOpenOutcome w ⟨logBytes rs ++ part, logBytes rs ++ part⟩ (WAL.open_ w) := by
  cases hlog : w.disk.wal with
  | none =>
      rw [hlog] at h
      cases h
      exact ⟨torn_nil, walOpen_missing hclosed hlog⟩
  | some f =>
      rw [hlog] at h
      cases h with
      | file hpart =>
          refine ⟨hpart, ?_⟩
          obtain ⟨hlost, hrun⟩ | ⟨power, hpower, hrun⟩ := walOpen_cases hclosed hlog
          · rw [hrun]
            exact .lost (by simp [hlost]) rfl rfl rfl
          · rw [hrun]
            have hsame : withOpenLog w power = withLogOpened w power
                ⟨logBytes rs ++ part, logBytes rs ++ part⟩ := by
              rw [withOpenLog, withLogOpened, ← hlog]
            rw [hsame]
            exact .done hpower

/-! ## The replay phase -/

/-- The part of `open` between the pager and the checkpoint: open the log and replay it. -/
def openLogAndReplay : Eng Unit := do
  WAL.open_
  DB.replayPhase

/-- The end of a replay: the tail is cut, or the machine loses its power before or after the
bytes were written. -/
theorem cutTail_cases (hopen : w.wal.isOpen = true) (f : FileState) (rs : List WALRecord) :
    cutTail f rs w = .error .powerLoss w ∨
      (∃ power, cutTail f rs w = .error .powerLoss (withLog w power (f.write (logBytes rs)))) ∨
        ∃ power, (w.power = none → power = none) ∧
          cutTail f rs w = .ok () (withLog w power ⟨logBytes rs, logBytes rs⟩) := by
  obtain ⟨hpower, hcall⟩ | ⟨power, hpower, hcall⟩ := fileSystemCall_cases w
  · exact .inl (run_bind_error hcall)
  · have hwrite : cutTail f rs w = WAL.fsync (withLog w power (f.write (logBytes rs))) := by
      rw [cutTail, run_bind_ok hcall]
      rfl
    rw [hwrite]
    obtain ⟨-, hsync⟩ | ⟨power', hpower', hsync⟩ := walFsync_cases
      (w := withLog w power (f.write (logBytes rs))) hopen rfl
    · exact .inr (.inl ⟨power, hsync⟩)
    · exact .inr (.inr ⟨power', fun hnone => hpower' (hpower hnone), hsync⟩)

/-- The files while a log is re-executed: whatever a crash leaves of them holds the same
checkpoint and the same records. -/
structure Replaying (R : Regime) (M : KeyMap) (m : MetaPage) (rs : List WALRecord) (C : Content)
    (disk : Disk) : Prop where
  data : ∃ content n, disk.data = some (grownFile content n) ∧ Anchor R M m rs content C
  log : ∀ file, Survivor disk.wal file → ∃ part, LogOnDisk file rs part
  replacedWal : disk.replacedWal = none

theorem Replaying.crash (h : Replaying R M m rs C disk) (hcrash : Crash disk disk') :
    CheckpointFiles R M m rs C disk' := by
  obtain ⟨content, n, hdata, hanchor⟩ := h.data
  obtain ⟨part, hlog⟩ := h.log _ (hcrash.wal_survivor h.replacedWal)
  have hsurvivor := hcrash.data
  rw [hdata] at hsurvivor
  refine ⟨?_, hcrash.replacedWal⟩
  cases hfile : disk'.data with
  | none =>
      rw [hfile] at hsurvivor
      cases hsurvivor
  | some file =>
      rw [hfile] at hsurvivor
      cases hsurvivor with
      | left hbytes =>
          obtain ⟨tail, rfl⟩ := hanchor.survives_grownFile hbytes
          exact ⟨part, _, rfl, hlog, hanchor.append tail⟩

/-- A log whose tail is being cut. -/
theorem logOnDisk_of_cut (hpart : Torn part) {file : Option FileState}
    (h : Survivor (some ⟨logBytes rs, logBytes rs ++ part⟩) file) :
    ∃ part', LogOnDisk file rs part' := by
  cases h with
  | left hbytes =>
      rcases hbytes with rfl | rfl | ⟨hkept, hkept'⟩
      · exact ⟨part, .file hpart⟩
      · exact ⟨[], logOnDisk_of_records rs⟩
      · have heq := hkept'.eq_of_length_le (le_trans (by simp) hkept.length_le)
        rw [heq]
        exact ⟨[], logOnDisk_of_records rs⟩

theorem logOnDisk_of_survivor (hpart : Torn part) {file : Option FileState}
    (h : Survivor (some ⟨logBytes rs ++ part, logBytes rs ++ part⟩) file) :
    ∃ part', LogOnDisk file rs part' := by
  rw [h.of_durable]
  exact ⟨part, .file hpart⟩

/-- The world in which the re-execution starts. -/
def replayStart (w : World) (power : Option ℕ) (f : FileState) (m : MetaPage) (dirty : Bool) :
    World :=
  withLsn (repaired (withEviction (withLogOpened w power f) false) m dirty) 0

/-- The stages of the replay phase. -/
theorem Opening.replay_eq (h : Opening R M m rs part content C w) :
    (∃ w', WAL.open_ w = .error .powerLoss w' ∧ w.power ≠ none ∧ w'.disk.data = w.disk.data ∧
      w'.disk.wal = w.disk.wal ∧ w'.disk.replacedWal = w.disk.replacedWal) ∨
    ∃ power dirty, (w.power = none → power = none) ∧ Torn part ∧
      WAL.open_ w = .ok () (withLogOpened w power ⟨logBytes rs ++ part, logBytes rs ++ part⟩) ∧
      DB.repairAndReplay (withEviction (withLogOpened w power
        ⟨logBytes rs ++ part, logBytes rs ++ part⟩) false) =
        (replayAll DB.applyWalRecord rs >>= fun _ =>
          cutTail ⟨logBytes rs ++ part, logBytes rs ++ part⟩ rs)
          (replayStart w power ⟨logBytes rs ++ part, logBytes rs ++ part⟩ (repairedMeta m rs)
            dirty) := by
  obtain ⟨hpart, houtcome⟩ := h.log.walOpen h.wal
  revert houtcome
  cases hopen : WAL.open_ w with
  | error e w' =>
      intro houtcome
      cases houtcome with
      | lost hpower hdata hwal hreplaced => exact .inl ⟨w', rfl, hpower, hdata, hwal, hreplaced⟩
  | ok _ w' =>
      intro houtcome
      cases houtcome with
      | @done power hpower =>
          obtain ⟨dirty, hrepair⟩ := repair_eq (w := withEviction (withLogOpened w power
            ⟨logBytes rs ++ part, logBytes rs ++ part⟩) false) rs part rfl rfl rfl h.anchor.log
            hpart h.metaPage
          exact .inr ⟨power, dirty, hpower, hpart, rfl, repairAndReplay_of_repair rs part rfl rfl
            rfl h.anchor.log hpart hrepair⟩

theorem final_replayPhase (w : World) :
    (final (DB.replayPhase w)).disk = (final (DB.repairAndReplay (withEviction w false))).disk := by
  cases hrun : DB.repairAndReplay (withEviction w false) with
  | ok _ w' =>
      rw [replayPhase_ok hrun]
      rfl
  | error e w' =>
      rw [replayPhase_error hrun]
      rfl

/-- Wherever the replay phase ends, the files hold the same checkpoint and records. -/
theorem Opening.replaying (h : Opening R M m rs part content C w) :
    Replaying R M m rs C (final (openLogAndReplay w)).disk := by
  obtain ⟨w', hopen, -, hdata, hwal, hreplaced⟩ | ⟨power, dirty, -, hpart, hopen, hreplay⟩ :=
    h.replay_eq
  · rw [openLogAndReplay, run_bind_error hopen, final_error]
    refine ⟨⟨content, 0, ?_, h.anchor⟩, fun file hfile => ?_, ?_⟩
    · rw [hdata, h.data, grownFile, List.replicate_zero, List.append_nil]
    · rw [hwal] at hfile
      revert hfile
      cases hlog : w.disk.wal with
      | none =>
          intro hfile
          cases hfile
          exact ⟨part, hlog ▸ h.log⟩
      | some f =>
          intro hfile
          have hdisk := h.log
          rw [hlog] at hdisk
          cases hdisk with
          | file hpart => exact logOnDisk_of_survivor hpart hfile
    · rw [hreplaced]
      exact h.replacedWal
  · rw [openLogAndReplay, run_bind_ok hopen, final_replayPhase, hreplay]
    set f : FileState := ⟨logBytes rs ++ part, logBytes rs ++ part⟩ with hf
    set w₃ := replayStart w power f (repairedMeta m rs) dirty with hw₃
    have hgrows := onlyGrows_replayAll rs w₃
    -- The data file grows, and the log stays until its tail is cut.
    have hfiles : ∀ w₄, OnlyGrows w₃ w₄ → (∃ k, w₄.disk.data = some (grownFile content k)) ∧
        w₄.disk.wal = some f ∧ w₄.disk.replacedWal = none ∧ w₄.wal.isOpen = true := by
      intro w₄ hgrow
      obtain ⟨k, hdata⟩ := hgrow.data
      refine ⟨⟨k, ?_⟩, hgrow.log, hgrow.replacedWal.trans h.replacedWal, hgrow.isOpen⟩
      have hdata₃ : w₃.disk.data = some (grownFile content 0) := by
        show w.disk.data = _
        rw [h.data, grownFile, List.replicate_zero, List.append_nil]
      rw [hdata, hdata₃, Option.map_some, grow_grownFile, Nat.zero_add]
    cases hrun : replayAll DB.applyWalRecord rs w₃ with
    | error e w₄ =>
        rw [hrun] at hgrows
        obtain ⟨⟨k, hdata⟩, hwal, hreplaced, -⟩ := hfiles w₄ hgrows
        rw [run_bind_error hrun, final_error]
        refine ⟨⟨content, k, hdata, h.anchor⟩, fun file hfile => ?_, hreplaced⟩
        rw [hwal] at hfile
        exact logOnDisk_of_survivor hpart hfile
    | ok _ w₄ =>
        rw [hrun] at hgrows
        obtain ⟨⟨k, hdata⟩, hwal, hreplaced, hisOpen⟩ := hfiles w₄ hgrows
        rw [run_bind_ok hrun]
        obtain hcut | ⟨power', hcut⟩ | ⟨power', -, hcut⟩ := cutTail_cases hisOpen f rs
        · rw [hcut, final_error]
          refine ⟨⟨content, k, hdata, h.anchor⟩, fun file hfile => ?_, hreplaced⟩
          rw [hwal] at hfile
          exact logOnDisk_of_survivor hpart hfile
        · rw [hcut, final_error]
          exact ⟨⟨content, k, hdata, h.anchor⟩, fun file hfile => logOnDisk_of_cut hpart hfile,
            hreplaced⟩
        · rw [hcut, final_ok]
          refine ⟨⟨content, k, hdata, h.anchor⟩, fun file hfile => ⟨[], ?_⟩, hreplaced⟩
          rw [Survivor.of_durable (show Survivor (some ⟨logBytes rs, logBytes rs⟩) file from hfile)]
          exact logOnDisk_of_records rs

/-! ### A replay that returned -/

/-- Switching the eviction does not change what a process holds. -/
theorem holding_withEviction (h : Holding R L M C T w) (enabled : Bool) :
    Holding R L M C T (withEviction w enabled) := by
  have hq := h.quiet
  refine h.of_quiet ⟨hq.isOpen, hq.data, hq.pageSize, hq.metaPage, ?_, fun h => h.elim,
    fun h => absurd trivial h⟩
  exact ⟨hq.pool.nodup, hq.pool.object, hq.pool.single, hq.pool.disk⟩

/-- The world in which the re-execution starts holds the map of the checkpoint. -/
theorem Opening.holding_start (h : Opening R M m rs part content C w) (power : Option ℕ)
    (f : FileState) (dirty : Bool) : ∃ (H : ℕ) (T : Tree H),
      Holding R (lastLsn rs) M C T (replayStart w power f (repairedMeta m rs) dirty) := by
  have hsize : w.pager.pageSizeBytes = C.pageSize := h.pageSize.trans h.anchor.map.pageSize.symm
  obtain ⟨H, T, hinv, hgood, hP, hrecords⟩ := h.anchor.map.tree
  exact ⟨H, T, h.anchor.pages.quiet (f := ⟨content, content⟩) h.pager h.data hsize rfl
    h.anchor.fields h.cache h.freelist, hinv, hgood, hP, hrecords⟩

theorem Opening.records (h : Opening R M m rs part content C w) :
    ∀ r ∈ rs, r.lsn ≤ lastLsn rs ∧ RecordWithin R r :=
  fun r hr => ⟨h.anchor.log.lsn_le hr, h.anchor.within r hr⟩

/-- What a replay phase that returned leaves: the handle holds the map of the files. -/
structure ReplayDone (R : Regime) (M : KeyMap) (m : MetaPage) (rs : List WALRecord)
    (C C' : Content) (w w' : World) : Prop where
  alive : Alive R (openingMap M m rs) C' rs w'
  content : openingContent C m rs = some C'
  recovery : w'.recoveryLastCheckpointLsn = (repairedMeta m rs).lastCheckpointLsn
  setup : SameSetup w w'

theorem Opening.replayed (h : Opening R M m rs part content C w)
    (hrun : openLogAndReplay w = .ok () w') : ∃ C', ReplayDone R M m rs C C' w w' := by
  obtain ⟨_, w₂, hlogOpen, hphase⟩ := bind_eq_ok.mp hrun
  obtain ⟨w₁, hfail, -⟩ | ⟨power, dirty, hnone, -, hopen, hreplay⟩ := h.replay_eq
  · cases hlogOpen.symm.trans hfail
  cases hlogOpen.symm.trans hopen
  set f : FileState := ⟨logBytes rs ++ part, logBytes rs ++ part⟩ with hf
  set w₃ := replayStart w power f (repairedMeta m rs) dirty with hw₃
  -- The phase returned, so the re-execution and the cut of the tail did.
  cases hrepair : DB.repairAndReplay (withEviction (withLogOpened w power f) false) with
  | error e w₅ =>
      rw [replayPhase_error hrepair] at hphase
      cases hphase
  | ok _ w₅ =>
      rw [replayPhase_ok hrepair] at hphase
      cases hphase
      rw [hreplay] at hrepair
      obtain ⟨_, w₄, hall, hcutRun⟩ := bind_eq_ok.mp hrepair
      have hgrows := (onlyGrows_replayAll rs).ok hall
      obtain ⟨H, T, hholding⟩ := h.holding_start power f dirty
      obtain ⟨C', hcontent, H', T', hholding'⟩ := replayAll_effect rs hholding h.records hall
      have hlsn : w₄.wal.currentLsn = lastLsn rs := by
        rw [replayAll_currentLsn rs hall]
        by_cases hrs : rs = []
        · subst hrs
          rfl
        · rw [if_neg hrs]
      obtain hcut | ⟨power', hcut⟩ | ⟨power', hnone', hcut⟩ := cutTail_cases
        (show w₄.wal.isOpen = true from hgrows.isOpen) f rs
      · cases hcutRun.symm.trans hcut
      · cases hcutRun.symm.trans hcut
      cases hcutRun.symm.trans hcut
      have hdurable : Durable R (openingMap M m rs) (some C') rs content :=
        ⟨M, m, C, h.anchor, rfl, hcontent.symm⟩
      obtain ⟨k, hdata⟩ := hgrows.data
      have hanchored : Anchored R (openingMap M m rs) (some C') rs
          (withEviction (withLog w₄ power' ⟨logBytes rs, logBytes rs⟩) w.pool.evictionEnabled) := by
        refine ⟨⟨content, k, ?_, hdurable⟩, rfl, hgrows.replacedWal.trans h.replacedWal, hlsn⟩
        show w₄.disk.data = _
        have hdata₃ : w₃.disk.data = some (grownFile content 0) := by
          show w.disk.data = _
          rw [h.data, grownFile, List.replicate_zero, List.append_nil]
        rw [hdata, hdata₃, Option.map_some, grow_grownFile, Nat.zero_add]
      refine ⟨C', ⟨⟨H', T', ?_⟩, hanchored, hgrows.isOpen, fun m' hm' => ?_⟩, hcontent,
        hgrows.recovery, hgrows.setup.config, hgrows.setup.capacity,
        fun hpower => hnone' (hgrows.setup.power (hnone hpower))⟩
      swap
      · have hsame : some m'.lastCheckpointLsn = some (repairedMeta m rs).lastCheckpointLsn := by
          have hmeta := hgrows.checkpointLsn
          rw [show w₄.pager.metaPage = some m' from hm'] at hmeta
          exact hmeta
        show m'.lastCheckpointLsn ≤ w₄.wal.currentLsn
        rw [Option.some.inj hsame, hlsn]
        exact h.anchor.lsn
      have hstand : Holding R (lastLsn rs) (openingMap M m rs) C' T'
          (withLog w₄ power' ⟨logBytes rs, logBytes rs⟩) := Holding.congr hholding' rfl rfl rfl
      rw [← hlsn] at hstand
      exact holding_withEviction hstand _

/-- On a machine with power the replay phase returns where the ideal replay does. -/
theorem Opening.replay_returns (h : Opening R M m rs part content C w) (hpower : w.power = none)
    (hstore : openingContent C m rs = some C') :
    ∃ w', openLogAndReplay w = .ok () w' ∧ w'.power = none := by
  obtain ⟨w₁, -, hlost, -⟩ | ⟨power, dirty, hnone, -, hopen, hreplay⟩ := h.replay_eq
  · exact absurd hpower hlost
  set f : FileState := ⟨logBytes rs ++ part, logBytes rs ++ part⟩ with hf
  set w₃ := replayStart w power f (repairedMeta m rs) dirty with hw₃
  obtain ⟨H, T, hholding⟩ := h.holding_start power f dirty
  have hslow : Unhurried w₃ := ⟨rfl, hnone hpower⟩
  obtain ⟨w₄, hall, hslow₄⟩ := replayAll_returns rs hholding hslow h.records hstore
  have hgrows := (onlyGrows_replayAll rs).ok hall
  have hrepair : DB.repairAndReplay (withEviction (withLogOpened w power f) false) =
      .ok () (withLog w₄ none ⟨logBytes rs, logBytes rs⟩) := by
    rw [hreplay, run_bind_ok hall]
    exact cutTail_eq hgrows.isOpen hslow₄.power f rs
  refine ⟨withEviction (withLog w₄ none ⟨logBytes rs, logBytes rs⟩) w.pool.evictionEnabled, ?_, rfl⟩
  rw [openLogAndReplay, run_bind_ok hopen]
  exact replayPhase_ok hrepair

end BPTreeDB.Runs
