import BPTreeDB.Runs.Interruptions

/-!
# Opening and closing

An `open` that returns holds the map of the files.  An `open` that is interrupted, outside the
window of its own checkpoint, leaves files that hold the same map, so that it can be tried
again any number of times.  Whether a try returns is decided by the logged operations alone:
it does where an ideal page store can re-execute them and the format can hold the next
checkpoint, and it does not where the page store gets stuck.
-/

namespace BPTreeDB.Runs

open Lib Eng Codec Lib.Program PageStore Engine DB WAL

variable {R : Regime} {L H lsn : ℕ} {T : Tree H} {M : KeyMap} {C : Content} {w w' w₁ : World}
  {disk disk' : Disk} {rs : List WALRecord} {m : MetaPage} {o : Option Content} {e : Err}
  {config : Config} {power : Option ℕ} {f : FileState}

/-! ## The stages of an open -/

/-- An `open` that stops in the window of its checkpoint, or in the handler of an exception
that the recovery raised. -/
def OpenTorn (config : Config) (disk : Disk) (power : Option ℕ) : Prop :=
  ∃ w₁ w₂, Pager.open_ (DB.handle config disk power) = .ok () w₁ ∧ WAL.open_ w₁ = .ok () w₂ ∧
    ((∃ w₃, DB.replayPhase w₂ = .ok () w₃ ∧ CheckpointTorn w₃) ∨
      ∃ e w₃, e ≠ .powerLoss ∧ DB.recover w₂ = .error e w₃)

/-- An `open` that returned has replayed the log and taken a checkpoint. -/
theorem open_stages (hpager : Pager.open_ w = .ok () w₁) (hrun : DB.open_ w = .ok () w') :
    ∃ w₂ w₃, openLogAndReplay w₁ = .ok () w₂ ∧ DB.checkpoint w₂ = .ok () w₃ ∧
      w' = { w₃ with isOpened := true } := by
  obtain ⟨u₁, u₂, w₃, hopen, hwal, hrecover, rfl⟩ := open_eq_ok hrun
  cases hpager.symm.trans hopen
  obtain ⟨_, w₂, hphase, hcheckpoint⟩ := bind_eq_ok.mp hrecover
  exact ⟨w₂, w₃, (run_bind_ok hwal).trans hphase, hcheckpoint, rfl⟩

/-- Where the machine stops in an `open`, the replay or the checkpoint has stopped. -/
theorem open_stopped (hpager : Pager.open_ w = .ok () w₁)
    (hrun : DB.open_ w = .error .powerLoss w')
    (hhandler : ∀ w₂, WAL.open_ w₁ = .ok () w₂ → ∀ e w₃, DB.recover w₂ = .error e w₃ →
      e = .powerLoss) :
    openLogAndReplay w₁ = .error .powerLoss w' ∨
      ∃ w₂, openLogAndReplay w₁ = .ok () w₂ ∧ DB.checkpoint w₂ = .error .powerLoss w' := by
  rw [DB.open_, run_bind_ok hpager] at hrun
  rcases bind_eq_error.mp hrun with hwal | ⟨_, w₂, hwal, hrest⟩
  · exact .inl (run_bind_error hwal)
  have hrecover : DB.recover w₂ = .error .powerLoss w' := by
    rcases bind_eq_error.mp hrest with htry | ⟨_, _, -, hmark⟩
    · cases hrecover : DB.recover w₂ with
      | ok _ w₃ =>
          rw [run_tryCatch_ok hrecover] at htry
          cases htry
      | error e w₃ =>
          -- A machine without power runs no handler.
          obtain rfl := hhandler w₂ hwal e w₃ hrecover
          rw [run_tryCatch_error hrecover, DB.closeFilesAndRaise] at htry
          cases htry
          rfl
    · cases hmark
  rcases bind_eq_error.mp hrecover with hphase | ⟨_, w₃, hphase, hcheckpoint⟩
  · exact .inl ((run_bind_ok hwal).trans hphase)
  · exact .inr ⟨w₃, (run_bind_ok hwal).trans hphase, hcheckpoint⟩

/-! ## Opening recoverable files -/

theorem Recoverable.opening (h : Recoverable R M o rs disk)
    (hconfig : minPageSize ≤ config.pageSizeBytes) (power : Option ℕ) :
    ∃ w₁ M₀ m part content C₀, Pager.open_ (DB.handle config disk power) = .ok () w₁ ∧
      SameSetup (DB.handle config disk power) w₁ ∧ Opening R M₀ m rs part content C₀ w₁ ∧
      M = openingMap M₀ m rs ∧ o = openingContent C₀ m rs := by
  obtain ⟨M₀, m, C₀, hfiles, hM, ho⟩ := h.checkpointFiles
  obtain ⟨part, content, hdata, hlog, hanchor⟩ := hfiles.files
  obtain ⟨w₁, hpager, hsetup, hopening⟩ := opening_of_anchor power hconfig hanchor hdata hlog
    hfiles.replacedWal
  exact ⟨w₁, M₀, m, part, content, C₀, hpager, hsetup, hopening, hM, ho⟩

/-- An `open` that returns holds the map of the files. -/
theorem Recoverable.open_returned (hR : Sized R) (h : Recoverable R M o rs disk)
    (hconfig : minPageSize ≤ config.pageSizeBytes)
    (hrun : DB.open_ (DB.handle config disk power) = .ok () w') :
    ∃ C rs', o = some C ∧ Alive R M C rs' w' ∧ w'.isOpened = true ∧
      lastLsn rs < w'.wal.currentLsn := by
  obtain ⟨w₁, M₀, m, part, content, C₀, hpager, -, hopening, rfl, rfl⟩ := h.opening hconfig power
  obtain ⟨w₂, w₃, hreplay, hcheckpoint, rfl⟩ := open_stages hpager hrun
  obtain ⟨C, hdone⟩ := hopening.replayed hreplay
  obtain ⟨m', halive, -⟩ := hdone.alive.checkpoint hR hcheckpoint
  refine ⟨C, _, hdone.content, halive.congr rfl rfl rfl rfl, rfl, ?_⟩
  have hold := hdone.alive.anchored.lsn
  have hnew : w₃.wal.currentLsn = w₂.wal.currentLsn + 1 := halive.anchored.lsn
  show lastLsn rs < w₃.wal.currentLsn
  omega

/-- The checkpoint of an `open` loses nothing where it fails, and no handler runs. -/
def OpenHarmless (R : Regime) (config : Config) (disk : Disk) (power : Option ℕ) : Prop :=
  ∀ w₁ w₂, Pager.open_ (DB.handle config disk power) = .ok () w₁ → WAL.open_ w₁ = .ok () w₂ →
    (∀ w₃, DB.replayPhase w₂ = .ok () w₃ → Harmless R w₃) ∧
      ∀ e w₃, DB.recover w₂ = .error e w₃ → e = .powerLoss

theorem openHarmless_of_not_torn (hR : Sized R) (htorn : ¬ OpenTorn config disk power) :
    OpenHarmless R config disk power := by
  intro w₁ w₂ hpager hwal
  constructor
  · exact fun w₃ hphase => harmless_of_not_torn hR fun ht =>
      htorn ⟨w₁, w₂, hpager, hwal, .inl ⟨w₃, hphase, ht⟩⟩
  · intro e w₃ hrecover
    by_contra hne
    exact htorn ⟨w₁, w₂, hpager, hwal, .inr ⟨e, w₃, hne, hrecover⟩⟩

/-- An `open` that is interrupted, and loses nothing in its checkpoint, leaves the map in the
files. -/
theorem Recoverable.crash_of_open (h : Recoverable R M o rs disk)
    (hconfig : minPageSize ≤ config.pageSizeBytes)
    (hrun : DB.open_ (DB.handle config disk power) = .error .powerLoss w')
    (hharmless : OpenHarmless R config disk power) (hcrash : Crash w'.disk disk') :
    ∃ o', o'.isSome = o.isSome ∧ Leaves R (lastLsn rs) M o' disk' := by
  obtain ⟨w₁, M₀, m, part, content, C₀, hpager, -, hopening, rfl, rfl⟩ := h.opening hconfig power
  have hhandler : ∀ w₂, WAL.open_ w₁ = .ok () w₂ → ∀ e w₃, DB.recover w₂ = .error e w₃ →
      e = .powerLoss := fun w₂ hwal => (hharmless w₁ w₂ hpager hwal).2
  rcases open_stopped hpager hrun hhandler with hreplay | ⟨w₂, hreplay, hcheckpoint⟩
  · -- The log is still being replayed: checkpoint and records are as they were.
    have hreplaying := hopening.replaying
    rw [hreplay, final_error] at hreplaying
    exact ⟨_, rfl, rs, (hreplaying.crash hcrash).recoverable, le_rfl⟩
  · obtain ⟨C, hdone⟩ := hopening.replayed hreplay
    obtain ⟨_, u₂, hwal, hphase⟩ := bind_eq_ok.mp hreplay
    obtain ⟨C', hleaves⟩ := (hharmless w₁ u₂ hpager hwal).1 w₂ hphase _ _ _ _ _ _ hdone.alive
      hcheckpoint hcrash
    have hold := hdone.alive.anchored.lsn
    rw [hdone.content]
    exact ⟨some C', rfl, hleaves.mono (by omega)⟩

/-- Files whose operations cannot be re-executed are not opened. -/
theorem Recoverable.open_jammed (hR : Sized R) (h : Recoverable R M none rs disk)
    (hconfig : minPageSize ≤ config.pageSizeBytes) :
    DB.open_ (DB.handle config disk power) ≠ .ok () w' := by
  intro hrun
  obtain ⟨C, rs', hnone, -⟩ := h.open_returned hR hconfig hrun
  cases hnone

/-! ## Checkpoints that return -/

/-- The LSN of the next checkpoint and the page ids fit their fields of the format. -/
def FitsFormat (w : World) : Prop :=
  w.wal.currentLsn + 1 < 256 ^ 8 ∧ ∀ m, w.pager.metaPage = some m → m.nextPageId < 256 ^ 8

/-- Root and freelist head are page ids. -/
theorem Holding.meta_lt (h : Holding R L M C T w) (hm : w.pager.metaPage = some m) :
    m.rootPageId < m.nextPageId ∧ m.freelistHeadPageId < m.nextPageId := by
  obtain ⟨m', hm', hfields, hfree⟩ := h.quiet.metaPage
  obtain rfl : m = m' := Option.some.inj (hm.symm.trans hm')
  have hroot := h.inv.accounted.lt (Tree.id_mem_pageIds T)
  rw [hfields.root, hfields.next, h.inv.root]
  refine ⟨hroot.2, ?_⟩
  rw [hfree.linked.head_eq]
  cases hchain : C.chain with
  | nil =>
      show 0 < C.next
      omega
  | cons e chain =>
      refine Accounted.freeIds_lt h.inv.accounted le_rfl ?_
      rw [hchain]
      exact List.mem_flatMap.mpr ⟨e, List.mem_cons_self .., List.mem_cons_self ..⟩

/-- On a machine with power a checkpoint returns, as long as the format can hold it. -/
theorem Alive.checkpoint_returns (hR : Sized R) (h : Alive R M C rs w) (hpower : w.power = none)
    (hfits : FitsFormat w) : ∃ w', DB.checkpoint w = .ok () w' := by
  obtain ⟨H, T, hholding⟩ := h.stands
  obtain ⟨m, hm, hfields⟩ := h.metaPage
  obtain ⟨hlsn, hnext⟩ := hfits
  have hst := hR.storable hholding
  have hlarge : minPageSize ≤ C.pageSize := by
    rw [hholding.pageSize]
    exact hR.large
  have hbound := hnext m hm
  have hids := Holding.meta_lt hholding hm
  have houtcome := checkpoint_outcome hst hlarge hholding.quiet hm (h.anchored.logOf h.isOpen)
  cases hrun : DB.checkpoint w with
  | ok _ w' => exact ⟨w', rfl⟩
  | error e w' =>
      exfalso
      rw [hrun] at houtcome
      cases houtcome with
      | flushing hfails =>
          rcases hfails.cause with ⟨hlost, -⟩ | hcause
          · exact hlost hpower
          · refine hholding.not_unencodable hst (by omega) ?_ e hcause
            rw [← hfields.next]
            exact le_of_lt hbound
      | refused _ hnot =>
          refine hnot ⟨hlsn, ⟨?_, ?_, hbound⟩, ?_⟩
          · exact lt_trans hids.1 hbound
          · exact lt_trans hids.2 hbound
          · simp [checkpointRecord, payloadBytes]
      | logging _ hlost => exact hlost hpower
      | publishing _ hlost => exact hlost hpower
      | rotating _ hlost => exact hlost hpower

/-- After the replay of the log the format cannot hold another checkpoint. -/
def Exhausted (config : Config) (disk : Disk) : Prop :=
  ∃ w₁ w₂, Pager.open_ (DB.handle config disk none) = .ok () w₁ ∧
    openLogAndReplay w₁ = .ok () w₂ ∧ ¬ FitsFormat w₂

/-- Durable files are not changed by a crash. -/
theorem crash_refl {content log : Bytes} (hdata : disk.data = some ⟨content, content⟩)
    (hlog : disk.wal = some ⟨log, log⟩) (hreplaced : disk.replacedWal = none) :
    Crash disk disk := by
  refine ⟨?_, .inl ?_, hreplaced⟩
  · rw [hdata]
    exact .left ⟨le_max_left _ _, mixesPages_old _ _ _⟩
  · rw [hlog]
    exact .left (.inl rfl)

/-- With nothing to write, closing the two files leaves them as they are. -/
theorem closeBoth_disk {w₀ : World} (hwritten : Written w₀ w)
    (hlog : ∃ log, w.disk.wal = some ⟨log, log⟩)
    (hwal : w.wal.isOpen = true) (hpager : w.pager.isOpen = true) :
    (final ((WAL.close >>= fun _ => Pager.close) w)).disk = w.disk := by
  obtain ⟨content, hdata⟩ := hwritten.data
  obtain ⟨log, hlog⟩ := hlog
  obtain ⟨-, hclose⟩ | ⟨power, -, hclose⟩ := walClose_cases hwal hlog
  · rw [run_bind_error hclose, final_error]
  · rw [run_bind_ok hclose]
    set w₂ := withClosedLog w power (FileState.fsync ⟨log, log⟩) with hw₂
    have hdisk₂ : w₂.disk = w.disk := by
      show { w.disk with wal := some ⟨log, log⟩ } = w.disk
      rw [← hlog]
    have hpublish : publishMeta w₂ = .ok () w₂ := by
      rw [publishMeta, run_bind_ok (run_get w₂), if_neg (by simp [hw₂, withClosedLog, withLog,
        hwritten.metaPage])]
      rfl
    have hnothing : w₂.pager.dirtyFreelistPageIds = [] := hwritten.freelist
    rw [pagerClose_eq (w := w₂) hpager, if_neg (by simp [hnothing]), pure_bind,
      run_bind_ok hpublish, releaseFile]
    have hdata₂ : w₂.disk.data = some ⟨content, content⟩ := hdata
    obtain ⟨-, hsync⟩ | ⟨power', -, hsync⟩ := pagerFsync_cases (w := w₂) hpager hdata₂
    · rw [run_bind_error hsync, final_error]
      exact hdisk₂
    · rw [run_bind_ok hsync]
      show { w₂.disk with data := some ⟨content, content⟩ } = w.disk
      rw [← hdata₂]
      exact hdisk₂

/-- The files that a `close` leaves, whether it returns or raises behind its checkpoint. -/
theorem Alive.close_disk (hR : Sized R) (h : Alive R M C rs w) (hopened : w.isOpened = true) :
    (∃ e w', DB.checkpoint w = .error e w' ∧ ∃ u, DB.close w = .error e u ∧ u.disk = w'.disk) ∨
      ∃ rs', ∃ w₁, Alive R M C rs' w₁ ∧ lastLsn rs < lastLsn rs' ∧
        (final (DB.close w)).disk = w₁.disk ∧
          ∃ content, w₁.disk.data = some ⟨content, content⟩ := by
  have hclose : DB.close w = ((tryCatch DB.closeFiles fun e => do
      DB.markClosed
      throw e) >>= fun _ => DB.markClosed) w := by
    rw [DB.close, run_bind_ok (run_get w), if_neg (by simp [hopened])]
  have hfiles : DB.closeFiles = DB.checkpoint >>= fun _ => WAL.close >>= fun _ => Pager.close := rfl
  cases hcheckpoint : DB.checkpoint w with
  | error e w' =>
      -- The checkpoint raised: the handle is closed over the files it left.
      refine .inl ⟨e, w', rfl, { w' with isOpened := false, versionCounter := 0 }, ?_, rfl⟩
      rw [hclose]
      exact run_bind_error (run_tryCatch_error (by rw [hfiles]; exact run_bind_error hcheckpoint))
  | ok _ w₁ =>
      obtain ⟨m, h₁, -, hwritten⟩ := h.checkpoint hR hcheckpoint
      obtain ⟨H, T, hholding⟩ := h₁.stands
      -- Behind the checkpoint nothing is dirty, so closing the files changes nothing, even where it
      -- raises.
      have hdisk := closeBoth_disk hwritten ⟨_, h₁.anchored.log⟩ h₁.isOpen hholding.quiet.isOpen
      have hlsn := h.anchored.lsn
      refine .inr ⟨_, w₁, h₁, ?_, ?_, hwritten.data⟩
      · show lastLsn rs < w.wal.currentLsn + 1
        omega
      · rw [← hdisk, hclose]
        cases hboth : (WAL.close >>= fun _ => Pager.close) w₁ with
        | ok _ w₂ =>
            have hrun : DB.closeFiles w = .ok () w₂ := by
              rw [hfiles, run_bind_ok hcheckpoint]
              exact hboth
            rw [run_bind_ok (run_tryCatch_ok hrun)]
            rfl
        | error e w₂ =>
            have hrun : DB.closeFiles w = .error e w₂ := by
              rw [hfiles, run_bind_ok hcheckpoint]
              exact hboth
            have htry : (tryCatch DB.closeFiles fun e => do
                DB.markClosed
                throw e) w = .error e { w₂ with isOpened := false, versionCounter := 0 } :=
              run_tryCatch_error hrun
            rw [run_bind_error htry]
            rfl

/-- A `close` that returns leaves the map in the files. -/
theorem Alive.closed (hR : Sized R) (h : Alive R M C rs w) (hopened : w.isOpened = true)
    (hrun : DB.close w = .ok () w') : Leaves R (w.wal.currentLsn + 1) M (some C) w'.disk := by
  have hlsn := h.anchored.lsn
  rcases h.close_disk hR hopened with ⟨e, w₁, -, u, hclose, -⟩ | ⟨rs', w₁, h₁, hlast, hdisk, hdata⟩
  · cases hrun.symm.trans hclose
  · rw [hrun, final_ok] at hdisk
    rw [hdisk]
    obtain ⟨content, hdata⟩ := hdata
    have hcrash := crash_refl hdata h₁.anchored.log h₁.anchored.replacedWal
    exact ⟨rs', h₁.anchored.crash hcrash, by omega⟩

/-- So does a `close` that is interrupted and loses nothing in its checkpoint. -/
theorem Alive.crash_of_close (hR : Sized R) (h : Alive R M C rs w) (hopened : w.isOpened = true)
    (hrun : DB.close w = .error e w') (hharmless : Harmless R w)
    (hcrash : Crash w'.disk disk') : ∃ C', Leaves R w.wal.currentLsn M (some C') disk' := by
  have hlsn := h.anchored.lsn
  rcases h.close_disk hR hopened with ⟨e', w₁, hcheckpoint, u, hclose, hdisk⟩ |
    ⟨rs', w₁, h₁, hlast, hdisk, -⟩
  · cases hrun.symm.trans hclose
    rw [hdisk] at hcrash
    exact hharmless M C rs _ w₁ disk' h hcheckpoint hcrash
  · rw [hrun, final_error] at hdisk
    rw [hdisk] at hcrash
    exact ⟨C, rs', h₁.anchored.crash hcrash, by omega⟩

end BPTreeDB.Runs
