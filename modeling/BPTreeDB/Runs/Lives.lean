import BPTreeDB.Lib.Transitions
import BPTreeDB.Runs.Balance
import BPTreeDB.Runs.Reopening

/-!
# The life of a database

A database is opened, called, checkpointed and closed, and its process may end at any moment:
a call raises and the process exits without a `close`, or the machine stops at some call of
the file system, also while the log is replayed or a checkpoint is published.  `LifeStep` is this
system.  It leaves out one window, in which the source does lose data: a machine that stops
between the first page of a checkpoint and the fsync of its CHECKPOINT record.

`MapStep` is what a user may rely on: a map that survives.  A call that returns has happened; a
call that failed has happened or not; nothing else changes the map.  `lives_refine_map` says
that every trace of the system is a trace of the map.  The simulation relation is
`LifeHolds`: a running process is `Alive`, and the files of a directory without a process are
`Recoverable`.

A record that was logged before its operation failed may be impossible to re-execute, if
rebalancing gets stuck.  Then the directory is jammed: the next `open` does not return.  With
short keys this does not happen, and every directory that a life leaves can be opened again.
-/

namespace BPTreeDB.Runs

open Lib Eng Codec Lib.Program Lib.Transitions PageStore Engine DB WAL

variable {R : Regime} {M : KeyMap} {C : Content} {w w' : World} {disk disk' : Disk}
  {rs : List WALRecord} {config : Config} {power : Option ℕ} {es es' : List LifeEvent}

/-! ## The system -/

/-- A data directory: without a process, or with one that has opened it. -/
inductive Site where
  | files (disk : Disk)
  | running (w : World)

/-- What happens to a database. -/
inductive LifeEvent where
  | opened
  | openFailed
  | answered (c : Call) (answer : Answer)
  | refused (c : Call)
  | failed (c : Call)
  | killed
  | closed
  | closeFailed
  deriving DecidableEq

/-- The steps of a life.  A call that is refused has raised and has changed nothing, or has only
read pages; the process goes on.  A call that failed has ended its process.  The files of a
process that has ended are what a crash may leave of them. -/
inductive LifeStep : Site → LifeEvent → Site → Prop
  | opened {disk : Disk} {config : Config} {power : Option ℕ} {w : World} :
      minPageSize ≤ config.pageSizeBytes → DB.open_ (DB.handle config disk power) = .ok () w →
      LifeStep (.files disk) .opened (.running w)
  | openFailed {disk disk' : Disk} {config : Config} {power : Option ℕ} {w : World} :
      minPageSize ≤ config.pageSizeBytes →
      DB.open_ (DB.handle config disk power) = .error .powerLoss w →
      ¬ OpenTorn config disk power → Crash w.disk disk' →
      LifeStep (.files disk) .openFailed (.files disk')
  | answered {w w' : World} {c : Call} {answer : Answer} : c.run w = .ok answer w' →
      LifeStep (.running w) (.answered c answer) (.running w')
  | refused {w : World} {c : Call} {e : Err} : c.run w = .error e w →
      LifeStep (.running w) (.refused c) (.running w)
  | raisedEarly {w w' : World} {c : Call} {e : Err} : c.run w = .error e w' → c.RaisesEarly w →
      LifeStep (.running w) (.refused c) (.running w')
  | failed {w w' : World} {c : Call} {e : Err} {disk' : Disk} : c.run w = .error e w' →
      ¬ c.Torn w → Crash w'.disk disk' →
      LifeStep (.running w) (.failed c) (.files disk')
  | killed {w : World} {disk' : Disk} : Crash w.disk disk' →
      LifeStep (.running w) .killed (.files disk')
  | closed {w w' : World} : DB.close w = .ok () w' → LifeStep (.running w) .closed (.files w'.disk)
  | closeFailed {w w' : World} {e : Err} {disk' : Disk} : DB.close w = .error e w' →
      ¬ CheckpointTorn w → Crash w'.disk disk' → LifeStep (.running w) .closeFailed (.files disk')

/-- An `open` in an empty directory that returned. -/
def Created (config : Config) (w : World) : Prop :=
  minPageSize ≤ config.pageSizeBytes ∧
    ∃ power, DB.open_ (DB.handle config emptyDirectory power) = .ok () w

/-! ## A map that survives -/

/-- A map in the hands of a process, or without one.  A jammed one is lost to its user. -/
inductive MapState where
  | opened (M : KeyMap)
  | closed (M : KeyMap)
  | jammed (M : KeyMap)

/-- The map, whoever has it. -/
def MapState.map : MapState → KeyMap
  | .opened M => M
  | .closed M => M
  | .jammed M => M

/-- A call that returned has happened; one that failed has happened or not, and one that has
happened may leave a directory that cannot be opened. -/
inductive MapStep : MapState → LifeEvent → MapState → Prop
  | opened (M : KeyMap) : MapStep (.closed M) .opened (.opened M)
  | openFailed (M : KeyMap) : MapStep (.closed M) .openFailed (.closed M)
  | answered {M : KeyMap} {c : Call} {answer : Answer} : c.Answers M answer →
      MapStep (.opened M) (.answered c answer) (.opened (c.after M))
  | refused (M : KeyMap) (c : Call) : MapStep (.opened M) (.refused c) (.opened M)
  | lost (M : KeyMap) (c : Call) : MapStep (.opened M) (.failed c) (.closed M)
  | kept (M : KeyMap) (c : Call) : MapStep (.opened M) (.failed c) (.closed (c.after M))
  | jammed (M : KeyMap) (c : Call) : MapStep (.opened M) (.failed c) (.jammed (c.after M))
  | stillJammed (M : KeyMap) : MapStep (.jammed M) .openFailed (.jammed M)
  | killed (M : KeyMap) : MapStep (.opened M) .killed (.closed M)
  | closed (M : KeyMap) : MapStep (.opened M) .closed (.closed M)
  | closeFailed (M : KeyMap) : MapStep (.opened M) .closeFailed (.closed M)

/-! ## The simulation -/

/-- The database holds the state of the map. -/
def LifeHolds (R : Regime) : Site → MapState → Prop
  | .running w, .opened M => w.isOpened = true ∧ ∃ C rs, Alive R M C rs w
  | .files disk, .closed M => ∃ C rs, Recoverable R M (some C) rs disk
  | .files disk, .jammed M => Jams R ∧ ∃ rs, Recoverable R M none rs disk
  | _, _ => False

/-- The newest LSN that a database knows of. -/
def Site.lastLsn : Site → ℕ
  | .running w => w.wal.currentLsn
  | .files disk => Engine.lastLsn disk.loggedRecords

/-- The key of a `put` is within the cap of the regime. -/
def LifeEvent.Within (R : Regime) : LifeEvent → Prop
  | .answered c _ => c.Within R
  | .failed c => c.Within R
  | _ => True

/-- An event by which an LSN is given to an acknowledged operation. -/
def LifeEvent.Logged : LifeEvent → Prop
  | .opened => True
  | .answered (.put _ _) _ => True
  | .answered (.delete _) answer => answer = .deleted true
  | .answered .checkpoint _ => True
  | .closed => True
  | _ => False

theorem Leaves.holds {lsn : ℕ} (h : Leaves R lsn M (some C) disk) :
    LifeHolds R (.files disk) (.closed M) ∧ lsn ≤ (Site.files disk).lastLsn := by
  obtain ⟨rs, hrecoverable, hle⟩ := h
  refine ⟨⟨C, rs, hrecoverable⟩, ?_⟩
  show lsn ≤ Engine.lastLsn disk.loggedRecords
  rw [hrecoverable.loggedRecords]
  exact hle

theorem Leaves.jammed {lsn : ℕ} (h : Leaves R lsn M none disk) (hjams : Jams R) :
    LifeHolds R (.files disk) (.jammed M) ∧ lsn ≤ (Site.files disk).lastLsn := by
  obtain ⟨rs, hrecoverable, hle⟩ := h
  refine ⟨⟨hjams, rs, hrecoverable⟩, ?_⟩
  show lsn ≤ Engine.lastLsn disk.loggedRecords
  rw [hrecoverable.loggedRecords]
  exact hle

/-- An acknowledged change is logged. -/
theorem logged_of_event {c : Call} {answer : Answer} (hanswers : c.Answers M answer)
    (h : LifeEvent.Logged (.answered c answer)) : c.Logged M := by
  cases c with
  | put key value => trivial
  | delete key =>
      have hdeleted : answer = .deleted true := h
      have hmap : answer = .deleted (M key).isSome := hanswers
      rw [hmap] at hdeleted
      intro hnone
      rw [hnone] at hdeleted
      cases hdeleted
  | checkpoint => trivial
  | get key => exact h
  | scan start stop => exact h

/-- The map makes the step `e` from `t`, the site `s'` holds what it is then, and the LSNs do not
go back. -/
def Matches (R : Regime) (s s' : Site) (t : MapState) (e : LifeEvent) : Prop :=
  ∃ t', MapStep t e t' ∧ LifeHolds R s' t' ∧ s.lastLsn ≤ s'.lastLsn ∧
    (e.Logged → s.lastLsn < s'.lastLsn)

theorem life_openFailed {t : MapState} (h : LifeHolds R (.files disk) t)
    (hconfig : minPageSize ≤ config.pageSizeBytes)
    (hrun : DB.open_ (DB.handle config disk power) = .error .powerLoss w)
    (hharmless : OpenHarmless R config disk power) (hcrash : Crash w.disk disk') :
    Matches R (.files disk) (.files disk') t .openFailed := by
  cases t with
  | opened M => exact h.elim
  | closed M =>
      obtain ⟨C, rs, hrecoverable⟩ := h
      obtain ⟨o, hsome, hleaves⟩ := hrecoverable.crash_of_open hconfig hrun hharmless hcrash
      obtain ⟨C', rfl⟩ := Option.isSome_iff_exists.mp hsome
      obtain ⟨hholds, hlsn⟩ := hleaves.holds
      rw [← hrecoverable.loggedRecords] at hlsn
      exact ⟨.closed M, .openFailed M, hholds, hlsn, fun hlogged => hlogged.elim⟩
  | jammed M =>
      obtain ⟨hjams, rs, hrecoverable⟩ := h
      obtain ⟨o, hsome, hleaves⟩ := hrecoverable.crash_of_open hconfig hrun hharmless hcrash
      obtain rfl : o = none := by simpa using hsome
      obtain ⟨hholds, hlsn⟩ := hleaves.jammed hjams
      rw [← hrecoverable.loggedRecords] at hlsn
      exact ⟨.jammed M, .stillJammed M, hholds, hlsn, fun hlogged => hlogged.elim⟩

theorem life_failed (hR : Sized R) {t : MapState} {c : Call} {e : Err}
    (hwithin : LifeEvent.Within R (.failed c)) (h : LifeHolds R (.running w) t)
    (hrun : c.run w = .error e w') (hharmless : c.Harmless R w) (hcrash : Crash w'.disk disk') :
    Matches R (.running w) (.files disk') t (.failed c) := by
  cases t with
  | closed M => exact h.elim
  | jammed M => exact h.elim
  | opened M =>
      obtain ⟨hopened, C, rs, halive⟩ := h
      cases halive.crash_of_call hR hopened hwithin hrun hharmless hcrash with
      | before hleaves =>
          obtain ⟨hholds, hlsn⟩ := hleaves.holds
          exact ⟨.closed M, .lost M c, hholds, hlsn, fun hlogged => hlogged.elim⟩
      | after hleaves =>
          obtain ⟨hholds, hlsn⟩ := hleaves.holds
          exact ⟨.closed (c.after M), .kept M c, hholds, hlsn, fun hlogged => hlogged.elim⟩
      | jammed hleaves hjams =>
          obtain ⟨hholds, hlsn⟩ := hleaves.jammed hjams
          exact ⟨.jammed (c.after M), .jammed M c, hholds, hlsn, fun hlogged => hlogged.elim⟩

theorem life_closeFailed (hR : Sized R) {t : MapState} {e : Err}
    (h : LifeHolds R (.running w) t) (hrun : DB.close w = .error e w') (hharmless : Harmless R w)
    (hcrash : Crash w'.disk disk') :
    Matches R (.running w) (.files disk') t .closeFailed := by
  cases t with
  | closed M => exact h.elim
  | jammed M => exact h.elim
  | opened M =>
      obtain ⟨hopened, C, rs, halive⟩ := h
      obtain ⟨C', hleaves⟩ := halive.crash_of_close hR hopened hrun hharmless hcrash
      obtain ⟨hholds, hlsn⟩ := hleaves.holds
      exact ⟨.closed M, .closeFailed M, hholds, hlsn, fun hlogged => hlogged.elim⟩

/-- One step: the map makes the same step, and the LSNs do not go back. -/
theorem life_step (hR : Sized R) {s s' : Site} {t : MapState} {e : LifeEvent}
    (hwithin : e.Within R) (h : LifeHolds R s t) (hstep : LifeStep s e s') :
    Matches R s s' t e := by
  cases hstep with
  | opened hconfig hrun =>
      cases t with
      | opened M => exact h.elim
      | closed M =>
          obtain ⟨C, rs, hrecoverable⟩ := h
          -- The open writes a CHECKPOINT record, so the LSN goes up.
          obtain ⟨C', rs', -, halive, hopened, hlsn⟩ :=
            hrecoverable.open_returned hR hconfig hrun
          rw [← hrecoverable.loggedRecords] at hlsn
          exact ⟨.opened M, .opened M, ⟨hopened, C', rs', halive⟩, le_of_lt hlsn, fun _ => hlsn⟩
      | jammed M =>
          -- The records of a jammed directory cannot be re-applied: its open does not return.
          obtain ⟨-, rs, hrecoverable⟩ := h
          exact absurd hrun (hrecoverable.open_jammed hR hconfig)
  | openFailed hconfig hrun htorn hcrash =>
      exact life_openFailed h hconfig hrun (openHarmless_of_not_torn hR htorn) hcrash
  | @answered w w' c answer hrun =>
      cases t with
      | closed M => exact h.elim
      | jammed M => exact h.elim
      | opened M =>
          obtain ⟨hopened, C, rs, halive⟩ := h
          obtain ⟨hanswers, hreturned⟩ := halive.answer hR hopened hwithin hrun
          refine ⟨.opened (c.after M), .answered hanswers,
            ⟨hreturned.isOpened.trans hopened, hreturned.alive⟩, hreturned.lsn, fun hlogged => ?_⟩
          exact hreturned.logged (logged_of_event hanswers hlogged)
  | @refused w c e hrun =>
      cases t with
      | opened M => exact ⟨.opened M, .refused M c, h, le_rfl, fun hlogged => hlogged.elim⟩
      | closed M => exact h.elim
      | jammed M => exact h.elim
  | @raisedEarly w w' c e hrun hearly =>
      cases t with
      | closed M => exact h.elim
      | jammed M => exact h.elim
      | opened M =>
          obtain ⟨hopened, C, rs, halive⟩ := h
          -- The call raised before its append: the map and the log are the old ones.
          obtain ⟨halive', hopened', hwal⟩ := halive.raisesEarly hopened hrun hearly
          refine ⟨.opened M, .refused M c, ⟨hopened', C, rs, halive'⟩, ?_, fun hlogged =>
            hlogged.elim⟩
          show w.wal.currentLsn ≤ w'.wal.currentLsn
          rw [hwal]
  | failed hrun htorn hcrash =>
      exact life_failed hR hwithin h hrun (Call.harmless_of_not_torn hR htorn) hcrash
  | killed hcrash =>
      cases t with
      | closed M => exact h.elim
      | jammed M => exact h.elim
      | opened M =>
          obtain ⟨hopened, C, rs, halive⟩ := h
          obtain ⟨hholds, hlsn⟩ := (halive.crash hcrash).holds
          exact ⟨.closed M, .killed M, hholds, hlsn, fun hlogged => hlogged.elim⟩
  | closed hrun =>
      cases t with
      | closed M => exact h.elim
      | jammed M => exact h.elim
      | opened M =>
          obtain ⟨hopened, C, rs, halive⟩ := h
          obtain ⟨hholds, hlsn⟩ := (halive.closed hR hopened hrun).holds
          exact ⟨.closed M, .closed M, hholds, le_trans (Nat.le_succ _) hlsn,
            fun _ => Nat.lt_of_succ_le hlsn⟩
  | closeFailed hrun htorn hcrash =>
      exact life_closeFailed hR h hrun (harmless_of_not_torn hR htorn) hcrash

theorem life_simulates (hR : Sized R) :
    Simulates (LifeEvent.Within R) LifeStep MapStep (LifeHolds R) := by
  intro s t e s' hwithin h hstep
  obtain ⟨t', hmap, hholds, -⟩ := life_step hR hwithin h hstep
  exact ⟨t', hmap, hholds⟩

/-- A `put` of a record that is too large is refused. -/
theorem put_refused {key value : Bytes} (hopened : w.isOpened = true) (h : Alive R M C rs w)
    (hlarge : getMaxLeafRecordSize R.pageSize < calculateLeafRecordSize key value) :
    LifeStep (.running w) (.refused (.put key value)) (.running w) := by
  obtain ⟨H, T, hholding⟩ := h.stands
  rw [← hholding.pageSize] at hlarge
  rcases put_cases key value hopened hholding.quiet with
    ⟨-, e, hraise⟩ | ⟨hfits, -⟩
  · exact .refused (e := e) (run_bind_error hraise)
  · omega

/-! ## Creation -/

/-- The bootstrap page file is a checkpoint of the empty map. -/
theorem anchor_empty {P : ℕ} {content : Bytes} (hR : R.pageSize = P) (hP : minPageSize ≤ P)
    (himage : Image content (emptyMeta P) (emptyContent P)) :
    Anchor R (fun _ => none) (emptyMeta P) [] content (emptyContent P) := by
  have hheader : pageHeaderSize ≤ R.pageSize := by
    rw [hR]
    simp only [minPageSize, metaPageNoCrcSize, crc32FieldSize, pageHeaderSize] at hP ⊢
    omega
  refine ⟨himage.encodable, himage.metaPage, readable_nil, by simp, le_rfl, ?_, ?_, ?_⟩
  · exact himage.fields
  · exact himage.pagesOn
  · exact ⟨0, emptyTree, storeInv_empty P, good_emptyTree hheader, hR.symm, represents_empty⟩

/-- A database that was just created holds the empty map. -/
theorem Created.holds (h : Created config w) (hR : R.pageSize = config.pageSizeBytes) :
    Sized R ∧ LifeHolds R (.running w) (.opened fun _ => none) := by
  obtain ⟨hP, power, hrun⟩ := h
  obtain ⟨w₁, u₂, u₃, hpager, hwal, hrecover, -⟩ := open_eq_ok hrun
  have hboot := pagerOpen_new (w := DB.handle config emptyDirectory power) rfl rfl hP
  rw [hpager] at hboot
  obtain ⟨hsmall, content, power₁, -, himage, rfl⟩ := hboot
  have hsized : Sized R := ⟨by rw [hR]; exact hP, by rw [hR]; exact hsmall⟩
  obtain ⟨w₂, w₃, hreplay, hcheckpoint, rfl⟩ := open_stages hpager hrun
  have hopening : Opening R (fun _ => none) (emptyMeta config.pageSizeBytes) [] [] content
      (emptyContent config.pageSizeBytes) (withMeta { DB.handle config emptyDirectory power with
        pager := { (DB.handle config emptyDirectory power).pager with isOpen := true } } power₁
          ⟨content, content⟩ (emptyMeta config.pageSizeBytes) false) :=
    { anchor := anchor_empty hR hP himage
      data := rfl
      log := .missing
      replacedWal := rfl
      pager := rfl
      metaPage := rfl
      pageSize := hR.symm
      freelist := rfl
      wal := rfl
      cache := rfl }
  obtain ⟨C, hdone⟩ := hopening.replayed hreplay
  obtain ⟨m, halive, -⟩ := hdone.alive.checkpoint hsized hcheckpoint
  exact ⟨hsized, rfl, C, _, halive.congr rfl rfl rfl rfl⟩

/-! ## Lives refine the map -/

theorem Call.within_plain {P : ℕ} (c : Call) : c.Within (plainRegime P) := by
  cases c with
  | put key value => exact within_plainRegime (.insert key value 0)
  | _ => trivial

theorem LifeEvent.within_plain {P : ℕ} (e : LifeEvent) : e.Within (plainRegime P) := by
  cases e with
  | answered c answer => exact c.within_plain
  | failed c => exact c.within_plain
  | _ => trivial

/-- What is done to a database.  What a machine that stops has not fsynced is lost here. -/
inductive Move where
  | open_ (power : Option ℕ)
  | call (c : Call)
  | kill
  | close

/-- An `open` that stops while it replays the log. -/
def stopsInReplay (config : Config) (disk : Disk) (power : Option ℕ) : Bool :=
  match Pager.open_ (DB.handle config disk power) with
  | .error _ _ => false
  | .ok _ w₁ =>
      match WAL.open_ w₁ with
      | .error _ _ => false
      | .ok _ w₂ =>
          match DB.replayPhase w₂ with
          | .error .powerLoss _ => true
          | _ => false

theorem not_openTorn_of_stopsInReplay (h : stopsInReplay config disk power = true) :
    ¬ OpenTorn config disk power := by
  rintro ⟨w₁, w₂, hpager, hwal, hstop⟩
  simp only [stopsInReplay, hpager, hwal] at h
  split at h
  · rename_i w₃ hphase
    rcases hstop with ⟨w₄, hreturned, -⟩ | ⟨e, w₄, hne, hrecover⟩
    · cases hphase.symm.trans hreturned
    · cases (run_bind_error hphase : DB.recover w₂ = _).symm.trans hrecover
      exact hne rfl
  · cases h

/-- A `put` that stops behind its first automatic checkpoint, for which it was not time yet. -/
def stopsInPut (key value : Bytes) (w : World) : Bool :=
  match DB.shouldCheckpoint w, DB.logAndInsert key value w with
  | .ok false _, .error _ _ => true
  | _, _ => false

theorem not_torn_of_stopsInPut {key value : Bytes} (h : stopsInPut key value w = true) :
    ¬ (Call.put key value).Torn w := by
  unfold stopsInPut at h
  split at h
  · rename_i u e w₁ hshould hchange
    obtain rfl := shouldCheckpoint_eq hshould
    rintro (⟨htrue, -⟩ | ⟨w₂, w₃, hfirst, hreturned, -⟩)
    · cases hshould.symm.trans htrue
    · cases (run_bind_ok hshould : DB.maybeCheckpoint u = _).symm.trans hfirst
      cases hchange.symm.trans hreturned
  · cases h

/-- What comes of an `open`, of a call and of a `close`, if that is a step of a life. -/
def playOpen (config : Config) (power : Option ℕ) (disk : Disk) : Option (LifeEvent × Site) :=
  match DB.open_ (DB.handle config disk power) with
  | .ok _ w => some (.opened, .running w)
  | .error .powerLoss w =>
      if stopsInReplay config disk power then some (.openFailed, .files w.disk.rolledBack) else none
  | .error _ _ => none

def playCall (c : Call) (w : World) : Option (LifeEvent × Site) :=
  match c.run w, c with
  | .ok answer w', _ => some (.answered c answer, .running w')
  | .error _ w', .put key value =>
      if stopsInPut key value w then some (.failed c, .files w'.disk.rolledBack) else none
  | .error _ _, _ => none

def playClose (w : World) : Option (LifeEvent × Site) :=
  match DB.close w with
  | .ok _ w' => some (.closed, .files w'.disk)
  | .error _ _ => none

def Move.play (config : Config) : Move → Site → Option (LifeEvent × Site)
  | .open_ power, .files disk => playOpen config power disk
  | .call c, .running w => playCall c w
  | .kill, .running w => some (.killed, .files w.disk.rolledBack)
  | .close, .running w => playClose w
  | _, _ => none

def playAll (config : Config) : List Move → Site → Option (List LifeEvent × Site)
  | [], s => some ([], s)
  | m :: moves, s => do
      let (e, s') ← m.play config s
      let (es, s'') ← playAll config moves s'
      return (e :: es, s'')

theorem lifeStep_of_playOpen (hP : minPageSize ≤ config.pageSizeBytes) {s' : Site} {e : LifeEvent}
    (h : playOpen config power disk = some (e, s')) : LifeStep (.files disk) e s' := by
  unfold playOpen at h
  split at h
  · rename_i w hrun
    cases h
    exact .opened hP hrun
  · rename_i w hrun
    split_ifs at h with hstops
    cases h
    exact .openFailed hP hrun (not_openTorn_of_stopsInReplay hstops) (crash_rolledBack _)
  · cases h

theorem lifeStep_of_playCall {c : Call} {s' : Site} {e : LifeEvent}
    (h : playCall c w = some (e, s')) : LifeStep (.running w) e s' := by
  unfold playCall at h
  split at h
  · rename_i answer w' hrun
    cases h
    exact .answered hrun
  · rename_i w' key value hrun
    split_ifs at h with hstops
    cases h
    exact .failed hrun (not_torn_of_stopsInPut hstops) (crash_rolledBack _)
  · cases h

theorem lifeStep_of_playClose {s' : Site} {e : LifeEvent} (h : playClose w = some (e, s')) :
    LifeStep (.running w) e s' := by
  unfold playClose at h
  split at h
  · rename_i w' hrun
    cases h
    exact .closed hrun
  · cases h

theorem lifeStep_of_play (hP : minPageSize ≤ config.pageSizeBytes) {m : Move} {s s' : Site}
    {e : LifeEvent} (h : m.play config s = some (e, s')) : LifeStep s e s' := by
  cases m with
  | open_ power =>
      cases s with
      | running w => cases h
      | files disk => exact lifeStep_of_playOpen hP h
  | call c =>
      cases s with
      | files disk => cases h
      | running w => exact lifeStep_of_playCall h
  | kill =>
      cases s with
      | files disk => cases h
      | running w =>
          cases h
          exact .killed (crash_rolledBack _)
  | close =>
      cases s with
      | files disk => cases h
      | running w => exact lifeStep_of_playClose h

theorem run_of_playAll (hP : minPageSize ≤ config.pageSizeBytes) {moves : List Move}
    {s s' : Site} (h : playAll config moves s = some (es, s')) : Run LifeStep s es s' := by
  induction moves generalizing s es with
  | nil =>
      cases h
      exact .nil _
  | cons m moves ih =>
      obtain ⟨⟨e, s₁⟩, hplay, hrest⟩ := Option.bind_eq_some_iff.mp h
      obtain ⟨⟨es', s₂⟩, hmoves, hpure⟩ := Option.bind_eq_some_iff.mp hrest
      cases hpure
      exact .cons (lifeStep_of_play hP hplay) (ih hmoves)

/-- A database that was created on a machine with the given power, and lives through the moves
with these events, up to a site that passes a test. -/
def livesThrough (config : Config) (power : Option ℕ) (moves : List Move) (es : List LifeEvent)
    (test : Site → Bool) : Bool :=
  match DB.open_ (DB.handle config emptyDirectory power) with
  | .ok _ w =>
      match playAll config moves (.running w) with
      | some (es', s) => decide (es' = es) && test s
      | none => false
  | .error _ _ => false

/-- A test of the process in the directory. -/
def Site.passes (test : World → Bool) : Site → Bool
  | .running w => test w
  | .files _ => false

theorem exists_of_livesThrough {moves : List Move} {test : Site → Bool}
    (hP : minPageSize ≤ config.pageSizeBytes)
    (h : livesThrough config power moves es test = true) :
    ∃ w s, Created config w ∧ Run LifeStep (.running w) es s ∧ test s = true := by
  unfold livesThrough at h
  cases hopen : DB.open_ (DB.handle config emptyDirectory power) with
  | error e w =>
      rw [hopen] at h
      cases h
  | ok _ w =>
      simp only [hopen] at h
      cases hplay : playAll config moves (.running w) with
      | none =>
          rw [hplay] at h
          cases h
      | some result =>
          obtain ⟨es', s⟩ := result
          simp only [hplay, Bool.and_eq_true, decide_eq_true_eq] at h
          obtain ⟨rfl, htest⟩ := h
          exact ⟨w, s, ⟨hP, power, hopen⟩, run_of_playAll hP hplay, htest⟩

/-! ### Concrete lives -/

/-- Pages of 256 bytes, and a checkpoint when more than half of the pool is dirty. -/
def busyConfig : Config := ⟨256, 22, 100000, fun d capacity => decide (capacity < 2 * d)⟩

/-- A key of 22 bytes. -/
def longKey (b : ℕ) : Bytes := Fin.ofNat 256 b :: List.replicate 21 0

/-- A `put` of a record with such a key. -/
def longPut (b : ℕ) : Call := .put (longKey b) []

/-- A tree grows to three levels over an automatic checkpoint, until the machine stops in a
split, behind the record of the `put`.  The machine stops again while the log is replayed.
The process after that gets and deletes. -/
def busyLife : List LifeEvent :=
  (List.range 32).map (fun b => .answered (longPut b) .nothing) ++
    [.failed (longPut 32), .openFailed, .opened,
      .answered (.get (longKey 32)) (.value (some [])),
      .answered (.delete (longKey 3)) (.deleted true)]

def busyMoves : List Move :=
  (List.range 33).map (fun b => .call (longPut b)) ++
    [.open_ (some 3), .open_ (some 28), .call (.get (longKey 32)), .call (.delete (longKey 3))]

theorem minPageSize_le_busyConfig : minPageSize ≤ busyConfig.pageSizeBytes := by
  show minPageSize ≤ 256
  decide

/-- A run returns in a world that passes a test. -/
def returnsIn {α : Type} (test : World → Bool) : EStateM.Result Err World α → Bool
  | .ok _ w => test w
  | .error _ _ => false

theorem exists_of_returnsIn {α : Type} {test : World → Bool} {result : EStateM.Result Err World α}
    (h : returnsIn test result = true) : ∃ a w, result = .ok a w ∧ test w = true := by
  cases result with
  | ok a w => exact ⟨a, w, rfl, h⟩
  | error e w => cases h

/-- The format can hold the checkpoint of a recovery of the rolled back files. -/
def fitsAgain (config : Config) (w : World) : Bool :=
  match Pager.open_ (DB.handle config w.disk.rolledBack none) with
  | .error _ _ => true
  | .ok _ w₁ =>
      match openLogAndReplay w₁ with
      | .error _ _ => true
      | .ok _ w₂ => decide (w₂.wal.currentLsn + 1 < 256 ^ 8) &&
          match w₂.pager.metaPage with
          | none => true
          | some m => decide (m.nextPageId < 256 ^ 8)

theorem not_exhausted_of_fitsAgain (h : fitsAgain config w = true) :
    ¬ Exhausted config w.disk.rolledBack := by
  rintro ⟨w₁, w₂, hpager, hreplay, hnot⟩
  unfold fitsAgain at h
  simp only [hpager, hreplay, Bool.and_eq_true, decide_eq_true_eq] at h
  refine hnot ⟨h.1, fun m hm => ?_⟩
  have hnext := h.2
  rw [hm] at hnext
  exact of_decide_eq_true hnext

/-- The rolled back files are opened, and the counters are small. -/
def reopensSmall (w : World) : Bool :=
  returnsIn (fun w₁ => decide (w₁.wal.currentLsn < 100) &&
    w₁.pager.metaPage.all fun m => decide (m.nextPageId < 100))
    (DB.open_ (DB.handle busyConfig w.disk.rolledBack none))

/-- A checkpoint stops behind its record, and the files are opened again. -/
def stopsBehindRecord (w : World) : Bool :=
  match DB.checkpointBegin w with
  | .error _ _ => false
  | .ok lsn w₁ =>
      match DB.checkpointCommit lsn w₁ with
      | .ok _ _ => false
      | .error _ w₂ => fitsAgain busyConfig w₂ && reopensSmall w₂

/-- A descent passes two internal pages. -/
def descendsTwice (w : World) : Bool :=
  match BPlusTree.findLeaf (longKey 5) w with
  | .ok result _ => decide (result.path.length = 2)
  | .error _ _ => false

set_option maxRecDepth 100000 in
theorem exists_busyLife : ∃ w w₁, Created busyConfig w ∧
    Run LifeStep (.running w) busyLife (.running w₁) ∧ stopsBehindRecord w₁ = true ∧
      descendsTwice w₁ = true := by
  have hlives : livesThrough busyConfig (some 118) busyMoves busyLife (Site.passes fun w =>
      stopsBehindRecord w && descendsTwice w) = true := by
    decide +kernel
  obtain ⟨w, s, hcreated, hlife, htest⟩ := exists_of_livesThrough minPageSize_le_busyConfig hlives
  cases s with
  | files disk => cases htest
  | running w₁ =>
      obtain ⟨hstops, hdescends⟩ := (Bool.and_eq_true _ _).mp htest
      exact ⟨w, w₁, hcreated, hlife, hstops, hdescends⟩

/-- The files are opened, and the counters are small. -/
def OpensSmall (config : Config) (disk : Disk) : Prop :=
  ∃ w, DB.open_ (DB.handle config disk none) = .ok () w ∧ w.wal.currentLsn < 100 ∧
    ∀ m, w.pager.metaPage = some m → m.nextPageId < 100

theorem opensSmall_of_reopensSmall (h : reopensSmall w = true) :
    OpensSmall busyConfig w.disk.rolledBack := by
  obtain ⟨⟨⟩, w₁, hopen, htest⟩ := exists_of_returnsIn h
  simp only [Bool.and_eq_true, decide_eq_true_eq] at htest
  refine ⟨w₁, hopen, htest.1, fun m hm => ?_⟩
  have hnext := htest.2
  rw [hm, Option.all_some, decide_eq_true_eq] at hnext
  exact hnext

/-- The files that the last checkpoint of the life leaves. -/
theorem exists_lostLife : ∃ w w₁ w₂ lsn disk, Created busyConfig w ∧
    Run LifeStep (.running w) busyLife (.running w₁) ∧ DB.checkpointBegin w₁ = .ok lsn w₂ ∧
      disk = (final (DB.checkpointCommit lsn w₂)).disk.rolledBack ∧
      LifeStep (.running w₁) (.failed .checkpoint) (.files disk) ∧ ¬ Exhausted busyConfig disk ∧
      OpensSmall busyConfig disk := by
  obtain ⟨w, w₁, hcreated, hlife, hstops, -⟩ := exists_busyLife
  unfold stopsBehindRecord at hstops
  cases hbegin : DB.checkpointBegin w₁ with
  | error e w₂ =>
      rw [hbegin] at hstops
      cases hstops
  | ok lsn w₂ =>
      simp only [hbegin] at hstops
      cases hcommit : DB.checkpointCommit lsn w₂ with
      | ok _ w₃ =>
          rw [hcommit] at hstops
          cases hstops
      | error e w₃ =>
          simp only [hcommit] at hstops
          have hcheckpoint : DB.checkpoint w₁ = .error e w₃ := (run_bind_ok hbegin).trans hcommit
          have htorn : ¬ Call.Torn w₁ .checkpoint := by
            rintro ⟨e', w', hraised, -⟩
            cases hbegin.symm.trans hraised
          obtain ⟨hfits, hreopens⟩ := (Bool.and_eq_true _ _).mp hstops
          refine ⟨w, w₁, w₂, lsn, w₃.disk.rolledBack, hcreated, hlife, hbegin, ?_, ?_,
            not_exhausted_of_fitsAgain hfits, opensSmall_of_reopensSmall hreopens⟩
          · rw [hcommit, final_error]
          · exact .failed (run_bind_error hcheckpoint) htorn (crash_rolledBack _)

/-- The key of a `put` is short. -/
def LifeEvent.Short (P : ℕ) : LifeEvent → Prop
  | .answered (.put key _) _ => key.length ≤ shortKeyLength P
  | .failed (.put key _) => key.length ≤ shortKeyLength P
  | _ => True

theorem LifeEvent.Short.within {P : ℕ} (hP : 256 ≤ P) {e : LifeEvent} (h : e.Short P) :
    e.Within (fullRegime P hP) := by
  cases e with
  | answered c answer =>
      cases c with
      | put key value => exact fun _ => h
      | _ => trivial
  | failed c =>
      cases c with
      | put key value => exact fun _ => h
      | _ => trivial
  | _ => trivial

end BPTreeDB.Runs
