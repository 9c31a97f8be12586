import BPTreeDB.Engine.Fetching
import BPTreeDB.Engine.Overwriting
import BPTreeDB.Runs.Recovering

/-!
# Calls that are interrupted

A call of a running process returns, or it stops in an exception; the exception `powerLoss`
means that the machine has stopped.  If the process then ends without a `close`, the files
hold the map before the call or the map after it.

There is one window in which this is not so, and which is left out here: between the first
page that a checkpoint changes in place and its CHECKPOINT record.  `CheckpointTorn` says that
a call stops there.

The stages of a call are taken one by one.  Reads change nothing on disk.  An append leaves
the record in the log or not; once it is there the tree may fail half way, because nothing it
changes is written before the next checkpoint.  A checkpoint that stops behind its record
leaves settled files.
-/

namespace BPTreeDB.Runs

open Lib Eng Codec Lib.Program PageStore Engine DB WAL

variable {R : Regime} {L H lsn : ℕ} {T : Tree H} {M M' : KeyMap} {C C' : Content} {w w' : World}
  {disk disk' : Disk} {r : WALRecord} {rs : List WALRecord} {m : MetaPage} {key value : Bytes}
  {o : Option Content} {e : Err}

/-! ## The window of a checkpoint -/

/-- A checkpoint that has changed the data file, and stops before its CHECKPOINT record is
durable. -/
def CheckpointTorn (w : World) : Prop :=
  ∃ e w', DB.checkpointBegin w = .error e w' ∧ dataContent w' ≠ dataContent w

/-- An automatic checkpoint that stops there. -/
def MaybeTorn (w : World) : Prop := DB.shouldCheckpoint w = .ok true w ∧ CheckpointTorn w

/-- A change of the tree that stops in one of the two automatic checkpoints around it. -/
def ChangeTorn (change : Eng Unit) (w : World) : Prop :=
  MaybeTorn w ∨ ∃ w₁ w₂, DB.maybeCheckpoint w = .ok () w₁ ∧ change w₁ = .ok () w₂ ∧ MaybeTorn w₂

/-- A call that stops inside a checkpoint, before its record is durable. -/
def Call.Torn (w : World) : Call → Prop
  | .put key value => ChangeTorn (DB.logAndInsert key value) w
  | .delete key => ∃ value w₁, BPlusTree.search key w = .ok (some value) w₁ ∧
      ChangeTorn (DB.logAndDelete key) w₁
  | .checkpoint => CheckpointTorn w
  | _ => False

/-- The files hold the map `M`, with LSNs of at least `lsn`.  `o` has the pages that follow
from them, if the logged operations can be re-executed. -/
def Leaves (R : Regime) (lsn : ℕ) (M : KeyMap) (o : Option Content) (disk : Disk) : Prop :=
  ∃ rs, Recoverable R M o rs disk ∧ lsn ≤ lastLsn rs

/-- What an interrupted change leaves: the files hold the map before it or the map after it.
In the second case it may be impossible to re-execute, if rebalancing may get stuck. -/
inductive Interrupted (R : Regime) (lsn : ℕ) (M M' : KeyMap) (disk : Disk) : Prop
  | before {C : Content} : Leaves R lsn M (some C) disk → Interrupted R lsn M M' disk
  | after {C : Content} : Leaves R lsn M' (some C) disk → Interrupted R lsn M M' disk
  | jammed : Leaves R lsn M' none disk → Jams R → Interrupted R lsn M M' disk

theorem Interrupted.mono {lsn' : ℕ} {M M' : KeyMap} {disk : Disk}
    (h : Interrupted R lsn M M' disk) (hle : lsn' ≤ lsn) : Interrupted R lsn' M M' disk := by
  have hmono : ∀ {M : KeyMap} {o : Option Content}, Leaves R lsn M o disk →
      Leaves R lsn' M o disk := by
    rintro M o ⟨rs, hrecoverable, hlast⟩
    exact ⟨rs, hrecoverable, hle.trans hlast⟩
  cases h with
  | before h => exact .before (hmono h)
  | after h => exact .after (hmono h)
  | jammed h hjams => exact .jammed (hmono h) hjams

theorem SettledFiles.leaves (h : SettledFiles R M C lsn disk) : Leaves R lsn M (some C) disk := by
  obtain ⟨rs, hrecoverable, hlast⟩ := h.recoverable
  exact ⟨rs, hrecoverable, le_of_eq hlast.symm⟩

theorem Leaves.mono {lsn' : ℕ} (h : Leaves R lsn M o disk) (hle : lsn' ≤ lsn) :
    Leaves R lsn' M o disk := by
  obtain ⟨rs, hrecoverable, hlast⟩ := h
  exact ⟨rs, hrecoverable, hle.trans hlast⟩

/-- A crash between two calls of the file system. -/
theorem Alive.crash (h : Alive R M C rs w) (hcrash : Crash w.disk disk') :
    Leaves R w.wal.currentLsn M (some C) disk' :=
  ⟨rs, h.anchored.crash hcrash, le_of_eq h.anchored.lsn⟩

/-! ## Reading -/

theorem Alive.checkpointLsn_of_eq (h : Alive R M C rs w)
    (hmeta : w'.pager.metaPage.map (·.lastCheckpointLsn) =
      w.pager.metaPage.map (·.lastCheckpointLsn))
    (hlsn : w.wal.currentLsn ≤ w'.wal.currentLsn) :
    ∀ m, w'.pager.metaPage = some m → m.lastCheckpointLsn ≤ w'.wal.currentLsn := by
  intro m' hm'
  rw [hm', Option.map_some] at hmeta
  obtain ⟨m, hm, hsame⟩ := Option.map_eq_some_iff.mp hmeta.symm
  have := h.checkpointLsn m hm
  omega

/-- An operation of the tree that keeps the content. -/
theorem Alive.of_noSteal (h : Alive R M C rs w) (hsteal : NoSteal w w')
    (hholds : ∃ (H : ℕ) (T : Tree H), Holding R w.wal.currentLsn M C T w') :
    Alive R M C rs w' := by
  have hwal : w'.wal = w.wal := congrArg Frozen.wal hsteal.frozen
  refine ⟨?_, h.anchored.of_noSteal hsteal, ?_, h.checkpointLsn_of_eq ?_ ?_⟩
  · rw [hwal]
    exact hholds
  · rw [hwal]
    exact h.isOpen
  · exact NoSteal.checkpointLsn hsteal
  · rw [hwal]

theorem Alive.search (h : Alive R M C rs w) {found : Option Bytes}
    (hrun : BPlusTree.search key w = .ok found w') : found = M key ∧ Alive R M C rs w' := by
  have hsteal := (noSteal_steps.search key).ok hrun
  obtain ⟨H, T, hholding⟩ := h.stands
  rcases hholding.search (looseMode_allows (C := C)) le_rfl key with
    ⟨w₁, S, hengine, -, hcontent, hdone⟩ | ⟨e, w₁, hengine, -⟩
  · rw [hengine] at hrun
    cases hrun
    exact ⟨rfl, h.of_noSteal hsteal (hcontent ▸ hdone.holding)⟩
  · rw [hengine] at hrun
    cases hrun

theorem Alive.scan (h : Alive R M C rs w) {start stop : Option Bytes}
    {pairs : List (Bytes × Bytes)} (hrun : BPlusTree.scan start stop w = .ok pairs w') :
    ListsRange M start stop pairs ∧ Alive R M C rs w' := by
  have hsteal := (noSteal_steps.scan start stop).ok hrun
  obtain ⟨H, T, hholding⟩ := h.stands
  rcases hholding.scan start stop with ⟨w₁, hengine, hholding'⟩ | ⟨e, w₁, hengine, -⟩
  · rw [hengine] at hrun
    cases hrun
    exact ⟨Holding.listsRange hholding start stop, h.of_noSteal hsteal ⟨H, T, hholding'⟩⟩
  · rw [hengine] at hrun
    cases hrun

/-- A crash in a program that only reads. -/
theorem Alive.crash_of_noSteal (h : Alive R M C rs w) (hsteal : NoSteal w w')
    (hcrash : Crash w'.disk disk') : Leaves R w.wal.currentLsn M (some C) disk' :=
  ⟨rs, (h.anchored.of_noSteal hsteal).crash hcrash, le_of_eq h.anchored.lsn⟩

/-- A call that raises before it logs or changes anything: a read, or a `delete` that could not
look for its key. -/
def Call.RaisesEarly (w : World) : Call → Prop
  | .get _ => True
  | .scan _ _ => True
  | .delete key => ∃ e w', BPlusTree.search key w = .error e w'
  | _ => False

/-- A program that only reads may raise, and the process has lost nothing. -/
theorem Alive.of_reads {α : Type} {x : Eng α} (h : Alive R M C rs w) (hsteal : Keeps NoSteal x)
    {Q : α → World → Prop} (hreads : ReadSpec C w Q (x w)) : Alive R M C rs (final (x w)) := by
  obtain ⟨H, T, hholding⟩ := h.stands
  refine h.of_noSteal (hsteal w) ⟨H, T, hholding.of_quiet ?_⟩
  cases hrun : x w with
  | ok a w' =>
      rw [hrun] at hreads
      exact hreads.1.quiet
  | error e w' =>
      rw [hrun] at hreads
      exact hreads.1.quiet

/-! ## Checkpoints -/

theorem shouldCheckpoint_eq {b : Bool} (hrun : DB.shouldCheckpoint w = .ok b w') : w' = w :=
  ((keeps_shouldCheckpoint (R := Eq)).ok hrun).symm

/-- After a checkpoint there is nothing to write, and the data file is fsynced. -/
structure Written (w w' : World) : Prop where
  data : ∃ content, w'.disk.data = some ⟨content, content⟩
  freelist : w'.pager.dirtyFreelistPageIds = []
  metaPage : w'.pager.isMetaDirty = false
  pool : w'.pool.dirtyCount = 0
  setup : SameSetup w w'

/-- After a checkpoint the data file holds the pages, and the log its record alone. -/
theorem Alive.checkpoint (hR : Sized R) (h : Alive R M C rs w)
    (hrun : DB.checkpoint w = .ok () w') : ∃ m, Alive R M C [checkpointRecord m
      (w.wal.currentLsn + 1)] w' ∧ w'.isOpened = w.isOpened ∧ Written w w' := by
  obtain ⟨H, T, hholding⟩ := h.stands
  obtain ⟨m, hm, -⟩ := h.metaPage
  have hlog := h.anchored.logOf h.isOpen
  have hlarge : minPageSize ≤ C.pageSize := by
    rw [hholding.pageSize]
    exact hR.large
  have hdone := checkpoint_done (hR.storable hholding) hlarge hholding.quiet hm hlog hrun
  have hencodable := hdone.encodable
  have hquiet := hdone.quiet
  obtain ⟨power, content, cache, hpower, rfl, himage, hclean, -⟩ := hdone.eq
  set lsn := w.wal.currentLsn + 1 with hlsn
  have hmap : HoldsMap R lsn M C := h.holdsMap.mono (Nat.le_succ _)
  have hread : Readable [checkpointRecord m lsn] := by
    refine ⟨by simpa using hencodable, lsn - 1, ?_, trivial⟩
    show lsn = lsn - 1 + 1
    omega
  have hanchor : Anchor R M (checkpointMeta m lsn) [checkpointRecord m lsn] content C :=
    anchor_of_image himage hread (within_checkpointRecord m lsn) rfl hmap
  have hskip : ∀ r ∈ [checkpointRecord m lsn],
      r.lsn ≤ (repairedMeta (checkpointMeta m lsn) [checkpointRecord m lsn]).lastCheckpointLsn := by
    intro r hr
    rw [List.mem_singleton.mp hr]
    exact le_repairedMeta (m := checkpointMeta m lsn)
  have hdurable : Durable R M (some C) [checkpointRecord m lsn] content :=
    ⟨M, _, C, hanchor, (restored_skip hskip).symm, (redone_skip hskip).symm⟩
  refine ⟨m, ⟨⟨H, T, ?_⟩, ⟨⟨content, 0, ?_, hdurable⟩, ?_, rfl, rfl⟩, rfl, fun m' hm' => ?_⟩, rfl,
    ⟨⟨content, rfl⟩, rfl, rfl, ?_, rfl, rfl, hpower⟩⟩
  · exact (hholding.of_quiet hquiet).mono (Nat.le_succ _)
  · rw [grownFile, List.replicate_zero, List.append_nil]
    rfl
  · rw [logBytes_cons, logBytes_nil, List.append_nil]
    rfl
  · obtain rfl := Option.some.inj hm'
    exact le_rfl
  · exact List.countP_eq_zero.mpr fun e he => by simp [hclean e he]

/-- An automatic checkpoint that returned. -/
theorem Alive.maybeCheckpoint (hR : Sized R) (h : Alive R M C rs w)
    (hrun : DB.maybeCheckpoint w = .ok () w') :
    ∃ rs', Alive R M C rs' w' ∧ w'.isOpened = w.isOpened ∧
      w.wal.currentLsn ≤ w'.wal.currentLsn := by
  obtain ⟨b, w₁, hshould, hrest⟩ := bind_eq_ok.mp hrun
  obtain rfl := shouldCheckpoint_eq hshould
  cases b with
  | false =>
      cases hrest
      exact ⟨rs, h, rfl, le_rfl⟩
  | true =>
      obtain ⟨m, h', hopened, -⟩ := h.checkpoint hR hrest
      refine ⟨_, h', hopened, ?_⟩
      rw [h'.anchored.lsn]
      exact Nat.le_succ _

/-! ### Checkpoints that stop before their record is durable -/

theorem leaves_of_durable {bytes : Bytes} {o : Option Content}
    (hdata : disk'.data = some ⟨bytes, bytes⟩) (hlog : ∃ part, LogOnDisk disk'.wal rs part)
    (hreplaced : disk'.replacedWal = none) (hdurable : Durable R M o rs bytes) :
    Leaves R (lastLsn rs) M o disk' := by
  obtain ⟨part, hlog⟩ := hlog
  exact ⟨rs, ⟨⟨part, bytes, hdata, hlog, hdurable⟩, hreplaced⟩, le_rfl⟩

/-- The pages are durable, and the record of the checkpoint is appended: the log is read with it
or without it. -/
theorem leaves_of_appended (hdata : disk'.data = some ⟨content, content⟩)
    (hlog : Survivor (some (appendedFile ⟨logBytes rs, logBytes rs⟩ r)) disk'.wal)
    (hreplaced : disk'.replacedWal = none) (hencodable : WalEncodable r)
    (hlost : Durable R M (some C') rs content) (hlsn : r.lsn = lastLsn rs + 1)
    (hlogged : ∃ m₀, Anchor R M m₀ (rs ++ [r]) content C ∧
      (repairedMeta m₀ (rs ++ [r])).lastCheckpointLsn = r.lsn) :
    ∃ C', Leaves R (lastLsn rs) M (some C') disk' := by
  cases hfile : disk'.wal with
  | none =>
      rw [hfile] at hlog
      cases hlog
  | some file =>
      rw [hfile] at hlog
      cases hlog with
      | left hbytes =>
          obtain rfl | ⟨part, hpart, rfl⟩ := survives_appended hencodable hbytes
          · obtain ⟨m₀, hanchor, hcheckpoint⟩ := hlogged
            have hsettled : SettledFiles R M C r.lsn disk' := by
              refine ⟨⟨rs ++ [r], [], content, m₀, hdata, ?_, hanchor, hcheckpoint,
                lastLsn_append _ _⟩, hreplaced⟩
              rw [hfile]
              exact logOnDisk_of_records _
            exact ⟨C, hsettled.leaves.mono (by omega)⟩
          · refine ⟨C', leaves_of_durable hdata ⟨part, ?_⟩ hreplaced hlost⟩
            rw [hfile]
            exact .file hpart

/-- A checkpoint that stops when its pages are durable, and its record is not. -/
theorem Alive.crash_of_logging {power : Option ℕ} {content : Bytes}
    {cache : List (ℕ × CachedPage)} (hR : Sized R) (h : Alive R M C rs w)
    (hp : Persisted C m w power content cache) (hfile : w'.disk.data = some ⟨content, content⟩)
    (hwal : w'.disk.wal = some ⟨logBytes rs, logBytes rs⟩ ∨
      WalEncodable (checkpointRecord m (w.wal.currentLsn + 1)) ∧ w'.disk.wal =
        some (appendedFile ⟨logBytes rs, logBytes rs⟩ (checkpointRecord m (w.wal.currentLsn + 1))))
    (hreplaced : w'.disk.replacedWal = w.disk.replacedWal)
    (hold : Durable R M (some C') rs content) (hcrash : Crash w'.disk disk') :
    ∃ C', Leaves R w.wal.currentLsn M (some C') disk' := by
  obtain ⟨content₀, n, hdata, M₀, m₀, C₀, hanchor₀, -⟩ := h.anchored.data
  obtain ⟨H, T, hholding⟩ := h.stands
  have hsize : w.pager.pageSizeBytes = R.pageSize :=
    hholding.quiet.pageSize.trans hholding.pageSize
  have hlsn := h.anchored.lsn
  have hmap := h.holdsMap
  rw [hlsn] at hmap ⊢
  have hsurvivor := hcrash.data
  rw [hfile] at hsurvivor
  obtain ⟨M₁, m₁, C₁, hanchor₁, -⟩ := id hold
  have hdata' := hanchor₁.survivor_eq hsurvivor
  have hlog := hcrash.wal_survivor (hreplaced.trans h.anchored.replacedWal)
  rcases hwal with hwal | ⟨hencodable, hwal⟩
  · rw [hwal] at hlog
    refine ⟨C', leaves_of_durable hdata' ⟨[], ?_⟩ hcrash.replacedWal hold⟩
    rw [hlog.of_durable]
    exact logOnDisk_of_records rs
  · rw [hwal] at hlog
    have hmeta := metaKept hR hp hdata hsize hanchor₀
    have hnext : w.wal.currentLsn + 1 = lastLsn rs + 1 := by rw [hlsn]
    exact leaves_of_appended hdata' hlog hcrash.replacedWal hencodable hold hnext
      ⟨m₀, hanchor₀.checkpoint hmeta hencodable hnext hp.fields hp.pagesOn (hmap.mono (by omega))⟩

/-- A checkpoint that stops before its record is durable loses nothing if it has not changed the
data file. -/
theorem Alive.crash_of_begin (hR : Sized R) (h : Alive R M C rs w)
    (hbegin : DB.checkpointBegin w = .error e w') (hsame : dataContent w' = dataContent w)
    (hcrash : Crash w'.disk disk') : ∃ C', Leaves R w.wal.currentLsn M (some C') disk' := by
  obtain ⟨content₀, n, hdata, hdurable⟩ := h.anchored.data
  have hcontent : dataContent w = content₀ ++ List.replicate n 0 := by
    simp [dataContent, hdata, grownFile]
  obtain ⟨H, T, hholding⟩ := h.stands
  obtain ⟨m, hm, -⟩ := h.metaPage
  cases checkpointBegin_fails (hR.storable hholding) hholding.quiet hm h.isOpen h.anchored.log
    hbegin with
  | flushing hflushes hwritten =>
      obtain ⟨⟨power, content, cache, dirty, rfl⟩, -⟩ := hflushes
      have hfile : dataContent (flushedTo w power content cache dirty) = content := by
        simp [dataContent, flushedTo, hdata, grownFile, FileState.write]
      have hdisk : (flushedTo w power content cache dirty).disk = w.disk := by
        rw [hfile, hcontent] at hsame
        show { w.disk with data := w.disk.data.map (·.write content) } = w.disk
        rw [hsame, hdata]
        show { w.disk with data := some (grownFile content₀ n) } = w.disk
        rw [← hdata]
      rw [hdisk] at hcrash
      exact ⟨C, h.crash hcrash⟩
  | @logging power content cache hp hfile hwal hreplaced =>
      have hgrown : content = content₀ ++ List.replicate n 0 := by
        rw [← hcontent, ← hsame]
        simp [dataContent, hfile]
      have hold : Durable R M (some C) rs content := by
        rw [hgrown]
        exact hdurable.append _
      exact h.crash_of_logging hR hp hfile hwal hreplaced hold hcrash

/-- A checkpoint that fails in the state `w` loses nothing. -/
def Harmless (R : Regime) (w : World) : Prop :=
  ∀ M C rs e w' disk', Alive R M C rs w → DB.checkpoint w = .error e w' → Crash w'.disk disk' →
    ∃ C', Leaves R w.wal.currentLsn M (some C') disk'

theorem harmless_of_not_torn (hR : Sized R) (htorn : ¬ CheckpointTorn w) : Harmless R w := by
  intro M C rs e w' disk' h hrun hcrash
  rcases bind_eq_error.mp hrun with hbegin | ⟨lsn, w₁, hbegin, hcommit⟩
  · have hsame : dataContent w' = dataContent w := by
      by_contra hchanged
      exact htorn ⟨e, w', hbegin, hchanged⟩
    exact h.crash_of_begin hR hbegin hsame hcrash
  · -- Behind its record the checkpoint leaves settled files.
    have hfinal : Crash (final (DB.checkpointCommit lsn w₁)).disk disk' := by
      rw [hcommit]
      exact hcrash
    obtain ⟨rfl, hsettled⟩ := h.crash_of_commit hR hbegin hfinal
    exact ⟨C, hsettled.leaves.mono (Nat.le_succ _)⟩

/-- The automatic checkpoint loses nothing, if it is time for one. -/
def MaybeHarmless (R : Regime) (w : World) : Prop :=
  DB.shouldCheckpoint w = .ok true w → Harmless R w

theorem Alive.crash_of_maybeCheckpoint (h : Alive R M C rs w)
    (hrun : DB.maybeCheckpoint w = .error e w') (hharmless : MaybeHarmless R w)
    (hcrash : Crash w'.disk disk') : ∃ C', Leaves R w.wal.currentLsn M (some C') disk' := by
  rcases bind_eq_error.mp hrun with hshould | ⟨b, w₁, hshould, hrest⟩
  · have hsame : w = w' := (keeps_shouldCheckpoint (R := Eq)).error hshould
    rw [← hsame] at hcrash
    exact ⟨C, h.crash hcrash⟩
  · obtain rfl := shouldCheckpoint_eq hshould
    cases b with
    | false => cases hrest
    | true => exact hharmless hshould M C rs e w' disk' h hrest hcrash

/-! ## Changing the tree -/

theorem Anchored.of_onlyGrows (h : Anchored R M o rs w) (hgrows : OnlyGrows w w')
    (hlsn : w'.wal.currentLsn = w.wal.currentLsn) : Anchored R M o rs w' := by
  obtain ⟨content, n, hdata, hdurable⟩ := h.data
  obtain ⟨k, hgrow⟩ := hgrows.data
  refine ⟨⟨content, n + k, ?_, hdurable⟩, hgrows.log.trans h.log,
    hgrows.replacedWal.trans h.replacedWal, hlsn.trans h.lsn⟩
  rw [hgrow, hdata, Option.map_some, grow_grownFile]

theorem Anchored.crash_of_onlyGrows (h : Anchored R M o rs w) (hgrows : OnlyGrows w w')
    (hcrash : Crash w'.disk disk') : Recoverable R M o rs disk' := by
  have hreset := hgrows.trans (onlyGrows_withLsn w' w.wal.currentLsn)
  exact (h.of_onlyGrows hreset rfl).crash hcrash

/-- An insert of a record that fits can be executed, unless rebalancing gets stuck. -/
theorem jams_of_insert (h : Holding R L M C T w)
    (hfits : (calculateLeafRecordSize key value : ℤ) ≤ getMaxLeafRecordSize R.pageSize)
    (hwithin : (TreeCall.insert key value lsn).Within R)
    (hnone : (TreeCall.insert key value lsn).onContent C = none) : Jams R := by
  by_contra hjams
  have hmap := (holdsMap_of_holding h).mono (Nat.le_add_right L lsn)
  obtain ⟨C', hrun, -⟩ := hmap.insert hjams (Nat.le_add_left lsn L) hfits (hwithin hfits)
  cases hnone.symm.trans hrun

theorem jams_of_delete (h : Holding R L M C T w)
    (hnone : (TreeCall.delete key lsn).onContent C = none) : Jams R := by
  by_contra hjams
  have hmap := (holdsMap_of_holding h).mono (Nat.le_add_right L lsn)
  obtain ⟨C', hrun, -⟩ := hmap.delete hjams (Nat.le_add_left lsn L) key
  cases hnone.symm.trans hrun

/-- A program that logs the record `r` and then carries it out: what it does when it returns,
and what a crash leaves when it does not. -/
structure Carries (R : Regime) (M : KeyMap) (C : Content) (rs : List WALRecord) (r : WALRecord)
    (w : World) (result : EStateM.Result Err World Unit) : Prop where
  returned : ∀ w', result = .ok () w' → w'.isOpened = w.isOpened ∧
    ∃ C', recordOnContent r C = some C' ∧ Alive R (afterRecord M r) C' (rs ++ [r]) w'
  stopped : ∀ e w' disk', result = .error e w' → Crash w'.disk disk' →
    ((∀ lsn u, WAL.append r w ≠ .ok lsn u) ∧ Recoverable R M (some C) rs disk') ∨
      Recoverable R (afterRecord M r) (recordOnContent r C) (rs ++ [r]) disk'

/-- What the rest of a change does to the process when it returns. -/
def CarriesOut (R : Regime) (M : KeyMap) (C : Content) (r : WALRecord) (rest : Eng Unit) : Prop :=
  ∀ w w' : World, (∃ (H : ℕ) (T : Tree H), Holding R r.lsn M C T w) → rest w = .ok () w' →
    w'.wal = w.wal ∧ w'.isOpened = w.isOpened ∧ ∃ C', recordOnContent r C = some C' ∧
      ∃ (H' : ℕ) (T' : Tree H'), Holding R r.lsn (afterRecord M r) C' T' w'

/-- Once the record is in the log, the rest of the change writes nothing. -/
theorem carries_of_append {rest : ℕ → Eng Unit} (h : Alive R M C rs w) (hr : IsOperation r)
    (hwithin : RecordWithin R r) (hlsn : r.lsn = w.wal.currentLsn + 1)
    (hgrows : Keeps OnlyGrows (rest r.lsn)) (hrest : CarriesOut R M C r (rest r.lsn)) :
    Carries R M C rs r w ((WAL.append r >>= rest) w) := by
  have houtcome := h.anchored.append h.isOpen hr hwithin hlsn
  cases happend : WAL.append r w with
  | error e w₁ =>
      rw [happend] at houtcome
      rw [run_bind_error happend]
      refine ⟨?_, ?_⟩
      · intro w' hrun
        cases hrun
      · intro e' w' disk' hrun hcrash
        cases hrun
        refine (houtcome disk' hcrash).imp (fun hlost => ⟨fun lsn u hreturned => ?_, hlost⟩) id
        cases happend.symm.trans hreturned
  | ok lsn w₁ =>
      rw [happend] at houtcome
      obtain ⟨rfl, ⟨hpager, hpool, hdata, hopened, hwal⟩, hanchored⟩ := houtcome
      rw [run_bind_ok happend]
      obtain ⟨H, T, hholding⟩ := h.stands
      have hholding₁ : Holding R r.lsn M C T w₁ :=
        Holding.congr (hholding.mono (by omega)) hpager hpool (by rw [hdata])
      have hlsn₁ : w₁.wal.currentLsn = r.lsn := by rw [hwal]
      -- The rest returns, or it stops; either way the files only grow, so the record stays in the
      -- log.
      refine ⟨fun w' hrun => ?_, fun e w' disk' hrun hcrash => ?_⟩
      · obtain ⟨hwal', hopened', C', hcontent, H', T', hholding'⟩ :=
          hrest w₁ w' ⟨H, T, hholding₁⟩ hrun
        have hgrow := hgrows.ok hrun
        refine ⟨hopened'.trans hopened, C', hcontent, ⟨H', T', ?_⟩, ?_, ?_,
          h.checkpointLsn_of_eq ?_ ?_⟩
        · rw [hwal', hlsn₁]
          exact hholding'
        · rw [← hcontent]
          exact hanchored.of_onlyGrows hgrow (by rw [hwal'])
        · rw [hwal', hwal]
          exact h.isOpen
        · rw [hgrow.checkpointLsn, hpager]
        · rw [hwal', hlsn₁, hlsn]
          exact Nat.le_succ _
      · exact .inr (hanchored.crash_of_onlyGrows (hgrows.error hrun) hcrash)

theorem onlyGrows_countVersion : Keeps OnlyGrows (modify fun w : World =>
    { w with versionCounter := w.versionCounter + 1 } : Eng Unit) := by
  apply keeps_modify
  intro w
  exact ⟨⟨0, by simp [grow_zero]⟩, rfl, rfl, rfl, rfl, rfl, rfl, rfl, rfl, id⟩

theorem keeps_onlyGrows {α : Type} {x : Eng α} (hx : Keeps NoSteal x) : Keeps OnlyGrows x :=
  fun w => .of_noSteal (hx w)

/-- The second stage of a `put`. -/
theorem Alive.carries_put (h : Alive R M C rs w)
    (hwithin : RecordWithin R (.put (w.wal.currentLsn + 1) key value)) :
    Carries R M C rs (.put (w.wal.currentLsn + 1) key value) w (DB.logAndInsert key value w) := by
  refine carries_of_append h trivial hwithin rfl ?_ ?_
  · exact (keeps_onlyGrows (noSteal_steps.treeInsert key value _)).bind
      fun _ => onlyGrows_countVersion
  · rintro w₁ w' ⟨H, T, hholding⟩ hrun
    obtain ⟨⟨⟩, w₂, hinsert, hcount⟩ := bind_eq_ok.mp hrun
    cases hcount
    have hsteal := (noSteal_steps.treeInsert key value _).ok hinsert
    obtain ⟨C', hcontent, H', T', hholding'⟩ :=
      (insert_applied hholding le_rfl hwithin hinsert).content
    exact ⟨congrArg Frozen.wal hsteal.frozen, congrArg Frozen.isOpened hsteal.frozen, C', hcontent,
      H', T', Holding.congr hholding' rfl rfl rfl⟩

/-- The second stage of a `delete`. -/
theorem Alive.carries_delete (h : Alive R M C rs w) :
    Carries R M C rs (.delete (w.wal.currentLsn + 1) key) w (DB.logAndDelete key w) := by
  refine carries_of_append h trivial trivial rfl ?_ ?_
  · refine (keeps_onlyGrows (noSteal_steps.treeDelete key _)).bind fun wasDeleted => ?_
    exact (keeps_assert _ _).bind fun _ => onlyGrows_countVersion
  · rintro w₁ w' ⟨H, T, hholding⟩ hrun
    obtain ⟨wasDeleted, w₂, hdelete, hrest⟩ := bind_eq_ok.mp hrun
    obtain ⟨⟨⟩, w₃, hassert, hcount⟩ := bind_eq_ok.mp hrest
    obtain rfl := (keeps_assert (R := Eq) _ _).ok hassert
    cases hcount
    have hsteal := (noSteal_steps.treeDelete key _).ok hdelete
    obtain ⟨C', hcontent, H', T', hholding'⟩ := (delete_applied hholding le_rfl hdelete).2.content
    exact ⟨congrArg Frozen.wal hsteal.frozen, congrArg Frozen.isOpened hsteal.frozen, C', hcontent,
      H', T', Holding.congr hholding' rfl rfl rfl⟩

/-! ## Whole calls -/

/-- The files of a change that was stopped. -/
theorem Carries.interrupted {result : EStateM.Result Err World Unit}
    (h : Carries R M C rs r w result) (hlsn : lastLsn rs < r.lsn)
    (hjams : recordOnContent r C = none → Jams R) (hresult : result = .error e w')
    (hcrash : Crash w'.disk disk') :
    Interrupted R (lastLsn rs) M (afterRecord M r) disk' := by
  rcases h.stopped e w' disk' hresult hcrash with ⟨-, hlost⟩ | hlogged
  · exact .before ⟨rs, hlost, le_rfl⟩
  · have hle : lastLsn rs ≤ lastLsn (rs ++ [r]) := by
      rw [lastLsn_append]
      exact le_of_lt hlsn
    cases hcontent : recordOnContent r C with
    | none =>
        rw [hcontent] at hlogged
        exact .jammed ⟨_, hlogged, hle⟩ (hjams hcontent)
    | some C' =>
        rw [hcontent] at hlogged
        exact .after ⟨_, hlogged, hle⟩

/-- A change with an automatic checkpoint before and behind it. -/
def betweenCheckpoints (change : Eng Unit) : Eng Unit := do
  DB.maybeCheckpoint
  change
  DB.maybeCheckpoint

/-- What is asked of the change: it carries out a record with the next LSN. -/
def Changing (R : Regime) (M M' : KeyMap) (change : Eng Unit) : Prop :=
  ∀ {C rs w}, Alive R M C rs w → ∃ r, r.lsn = w.wal.currentLsn + 1 ∧ afterRecord M r = M' ∧
    (recordOnContent r C = none → Jams R) ∧ Carries R M C rs r w (change w)

variable {change : Eng Unit}

theorem Alive.of_change (hR : Sized R) (h : Alive R M C rs w) (hchange : Changing R M M' change)
    (hrun : betweenCheckpoints change w = .ok () w') : w'.isOpened = w.isOpened ∧
      w.wal.currentLsn < w'.wal.currentLsn ∧ ∃ C' rs', Alive R M' C' rs' w' := by
  obtain ⟨_, w₁, hfirst, hrest⟩ := bind_eq_ok.mp hrun
  obtain ⟨_, w₂, hmiddle, hlast⟩ := bind_eq_ok.mp hrest
  obtain ⟨rs₁, h₁, hopened₁, hlsn₁⟩ := h.maybeCheckpoint hR hfirst
  obtain ⟨r, hr, rfl, -, hcarries⟩ := hchange h₁
  obtain ⟨hopened₂, C', -, h₂⟩ := hcarries.returned w₂ hmiddle
  obtain ⟨rs', h', hopened', hlsn'⟩ := h₂.maybeCheckpoint hR hlast
  have hlsn₂ : w₂.wal.currentLsn = r.lsn := h₂.anchored.lsn.trans (lastLsn_append _ _)
  refine ⟨hopened'.trans (hopened₂.trans hopened₁), by omega, C', rs', h'⟩

/-- The automatic checkpoints around a change lose nothing. -/
def ChangeHarmless (R : Regime) (change : Eng Unit) (w : World) : Prop :=
  MaybeHarmless R w ∧ ∀ w₁ w₂, DB.maybeCheckpoint w = .ok () w₁ → change w₁ = .ok () w₂ →
    MaybeHarmless R w₂

theorem Alive.crash_of_change (hR : Sized R) (h : Alive R M C rs w)
    (hchange : Changing R M M' change) (hrun : betweenCheckpoints change w = .error e w')
    (hharmless : ChangeHarmless R change w) (hcrash : Crash w'.disk disk') :
    Interrupted R w.wal.currentLsn M M' disk' := by
  rcases bind_eq_error.mp hrun with hfirst | ⟨_, w₁, hfirst, hrest⟩
  · obtain ⟨C', hleaves⟩ := h.crash_of_maybeCheckpoint hfirst hharmless.1 hcrash
    exact .before hleaves
  obtain ⟨rs₁, h₁, -, hlsn₁⟩ := h.maybeCheckpoint hR hfirst
  obtain ⟨r, hr, rfl, hjams, hcarries⟩ := hchange h₁
  have hlast₁ := h₁.anchored.lsn
  rcases bind_eq_error.mp hrest with hmiddle | ⟨_, w₂, hmiddle, hlast⟩
  · exact (hcarries.interrupted (by omega) hjams hmiddle hcrash).mono (by omega)
  · obtain ⟨-, C', -, h₂⟩ := hcarries.returned w₂ hmiddle
    have hlsn₂ : w₂.wal.currentLsn = r.lsn := h₂.anchored.lsn.trans (lastLsn_append _ _)
    obtain ⟨C'', hleaves⟩ :=
      h₂.crash_of_maybeCheckpoint hlast (hharmless.2 w₁ w₂ hfirst hmiddle) hcrash
    exact .after (hleaves.mono (by omega))

theorem changing_put (hfits : (calculateLeafRecordSize key value : ℤ) ≤
    getMaxLeafRecordSize R.pageSize) (hwithin : (TreeCall.insert key value 0).Within R) :
    Changing R M (Function.update M key (some value)) (DB.logAndInsert key value) := by
  intro C rs w h
  obtain ⟨H, T, hholding⟩ := h.stands
  exact ⟨.put (w.wal.currentLsn + 1) key value, rfl, rfl,
    jams_of_insert hholding hfits hwithin, h.carries_put hwithin⟩

theorem changing_delete :
    Changing R M (Function.update M key none) (DB.logAndDelete key) := by
  intro C rs w h
  obtain ⟨H, T, hholding⟩ := h.stands
  exact ⟨.delete (w.wal.currentLsn + 1) key, rfl, rfl, jams_of_delete hholding, h.carries_delete⟩

/-- The key of a `put` is within the cap of the regime. -/
def Call.Within (R : Regime) : Call → Prop
  | .put key value => (TreeCall.insert key value 0).Within R
  | _ => True

/-- A call that is logged: a `put`, a `delete` that found its key, or a checkpoint. -/
def Call.Logged (M : KeyMap) : Call → Prop
  | .put _ _ => True
  | .delete key => M key ≠ none
  | .checkpoint => True
  | _ => False

/-- A `put` whose record is not too large is a change of the tree. -/
theorem put_cases (key value : Bytes) (hopened : w.isOpened = true) (hq : Quiet w C) :
    (getMaxLeafRecordSize C.pageSize < calculateLeafRecordSize key value ∧
      ∃ e, DB.put (.bytes key) (.bytes value) w = .error e w) ∨
    ((calculateLeafRecordSize key value : ℤ) ≤ getMaxLeafRecordSize C.pageSize ∧
      DB.put (.bytes key) (.bytes value) w = betweenCheckpoints (DB.logAndInsert key value) w) := by
  have hcheck : DB.checkIfOpened w = .ok () w := by
    simp [DB.checkIfOpened, run_bind, hopened]
  have hput : DB.put (.bytes key) (.bytes value) w =
      (BPlusTree.raiseIfRecordTooLarge key value >>= fun _ =>
        betweenCheckpoints (DB.logAndInsert key value)) w := run_bind_ok hcheck
  have hsize := hq.raiseIfRecordTooLarge key value
  by_cases hlarge : getMaxLeafRecordSize C.pageSize < calculateLeafRecordSize key value
  · rw [if_pos hlarge] at hsize
    exact .inl ⟨hlarge, _, hput.trans (run_bind_error hsize)⟩
  · rw [if_neg hlarge] at hsize
    exact .inr ⟨not_lt.mp hlarge, hput.trans (run_bind_ok hsize)⟩

/-- A `delete` that has looked for its key. -/
theorem delete_eq (hopened : w.isOpened = true) :
    DB.delete (.bytes key) w = (BPlusTree.search key >>= fun found =>
      if found.isNone then pure false
      else betweenCheckpoints (DB.logAndDelete key) >>= fun _ => pure true) w := by
  have hcheck : DB.checkIfOpened w = .ok () w := by
    simp [DB.checkIfOpened, run_bind, hopened]
  refine (run_bind_ok hcheck).trans ?_
  simp only [DB.ensureBytesType, pure_bind, betweenCheckpoints, bind_assoc]

/-- A process that has returned from a call: it holds the map after the call. -/
structure Returned (R : Regime) (M : KeyMap) (w w' : World) (logged : Prop) : Prop where
  isOpened : w'.isOpened = w.isOpened
  alive : ∃ C rs, Alive R M C rs w'
  lsn : w.wal.currentLsn ≤ w'.wal.currentLsn
  logged : logged → w.wal.currentLsn < w'.wal.currentLsn

theorem Returned.of_noSteal (h : Alive R M C rs w') (hsteal : NoSteal w w') :
    Returned R M w w' False :=
  ⟨congrArg Frozen.isOpened hsteal.frozen, ⟨C, rs, h⟩,
    le_of_eq (congrArg (fun f => f.wal.currentLsn) hsteal.frozen).symm, fun h => h.elim⟩

/-- A call that returns answers as the map does, and leaves a process that holds the map after
the call. -/
theorem Alive.answer (hR : Sized R) (h : Alive R M C rs w) (hopened : w.isOpened = true) {c : Call}
    (hwithin : c.Within R) {answer : Answer} (hrun : c.run w = .ok answer w') :
    c.Answers M answer ∧ Returned R (c.after M) w w' (c.Logged M) := by
  obtain ⟨H, T, hholding⟩ := h.stands
  cases c with
  | put key value =>
      obtain ⟨_, w₁, hput, hpure⟩ := bind_eq_ok.mp hrun
      cases hpure
      rcases put_cases key value hopened hholding.quiet with ⟨-, e, hraise⟩ | ⟨hfits, hbetween⟩
      · cases hput.symm.trans hraise
      · rw [hholding.pageSize] at hfits
        obtain ⟨hsame, hlsn, halive⟩ :=
          h.of_change hR (changing_put hfits hwithin) (hbetween.symm.trans hput)
        exact ⟨rfl, hsame, halive, le_of_lt hlsn, fun _ => hlsn⟩
  | get key =>
      obtain ⟨found, w₁, hget, hpure⟩ := bind_eq_ok.mp hrun
      cases hpure
      obtain ⟨_, w₂, hcheck, hsearch⟩ := bind_eq_ok.mp hget
      obtain rfl := checkIfOpened_eq hcheck
      obtain ⟨rfl, h'⟩ := h.search (show BPlusTree.search key _ = _ from hsearch)
      exact ⟨rfl, .of_noSteal h' ((noSteal_steps.search key).ok hsearch)⟩
  | delete key =>
      obtain ⟨deleted, w₁, hdelete, hpure⟩ := bind_eq_ok.mp hrun
      cases hpure
      rw [delete_eq hopened] at hdelete
      obtain ⟨found, w₂, hsearch, hrest⟩ := bind_eq_ok.mp hdelete
      -- The search reads only: the two checkpoints and the change start in a process that still
      -- holds `M`.
      obtain ⟨rfl, h₂⟩ := h.search hsearch
      have hread : Returned R M w w₂ False :=
        .of_noSteal h₂ ((noSteal_steps.search key).ok hsearch)
      show Answer.deleted deleted = .deleted (M key).isSome ∧ _
      cases hkey : M key with
      | none =>
          rw [hkey] at hrest
          cases hrest
          -- An absent key: `delete` returns before anything is logged.
          have hsame : Function.update M key none = M := Function.update_eq_self_iff.mpr hkey.symm
          refine ⟨rfl, hread.isOpened, ?_, hread.lsn, fun hnot => absurd hkey hnot⟩
          show ∃ C rs, Alive R (Function.update M key none) C rs w'
          rw [hsame]
          exact hread.alive
      | some v =>
          rw [hkey] at hrest
          obtain ⟨_, w₃, hbetween, hpure⟩ := bind_eq_ok.mp
            (show (betweenCheckpoints (DB.logAndDelete key) >>= fun _ => pure true) w₂ = _ from
              hrest)
          cases hpure
          obtain ⟨hsame, hlsn, halive⟩ := h₂.of_change hR changing_delete hbetween
          have hle := hread.lsn
          exact ⟨rfl, hsame.trans hread.isOpened, halive, by omega, fun _ => by omega⟩
  | scan start stop =>
      obtain ⟨pairs, w₁, hscan, hpure⟩ := bind_eq_ok.mp hrun
      cases hpure
      obtain ⟨_, w₂, hcheck, hbounds⟩ := bind_eq_ok.mp hscan
      obtain rfl := checkIfOpened_eq hcheck
      -- `_ensure_bytes_type` lets a bound of type `bytes` through.
      rw [ensureBound_bytes, ensureBound_bytes, pure_bind, pure_bind] at hbounds
      obtain ⟨hlists, h'⟩ := h.scan hbounds
      exact ⟨⟨pairs, rfl, hlists⟩, .of_noSteal h' ((noSteal_steps.scan start stop).ok hbounds)⟩
  | checkpoint =>
      obtain ⟨_, w₁, hcheckpoint, hpure⟩ := bind_eq_ok.mp hrun
      cases hpure
      obtain ⟨m, h', hsame, -⟩ := h.checkpoint hR hcheckpoint
      have hlsn : w'.wal.currentLsn = w.wal.currentLsn + 1 := h'.anchored.lsn
      exact ⟨rfl, hsame, ⟨C, _, h'⟩, by omega, fun _ => by omega⟩

/-- The checkpoints of a call lose nothing where they fail. -/
def Call.Harmless (R : Regime) (w : World) : Call → Prop
  | .put key value => ChangeHarmless R (DB.logAndInsert key value) w
  | .delete key => ∀ value w₁, BPlusTree.search key w = .ok (some value) w₁ →
      ChangeHarmless R (DB.logAndDelete key) w₁
  | .checkpoint => Runs.Harmless R w
  | _ => True

theorem changeHarmless_of_not_torn (hR : Sized R) (htorn : ¬ ChangeTorn change w) :
    ChangeHarmless R change w := by
  constructor
  · exact fun hshould => harmless_of_not_torn hR fun ht => htorn (.inl ⟨hshould, ht⟩)
  · exact fun w₁ w₂ hfirst hmiddle hshould => harmless_of_not_torn hR fun ht =>
      htorn (.inr ⟨w₁, w₂, hfirst, hmiddle, hshould, ht⟩)

/-- A call that stops outside the window of a checkpoint loses nothing in one. -/
theorem Call.harmless_of_not_torn (hR : Sized R) {c : Call} (htorn : ¬ c.Torn w) :
    c.Harmless R w := by
  cases c with
  | put key value => exact changeHarmless_of_not_torn hR htorn
  | delete key =>
      exact fun value w₁ hsearch => changeHarmless_of_not_torn hR fun ht =>
        htorn ⟨value, w₁, hsearch, ht⟩
  | checkpoint => exact Runs.harmless_of_not_torn hR htorn
  | get key => trivial
  | scan start stop => trivial

/-- A process survives a call that raises early. -/
theorem Alive.raisesEarly (h : Alive R M C rs w) (hopened : w.isOpened = true) {c : Call}
    (hrun : c.run w = .error e w') (hearly : c.RaisesEarly w) :
    Alive R M C rs w' ∧ w'.isOpened = true ∧ w'.wal = w.wal := by
  obtain ⟨H, T, hholding⟩ := h.stands
  have hcheck : DB.checkIfOpened w = .ok () w := by
    simp [DB.checkIfOpened, run_bind, hopened]
  have hsteal : ∀ {α : Type} {x : Eng α}, Keeps NoSteal x → x w = .error e w' →
      w'.isOpened = true ∧ w'.wal = w.wal := fun hx hrun =>
    ⟨(NoSteal.isOpened (hx.error hrun)).trans hopened, congrArg Frozen.wal (hx.error hrun).frozen⟩
  have hsearch : ∀ {key : Bytes}, BPlusTree.search key w = .error e w' →
      Alive R M C rs w' ∧ w'.isOpened = true ∧ w'.wal = w.wal := by
    intro key hrun
    have halive := h.of_reads (noSteal_steps.search key)
      (readSpec_search hholding.inv hholding.quiet key)
    rw [hrun, final_error] at halive
    exact ⟨halive, hsteal (noSteal_steps.search key) hrun⟩
  cases c with
  | put key value => exact hearly.elim
  | checkpoint => exact hearly.elim
  | get key =>
      rcases bind_eq_error.mp hrun with hget | ⟨_, _, -, hpure⟩
      · exact hsearch ((run_bind_ok hcheck).symm.trans hget)
      · cases hpure
  | delete key =>
      obtain ⟨e', w₁, hfails⟩ := hearly
      rcases bind_eq_error.mp hrun with hdelete | ⟨_, _, -, hpure⟩
      · rw [delete_eq hopened, run_bind_error hfails] at hdelete
        cases hdelete
        exact hsearch hfails
      · cases hpure
  | scan start stop =>
      rcases bind_eq_error.mp hrun with hscan | ⟨_, _, -, hpure⟩
      · have hrest := (run_bind_ok hcheck).symm.trans hscan
        rw [ensureBound_bytes, ensureBound_bytes, pure_bind, pure_bind] at hrest
        have halive := h.of_reads (noSteal_steps.scan start stop)
          (readSpec_scan hholding.inv hholding.quiet start stop)
        rw [hrest, final_error] at halive
        exact ⟨halive, hsteal (noSteal_steps.scan start stop) hrest⟩
      · cases hpure

/-- A call that stops, and loses nothing in a checkpoint, leaves the map before it or after
it. -/
theorem Alive.crash_of_call (hR : Sized R) (h : Alive R M C rs w) (hopened : w.isOpened = true)
    {c : Call} (hwithin : c.Within R) (hrun : c.run w = .error e w') (hharmless : c.Harmless R w)
    (hcrash : Crash w'.disk disk') :
    Interrupted R w.wal.currentLsn M (c.after M) disk' := by
  obtain ⟨H, T, hholding⟩ := h.stands
  have hcheck : DB.checkIfOpened w = .ok () w := by
    simp [DB.checkIfOpened, run_bind, hopened]
  cases c with
  | put key value =>
      have hput : DB.put (.bytes key) (.bytes value) w = .error e w' := by
        rcases bind_eq_error.mp hrun with hput | ⟨_, _, -, hpure⟩
        · exact hput
        · cases hpure
      rcases put_cases key value hopened hholding.quiet with ⟨-, e', hraise⟩ | ⟨hfits, hbetween⟩
      · cases hput.symm.trans hraise
        -- Refused before anything is logged: the disk is the one of the process before the call.
        exact .before (h.crash hcrash)
      · rw [hholding.pageSize] at hfits
        exact h.crash_of_change hR (changing_put hfits hwithin) (hbetween.symm.trans hput)
          hharmless hcrash
  | get key =>
      have hget : DB.get (.bytes key) w = .error e w' := by
        rcases bind_eq_error.mp hrun with hget | ⟨_, _, -, hpure⟩
        · exact hget
        · cases hpure
      have hsearch : BPlusTree.search key w = .error e w' := (run_bind_ok hcheck).symm.trans hget
      exact .before (h.crash_of_noSteal ((noSteal_steps.search key).error hsearch) hcrash)
  | delete key =>
      have hdelete : DB.delete (.bytes key) w = .error e w' := by
        rcases bind_eq_error.mp hrun with hdelete | ⟨_, _, -, hpure⟩
        · exact hdelete
        · cases hpure
      rw [delete_eq hopened] at hdelete
      rcases bind_eq_error.mp hdelete with hsearch | ⟨found, w₂, hsearch, hrest⟩
      · exact .before (h.crash_of_noSteal ((noSteal_steps.search key).error hsearch) hcrash)
      obtain ⟨rfl, h₂⟩ := h.search hsearch
      have hread : Returned R M w w₂ False :=
        .of_noSteal h₂ ((noSteal_steps.search key).ok hsearch)
      cases hkey : M key with
      | none =>
          rw [hkey] at hrest
          cases hrest
      | some v =>
          rw [hkey] at hrest hsearch
          rcases bind_eq_error.mp
              (show (betweenCheckpoints (DB.logAndDelete key) >>= fun _ => pure true) w₂ = _ from
                hrest)
            with hbetween | ⟨_, _, -, hpure⟩
          -- What the search read is still `M`, so the stop is one of the change behind it.
          · have hharmless₂ : ChangeHarmless R (DB.logAndDelete key) w₂ := hharmless v w₂ hsearch
            exact (h₂.crash_of_change hR changing_delete hbetween hharmless₂ hcrash).mono hread.lsn
          · cases hpure
  | scan start stop =>
      have hscan : DB.scan (start.map .bytes) (stop.map .bytes) w = .error e w' := by
        rcases bind_eq_error.mp hrun with hscan | ⟨_, _, -, hpure⟩
        · exact hscan
        · cases hpure
      have hbounds : BPlusTree.scan start stop w = .error e w' := by
        have hrest := (run_bind_ok hcheck).symm.trans hscan
        rwa [ensureBound_bytes, ensureBound_bytes, pure_bind, pure_bind] at hrest
      exact .before (h.crash_of_noSteal ((noSteal_steps.scan start stop).error hbounds) hcrash)
  | checkpoint =>
      have hcheckpoint : DB.checkpoint w = .error e w' := by
        rcases bind_eq_error.mp hrun with hcheckpoint | ⟨_, _, -, hpure⟩
        · exact hcheckpoint
        · cases hpure
      obtain ⟨C', hleaves⟩ := hharmless M C rs e w' disk' h hcheckpoint hcrash
      exact .before hleaves

end BPTreeDB.Runs
