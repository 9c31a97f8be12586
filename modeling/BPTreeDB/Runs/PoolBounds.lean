import BPTreeDB.Runs.Iterators
import BPTreeDB.Runs.Residents

/-!
# The size of the buffer pool

While evictions are enabled, a page enters a full pool only in the place of another one, so
a pool that is within its capacity stays there, whatever is asked of it and whatever raises.
During a recovery evictions are disabled.  A pool that has outgrown its capacity by then
does not shrink again: a miss drops one page and brings in another.
-/

namespace BPTreeDB.Runs

open Lib Eng Codec Lib.Program PageStore Engine DB

variable {w w' : World} {s : Session}

/-- The pool holds no more pages than its capacity. -/
def Within (w : World) : Prop := w.pool.cache.length ≤ w.pool.capacityPages

/-- A pool that may evict is still within its capacity if it was before. -/
structure KeepsWithin (w w' : World) : Prop where
  capacity : w'.pool.capacityPages = w.pool.capacityPages
  eviction : w'.pool.evictionEnabled = w.pool.evictionEnabled
  isOpened : w'.isOpened = w.isOpened
  power : w.power = none → w'.power = none
  within : w.pool.evictionEnabled = true → Within w → Within w'

instance : Std.Refl KeepsWithin := ⟨fun _ => ⟨rfl, rfl, rfl, id, fun _ h => h⟩⟩

instance : IsTrans World KeepsWithin where
  trans _ _ _ h h' := ⟨h'.capacity.trans h.capacity, h'.eviction.trans h.eviction,
    h'.isOpened.trans h.isOpened, h'.power ∘ h.power,
    fun hon hw => h'.within (h.eviction.trans hon) (h.within hon hw)⟩

/-- A step after which the pool holds no more pages. -/
theorem KeepsWithin.of_le (hcapacity : w'.pool.capacityPages = w.pool.capacityPages)
    (heviction : w'.pool.evictionEnabled = w.pool.evictionEnabled)
    (hopened : w'.isOpened = w.isOpened) (hpower : w.power = none → w'.power = none)
    (hle : w'.pool.cache.length ≤ w.pool.cache.length) : KeepsWithin w w' :=
  ⟨hcapacity, heviction, hopened, hpower, fun _ hw => by
    unfold Within at hw ⊢
    omega⟩

/-! ## The operations of the pool -/

theorem length_filter_lt {cache : List (ℕ × CachedPage)} {entry : ℕ × CachedPage}
    (h : entry ∈ cache) : (cache.filter (·.1 ≠ entry.1)).length < cache.length :=
  List.length_filter_lt_length_iff_exists.mpr ⟨entry, h, by simp⟩

/-- The eviction before a page is admitted: if it returns, there is a place for the page. -/
theorem evict_makes_room (w : World) :
    BufferPool.evictOldestCleanPageIfFull w = .error .bufferPoolOverflow w ∨
      ∃ cache, BufferPool.evictOldestCleanPageIfFull w = .ok () (withCache w cache) ∧
        (w.pool.evictionEnabled = true → Within w → cache.length < w.pool.capacityPages) := by
  by_cases hfull : w.pool.evictionEnabled = true ∧ w.pool.capacityPages ≤ w.pool.cache.length
  · cases hfind : w.pool.cache.find? (fun e => !e.2.isDirty) with
    | none =>
        refine .inl ?_
        simp only [BufferPool.evictOldestCleanPageIfFull, run_bind, run_get, if_pos hfull, hfind,
          run_throw]
    | some victim =>
        refine .inr ⟨w.pool.cache.filter (·.1 ≠ victim.1), ?_, fun _ hw => ?_⟩
        · simp only [BufferPool.evictOldestCleanPageIfFull, run_bind, run_get, if_pos hfull, hfind,
            BufferPool.setCache, run_modify, withCache]
        · have hlt := length_filter_lt (List.mem_of_find?_eq_some hfind)
          unfold Within at hw
          omega
  · refine .inr ⟨w.pool.cache, ?_, fun hon _ => ?_⟩
    · simp only [BufferPool.evictOldestCleanPageIfFull, run_bind, run_get, if_neg hfull, run_pure,
        withCache]
    · by_contra hge
      exact hfull ⟨hon, not_lt.mp hge⟩

/-- A page enters the place that was made for it. -/
theorem keepsWithin_enter {cache : List (ℕ × CachedPage)} {objects : List Page}
    {entry : ℕ × CachedPage}
    (hroom : w.pool.evictionEnabled = true → Within w → cache.length < w.pool.capacityPages) :
    KeepsWithin w { w with pool := { w.pool with cache := cache ++ [entry], objects } } :=
  ⟨rfl, rfl, rfl, id, fun hon hw => by
    have := hroom hon hw
    show (cache ++ [entry]).length ≤ w.pool.capacityPages
    simp only [List.length_append, List.length_singleton]
    omega⟩

/-- What comes between an eviction and the entry of a page leaves the pool alone. -/
theorem keepsWithin_evicted {cache : List (ℕ × CachedPage)}
    (hroom : w.pool.evictionEnabled = true → Within w → cache.length < w.pool.capacityPages) :
    KeepsWithin w (withCache w cache) :=
  ⟨rfl, rfl, rfl, id, fun hon hw => (hroom hon hw).le⟩

theorem keepsWithin_get (pageId : ℕ) : Keeps KeepsWithin (BufferPool.get pageId) := by
  intro w
  rw [BufferPool.get, run_bind_ok (run_get w)]
  cases hlookup : w.pool.cache.lookup pageId with
  | some cached =>
      have hlt : (w.pool.cache.filter (·.1 ≠ pageId)).length < w.pool.cache.length :=
        length_filter_lt (mem_of_lookup hlookup)
      refine .of_le rfl rfl rfl id ?_
      show (w.pool.cache.filter (·.1 ≠ pageId) ++ [(pageId, cached)]).length ≤ _
      simp only [List.length_append, List.length_singleton]
      omega
  | none =>
      rcases evict_makes_room w with hevict | ⟨cache, hevict, hroom⟩
      · dsimp only
        rw [run_bind_error hevict]
        exact Std.Refl.refl w
      · dsimp only
        rw [run_bind_ok hevict]
        -- Reading and decoding the page changes nothing.
        rcases hread : Pager.readPage pageId (withCache w cache) with ⟨data, w₁⟩ | ⟨e, w₁⟩
        · obtain rfl := (keeps_readPage (R := fun w w' => w' = w) pageId).ok hread
          rw [run_bind_ok hread]
          cases decodePage data with
          | error e => exact keepsWithin_evicted hroom
          | ok page =>
              cases page with
              | tree page => exact keepsWithin_enter hroom
              | freelist page => exact keepsWithin_evicted hroom
        · obtain rfl := (keeps_readPage (R := fun w w' => w' = w) pageId).error hread
          rw [run_bind_error hread]
          exact keepsWithin_evicted hroom

theorem keepsWithin_insert (pageId : ℕ) (page : Page) (lsn : ℕ) :
    Keeps KeepsWithin (BufferPool.insert pageId page lsn) := by
  refine keeps_get.bind fun _ => (keeps_assert _ _).bind fun _ w => ?_
  rcases evict_makes_room w with hevict | ⟨cache, hevict, hroom⟩
  · rw [run_bind_error hevict]
    exact Std.Refl.refl w
  · rw [run_bind_ok hevict]
    exact keepsWithin_enter hroom

theorem keepsWithin_assign (ref : Ref) (page : Page) : Keeps KeepsWithin (Eng.assign ref page) :=
  fun _ => .of_le rfl rfl rfl id le_rfl

theorem keepsWithin_markDirty (pageId lsn : ℕ) :
    Keeps KeepsWithin (BufferPool.markDirty pageId lsn) := by
  intro w
  rw [BufferPool.markDirty, run_bind_ok (run_get w)]
  cases hlookup : w.pool.cache.lookup pageId with
  | none => exact Std.Refl.refl w
  | some cached =>
      dsimp only
      have hmark : KeepsWithin w (withCache w (w.pool.cache.map fun entry =>
          if entry.1 = pageId then (pageId, { entry.2 with isDirty := true }) else entry)) :=
        .of_le rfl rfl rfl id (le_of_eq (List.length_map _))
      refine IsTrans.trans _ _ _ hmark ?_
      exact (keeps_deref cached.page).bind (fun page => keepsWithin_assign _ _) _

theorem keepsWithin_delete (pageId : ℕ) : Keeps KeepsWithin (BufferPool.delete pageId) :=
  fun _ => .of_le rfl rfl rfl id (List.length_filter_le _ _)

theorem keepsWithin_rest : LeavesRest KeepsWithin := by
  intro w w' hpool _ hopened hpower
  refine .of_le ?_ ?_ hopened hpower ?_
  · rw [hpool]
  · rw [hpool]
  · rw [hpool]

theorem keepsWithin_steps : HandleSteps KeepsWithin where
  get := keepsWithin_get
  insert := keepsWithin_insert
  markDirty := keepsWithin_markDirty
  delete := keepsWithin_delete
  assign := keepsWithin_assign
  allocatePage := keepsWithin_rest.allocatePage
  freePage := keepsWithin_rest.freePage
  moveRoot _ := keepsWithin_rest.updateMeta _
  rest := keepsWithin_rest
  clean _ _ := .of_le rfl rfl rfl id (le_of_eq (List.length_map _))

theorem keepsWithin_count : HandleSteps.Counts KeepsWithin :=
  fun _ => .of_le rfl rfl rfl id le_rfl

/-! ## Histories -/

/-- A call on the buffer pool. -/
inductive PoolCall where
  | get (pageId : ℕ)
  | insert (pageId : ℕ) (page : Page) (lsn : ℕ)
  | markDirty (pageId lsn : ℕ)
  | delete (pageId : ℕ)
  | flushAll

def PoolCall.run : PoolCall → Eng Unit
  | .get pageId => do let _ ← BufferPool.get pageId
  | .insert pageId page lsn => do let _ ← BufferPool.insert pageId page lsn
  | .markDirty pageId lsn => BufferPool.markDirty pageId lsn
  | .delete pageId => BufferPool.delete pageId
  | .flushAll => BufferPool.flushAll

/-- What happens to a data directory and a handle on it: a call on the handle, or a change of
the files by a crash or through another handle. -/
inductive PoolEvent where
  | call (c : HandleCall)
  | files (disk : Disk)

def PoolEvent.step : PoolEvent → Session → Session
  | .call c, s => c.step s
  | .files disk, s => { s with world := { s.world with disk } }

/-- The part of `open` that runs before evictions are enabled again. -/
def openAndReplay : Eng Unit := do
  Pager.open_
  WAL.open_
  replayPhase

/-- The pages that a process holds which starts from the meta page `m`. -/
def HoldsPages (w : World) (m : MetaPage) (C : Content) : Prop := Quiet (repaired w m false) C

/-- The pages that are in the pool of a process with open files once the records behind its
newest checkpoint have been re-applied to its pages `C`. -/
def replayed (w : World) (m : MetaPage) (records : List (WALRecord × ℕ)) (C : Content) :
    Except Fault (Finset ℕ) :=
  residents (newestMeta m records).lastCheckpointLsn (records.map Prod.fst) C (cachedIds w)

/-- A process with open files has a meta page, and a log that can be read. -/
structure Replayable (w : World) (m : MetaPage) (records : List (WALRecord × ℕ)) : Prop where
  metaPage : w.pager.metaPage = some m
  log : ∃ f, w.disk.wal = some f ∧ WAL.iterRecords f.content = ⟨records, none⟩

theorem Replayable.unique {m m' : MetaPage} {records records' : List (WALRecord × ℕ)}
    (h : Replayable w m records) (h' : Replayable w m' records') :
    m = m' ∧ records = records' := by
  obtain ⟨hm, f, hf, hread⟩ := h
  obtain ⟨hm', f', hf', hread'⟩ := h'
  obtain rfl : f = f' := Option.some.inj (hf.symm.trans hf')
  exact ⟨Option.some.inj (hm.symm.trans hm'),
    congrArg WAL.Iteration.records (hread.symm.trans hread')⟩

/-- The pages are no more than the capacity of the pool; or the records cannot be re-applied,
by a process that was not open. -/
def FitsPool (w : World) : Except Fault (Finset ℕ) → Prop
  | .ok ids => ids.card ≤ w.pool.capacityPages
  | .error (.raised _) => w.isOpened = false
  | .error .undisciplined => False

/-- The log of a process that has opened its files fits into its pool: the pages that are
cached and those that the records behind the checkpoint touch when they are re-applied to the
stored pages, less the ones that they free, are no more than the capacity. -/
def LogFits (w : World) : Prop :=
  ∀ m records, Replayable w m records →
    ∃ C, HoldsPages w (newestMeta m records) C ∧ FitsPool w (replayed w m records C)

/-- The phase without evictions ends with the settings it began with. -/
theorem replayPhase_settings (w : World) :
    (final (replayPhase w)).pool.capacityPages = w.pool.capacityPages ∧
      (final (replayPhase w)).pool.evictionEnabled = w.pool.evictionEnabled ∧
      (final (replayPhase w)).isOpened = w.isOpened ∧
      (w.power = none → (final (replayPhase w)).power = none) := by
  have hkeeps := keepsWithin_steps.repairAndReplay (withEviction w false)
  cases hrun : repairAndReplay (withEviction w false) with
  | ok a w' =>
      rw [hrun] at hkeeps
      rw [replayPhase_ok hrun]
      exact ⟨hkeeps.capacity, rfl, hkeeps.isOpened, hkeeps.power⟩
  | error e w' =>
      rw [hrun] at hkeeps
      rw [replayPhase_error hrun]
      exact ⟨hkeeps.capacity, rfl, hkeeps.isOpened, hkeeps.power⟩

/-- The number of pages in the pool and its capacity have not changed. -/
structure SameSize (w w' : World) : Prop where
  length : w'.pool.cache.length = w.pool.cache.length
  capacity : w'.pool.capacityPages = w.pool.capacityPages
  eviction : w'.pool.evictionEnabled = w.pool.evictionEnabled
  power : w.power = none → w'.power = none

instance : Std.Refl SameSize := ⟨fun _ => ⟨rfl, rfl, rfl, id⟩⟩

instance : IsTrans World SameSize where
  trans _ _ _ h h' := ⟨h'.length.trans h.length, h'.capacity.trans h.capacity,
    h'.eviction.trans h.eviction, h'.power ∘ h.power⟩

/-- A checkpoint and the closing of the files leave the pages where they are. -/
theorem sameSize_steps : FlushSteps SameSize where
  rest w w' hpool _ _ hpower := by
    refine ⟨?_, ?_, ?_, hpower⟩
    · rw [hpool]
    · rw [hpool]
    · rw [hpool]
  clean _ _ := ⟨List.length_map _, rfl, rfl, id⟩

theorem SameSize.within_iff (h : SameSize w w') : Within w' ↔ Within w := by
  unfold Within
  rw [h.length, h.capacity]

/-- What `open` does after the phase without evictions leaves the pages where they are. -/
theorem open_sameSize (w : World) : SameSize (final (openAndReplay w)) (final (DB.open_ w)) := by
  have hrefl : ∀ w, SameSize w w := fun w => Std.Refl.refl w
  have hhandler := sameSize_steps.closeFilesAndRaise
  rw [openAndReplay, DB.open_]
  cases hpager : Pager.open_ w with
  | error e w₁ =>
      rw [run_bind_error hpager, run_bind_error hpager]
      exact hrefl w₁
  | ok a w₁ =>
      rw [run_bind_ok hpager, run_bind_ok hpager]
      cases hwal : WAL.open_ w₁ with
      | error e w₂ =>
          rw [run_bind_error hwal, run_bind_error hwal]
          exact hrefl w₂
      | ok a w₂ =>
          rw [run_bind_ok hwal, run_bind_ok hwal]
          -- The rest of `open`, from the end of the phase on.
          have hmark : ∀ {x : Eng Unit}, SameSize (final (replayPhase w₂)) (final (x w₂)) →
              SameSize (final (replayPhase w₂))
                (final ((x >>= fun _ => modify fun w => { w with isOpened := true }) w₂)) := by
            intro x hx
            cases hrun : x w₂ with
            | ok a w₃ =>
                rw [hrun] at hx
                rw [run_bind_ok hrun]
                exact ⟨hx.length, hx.capacity, hx.eviction, hx.power⟩
            | error e w₃ =>
                rw [hrun] at hx
                rw [run_bind_error hrun]
                exact hx
          refine hmark ?_
          cases hphase : replayPhase w₂ with
          | error e w₃ =>
              have hrecover : recover w₂ = .error e w₃ := run_bind_error hphase
              rw [run_tryCatch_error hrecover]
              exact hhandler e w₃
          | ok a w₃ =>
              have hcheckpoint := sameSize_steps.checkpoint w₃
              have hrecover : recover w₂ = checkpoint w₃ := run_bind_ok hphase
              cases hrun : checkpoint w₃ with
              | ok a w₄ =>
                  rw [hrun] at hcheckpoint
                  rw [run_tryCatch_ok (hrecover.trans hrun)]
                  exact hcheckpoint
              | error e w₄ =>
                  rw [hrun] at hcheckpoint
                  rw [run_tryCatch_error (hrecover.trans hrun)]
                  exact IsTrans.trans _ _ _ hcheckpoint (hhandler e w₄)

/-- After `open`, returned or not, evictions are enabled again if they were before, and the
machine has kept its power. -/
theorem open_settings (w : World) :
    (final (DB.open_ w)).pool.evictionEnabled = w.pool.evictionEnabled ∧
      (w.power = none → (final (DB.open_ w)).power = none) := by
  have hsame := open_sameSize w
  rw [openAndReplay] at hsame
  have hpager := keepsWithin_rest.pagerOpen w
  cases hrun : Pager.open_ w with
  | error e w₁ =>
      rw [hrun] at hpager
      rw [run_bind_error hrun] at hsame
      exact ⟨hsame.eviction.trans hpager.eviction, hsame.power ∘ hpager.power⟩
  | ok a w₁ =>
      rw [hrun] at hpager
      rw [run_bind_ok hrun] at hsame
      have hwal := keepsWithin_rest.walOpen w₁
      cases hrun₁ : WAL.open_ w₁ with
      | error e w₂ =>
          rw [hrun₁] at hwal
          rw [run_bind_error hrun₁] at hsame
          exact ⟨hsame.eviction.trans (hwal.eviction.trans hpager.eviction),
            hsame.power ∘ hwal.power ∘ hpager.power⟩
      | ok a w₂ =>
          rw [hrun₁] at hwal
          rw [run_bind_ok hrun₁] at hsame
          obtain ⟨-, heviction, -, hpower⟩ := replayPhase_settings w₂
          exact ⟨hsame.eviction.trans (heviction.trans (hwal.eviction.trans hpager.eviction)),
            hsame.power ∘ hpower ∘ hwal.power ∘ hpager.power⟩

/-! ## The replay of an open -/

/-- A replay changes nothing, or it has a meta page and a log that can be read. -/
theorem repairAndReplay_cases (w : World) : (∃ e, repairAndReplay w = .error e w) ∨
    ∃ m records, Replayable w m records ∧ w.wal.isOpen = true := by
  have hraise : ∀ {e}, repairPagerMetaFromWalCheckpoint w = .error e w →
      ∃ e, repairAndReplay w = .error e w := fun h => ⟨_, run_bind_error h⟩
  cases hm : w.pager.metaPage with
  | none =>
      have hget : Pager.getMeta w = .error (.assertionError "self._meta_page is not None") w := by
        simp [Pager.getMeta, run_bind, hm]
      exact .inl (hraise (run_bind_error hget))
  | some m =>
      have hget : Pager.getMeta w = .ok m w := by simp [Pager.getMeta, run_bind, hm]
      cases hopen : w.wal.isOpen with
      | false =>
          have hfile : WAL.file w = .error (.assertionError "self._fd is not None") w := by
            simp [WAL.file, run_bind, hopen]
          exact .inl (hraise ((run_bind_ok hget).trans (run_bind_error hfile)))
      | true =>
          cases hf : w.disk.wal with
          | none =>
              have hfile : WAL.file w = .error (.assertionError "self._fd is not None") w := by
                simp [WAL.file, run_bind, hopen, hf]
              exact .inl (hraise ((run_bind_ok hget).trans (run_bind_error hfile)))
          | some f =>
              cases hread : (WAL.iterRecords f.content).error with
              | some e => exact .inl ⟨e, repairAndReplay_raises hm hopen hf hread⟩
              | none =>
                  refine .inr ⟨m, (WAL.iterRecords f.content).records, ⟨hm, f, hf, ?_⟩, rfl⟩
                  rw [← hread]

/-- What is stored does not depend on the eviction, nor on what the recovery notes down. -/
theorem HoldsPages.start {m : MetaPage} {C : Content} (h : HoldsPages w m C) (dirty : Bool) :
    Quiet (withLsn (repaired (withEviction w false) m dirty) 0) C := by
  obtain ⟨hopen, hdata, hsize, ⟨m', hm, hmeta, hfree⟩, hpool, -, -⟩ := h
  exact ⟨hopen, hdata, hsize, ⟨m', hm, hmeta, hfree.linked, hfree.heads, hfree.cached,
    hfree.clean⟩, ⟨hpool.nodup, hpool.object, hpool.single, hpool.disk⟩, fun h => h.elim,
    fun h => absurd trivial h⟩

/-- What the replay of an `open` comes to, where re-applying the records to the pages comes
to `result`. -/
def LeavesPages : (result : Except Fault (Finset ℕ)) → EStateM.Result Err World Unit → Prop
  | .ok ids, r => (final r).pool.cache.length = ids.card
  | .error (.raised _), r => ∃ e w, r = .error e w
  | .error .undisciplined, _ => True

/-- The pages that the replay of an `open` leaves in the pool. -/
theorem repairAndReplay_leaves {m : MetaPage} {records : List (WALRecord × ℕ)} {C : Content}
    (h : Replayable w m records) (hopen : w.wal.isOpen = true) (hpower : w.power = none)
    (hC : HoldsPages w (newestMeta m records) C) :
    LeavesPages (replayed w m records C) (repairAndReplay (withEviction w false)) := by
  obtain ⟨hm, f, hf, hread⟩ := h
  obtain ⟨dirty, hrepair⟩ := repair_of_readable (w := withEviction w false) hopen hf
    (by rw [hread]) hm
  rw [hread] at hrepair
  set w₁ := withLsn (repaired (withEviction w false) (newestMeta m records) dirty) 0 with hw₁
  -- Eviction is off, so that every page which the replay fetches stays.
  have hspec := replayLoop_residents records 0 (hC.start dirty) (⟨rfl, hpower⟩ : Unhurried w₁)
  have hcached : cachedIds w₁ = cachedIds w := rfl
  have hlsn : w₁.recoveryLastCheckpointLsn = (newestMeta m records).lastCheckpointLsn := rfl
  rw [hcached, hlsn] at hspec
  -- What follows the loop cuts the tail of the log and leaves the pool alone.
  have htail : ∀ position, Keeps SameSize (do
      fileSystemCall
      WAL.setFile (f.write (f.content.take position))
      WAL.fsync) := fun position => sameSize_steps.rest.call.bind fun _ =>
    sameSize_steps.rest.change_bind (fun _ => sameSize_steps.rest.walFsync)
      fun _ => ⟨rfl, rfl, rfl, id⟩
  have hrun : repairAndReplay (withEviction w false) =
      (WAL.replayLoop applyWalRecord records 0 >>= fun position => do
        fileSystemCall
        WAL.setFile (f.write (f.content.take position))
        WAL.fsync) w₁ := by
    rw [repairAndReplay, run_bind_ok hrepair]
    have hfile : WAL.file (repaired (withEviction w false) (newestMeta m records) dirty) =
        .ok f (repaired (withEviction w false) (newestMeta m records) dirty) := walFile_eq hopen hf
    have hreplay : WAL.replay applyWalRecord
        (repaired (withEviction w false) (newestMeta m records) dirty) =
          (WAL.replayLoop applyWalRecord records 0 >>= fun position => do
            fileSystemCall
            WAL.setFile (f.write (f.content.take position))
            WAL.fsync) w₁ := by
      rw [WAL.replay, run_bind_ok hfile]
      simp only [hread]
      rfl
    exact hreplay
  rw [hrun]
  unfold replayed
  revert hspec
  generalize residents _ _ C (cachedIds w) = result
  intro hspec
  cases hloop : WAL.replayLoop applyWalRecord records 0 w₁ with
  | ok position w₂ =>
      rw [hloop] at hspec
      rw [run_bind_ok hloop]
      cases result with
      | ok ids => exact (htail position w₂).length.trans hspec
      | error d =>
          cases d with
          | undisciplined => trivial
          | raised e => exact hspec.elim
  | error e w₂ =>
      rw [hloop] at hspec
      rw [run_bind_error hloop]
      cases result with
      | ok ids => exact hspec.elim
      | error d =>
          cases d with
          | undisciplined => trivial
          | raised _ => exact ⟨e, w₂, rfl⟩

/-- After the phase without evictions the pool is as the replay left it. -/
theorem final_replayPhase_pages (w : World) : (final (replayPhase w)).pool.cache =
    (final (repairAndReplay (withEviction w false))).pool.cache := by
  cases hrun : repairAndReplay (withEviction w false) with
  | ok a w' =>
      rw [replayPhase_ok hrun]
      rfl
  | error e w' =>
      rw [replayPhase_error hrun]
      rfl

/-- Where the replay raises, an `open` does not mark the handle open. -/
theorem open_isOpened {w₁ w₂ w₃ : World} {e : Err} (hpager : Pager.open_ w = .ok () w₁)
    (hwal : WAL.open_ w₁ = .ok () w₂) (hphase : replayPhase w₂ = .error e w₃) :
    (final (DB.open_ w)).isOpened = w₂.isOpened := by
  have hsettings := replayPhase_settings w₂
  rw [hphase] at hsettings
  have hrecover : recover w₂ = .error e w₃ := run_bind_error hphase
  have hclose := keepsWithin_steps.closeFilesAndRaise e w₃
  rw [DB.open_, run_bind_ok hpager, run_bind_ok hwal]
  cases hrun : closeFilesAndRaise e w₃ with
  | ok _ w₄ => exact absurd hrun (closeFilesAndRaise_ne_ok e)
  | error e' w₄ =>
      rw [hrun] at hclose
      rw [run_bind_error ((run_tryCatch_error hrecover).trans hrun)]
      exact hclose.isOpened.trans hsettings.2.2.1

/-- The log of a database: its records can be re-applied to the pages of its checkpoint, and
it fits into the pool of a new handle exactly if the pages of the replay are no more than the
capacity. -/
theorem logFits_iff {R : Regime} {M : KeyMap} {m : MetaPage} {rs : List WALRecord}
    {part content : Bytes} {C C' : Content} {w w₂ : World} (h : Opening R M m rs part content C w)
    (hpower : w.power = none) (hstore : openingContent C m rs = some C')
    (hwal : WAL.open_ w = .ok () w₂) :
    ∃ ids, residents (repairedMeta m rs).lastCheckpointLsn rs C ∅ = .ok ids ∧
      (LogFits w₂ ↔ ids.card ≤ w₂.pool.capacityPages) := by
  obtain ⟨w', hrun, -⟩ := h.replay_returns hpower hstore
  rw [openLogAndReplay, run_bind_ok hwal] at hrun
  obtain ⟨w₁, -, hlost, -⟩ | ⟨power, dirty, hnone, hpart, hopen, -⟩ := h.replay_eq
  · exact absurd hpower hlost
  obtain rfl := hnone hpower
  cases hwal.symm.trans hopen
  set f : FileState := ⟨WAL.logBytes rs ++ part, WAL.logBytes rs ++ part⟩ with hf
  set w₂ := withLogOpened w none f with hw₂
  have hreplayable : Replayable w₂ m (WAL.positioned 0 rs) :=
    ⟨h.metaPage, f, rfl, h.anchor.log.iterRecords hpart⟩
  have hsize : w.pager.pageSizeBytes = C.pageSize := h.pageSize.trans h.anchor.map.pageSize.symm
  have hC : HoldsPages w₂ (newestMeta m (WAL.positioned 0 rs)) C := h.anchor.pages.quiet
    (f := ⟨content, content⟩) h.pager h.data hsize rfl h.anchor.fields h.cache h.freelist
  obtain ⟨H, T, hholding⟩ := h.holding_start none f true
  obtain ⟨w₄, hall, -⟩ := replayAll_returns rs hholding ⟨rfl, rfl⟩ h.records hstore
  obtain ⟨ids, hids⟩ := residents_of_replayAll rs ∅ hholding h.records hall
  have hcached : cachedIds w₂ = ∅ := by
    show (w.pool.cache.map Prod.fst).toFinset = ∅
    rw [h.cache, List.map_nil, List.toFinset_nil]
  have hreplayed : replayed w₂ m (WAL.positioned 0 rs) C = .ok ids := by
    rw [replayed, WAL.map_fst_positioned, hcached]
    exact hids
  refine ⟨ids, hids, fun hfits => ?_, fun hle m' records hreplayable' => ?_⟩
  · -- Whatever pages the log was measured on, the replay leaves the same number of them.
    obtain ⟨C₁, hC₁, hfit⟩ := hfits m _ hreplayable
    have hleaves := repairAndReplay_leaves hreplayable rfl rfl hC
    have hleaves₁ := repairAndReplay_leaves hreplayable rfl rfl hC₁
    rw [hreplayed] at hleaves
    revert hleaves₁ hfit
    generalize replayed w₂ m (WAL.positioned 0 rs) C₁ = result
    intro hfit hleaves₁
    cases result with
    | ok ids₁ => exact (hleaves.symm.trans hleaves₁).trans_le hfit
    | error d =>
        cases d with
        | undisciplined => exact hfit.elim
        | raised _ =>
            obtain ⟨e, w₃, hraise⟩ := hleaves₁
            rw [replayPhase_error hraise] at hrun
            cases hrun
  · obtain ⟨rfl, rfl⟩ := hreplayable.unique hreplayable'
    -- The pages of the checkpoint are the witness.
    refine ⟨C, hC, ?_⟩
    rw [hreplayed]
    exact hle

/-- The pool of an open handle is within its capacity, and evictions are enabled. -/
structure Bounded (w : World) : Prop where
  eviction : w.pool.evictionEnabled = true
  power : w.power = none
  within : w.isOpened = true → Within w

theorem Bounded.step (h : Bounded w) (hkeeps : KeepsWithin w w') : Bounded w' :=
  ⟨hkeeps.eviction.trans h.eviction, hkeeps.power h.power, fun hopened =>
    hkeeps.within h.eviction (h.within (hkeeps.isOpened.symm.trans hopened))⟩

/-- An `open` that finds a log that fits. -/
theorem Bounded.open (h : Bounded w) (hfits : ∀ w₁ w₂, Pager.open_ w = .ok () w₁ →
    WAL.open_ w₁ = .ok () w₂ → LogFits w₂) : Bounded (final (DB.open_ w)) := by
  refine ⟨(open_settings w).1.trans h.eviction, (open_settings w).2 h.power, fun hopened => ?_⟩
  rw [(open_sameSize w).within_iff, openAndReplay]
  have hpager := keepsWithin_rest.pagerOpen w
  cases hrun : Pager.open_ w with
  | error e w₁ =>
      rw [hrun] at hpager
      rw [DB.open_, run_bind_error hrun] at hopened
      rw [run_bind_error hrun]
      exact (h.step hpager).within hopened
  | ok a w₁ =>
      rw [hrun] at hpager
      rw [run_bind_ok hrun]
      have hwal := keepsWithin_rest.walOpen w₁
      cases hrun₁ : WAL.open_ w₁ with
      | error e w₂ =>
          rw [hrun₁] at hwal
          rw [DB.open_, run_bind_ok hrun, run_bind_error hrun₁] at hopened
          rw [run_bind_error hrun₁]
          exact ((h.step hpager).step hwal).within hopened
      | ok a w₂ =>
          rw [hrun₁] at hwal
          rw [run_bind_ok hrun₁]
          have h₂ : Bounded w₂ := (h.step hpager).step hwal
          unfold Within
          rw [(replayPhase_settings w₂).1, final_replayPhase_pages]
          -- Nothing is evicted during the replay, so it leaves in the pool what `LogFits` counts.
          rcases repairAndReplay_cases (withEviction w₂ false) with
            ⟨e, hraise⟩ | ⟨m, records, hreplayable, hopen⟩
          · rw [open_isOpened hrun hrun₁ (replayPhase_error hraise)] at hopened
            rw [hraise]
            exact h₂.within hopened
          · have hreplayable₂ : Replayable w₂ m records := ⟨hreplayable.metaPage, hreplayable.log⟩
            obtain ⟨C, hC, hfit⟩ := hfits w₁ w₂ hrun hrun₁ m records hreplayable₂
            have hleaves := repairAndReplay_leaves hreplayable₂ hopen h₂.power hC
            revert hleaves hfit
            generalize replayed w₂ m records C = result
            intro hfit hleaves
            match result, hleaves, hfit with
            | .ok ids, hleaves, hfit => exact hleaves.trans_le hfit
            | .error (.raised _), ⟨e, w₃, hraise⟩, hfit =>
                rw [open_isOpened hrun hrun₁ (replayPhase_error hraise)] at hopened
                exact absurd (hopened.symm.trans hfit) (by simp)

theorem Bounded.close (h : Bounded w) : Bounded (final (DB.close w)) := by
  rw [DB.close, run_bind_ok (run_get w)]
  by_cases hopened : w.isOpened = true
  · rw [if_neg (not_not_intro hopened)]
    have hkeeps : Keeps KeepsWithin closeFiles := keepsWithin_steps.checkpoint.bind fun _ =>
      keepsWithin_rest.walClose.bind fun _ => keepsWithin_rest.pagerClose
    have hfinal : ∀ w', KeepsWithin w w' → Bounded
      { w' with isOpened := false, versionCounter := 0 } :=
      fun w' hkeeps => ⟨hkeeps.eviction.trans h.eviction, hkeeps.power h.power,
        fun h => by cases h⟩
    cases hrun : closeFiles w with
    | ok a w' =>
        rw [run_bind_ok (run_tryCatch_ok hrun)]
        exact hfinal w' (hkeeps.ok hrun)
    | error e w' =>
        have hraise : tryCatch closeFiles (fun e => do
            markClosed
            throw e) w = .error e { w' with isOpened := false, versionCounter := 0 } :=
          run_tryCatch_error hrun
        rw [run_bind_error hraise]
        exact hfinal w' (hkeeps.error hrun)
  · rw [if_pos hopened]
    exact h

theorem HandleCall.bounded (c : HandleCall) (h : Bounded s.world)
    (hfits : c = .open_ → ∀ w₁ w₂, Pager.open_ s.world = .ok () w₁ →
      WAL.open_ w₁ = .ok () w₂ → LogFits w₂) : Bounded (c.step s).world := by
  cases c with
  | put key value =>
      have hkeeps := keepsWithin_steps.put keepsWithin_count key value s.world
      dsimp only [HandleCall.step]
      cases hrun : DB.put key value s.world with
      | ok a w =>
          rw [hrun] at hkeeps
          exact h.step hkeeps
      | error e w =>
          rw [hrun] at hkeeps
          exact h.step hkeeps
  | delete key =>
      have hkeeps := keepsWithin_steps.dbDelete keepsWithin_count key s.world
      dsimp only [HandleCall.step]
      cases hrun : DB.delete key s.world with
      | ok deleted w =>
          rw [hrun] at hkeeps
          cases deleted <;> exact h.step hkeeps
      | error e w =>
          rw [hrun] at hkeeps
          exact h.step hkeeps
  | get key => exact h.step (keepsWithin_steps.dbGet key s.world)
  | checkpoint => exact h.step (keepsWithin_steps.checkpoint s.world)
  | close => exact Bounded.close h
  -- Evictions are off during the replay, so `open` alone needs the log to fit.
  | open_ => exact h.open (hfits rfl)
  | scan start stop =>
      have hkeeps := keeps_scanIterator (R := KeepsWithin) start stop s.world
      dsimp only [HandleCall.step]
      cases hrun : DB.scanIterator start stop s.world with
      | ok it w =>
          rw [hrun] at hkeeps
          exact h.step hkeeps
      | error e w =>
          rw [hrun] at hkeeps
          exact h.step hkeeps
  | next i walked =>
      dsimp only [HandleCall.step]
      cases s.iterators[i]? with
      | none => exact h
      | some x => exact h.step (keeps_next keepsWithin_steps.toTreeSteps x.iterator walked s.world)

instance decidableWithin (w : World) : Decidable (Within w) :=
  inferInstanceAs (Decidable (w.pool.cache.length ≤ w.pool.capacityPages))

/-! ## A process that died -/

end BPTreeDB.Runs
