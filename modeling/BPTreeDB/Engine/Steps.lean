import BPTreeDB.Model.DB
import BPTreeDB.Lib.Program

/-!
# Relations that the operations keep

A reflexive and transitive relation on processes that the steps of a tree operation keep
is kept by every tree operation, whatever its outcome.  If it also leaves out everything but
the buffer pool and the version counter, it is kept by every operation of a handle that
neither replays the log nor counts a change.
-/

namespace BPTreeDB.Engine

open Lib Eng Codec Lib.Program

variable {R : World → World → Prop} [Std.Refl R] [IsTrans World R] {α : Type}

/-! ## Steps that change nothing -/

omit [IsTrans World R] in
theorem keeps_codec (x : Except Err α) : Keeps R (codec x) := by
  cases x with
  | ok a => exact keeps_pure a
  | error e => exact keeps_throw e

omit [IsTrans World R] in
theorem keeps_assert (c : Bool) (message : String) : Keeps R (assert c message) := by
  unfold assert
  split
  · exact keeps_pure _
  · exact keeps_throw _

theorem keeps_file : Keeps R Pager.file := by
  refine keeps_get.bind fun w => ?_
  split
  · exact keeps_pure _
  · exact keeps_throw _

theorem keeps_walFile : Keeps R WAL.file := by
  refine keeps_get.bind fun w => ?_
  split
  · exact keeps_pure _
  · exact keeps_throw _

theorem keeps_getMeta : Keeps R Pager.getMeta := by
  refine keeps_get.bind fun w => ?_
  split
  · exact keeps_pure _
  · exact keeps_throw _

theorem keeps_readPage (pageId : ℕ) : Keeps R (Pager.readPage pageId) := by
  refine keeps_file.bind fun f => keeps_get.bind fun w => ?_
  dsimp only
  split
  · exact (keeps_throw _).bind fun _ => keeps_pure _
  · exact keeps_pure _

theorem keeps_deref (ref : Ref) : Keeps R (deref ref) := by
  refine keeps_get.bind fun w => ?_
  split
  · exact keeps_pure _
  · exact keeps_throw _

theorem keeps_derefInternal (ref : Ref) : Keeps R (derefInternal ref) := by
  refine (keeps_deref ref).bind fun page => ?_
  split
  · exact keeps_pure _
  · exact keeps_throw _

theorem keeps_derefLeaf (ref : Ref) : Keeps R (BPlusTree.derefLeaf ref) := by
  refine (keeps_deref ref).bind fun page => ?_
  split
  · exact keeps_pure _
  · exact keeps_throw _

theorem keeps_raiseIfRecordTooLarge (key value : Bytes) :
    Keeps R (BPlusTree.raiseIfRecordTooLarge key value) := by
  refine keeps_getMeta.bind fun m => ?_
  dsimp only
  split
  · exact keeps_throw _
  · exact keeps_pure _

theorem keeps_checkIfOpened : Keeps R DB.checkIfOpened := by
  refine keeps_get.bind fun w => ?_
  split
  · exact keeps_throw _
  · exact keeps_pure _

omit [IsTrans World R] in
theorem keeps_ensureBytesType (value : DB.PyArg) (paramName : String) :
    Keeps R (DB.ensureBytesType value paramName) := by
  cases value with
  | bytes value => exact keeps_pure _
  | other => exact keeps_throw _

theorem keeps_ensureBound (bound : Option DB.PyArg) (paramName : String) :
    Keeps R (DB.ensureBound bound paramName) := by
  cases bound with
  | none => exact keeps_pure _
  | some value => exact (keeps_ensureBytesType value paramName).bind fun _ => keeps_pure _

theorem keeps_shouldCheckpoint : Keeps R DB.shouldCheckpoint := by
  refine Keeps.bind ?_ fun size => keeps_get.bind fun w => ?_
  · refine keeps_get.bind fun w => ?_
    split
    · exact keeps_pure _
    · exact keeps_throw _
  · split
    · exact keeps_pure _
    · refine keeps_get.bind fun w => ?_
      split
      · exact (keeps_throw _).bind fun _ => keeps_pure _
      · exact keeps_pure _

/-! ## Operations of the tree -/

/-- The steps of a tree operation keep the relation. -/
structure TreeSteps (R : World → World → Prop) : Prop where
  get : ∀ pageId, Keeps R (BufferPool.get pageId)
  insert : ∀ pageId page lsn, Keeps R (BufferPool.insert pageId page lsn)
  markDirty : ∀ pageId lsn, Keeps R (BufferPool.markDirty pageId lsn)
  delete : ∀ pageId, Keeps R (BufferPool.delete pageId)
  assign : ∀ ref page, Keeps R (Eng.assign ref page)
  allocatePage : Keeps R Pager.allocatePage
  freePage : ∀ pageId, Keeps R (Pager.freePage pageId)
  moveRoot : ∀ root, Keeps R (Pager.updateMeta fun m => { m with rootPageId := root })

namespace TreeSteps

theorem findLeafLoop (h : TreeSteps R) (key : Bytes) (fuel : ℕ) :
    ∀ pageId page path, Keeps R (BPlusTree.findLeafLoop key fuel pageId page path) := by
  induction fuel with
  | zero => exact fun _ _ _ => keeps_throw _
  | succ fuel ih =>
      intro pageId page path
      refine (keeps_deref _).bind fun content => ?_
      split
      · exact keeps_pure _
      · dsimp only
        split
        · exact keeps_throw _
        · exact (h.get _).bind fun _ => ih _ _ _

theorem findLeaf (h : TreeSteps R) (key : Bytes) : Keeps R (BPlusTree.findLeaf key) :=
  keeps_getMeta.bind fun _ => (h.get _).bind fun _ => h.findLeafLoop _ _ _ _ _

theorem splitPage (h : TreeSteps R) (pageId : ℕ) (parentPageId : Option ℕ) (page : Ref) (lsn : ℕ) :
    Keeps R (BPlusTree.splitPage pageId parentPageId page lsn) := by
  refine keeps_getMeta.bind fun m => (keeps_deref _).bind fun content =>
    h.allocatePage.bind fun new => (keeps_codec _).bind fun parts => ?_
  refine (h.assign _ _).bind fun _ => (h.markDirty _ _).bind fun _ =>
    (h.insert _ _ _).bind fun _ => ?_
  split
  · refine h.allocatePage.bind fun _ => (h.insert _ _ _).bind fun _ =>
      .bind ?_ fun _ => keeps_pure _
    exact h.moveRoot _
  · exact (h.get _).bind fun _ => (keeps_derefInternal _).bind fun _ =>
      (h.assign _ _).bind fun _ => keeps_pure _

theorem fetchSibling (h : TreeSteps R) (isLeft : Bool) (pageId : Option ℕ) :
    Keeps R (BPlusTree.fetchSibling isLeft pageId) := by
  cases pageId with
  | none => exact keeps_pure _
  | some pageId => exact (h.get _).bind fun _ => keeps_pure _

theorem determineSameParentSiblings (h : TreeSteps R) (parent : InternalPage) (idx : ℤ) :
    Keeps R (BPlusTree.determineSameParentSiblings parent idx) :=
  (h.fetchSibling _ _).bind fun _ => (h.fetchSibling _ _).bind fun _ => keeps_pure _

theorem tryRedistributeSlots (h : TreeSteps R) (donor recipient parent : Ref) (idx : ℕ)
    (isLeft : Bool) :
    Keeps R (BPlusTree.tryRedistributeSlots donor recipient parent idx isLeft) := by
  refine keeps_getMeta.bind fun m => (keeps_derefInternal _).bind fun parentPage => ?_
  split
  · exact keeps_throw _
  · refine (keeps_deref _).bind fun _ => (keeps_deref _).bind fun _ => ?_
    dsimp only
    split
    · exact ((h.assign _ _).bind fun _ => (h.assign _ _).bind fun _ =>
        h.assign _ _).bind fun _ => keeps_pure _
    · exact keeps_pure _
    · exact ((h.assign _ _).bind fun _ => (h.assign _ _).bind fun _ =>
        h.assign _ _).bind fun _ => keeps_throw _

theorem redistributeWith (h : TreeSteps R) (page parent : Ref) (idx : ℤ)
    (siblings : List BPlusTree.Sibling) :
    Keeps R (BPlusTree.redistributeWith page parent idx siblings) := by
  induction siblings with
  | nil => exact keeps_pure _
  | cons sibling siblings ih =>
      refine (h.tryRedistributeSlots _ _ _ _ _).bind fun rescued => ?_
      split
      · exact keeps_pure _
      · exact ih

theorem mergeWith (h : TreeSteps R) (pageId : ℕ) (page : Ref) (parentPageId : ℕ) (parent : Ref)
    (idx : ℤ)
    (lsn : ℕ) (siblings : List BPlusTree.Sibling) :
    Keeps R (BPlusTree.mergeWith pageId page parentPageId parent idx lsn siblings) := by
  induction siblings with
  | nil => exact keeps_pure _
  | cons sibling siblings ih =>
      refine keeps_getMeta.bind fun m => (keeps_derefInternal _).bind fun parentPage =>
        (keeps_deref _).bind fun _ => (keeps_deref _).bind fun _ =>
        (keeps_codec _).bind fun probe => ?_
      split
      · exact ih
      · refine (h.assign _ _).bind fun _ => ?_
        dsimp only
        split
        · exact fun w => Std.Refl.refl w
        · refine (h.assign _ _).bind fun _ => (h.markDirty _ _).bind fun _ =>
            (h.markDirty _ _).bind fun _ => (h.delete _).bind fun _ =>
            (h.freePage _).bind fun _ => keeps_getMeta.bind fun _ => ?_
          split
          · refine .bind ?_ fun _ => (h.delete _).bind fun _ =>
              (h.freePage _).bind fun _ => keeps_pure _
            exact h.moveRoot _
          · exact keeps_pure _

theorem redistributeOrMergePage (h : TreeSteps R) (pageId : ℕ)
    (item : Option BPlusTree.PathItem) (page : Ref)
    (lsn : ℕ) : Keeps R (BPlusTree.redistributeOrMergePage pageId item page lsn) := by
  cases item with
  | none => exact keeps_pure _
  | some item =>
      refine (h.get _).bind fun parent => (keeps_derefInternal _).bind fun parentPage =>
        (h.determineSameParentSiblings _ _).bind fun siblings =>
        (h.redistributeWith _ _ _ _).bind fun rescuer => ?_
      split
      · refine (h.markDirty _ _).bind fun _ => (h.markDirty _ _).bind fun _ =>
          keeps_getMeta.bind fun _ => (keeps_deref _).bind fun _ => ?_
        split
        · exact keeps_pure _
        · exact (h.markDirty _ _).bind fun _ => keeps_pure _
      · refine (h.mergeWith _ _ _ _ _ _ _).bind fun merged => ?_
        split
        · exact keeps_pure _
        · exact keeps_throw _

theorem balanceLoop (h : TreeSteps R) (lsn fuel : ℕ) :
    ∀ pageId page path, Keeps R (BPlusTree.balanceLoop lsn fuel pageId page path) := by
  induction fuel with
  | zero => exact fun _ _ _ => keeps_throw _
  | succ fuel ih =>
      intro pageId page path
      refine keeps_getMeta.bind fun m => (keeps_deref _).bind fun content => ?_
      split
      · exact (h.splitPage _ _ _ _).bind fun _ => ih _ _ _
      · split
        · refine (h.redistributeOrMergePage _ _ _ _).bind fun parent => ?_
          split
          · exact ih _ _ _
          · exact keeps_pure _
        · exact h.markDirty _ _

theorem search (h : TreeSteps R) (key : Bytes) : Keeps R (BPlusTree.search key) :=
  (h.findLeaf _).bind fun _ => (keeps_derefLeaf _).bind fun _ => keeps_pure _

theorem treeInsert (h : TreeSteps R) (key value : Bytes) (lsn : ℕ) :
    Keeps R (BPlusTree.insert key value lsn) :=
  (keeps_raiseIfRecordTooLarge _ _).bind fun _ => (h.findLeaf _).bind fun _ =>
    (keeps_derefLeaf _).bind fun _ => (h.assign _ _).bind fun _ =>
      h.balanceLoop _ _ _ _ _

theorem treeDelete (h : TreeSteps R) (key : Bytes)
    (lsn : ℕ) : Keeps R (BPlusTree.delete key lsn) := by
  refine (h.findLeaf _).bind fun _ => (keeps_derefLeaf _).bind fun _ => ?_
  split
  · exact keeps_pure _
  · exact (h.assign _ _).bind fun _ => (h.balanceLoop _ _ _ _ _).bind fun _ =>
      keeps_pure _

theorem scanLoop (h : TreeSteps R) (stop : Option Bytes) (fuel : ℕ) :
    ∀ page idx, Keeps R (BPlusTree.scanLoop stop fuel page idx) := by
  induction fuel with
  | zero => exact fun _ _ => keeps_throw _
  | succ fuel ih =>
      intro page idx
      rw [BPlusTree.scanLoop]
      dsimp only
      split
      · exact (h.get _).bind fun _ => (keeps_derefLeaf _).bind fun _ =>
          (ih _ _).bind fun _ => keeps_pure _
      · exact keeps_pure _

theorem scan (h : TreeSteps R) (start stop : Option Bytes) : Keeps R (BPlusTree.scan start stop) :=
  (h.findLeaf _).bind fun _ => (keeps_derefLeaf _).bind fun _ =>
    keeps_getMeta.bind fun _ => h.scanLoop _ _ _ _

theorem applyWalRecord (h : TreeSteps R) (record : WALRecord) :
    Keeps R (DB.applyWalRecord record) := by
  refine keeps_get.bind fun w => ?_
  split
  · exact keeps_pure _
  · cases record with
    | put lsn key value => exact h.treeInsert key value lsn
    | delete lsn key => exact (h.treeDelete key lsn).bind fun _ => keeps_pure _
    | checkpoint lsn root head next => exact keeps_pure _

end TreeSteps

/-! ## Operations on the files -/

/-- A file-system call takes effect, or the machine has lost its power. -/
theorem fileSystemCall_cases (w : World) :
    (w.power = some 0 ∧ fileSystemCall w = .error .powerLoss w) ∨
      ∃ power, (w.power = none → power = none) ∧
        fileSystemCall w = .ok () { w with power := power } := by
  cases hw : w.power with
  | none =>
      refine .inr ⟨none, fun _ => rfl, ?_⟩
      simp only [fileSystemCall, run_bind, run_get, hw, run_pure]
      rw [← hw]
  | some n =>
      cases n with
      | zero => exact .inl ⟨rfl, by simp [fileSystemCall, run_bind, hw]⟩
      | succ n => exact .inr ⟨some n, by simp, by simp [fileSystemCall, run_bind, hw]⟩

/-- The relation holds between processes with the same buffer pool and version counter,
either both open or both closed, on a machine that keeps its power. -/
def LeavesRest (R : World → World → Prop) : Prop :=
  ∀ w w' : World, w'.pool = w.pool → w'.versionCounter = w.versionCounter →
    w'.isOpened = w.isOpened → (w.power = none → w'.power = none) → R w w'

namespace LeavesRest

omit [Std.Refl R] [IsTrans World R] in
theorem change (h : LeavesRest R) {f : World → World}
    (hf : ∀ w, (f w).pool = w.pool ∧ (f w).versionCounter = w.versionCounter ∧
      (f w).isOpened = w.isOpened ∧ (w.power = none → (f w).power = none)) :
    Keeps R (modify f : Eng Unit) :=
  fun w => h w (f w) (hf w).1 (hf w).2.1 (hf w).2.2.1 (hf w).2.2.2

omit [Std.Refl R] in
theorem change_bind (h : LeavesRest R) {f : World → World} {x : PUnit → Eng α}
    (hx : ∀ u, Keeps R (x u))
    (hf : ∀ w, (f w).pool = w.pool ∧ (f w).versionCounter = w.versionCounter ∧
      (f w).isOpened = w.isOpened ∧ (w.power = none → (f w).power = none)) :
    Keeps R (modify f >>= x) :=
  (h.change hf).bind hx

omit [IsTrans World R] in
theorem call (h : LeavesRest R) : Keeps R fileSystemCall := by
  intro w
  obtain ⟨-, hcall⟩ | ⟨power, hpower, hcall⟩ := fileSystemCall_cases w
  · rw [hcall]
    exact Std.Refl.refl w
  · rw [hcall]
    exact h w { w with power } rfl rfl rfl hpower

/-! ### The data file -/

theorem pagerFsync (h : LeavesRest R) : Keeps R Pager.fsync :=
  keeps_file.bind fun _ => h.call.bind fun _ => h.change fun _ => ⟨rfl, rfl, rfl, id⟩

theorem writePage (h : LeavesRest R) (pageId : ℕ) (data : Bytes) :
    Keeps R (Pager.writePage pageId data) :=
  keeps_file.bind fun _ => keeps_get.bind fun _ => h.call.bind fun _ =>
    h.change fun _ => ⟨rfl, rfl, rfl, id⟩

theorem updateMeta (h : LeavesRest R) (update : MetaPage → MetaPage) :
    Keeps R (Pager.updateMeta update) :=
  keeps_getMeta.bind fun _ => h.change fun _ => ⟨rfl, rfl, rfl, id⟩

theorem flushMeta (h : LeavesRest R) : Keeps R Pager.flushMeta :=
  keeps_getMeta.bind fun _ => (keeps_codec _).bind fun _ => (h.writePage _ _).bind fun _ =>
    h.change fun _ => ⟨rfl, rfl, rfl, id⟩

theorem flushFreelistPages (h : LeavesRest R) (ids : List ℕ) :
    Keeps R (Pager.flushFreelistPages ids) := by
  induction ids with
  | nil => exact keeps_pure _
  | cons pageId ids ih =>
      refine keeps_get.bind fun w => ?_
      split
      · exact ih
      · exact (keeps_codec _).bind fun _ => (h.writePage _ _).bind fun _ => ih

theorem flushDirtyFreelistPages (h : LeavesRest R) : Keeps R Pager.flushDirtyFreelistPages :=
  keeps_get.bind fun _ => (h.flushFreelistPages _).bind fun _ =>
    h.change fun _ => ⟨rfl, rfl, rfl, id⟩

theorem getFreelistPage (h : LeavesRest R) (pageId : ℕ) :
    Keeps R (Pager.getFreelistPage pageId) := by
  refine keeps_get.bind fun w => ?_
  split
  · exact keeps_pure _
  · refine (keeps_readPage pageId).bind fun data => (keeps_codec _).bind fun page => ?_
    split
    · exact h.change_bind (fun _ => keeps_pure _) fun _ => ⟨rfl, rfl, rfl, id⟩
    · exact keeps_throw _

theorem bumpAllocateOnePage (h : LeavesRest R) : Keeps R Pager.bumpAllocateOnePage := by
  refine keeps_getMeta.bind fun m => Keeps.bind ?_ fun _ => (h.updateMeta _).bind fun _ =>
    keeps_pure _
  exact keeps_file.bind fun _ => keeps_get.bind fun _ => h.call.bind fun _ =>
    h.change fun _ => ⟨rfl, rfl, rfl, id⟩

theorem allocatePage (h : LeavesRest R) : Keeps R Pager.allocatePage := by
  have hset : ∀ pageId page, Keeps R (Pager.markFreelistPageDirty pageId page) :=
    fun _ _ => h.change fun _ => ⟨rfl, rfl, rfl, id⟩
  have hforget : ∀ pageId, Keeps R (Pager.forgetFreelistPage pageId) :=
    fun _ => h.change fun _ => ⟨rfl, rfl, rfl, id⟩
  refine keeps_getMeta.bind fun m => ?_
  split
  · refine (h.getFreelistPage _).bind fun page => ?_
    split
    · exact (hset _ _).bind fun _ => (hforget _).bind fun _ => keeps_pure _
    · exact (h.updateMeta _).bind fun _ => (hforget _).bind fun _ => keeps_pure _
  · exact h.bumpAllocateOnePage

theorem freePage (h : LeavesRest R) (pageId : ℕ) : Keeps R (Pager.freePage pageId) := by
  have hset : ∀ pageId page, Keeps R (Pager.markFreelistPageDirty pageId page) :=
    fun _ _ => h.change fun _ => ⟨rfl, rfl, rfl, id⟩
  have hpush : Keeps R (Pager.pushFreelistHead pageId) :=
    h.bumpAllocateOnePage.bind fun _ => keeps_getMeta.bind fun _ => (hset _ _).bind fun _ =>
      h.updateMeta _
  refine keeps_getMeta.bind fun m => ?_
  split
  · refine (h.getFreelistPage _).bind fun page => keeps_get.bind fun w => ?_
    split
    · exact hset _ _
    · exact hpush
  · exact hpush

theorem pagerOpen (h : LeavesRest R) : Keeps R Pager.open_ := by
  refine keeps_get.bind fun w => ?_
  split
  · exact keeps_pure _
  · split
    · refine h.call.bind fun _ => h.change_bind (fun _ => ?_) fun _ => ⟨rfl, rfl, rfl, id⟩
      refine h.change_bind (fun _ => h.allocatePage.bind fun _ => ?_) fun _ => ⟨rfl, rfl, rfl, id⟩
      refine keeps_get.bind fun _ => (keeps_codec _).bind fun _ =>
        (h.writePage _ _).bind fun _ => ?_
      exact h.flushMeta.bind fun _ => h.pagerFsync
    · refine h.change_bind (fun _ => (keeps_readPage _).bind fun _ => ?_)
        fun _ => ⟨rfl, rfl, rfl, id⟩
      exact (keeps_codec _).bind fun _ => h.change fun _ => ⟨rfl, rfl, rfl, id⟩

theorem pagerClose (h : LeavesRest R) : Keeps R Pager.close := by
  have hend : Keeps R (do
      if (← get).pager.isMetaDirty then Pager.flushMeta
      Pager.fsync
      modify fun w => { w with pager := { w.pager with
        isOpen := false, freelistCache := [], dirtyFreelistPageIds := [] } } : Eng Unit) := by
    refine keeps_get.bind fun w => ?_
    split
    · exact h.flushMeta.bind fun _ => h.pagerFsync.bind fun _ =>
        h.change fun _ => ⟨rfl, rfl, rfl, id⟩
    · exact h.pagerFsync.bind fun _ => h.change fun _ => ⟨rfl, rfl, rfl, id⟩
  refine keeps_get.bind fun w => ?_
  split
  · exact keeps_pure _
  · split
    · exact h.flushDirtyFreelistPages.bind fun _ => hend
    · exact hend

/-! ### The log -/

theorem walFsync (h : LeavesRest R) : Keeps R WAL.fsync :=
  keeps_walFile.bind fun _ => h.call.bind fun _ => h.change fun _ => ⟨rfl, rfl, rfl, id⟩

theorem append (h : LeavesRest R) (record : WALRecord) : Keeps R (WAL.append record) := by
  refine keeps_walFile.bind fun _ => (keeps_codec _).bind fun _ => ?_
  refine h.change_bind (fun _ => h.call.bind fun _ => ?_) fun _ => ⟨rfl, rfl, rfl, id⟩
  exact h.change_bind (fun _ => h.walFsync.bind fun _ => keeps_pure _) fun _ => ⟨rfl, rfl, rfl, id⟩

theorem truncateBefore (h : LeavesRest R) (lsn : ℕ) : Keeps R (WAL.truncateBefore lsn) := by
  have hset : ∀ f, Keeps R (WAL.setTemp f) := fun _ => h.change fun _ => ⟨rfl, rfl, rfl, id⟩
  refine keeps_walFile.bind fun f => h.call.bind fun _ => (hset _).bind fun _ => ?_
  refine (keeps_codec _).bind fun kept => h.call.bind fun _ => (hset _).bind fun _ => ?_
  have hend : Keeps R (do
      fileSystemCall
      WAL.setTemp ⟨kept, kept⟩
      modify fun w => { w with wal := { w.wal with isOpen := false } }
      fileSystemCall
      modify fun w => { w with disk := { w.disk with
        wal := some ⟨kept, kept⟩, walTemp := none, replacedWal := some f } }
      fileSystemCall
      modify fun w => { w with
        disk := { w.disk with replacedWal := none }, wal := { w.wal with isOpen := true } } :
      Eng Unit) := by
    refine h.call.bind fun _ => (hset _).bind fun _ => ?_
    refine h.change_bind (fun _ => h.call.bind fun _ => ?_) fun _ => ⟨rfl, rfl, rfl, id⟩
    refine h.change_bind (fun _ => h.call.bind fun _ => ?_) fun _ => ⟨rfl, rfl, rfl, id⟩
    exact h.change fun _ => ⟨rfl, rfl, rfl, id⟩
  split
  · exact (keeps_throw _).bind fun _ => hend
  · exact hend

theorem walOpen (h : LeavesRest R) : Keeps R WAL.open_ := by
  have hend : Keeps R (do
      if (← get).disk.wal.isNone then
        fileSystemCall
        modify fun w => { w with disk := { w.disk with wal := some .empty } }
      modify fun w => { w with wal := { isOpen := true, currentLsn := 0 } } : Eng Unit) := by
    refine keeps_get.bind fun w => ?_
    split
    · refine h.call.bind fun _ => h.change_bind (fun _ => ?_) fun _ => ⟨rfl, rfl, rfl, id⟩
      exact h.change fun _ => ⟨rfl, rfl, rfl, id⟩
    · exact h.change fun _ => ⟨rfl, rfl, rfl, id⟩
  refine keeps_get.bind fun w => ?_
  split
  · exact keeps_pure _
  · refine keeps_get.bind fun w => ?_
    split
    · exact h.call.bind fun _ => h.change_bind (fun _ => hend) fun _ => ⟨rfl, rfl, rfl, id⟩
    · exact hend

theorem walClose (h : LeavesRest R) : Keeps R WAL.close := by
  refine keeps_get.bind fun w => ?_
  split
  · exact h.walFsync.bind fun _ => h.change fun _ => ⟨rfl, rfl, rfl, id⟩
  · exact keeps_pure _

theorem repair (h : LeavesRest R) : Keeps R DB.repairPagerMetaFromWalCheckpoint := by
  refine keeps_getMeta.bind fun m => keeps_walFile.bind fun f => ?_
  dsimp only
  split
  on_goal 1 => refine (keeps_throw _).bind fun _ => ?_
  -- with or without an error of the reader, what is left is the update from the last checkpoint
  all_goals
    split
    · exact keeps_pure _
    · split
      · exact keeps_pure _
      · exact h.updateMeta _

end LeavesRest

/-! ## Operations of a handle -/

/-- The steps of a checkpoint keep the relation. -/
structure FlushSteps (R : World → World → Prop) : Prop where
  rest : LeavesRest R
  /-- A page that was written is clean. -/
  clean : ∀ (w : World) pageId, R w { w with pool := { w.pool with
    cache := w.pool.cache.map fun entry =>
      if entry.1 = pageId then (pageId, { entry.2 with isDirty := false }) else entry } }

namespace FlushSteps

theorem flushPages (h : FlushSteps R) (entries : List (ℕ × CachedPage)) :
    Keeps R (BufferPool.flushPages entries) := by
  induction entries with
  | nil => exact keeps_pure _
  | cons entry entries ih =>
      obtain ⟨pageId, cached⟩ := entry
      rw [BufferPool.flushPages]
      split
      · refine (keeps_deref _).bind fun _ => keeps_get.bind fun _ =>
          (keeps_codec _).bind fun _ => ?_
        refine (h.rest.writePage _ _).bind fun _ w => ?_
        exact IsTrans.trans _ _ _ (h.clean w pageId) (ih _)
      · exact ih

theorem flushAll (h : FlushSteps R) : Keeps R BufferPool.flushAll :=
  keeps_get.bind fun _ => h.flushPages _

theorem checkpoint (h : FlushSteps R) : Keeps R DB.checkpoint := by
  refine Keeps.bind ?_ fun lsn => ?_
  · refine keeps_get.bind fun w => h.flushAll.bind fun _ => ?_
    refine h.rest.flushDirtyFreelistPages.bind fun _ => h.rest.pagerFsync.bind fun _ => ?_
    refine keeps_getMeta.bind fun m => ?_
    exact (keeps_get.bind fun _ => h.rest.append _).bind fun _ => keeps_pure _
  · refine (h.rest.updateMeta _).bind fun _ => h.rest.flushMeta.bind fun _ => ?_
    exact h.rest.pagerFsync.bind fun _ => h.rest.truncateBefore _

theorem maybeCheckpoint (h : FlushSteps R) : Keeps R DB.maybeCheckpoint := by
  refine keeps_shouldCheckpoint.bind fun b => ?_
  split
  · exact h.checkpoint
  · exact keeps_pure _

theorem closeFilesAndRaise (h : FlushSteps R) (e : Err) : Keeps R (DB.closeFilesAndRaise e) := by
  have hend : Keeps R (do
      WAL.close
      Pager.close
      throw e : Eng Unit) :=
    h.rest.walClose.bind fun _ => h.rest.pagerClose.bind fun _ => keeps_throw _
  unfold DB.closeFilesAndRaise
  split
  · exact (keeps_throw _).bind fun _ => hend
  · exact hend

end FlushSteps

/-- The steps of the operations of a handle keep the relation. -/
structure HandleSteps (R : World → World → Prop) : Prop extends TreeSteps R, FlushSteps R

namespace HandleSteps

theorem replayLoop (h : HandleSteps R) (records : List (WALRecord × ℕ)) :
    ∀ position, Keeps R (WAL.replayLoop DB.applyWalRecord records position) := by
  induction records with
  | nil => exact fun _ => keeps_pure _
  | cons entry records ih =>
      obtain ⟨record, position⟩ := entry
      intro _
      exact h.rest.change_bind (fun _ => (h.applyWalRecord record).bind fun _ =>
        ih _) fun _ => ⟨rfl, rfl, rfl, id⟩

theorem repairAndReplay (h : HandleSteps R) : Keeps R DB.repairAndReplay := by
  refine h.rest.repair.bind fun _ => keeps_getMeta.bind fun _ => ?_
  refine h.rest.change_bind (fun _ => keeps_walFile.bind fun f => ?_) fun _ => ⟨rfl, rfl, rfl, id⟩
  refine h.rest.change_bind (fun _ => (h.replayLoop _ _).bind fun position => ?_) fun _ =>
    ⟨rfl, rfl, rfl, id⟩
  split
  · exact keeps_throw _
  · exact h.rest.call.bind fun _ => h.rest.change_bind (fun _ => h.rest.walFsync) fun _ =>
      ⟨rfl, rfl, rfl, id⟩

/-! ### Public operations

A change is counted, so the relation must hold between two counts. -/

/-- The relation holds when a change is counted. -/
def Counts (R : World → World → Prop) : Prop :=
  ∀ w : World, R w { w with versionCounter := w.versionCounter + 1 }

theorem put (h : HandleSteps R) (hcount : Counts R) (key value : DB.PyArg) :
    Keeps R (DB.put key value) := by
  refine keeps_checkIfOpened.bind fun _ => (keeps_ensureBytesType key _).bind fun key => ?_
  refine (keeps_ensureBytesType value _).bind fun value => ?_
  refine (keeps_raiseIfRecordTooLarge key value).bind fun _ => h.maybeCheckpoint.bind fun _ => ?_
  refine Keeps.bind ?_ fun _ => h.maybeCheckpoint
  refine (keeps_get.bind fun w => h.rest.append _).bind fun lsn => ?_
  exact (h.treeInsert key value lsn).bind fun _ => keeps_modify hcount

theorem dbGet (h : HandleSteps R) (key : DB.PyArg) : Keeps R (DB.get key) :=
  keeps_checkIfOpened.bind fun _ => (keeps_ensureBytesType key _).bind fun key => h.search key

theorem dbDelete (h : HandleSteps R) (hcount : Counts R) (key : DB.PyArg) :
    Keeps R (DB.delete key) := by
  refine keeps_checkIfOpened.bind fun _ => (keeps_ensureBytesType key _).bind fun key => ?_
  refine (h.search key).bind fun found => ?_
  split
  · exact keeps_pure _
  · refine h.maybeCheckpoint.bind fun _ => Keeps.bind ?_ fun _ =>
      h.maybeCheckpoint.bind fun _ => keeps_pure _
    refine (keeps_get.bind fun w => h.rest.append _).bind fun lsn => ?_
    refine (h.treeDelete key lsn).bind fun _ => (keeps_assert _ _).bind fun _ => ?_
    exact keeps_modify hcount

end HandleSteps

end BPTreeDB.Engine
