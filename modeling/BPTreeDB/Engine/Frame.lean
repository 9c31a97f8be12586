import BPTreeDB.Engine.Steps

/-!
# What an operation of the tree leaves alone

Whatever the outcome, reading or changing the tree writes nothing: the data file only
grows by zero-filled pages, one for each page id that was handed out from its end, and
the log and the rest of the handle stay as they are.
-/

namespace BPTreeDB.Engine

open Lib Eng Codec Lib.Program

/-- A file after `n` zero bytes were appended to it. -/
def grow (n : ℕ) (f : FileState) : FileState :=
  { f with content := f.content ++ List.replicate n 0 }

/-- The part of a world that the tree does not change. -/
structure Frozen where
  walFile : Option FileState
  walTemp : Option FileState
  replacedWal : Option FileState
  wal : WAL
  config : Config
  isOpened : Bool
  versionCounter : ℕ
  recoveryLastCheckpointLsn : ℕ
  pageSizeBytes : ℕ
  pagerIsOpen : Bool
  capacityPages : ℕ
  evictionEnabled : Bool
  metaFields : Option (ℕ × ℕ)

def frozen (w : World) : Frozen where
  walFile := w.disk.wal
  walTemp := w.disk.walTemp
  replacedWal := w.disk.replacedWal
  wal := w.wal
  config := w.config
  isOpened := w.isOpened
  versionCounter := w.versionCounter
  recoveryLastCheckpointLsn := w.recoveryLastCheckpointLsn
  pageSizeBytes := w.pager.pageSizeBytes
  pagerIsOpen := w.pager.isOpen
  capacityPages := w.pool.capacityPages
  evictionEnabled := w.pool.evictionEnabled
  metaFields := w.pager.metaPage.map fun m => (m.pageSizeBytes, m.lastCheckpointLsn)

/-- From `w` to `w'` the data file grew by zero-filled pages, and nothing else was
written. -/
structure NoSteal (w w' : World) : Prop where
  frozen : frozen w' = frozen w
  power : w.power = none → w'.power = none
  data : ∃ k, w'.disk.data = w.disk.data.map (grow (k * w.pager.pageSizeBytes)) ∧
    w'.pager.metaPage.map (·.nextPageId) = w.pager.metaPage.map (·.nextPageId + k)

theorem grow_zero : grow 0 = id := by
  funext f
  show (⟨f.content ++ [], f.synced⟩ : FileState) = f
  rw [List.append_nil]

theorem grow_grow (m n : ℕ) (f : FileState) : grow n (grow m f) = grow (m + n) f := by
  simp [grow]

/-- A step that touches neither the files nor the counters. -/
theorem NoSteal.of_eq {w w' : World} (hfrozen : Engine.frozen w' = Engine.frozen w)
    (hpower : w'.power = w.power) (hdata : w'.disk.data = w.disk.data)
    (hnext : w'.pager.metaPage.map (·.nextPageId) = w.pager.metaPage.map (·.nextPageId)) :
    NoSteal w w' where
  frozen := hfrozen
  power h := by rw [hpower, h]
  data := ⟨0, by simp [hdata, grow_zero], by simp [hnext]⟩

instance : Std.Refl NoSteal := ⟨fun _ => .of_eq rfl rfl rfl rfl⟩

theorem NoSteal.trans {w w' w'' : World} (h : NoSteal w w') (h' : NoSteal w' w'') :
    NoSteal w w'' where
  frozen := h'.frozen.trans h.frozen
  power hw := h'.power (h.power hw)
  data := by
    obtain ⟨k, hdata, hnext⟩ := h.data
    obtain ⟨k', hdata', hnext'⟩ := h'.data
    have hsize : w'.pager.pageSizeBytes = w.pager.pageSizeBytes :=
      congrArg Frozen.pageSizeBytes h.frozen
    refine ⟨k + k', ?_, ?_⟩
    · rw [hdata', hdata, hsize, Option.map_map, Nat.add_mul]
      congr 1
      funext f
      exact grow_grow _ _ _
    · cases hm : w.pager.metaPage with
      | none =>
          rw [hm] at hnext
          simp only [Option.map_none, Option.map_eq_none_iff] at hnext
          rw [hnext', hnext]
          rfl
      | some m =>
          rw [hm, Option.map_some] at hnext
          obtain ⟨m', hm', hnext⟩ := Option.map_eq_some_iff.mp hnext
          rw [hnext', hm']
          simp [hnext, Nat.add_assoc]

instance : IsTrans World NoSteal := ⟨fun _ _ _ => NoSteal.trans⟩

/-! ## File calls -/

/-- The open page file, or an assertion. -/
theorem file_cases (w : World) :
    (∃ f, w.pager.isOpen = true ∧ w.disk.data = some f ∧ Pager.file w = .ok f w) ∨
      Pager.file w = .error (.assertionError "self._file is not None") w := by
  cases hopen : w.pager.isOpen with
  | false => exact .inr (by simp [Pager.file, run_bind, hopen])
  | true =>
      cases hdata : w.disk.data with
      | none => exact .inr (by simp [Pager.file, run_bind, hopen, hdata])
      | some f => exact .inl ⟨f, rfl, rfl, by simp [Pager.file, run_bind, hopen, hdata]⟩

/-! ## Primitives -/

theorem noSteal_fileSystemCall : Keeps NoSteal fileSystemCall := by
  intro w
  obtain ⟨-, hcall⟩ | ⟨power, hpower, hcall⟩ := fileSystemCall_cases w
  · rw [hcall]
    exact Std.Refl.refl w
  · rw [hcall]
    exact ⟨rfl, hpower, 0, by simp [grow_zero], by simp⟩

/-- Updates of the meta page that keep the fields a checkpoint publishes. -/
theorem noSteal_updateMeta {update : MetaPage → MetaPage}
    (hsize : ∀ m, (update m).pageSizeBytes = m.pageSizeBytes)
    (hlsn : ∀ m, (update m).lastCheckpointLsn = m.lastCheckpointLsn)
    (hnext : ∀ m, (update m).nextPageId = m.nextPageId) :
    Keeps NoSteal (Pager.updateMeta update) := by
  intro w
  cases hm : w.pager.metaPage with
  | none =>
      simpa [Pager.updateMeta, Pager.getMeta, run_bind, hm] using Std.Refl.refl w
  | some m =>
      simp only [Pager.updateMeta, Pager.getMeta, run_bind, run_get, hm, run_pure, run_modify,
        final_ok]
      exact .of_eq (by simp [frozen, hm, hsize, hlsn]) rfl rfl (by simp [hm, hnext])

/-- A change of the freelist cache. -/
theorem noSteal_modify_pager {f : Pager → Pager}
    (hf : ∀ p, (f p).pageSizeBytes = p.pageSizeBytes ∧ (f p).isOpen = p.isOpen ∧
      (f p).metaPage = p.metaPage) :
    Keeps NoSteal (modify fun w : World => { w with pager := f w.pager } : Eng Unit) :=
  keeps_modify fun w => by
    obtain ⟨hsize, hopen, hmeta⟩ := hf w.pager
    exact .of_eq (by simp [frozen, hsize, hopen, hmeta]) rfl rfl (by simp [hmeta])

/-- A change of the cached pages and the page objects. -/
theorem noSteal_modify_pool {f : BufferPool → BufferPool}
    (hf : ∀ p, (f p).capacityPages = p.capacityPages ∧ (f p).evictionEnabled = p.evictionEnabled) :
    Keeps NoSteal (modify fun w : World => { w with pool := f w.pool } : Eng Unit) :=
  keeps_modify fun w => by
    obtain ⟨hcap, hevict⟩ := hf w.pool
    exact .of_eq (by simp [frozen, hcap, hevict]) rfl rfl rfl

/-! ## The pager -/

theorem noSteal_markFreelistPageDirty (pageId : ℕ) (page : FreelistPage) :
    Keeps NoSteal (Pager.markFreelistPageDirty pageId page) :=
  noSteal_modify_pager (f := fun p => { p with
    freelistCache := (pageId, page) :: p.freelistCache.filter (·.1 ≠ pageId)
    dirtyFreelistPageIds := pageId :: p.dirtyFreelistPageIds.filter (· ≠ pageId) })
    fun _ => ⟨rfl, rfl, rfl⟩

theorem noSteal_forgetFreelistPage (pageId : ℕ) :
    Keeps NoSteal (Pager.forgetFreelistPage pageId) :=
  noSteal_modify_pager (f := fun p => { p with
    freelistCache := p.freelistCache.filter (·.1 ≠ pageId)
    dirtyFreelistPageIds := p.dirtyFreelistPageIds.filter (· ≠ pageId) })
    fun _ => ⟨rfl, rfl, rfl⟩

theorem noSteal_getFreelistPage (pageId : ℕ) : Keeps NoSteal (Pager.getFreelistPage pageId) := by
  refine keeps_get.bind fun w => ?_
  split
  · exact keeps_pure _
  · refine (keeps_readPage pageId).bind fun data => (keeps_codec _).bind fun page => ?_
    split
    · refine .bind ?_ fun _ => keeps_pure _
      exact noSteal_modify_pager (f := fun p => { p with
        freelistCache := (pageId, _) :: p.freelistCache }) fun _ => ⟨rfl, rfl, rfl⟩
    · exact keeps_throw _

/-- The file grows by the page whose id is handed out. -/
theorem noSteal_bumpAllocateOnePage : Keeps NoSteal Pager.bumpAllocateOnePage := by
  intro w
  have hrefl : NoSteal w w := Std.Refl.refl w
  cases hm : w.pager.metaPage with
  | none => simpa [Pager.bumpAllocateOnePage, Pager.getMeta, run_bind, hm] using hrefl
  | some m =>
      simp only [Pager.bumpAllocateOnePage, Pager.extendFileByOnePage, Pager.getMeta, run_bind,
        run_get, hm, run_pure]
      obtain ⟨f, -, hdata, hfile⟩ | hfile := file_cases w
      · obtain ⟨-, hcall⟩ | ⟨power, hpower, hcall⟩ := fileSystemCall_cases w
        · simpa only [hfile, hcall, final_error] using hrefl
        · simp only [hfile, hcall, Pager.setFile, Pager.updateMeta, Pager.getMeta, run_bind,
            run_get, run_modify, hm, run_pure, final_ok]
          refine ⟨by simp [frozen, hm], hpower, 1, ?_, by simp [hm]⟩
          simp [hdata, grow, FileState.write]
      · simpa only [hfile, final_error] using hrefl

theorem noSteal_allocatePage : Keeps NoSteal Pager.allocatePage := by
  refine keeps_getMeta.bind fun m => ?_
  split
  · refine (noSteal_getFreelistPage _).bind fun page => ?_
    split
    · exact (noSteal_markFreelistPageDirty _ _).bind fun _ =>
        (noSteal_forgetFreelistPage _).bind fun _ => keeps_pure _
    · refine .bind ?_ fun _ => (noSteal_forgetFreelistPage _).bind fun _ => keeps_pure _
      exact noSteal_updateMeta (fun _ => rfl) (fun _ => rfl) (fun _ => rfl)
  · exact noSteal_bumpAllocateOnePage

theorem noSteal_pushFreelistHead (pageId : ℕ) : Keeps NoSteal (Pager.pushFreelistHead pageId) :=
  noSteal_bumpAllocateOnePage.bind fun _ => keeps_getMeta.bind fun _ =>
    (noSteal_markFreelistPageDirty _ _).bind fun _ =>
      noSteal_updateMeta (fun _ => rfl) (fun _ => rfl) (fun _ => rfl)

theorem noSteal_freePage (pageId : ℕ) : Keeps NoSteal (Pager.freePage pageId) := by
  refine keeps_getMeta.bind fun m => ?_
  split
  · refine (noSteal_getFreelistPage _).bind fun page => keeps_get.bind fun w => ?_
    split
    · exact noSteal_markFreelistPageDirty _ _
    · exact noSteal_pushFreelistHead _
  · exact noSteal_pushFreelistHead _

/-! ## The buffer pool -/

theorem noSteal_setCache (cache : List (ℕ × CachedPage)) :
    Keeps NoSteal (BufferPool.setCache cache) :=
  noSteal_modify_pool (f := fun p => { p with cache }) fun _ => ⟨rfl, rfl⟩

theorem noSteal_newObject (page : Page) : Keeps NoSteal (newObject page) := by
  intro w
  exact .of_eq rfl rfl rfl rfl

theorem noSteal_assign (ref : Ref) (page : Page) : Keeps NoSteal (assign ref page) :=
  noSteal_modify_pool (f := fun p => { p with objects := p.objects.set ref page })
    fun _ => ⟨rfl, rfl⟩

theorem noSteal_evict : Keeps NoSteal BufferPool.evictOldestCleanPageIfFull := by
  refine keeps_get.bind fun w => ?_
  dsimp only
  split
  · split
    · exact keeps_throw _
    · exact noSteal_setCache _
  · exact keeps_pure _

theorem noSteal_get (pageId : ℕ) : Keeps NoSteal (BufferPool.get pageId) := by
  refine keeps_get.bind fun w => ?_
  dsimp only
  split
  · exact (noSteal_setCache _).bind fun _ => keeps_pure _
  · refine noSteal_evict.bind fun _ => (keeps_readPage _).bind fun _ =>
      (keeps_codec _).bind fun page => ?_
    split
    · exact (noSteal_newObject _).bind fun _ => keeps_get.bind fun _ =>
        (noSteal_setCache _).bind fun _ => keeps_pure _
    · exact keeps_throw _

theorem noSteal_insert (pageId : ℕ) (page : Page) (lsn : ℕ) :
    Keeps NoSteal (BufferPool.insert pageId page lsn) :=
  keeps_get.bind fun _ => (keeps_assert _ _).bind fun _ => noSteal_evict.bind fun _ =>
    (noSteal_newObject _).bind fun _ => keeps_get.bind fun _ =>
      (noSteal_setCache _).bind fun _ => keeps_pure _

theorem noSteal_markDirty (pageId lsn : ℕ) : Keeps NoSteal (BufferPool.markDirty pageId lsn) := by
  refine keeps_get.bind fun w => ?_
  dsimp only
  split
  · exact keeps_throw _
  · exact (noSteal_setCache _).bind fun _ => (keeps_deref _).bind fun _ => noSteal_assign _ _

theorem noSteal_poolDelete (pageId : ℕ) : Keeps NoSteal (BufferPool.delete pageId) :=
  keeps_get.bind fun _ => noSteal_setCache _

/-- The steps of a tree operation write nothing. -/
theorem noSteal_steps : TreeSteps NoSteal where
  get := noSteal_get
  insert := noSteal_insert
  markDirty := noSteal_markDirty
  delete := noSteal_poolDelete
  assign := noSteal_assign
  allocatePage := noSteal_allocatePage
  freePage := noSteal_freePage
  moveRoot _ := noSteal_updateMeta (fun _ => rfl) (fun _ => rfl) (fun _ => rfl)

end BPTreeDB.Engine
