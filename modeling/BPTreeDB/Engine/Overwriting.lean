import BPTreeDB.Engine.Checkpoint

/-!
# Pages written in place

A checkpoint writes the dirty pages over those of the last checkpoint, one after the other.
Where it stops half way, every page of the data file is the one that was there before or the
one that the process holds.  The pages of the freelist are written behind the tree, so nothing
of the freelist has changed if none of its pages is dirty.
-/

namespace BPTreeDB.Engine

open Lib Eng Codec Lib.Program PageStore WAL

variable {w w' : World} {C : Content} {f : FileState} {m : MetaPage} {e : Err}
  {content content' content'' : Bytes}

/-! ## Files in which pages were written over others -/

/-- Every page of the second file is as it is in the first one, or it is a page of `C`. -/
def Overwrites (C : Content) (content content' : Bytes) : Prop :=
  ∀ x, (∀ page, OnDisk content C.pageSize x page → OnDisk content' C.pageSize x page) ∨
    ∃ page, C.pages x = some page ∧ OnDisk content' C.pageSize x (.tree page)

theorem Overwrites.refl (C : Content) (content : Bytes) : Overwrites C content content :=
  fun _ => .inl fun _ h => h

theorem Overwrites.trans (h : Overwrites C content content')
    (h' : Overwrites C content' content'') : Overwrites C content content'' := by
  intro x
  rcases h' x with hkept' | hnew
  · rcases h x with hkept | ⟨page, hpage, hdisk⟩
    · exact .inl fun page hdisk => hkept' page (hkept page hdisk)
    · exact .inr ⟨page, hpage, hkept' _ hdisk⟩
  · exact .inr hnew

/-- A page that the process holds is written. -/
theorem Overwrites.write {pageId : ℕ} {page : Page} {data : Bytes} (hst : Storable C)
    (hpage : C.pages pageId = some page)
    (hdata : encodePage (.tree page) C.pageSize = .ok data) :
    Overwrites C content (writeAt content (pageId * C.pageSize) data) := by
  have hfits : Fits C.pageSize (.tree page) := hst.fits _ _ hpage
  obtain ⟨hlen, hdisk⟩ := OnDisk.write_self content pageId
    (encodable_of_encodePage hst.pageSize hfits hdata) hdata
  intro x
  by_cases hid : x = pageId
  · subst hid
    exact .inr ⟨page, hpage, hdisk⟩
  · exact .inl fun q hq => hq.write_of_ne hlen hid

/-! ## The loop of a flush -/

/-- From `w` to `w'` pages of the process were written, and the pager did not notice. -/
structure InPlace (C : Content) (w w' : World) : Prop where
  pages : Overwrites C (dataContent w) (dataContent w')
  pager : w'.pager = w.pager

theorem InPlace.refl (C : Content) (w : World) : InPlace C w w := ⟨.refl C _, rfl⟩

theorem InPlace.trans {w'' : World} (h : InPlace C w w') (h' : InPlace C w' w'') :
    InPlace C w w'' :=
  ⟨h.pages.trans h'.pages, h'.pager.trans h.pager⟩

/-- Wherever the loop of `flush_all` stops, it has written pages of the process only. -/
theorem inPlace_flushPages (hst : Storable C) (entries : List (ℕ × CachedPage)) :
    ∀ w, Quiet w C →
      (∀ e ∈ entries, (e.1, e.2.page) ∈ w.pool.cache.map fun e => (e.1, e.2.page)) →
      InPlace C w (final (BufferPool.flushPages entries w)) := by
  induction entries with
  | nil => exact fun w _ _ => .refl C w
  | cons entry rest ih =>
      intro w hq hmem
      obtain ⟨pageId, cached⟩ := entry
      have hrest : ∀ e ∈ rest, (e.1, e.2.page) ∈ w.pool.cache.map fun e => (e.1, e.2.page) :=
        fun e he => hmem e (List.mem_cons_of_mem _ he)
      unfold BufferPool.flushPages
      by_cases hc : cached.isDirty = true
      · obtain ⟨f, hf⟩ := Option.isSome_iff_exists.mp hq.data
        obtain ⟨page, hpage, hobject⟩ := hq.pool.object (pageId, cached.page)
          (by simpa [handles] using hmem _ (List.mem_cons_self ..))
        have hpage : C.pages pageId = some page := hpage
        have hderef : Eng.deref cached.page w = .ok page w := by
          simp [Eng.deref, run_bind, hobject]
        have hsize : w.pager.pageSizeBytes = C.pageSize := hq.pageSize
        simp only [if_pos hc, run_bind, hderef, run_get, hsize]
        cases hdata : encodePage (.tree page) C.pageSize with
        | error e => exact .refl C w
        | ok data =>
            simp only [Eng.codec, run_pure]
            obtain ⟨-, hwrite⟩ | ⟨power, -, hwrite⟩ := writePage_cases hq.isOpen hf pageId data
            · rw [hwrite]
              exact .refl C w
            · -- The page is on disk, and the loop goes on from there.
              simp only [hwrite, BufferPool.setCache, run_modify]
              obtain ⟨-, hq'⟩ := hq.writeTree hst hf hpage hdata power
              have hcontent : dataContent w = f.content := by simp [dataContent, hf]
              have hnext := ih _ hq' fun e he => by
                rw [map_markedClean]
                exact hrest e he
              refine InPlace.trans ?_ hnext
              refine ⟨?_, rfl⟩
              rw [hcontent]
              have hwritten : Overwrites C f.content _ := .write hst hpage hdata
              rw [← hsize] at hwritten
              exact hwritten
      · simp only [if_neg hc]
        exact ih w hq hrest

theorem inPlace_flushAll (hst : Storable C) (hq : Quiet w C) :
    InPlace C w (final (BufferPool.flushAll w)) := by
  rw [BufferPool.flushAll, run_bind_ok (run_get w)]
  exact inPlace_flushPages hst _ w hq fun e he =>
    List.mem_map_of_mem (f := fun e : ℕ × CachedPage => (e.1, e.2.page)) he

/-- A flush of the freelist writes nothing if no page of it is dirty. -/
theorem flushDirtyFreelistPages_clean (hclean : w.pager.dirtyFreelistPageIds = []) :
    ∃ w', Pager.flushDirtyFreelistPages w = .ok () w' ∧ w'.disk = w.disk ∧
      w'.pager.isOpen = w.pager.isOpen := by
  have hloop : Pager.flushFreelistPages (w.pager.dirtyFreelistPageIds.insertionSort (· ≤ ·)) w =
      .ok () w := by
    rw [hclean]
    rfl
  refine ⟨{ w with pager := { w.pager with dirtyFreelistPageIds := [] } }, ?_, rfl, rfl⟩
  rw [Pager.flushDirtyFreelistPages, run_bind_ok (run_get w), run_bind_ok hloop]
  rfl

/-- Where no page of the freelist is dirty, the first part of a checkpoint writes pages of the
tree only, wherever it stops. -/
theorem overwrites_persist (hst : Storable C) (hq : Quiet w C)
    (hclean : w.pager.dirtyFreelistPageIds = []) :
    Overwrites C (dataContent w) (dataContent (final (persist w))) := by
  have hflush := inPlace_flushAll hst hq
  have hspec := flushAll_spec hst hq
  unfold persist
  cases hrun : BufferPool.flushAll w with
  | error e w₁ =>
      rw [hrun] at hflush
      rw [run_bind_error hrun]
      exact hflush.pages
  | ok _ w₁ =>
      rw [hrun] at hflush hspec
      obtain ⟨hq₁, -⟩ := hspec
      obtain ⟨w₂, hfree, hdisk, hopen⟩ :=
        flushDirtyFreelistPages_clean (w := w₁) ((congrArg _ hflush.pager).trans hclean)
      obtain ⟨f, hf⟩ := Option.isSome_iff_exists.mp hq₁.data
      rw [run_bind_ok hrun, run_bind_ok hfree]
      have hsame : dataContent (final (Pager.fsync w₂)) = dataContent w₁ := by
        obtain ⟨-, hsync⟩ | ⟨power, -, hsync⟩ :=
          pagerFsync_cases (w := w₂) (hopen.trans hq₁.isOpen) (hdisk ▸ hf)
        · rw [hsync, final_error]
          unfold dataContent
          rw [hdisk]
        · rw [hsync, final_ok]
          simp [dataContent, hf, FileState.fsync]
      rw [hsame]
      exact hflush.pages

/-! ## The first half of a checkpoint -/

/-- What the first half of a checkpoint leaves where it raises: some of the pages are written,
or all of them are durable and the log has the record or not. -/
inductive BeginFails (C : Content) (m : MetaPage) (w : World) (f : FileState) (w' : World) : Prop
  | flushing : Flushes w w' →
      (w.pager.dirtyFreelistPageIds = [] → Overwrites C (dataContent w) (dataContent w')) →
      BeginFails C m w f w'
  | logging {power : Option ℕ} {content : Bytes} {cache : List (ℕ × CachedPage)} :
      Persisted C m w power content cache → w'.disk.data = some ⟨content, content⟩ →
      (w'.disk.wal = some f ∨ WalEncodable (checkpointRecord m (w.wal.currentLsn + 1)) ∧
        w'.disk.wal = some (appendedFile f (checkpointRecord m (w.wal.currentLsn + 1)))) →
      w'.disk.replacedWal = w.disk.replacedWal → BeginFails C m w f w'

theorem checkpointBegin_fails (hst : Storable C) (hq : Quiet w C)
    (hm : w.pager.metaPage = some m) (hopen : w.wal.isOpen = true) (hf : w.disk.wal = some f)
    (hrun : DB.checkpointBegin w = .error e w') : BeginFails C m w f w' := by
  have hbegin : DB.checkpointBegin w = (persist >>= fun _ => Pager.getMeta >>= fun m =>
      WAL.appendCheckpoint m.rootPageId m.freelistHeadPageId m.nextPageId >>= fun _ =>
        pure (w.wal.currentLsn + 1)) w := by
    rw [DB.checkpointBegin, persist]
    simp only [bind_assoc]
    rfl
  have hpersist := persist_outcome hst hq hm
  have hpages := overwrites_persist hst hq
  rw [hbegin] at hrun
  rcases bind_eq_error.mp hrun with hfirst | ⟨_, w₁, hfirst, hrest⟩
  · rw [hfirst] at hpersist hpages
    cases hpersist with
    | failed hfails => exact .flushing hfails.flushes hpages
  · rw [hfirst] at hpersist
    cases hpersist with
    | @done power content cache hp =>
        have hm' : (persisted w power content cache).pager.metaPage = some m := hm
        have hget : Pager.getMeta (persisted w power content cache) =
            .ok m (persisted w power content cache) := by
          simp [Pager.getMeta, run_bind, hm']
        rw [run_bind_ok hget] at hrest
        have happend := append_outcome (w := persisted w power content cache) hopen hf
          (checkpointRecord m (w.wal.currentLsn + 1))
        have hcall : WAL.appendCheckpoint m.rootPageId m.freelistHeadPageId m.nextPageId
            (persisted w power content cache) =
            WAL.append (checkpointRecord m (w.wal.currentLsn + 1))
              (persisted w power content cache) := rfl
        rcases bind_eq_error.mp hrest with hlost | ⟨_, _, -, hpure⟩
        · rw [← hcall, hlost] at happend
          cases happend with
          | refused hnot => exact .logging hp rfl (.inl hf) rfl
          | lostBefore hencodable _ => exact .logging hp rfl (.inl hf) rfl
          | lostBetween hencodable _ => exact .logging hp rfl (.inr ⟨hencodable, rfl⟩) rfl
        · cases hpure

end BPTreeDB.Engine
