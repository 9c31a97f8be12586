import BPTreeDB.Model.World

/-!
# The pager

The operations of `pager.py`: page reads and writes, the meta page, and the page
allocator with its freelist.
-/

namespace BPTreeDB.Pager

open Lib Eng Codec

def metaPageId : ℕ := 0
def defaultRootPageId : ℕ := 1

/-! ## The page file -/

/-- The open page file; the methods of the pager assert that there is one. -/
def file : Eng FileState := do
  let w ← get
  match w.pager.isOpen, w.disk.data with
  | true, some f => return f
  | _, _ => throw (.assertionError "self._file is not None")

/-- Replace the state of the page file. -/
def setFile (f : FileState) : Eng Unit :=
  modify fun w => { w with disk := { w.disk with data := some f } }

/-- `_extend_file_by_one_page`. -/
def extendFileByOnePage : Eng Unit := do
  let f ← file
  let w ← get
  fileSystemCall
  setFile (f.write (f.content ++ List.replicate w.pager.pageSizeBytes 0))

/-- `read_page`. -/
def readPage (pageId : ℕ) : Eng Bytes := do
  let f ← file
  let w ← get
  let data := readAt f.content (pageId * w.pager.pageSizeBytes) w.pager.pageSizeBytes
  if pageId ≠ metaPageId ∧ data.length ≠ w.pager.pageSizeBytes then
    throw (.corrupted ("Unexpected end of file while reading page " ++ toString pageId))
  return data

/-- `write_page`. -/
def writePage (pageId : ℕ) (data : Bytes) : Eng Unit := do
  let f ← file
  let w ← get
  fileSystemCall
  setFile (f.write (writeAt f.content (pageId * w.pager.pageSizeBytes) data))

/-- `Pager.fsync`. -/
def fsync : Eng Unit := do
  let f ← file
  fileSystemCall
  setFile f.fsync

/-! ## The meta page -/

/-- `get_meta`. -/
def getMeta : Eng MetaPage := do
  match (← get).pager.metaPage with
  | some m => return m
  | none => throw (.assertionError "self._meta_page is not None")

/-- `update_meta`, with the updated fields given as a function. -/
def updateMeta (update : MetaPage → MetaPage) : Eng Unit := do
  let m ← getMeta
  modify fun w =>
    { w with pager := { w.pager with metaPage := some (update m), isMetaDirty := true } }

/-- `flush_meta`. -/
def flushMeta : Eng Unit := do
  let m ← getMeta
  writePage metaPageId (← codec (encodeMetaPage m))
  modify fun w => { w with pager := { w.pager with isMetaDirty := false } }

/-! ## The freelist -/

/-- `_get_freelist_page`: in-memory state first, then disk. -/
def getFreelistPage (pageId : ℕ) : Eng FreelistPage := do
  match (← get).pager.freelistCache.lookup pageId with
  | some page => return page
  | none =>
      match ← codec (decodePage (← readPage pageId)) with
      | .freelist page =>
          modify fun w => { w with pager := { w.pager with
            freelistCache := (pageId, page) :: w.pager.freelistCache } }
          return page
      | .tree _ => throw (.assertionError "isinstance(page, FreelistPage)")

/-- `_mark_freelist_page_dirty`. -/
def markFreelistPageDirty (pageId : ℕ) (page : FreelistPage) : Eng Unit :=
  modify fun w => { w with pager := { w.pager with
    freelistCache := (pageId, page) :: w.pager.freelistCache.filter (·.1 ≠ pageId)
    dirtyFreelistPageIds := pageId :: w.pager.dirtyFreelistPageIds.filter (· ≠ pageId) } }

/-- Drop a page from the freelist cache and from the dirty set. -/
def forgetFreelistPage (pageId : ℕ) : Eng Unit :=
  modify fun w => { w with pager := { w.pager with
    freelistCache := w.pager.freelistCache.filter (·.1 ≠ pageId)
    dirtyFreelistPageIds := w.pager.dirtyFreelistPageIds.filter (· ≠ pageId) } }

/-- The write loop of `flush_dirty_freelist_pages`. -/
def flushFreelistPages : List ℕ → Eng Unit
  | [] => pure ()
  | pageId :: rest => do
      let w ← get
      match w.pager.freelistCache.lookup pageId with
      | none => flushFreelistPages rest
      | some page =>
          let data ← codec (encodePage (.freelist page) w.pager.pageSizeBytes)
          writePage pageId data
          flushFreelistPages rest

/-- `flush_dirty_freelist_pages`. -/
def flushDirtyFreelistPages : Eng Unit := do
  flushFreelistPages ((← get).pager.dirtyFreelistPageIds.insertionSort (· ≤ ·))
  modify fun w => { w with pager := { w.pager with dirtyFreelistPageIds := [] } }

/-! ## Allocation -/

/-- `_bump_allocate_one_page`. -/
def bumpAllocateOnePage : Eng ℕ := do
  let m ← getMeta
  extendFileByOnePage
  updateMeta fun m => { m with nextPageId := m.nextPageId + 1 }
  return m.nextPageId

/-- `allocate_page`. -/
def allocatePage : Eng ℕ := do
  let m ← getMeta
  if m.freelistHeadPageId ≠ 0 then
    let freelistPage ← getFreelistPage m.freelistHeadPageId
    match freelistPage.freedPageIds.getLast? with
    | some pageId =>
        markFreelistPageDirty m.freelistHeadPageId
          { freelistPage with freedPageIds := freelistPage.freedPageIds.dropLast }
        forgetFreelistPage pageId
        return pageId
    | none =>
        -- The head is exhausted: recycle it and continue with its successor.
        updateMeta fun m => { m with freelistHeadPageId := freelistPage.nextFreelistPageId }
        forgetFreelistPage m.freelistHeadPageId
        return m.freelistHeadPageId
  else
    bumpAllocateOnePage

/-- Start a new freelist head that lists `pageId`. -/
def pushFreelistHead (pageId : ℕ) : Eng Unit := do
  let newHeadPageId ← bumpAllocateOnePage
  let m ← getMeta
  markFreelistPageDirty newHeadPageId ⟨0, m.freelistHeadPageId, [pageId]⟩
  updateMeta fun m => { m with freelistHeadPageId := newHeadPageId }

/-- `free_page`. -/
def freePage (pageId : ℕ) : Eng Unit := do
  let m ← getMeta
  if m.freelistHeadPageId ≠ 0 then
    let freelistPage ← getFreelistPage m.freelistHeadPageId
    let w ← get
    if freelistPage.freedPageIds.length < getMaxFreedIdsPerFreelistPage w.pager.pageSizeBytes then
      markFreelistPageDirty m.freelistHeadPageId
        { freelistPage with freedPageIds := freelistPage.freedPageIds ++ [pageId] }
    else
      pushFreelistHead pageId
  else
    pushFreelistHead pageId

/-! ## Opening and closing -/

/-- `_bootstrap_initial_db`. -/
def bootstrapInitialDb : Eng Unit := do
  modify fun w => { w with pager := { w.pager with
    metaPage := some ⟨w.pager.pageSizeBytes, defaultRootPageId, defaultRootPageId, 0, 0⟩ } }
  let leafPageId ← allocatePage
  let w ← get
  let data ← codec (encodePage (.tree (.leaf ⟨0, 0, []⟩)) w.pager.pageSizeBytes)
  writePage leafPageId data
  flushMeta
  fsync

/-- `Pager.open`. -/
def open_ : Eng Unit := do
  let w ← get
  if w.pager.isOpen then return
  match w.disk.data with
  | none =>
      fileSystemCall
      modify fun w => { w with
        disk := { w.disk with data := some .empty }, pager := { w.pager with isOpen := true } }
      bootstrapInitialDb
  | some _ =>
      modify fun w => { w with pager := { w.pager with isOpen := true } }
      let m ← codec (decodeMetaPage (← readPage metaPageId))
      modify fun w => { w with pager := { w.pager with
        metaPage := some m, pageSizeBytes := m.pageSizeBytes } }

/-- `Pager.close`. -/
def close : Eng Unit := do
  let w ← get
  if ¬ w.pager.isOpen then return
  if w.pager.dirtyFreelistPageIds ≠ [] then flushDirtyFreelistPages
  if (← get).pager.isMetaDirty then flushMeta
  fsync
  modify fun w => { w with pager := { w.pager with
    isOpen := false, freelistCache := [], dirtyFreelistPageIds := [] } }

end BPTreeDB.Pager
