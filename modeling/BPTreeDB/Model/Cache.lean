import BPTreeDB.Model.Pager

/-!
# The buffer pool

The operations of `cache.py`: an LRU cache of page objects that never writes a
dirty page outside a flush.
-/

namespace BPTreeDB.BufferPool

open Lib Eng Codec

/-- Replace the cache. -/
def setCache (cache : List (ℕ × CachedPage)) : Eng Unit :=
  modify fun w => { w with pool := { w.pool with cache } }

/-- `dirty_count`. -/
def dirtyCount (pool : BufferPool) : ℕ :=
  pool.cache.countP (·.2.isDirty)

/-- `dirty_ratio > checkpoint_dirty_page_ratio`, which divides by the capacity. -/
def dirtyRatioExceeds : Eng Bool := do
  let w ← get
  if w.pool.capacityPages = 0 then throw .zeroDivision
  return w.config.dirtyRatioExceeds w.pool.dirtyCount w.pool.capacityPages

/-- `_evict_oldest_clean_page_if_full`. -/
def evictOldestCleanPageIfFull : Eng Unit := do
  let pool := (← get).pool
  if pool.evictionEnabled ∧ pool.capacityPages ≤ pool.cache.length then
    match pool.cache.find? (fun entry => !entry.2.isDirty) with
    | none => throw .bufferPoolOverflow
    | some victim => setCache (pool.cache.filter (·.1 ≠ victim.1))

/-- `BufferPool.get`. -/
def get (pageId : ℕ) : Eng Ref := do
  let pool := (← MonadState.get).pool
  match pool.cache.lookup pageId with
  | some cached =>
      -- A hit moves the page to the most-recently-used position.
      setCache (pool.cache.filter (·.1 ≠ pageId) ++ [(pageId, cached)])
      return cached.page
  | none =>
      evictOldestCleanPageIfFull
      match ← codec (decodePage (← Pager.readPage pageId)) with
      | .tree page =>
          let ref ← newObject page
          setCache ((← MonadState.get).pool.cache ++ [(pageId, ⟨ref, false⟩)])
          return ref
      | .freelist _ => throw (.assertionError "isinstance(page, (LeafPage, InternalPage))")

/-- The page with another `last_modified_lsn`. -/
def setLsn (lsn : ℕ) : Page → Page
  | .leaf p => .leaf { p with lastModifiedLsn := lsn }
  | .internal p => .internal { p with lastModifiedLsn := lsn }

/-- `last_modified_lsn`. -/
def pageLsn : Page → ℕ
  | .leaf p => p.lastModifiedLsn
  | .internal p => p.lastModifiedLsn

/-- `BufferPool.insert` of a page that the caller has just built. -/
def insert (pageId : ℕ) (page : Page) (lsn : ℕ) : Eng Ref := do
  let pool := (← MonadState.get).pool
  assert (pool.cache.lookup pageId).isNone "page_id not in self._cache"
  evictOldestCleanPageIfFull
  let ref ← newObject (setLsn lsn page)
  setCache ((← MonadState.get).pool.cache ++ [(pageId, ⟨ref, true⟩)])
  return ref

/-- `BufferPool.mark_dirty`. -/
def markDirty (pageId lsn : ℕ) : Eng Unit := do
  let pool := (← MonadState.get).pool
  match pool.cache.lookup pageId with
  | none => throw (.keyError pageId)
  | some cached =>
      setCache (pool.cache.map fun entry =>
        if entry.1 = pageId then (pageId, { entry.2 with isDirty := true }) else entry)
      let page ← deref cached.page
      assign cached.page (setLsn (max (pageLsn page) lsn) page)

/-- `BufferPool.delete`. -/
def delete (pageId : ℕ) : Eng Unit := do
  setCache ((← MonadState.get).pool.cache.filter (·.1 ≠ pageId))

/-- The loop of `flush_all`: each dirty page is written and then marked clean. -/
def flushPages : List (ℕ × CachedPage) → Eng Unit
  | [] => pure ()
  | (pageId, cached) :: rest => do
      if cached.isDirty then
        let page ← deref cached.page
        let w ← MonadState.get
        let data ← codec (encodePage (.tree page) w.pager.pageSizeBytes)
        Pager.writePage pageId data
        setCache ((← MonadState.get).pool.cache.map fun entry =>
          if entry.1 = pageId then (pageId, { entry.2 with isDirty := false }) else entry)
      flushPages rest

/-- `flush_all`. -/
def flushAll : Eng Unit := do
  flushPages (← MonadState.get).pool.cache

end BPTreeDB.BufferPool
