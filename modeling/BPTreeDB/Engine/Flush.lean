import BPTreeDB.Engine.Lockstep
import BPTreeDB.Format.Pages
import BPTreeDB.PageStore.Invariant

/-!
# Flushing

A flush writes pages that the data file did not hold yet and marks them clean.  The page
store does not notice: whatever the outcome, a flush keeps the content of the process and
the meta page of the file.  After a flush that returned, the data file alone holds the
tree and the freelist.
-/

namespace BPTreeDB.Engine

open Lib Eng Codec Lib.Program

variable {w w' w'' : World} {C : PageStore.Content} {P pageId : ℕ} {f : FileState}

/-! ## Writing a page of the file -/

/-- A page is not changed by a write to another page. -/
theorem OnDisk.write_of_ne {content data : Bytes} {page : AnyPage} {x : ℕ}
    (h : OnDisk content P pageId page) (hlen : data.length = P) (hne : pageId ≠ x) :
    OnDisk (writeAt content (x * P) data) P pageId page := by
  have hdisjoint : pageId * P + P ≤ x * P ∨ x * P + data.length ≤ pageId * P := by
    rw [hlen]
    rcases Nat.lt_or_gt_of_ne hne with hlt | hlt
    · exact .inl (by nlinarith)
    · exact .inr (by nlinarith)
  rw [OnDisk, readAt_writeAt_of_disjoint h.1 hdisjoint]
  exact h

/-- A page that was written is on disk. -/
theorem OnDisk.write_self {page : AnyPage} {data : Bytes} (content : Bytes) (pageId : ℕ)
    (hencodable : Encodable P page) (hdata : encodePage page P = .ok data) :
    data.length = P ∧ OnDisk (writeAt content (pageId * P) data) P pageId page := by
  obtain ⟨bytes, hencode, hlen, hdecode⟩ := encodePage_spec hencodable
  obtain rfl : bytes = data := Except.ok.inj (hencode.symm.trans hdata)
  have hread := readAt_writeAt_self content bytes (pageId * P)
  rw [hlen] at hread
  rw [OnDisk, hread]
  exact ⟨hlen, hlen, hdecode⟩

/-- `write_page` on an open file: the write takes place, or the machine has lost its power. -/
theorem writePage_cases (hopen : w.pager.isOpen = true) (hf : w.disk.data = some f) (pageId : ℕ)
    (data : Bytes) :
    (w.power = some 0 ∧ Pager.writePage pageId data w = .error .powerLoss w) ∨
      ∃ power, (w.power = none → power = none) ∧ Pager.writePage pageId data w =
        .ok () { w with power := power, disk := { w.disk with
          data := some (f.write (writeAt f.content (pageId * w.pager.pageSizeBytes) data)) } } := by
  have hfile : Pager.file w = .ok f w := by simp [Pager.file, run_bind, hopen, hf]
  obtain ⟨hpower, hcall⟩ | ⟨power, hpower, hcall⟩ := fileSystemCall_cases w
  · exact .inl ⟨hpower, by simp only [Pager.writePage, run_bind, hfile, run_get, hcall]⟩
  · refine .inr ⟨power, hpower, ?_⟩
    simp only [Pager.writePage, run_bind, hfile, run_get, hcall, Pager.setFile, run_modify]

/-! ## Processes at rest -/

/-- The process holds the content `C`, and no operation is running. -/
def Quiet (w : World) (C : PageStore.Content) : Prop :=
  Sim ⟨False, True, fun _ _ => True, none⟩ [] w ⟨C, [], [], 0⟩

/-- What lets the pages of a content be written without touching each other: a tree page
is not a page of the freelist and not the meta page, and every page fits. -/
structure Storable (C : PageStore.Content) : Prop where
  pageSize : C.pageSize < 256 ^ 4
  header : pageHeaderSize ≤ C.pageSize
  apart : ∀ x, (C.pages x).isSome → x ∉ C.chain.map Prod.fst
  pos : ∀ x, (C.pages x).isSome → x ≠ 0
  fits : ∀ x page, C.pages x = some page → calculatePageSize page ≤ C.pageSize
  chainFits : PageStore.ChainFits C.pageSize C.chain

/-- The page that the freelist chain has under an id. -/
def chainPage : List (ℕ × List ℕ) → ℕ → Option FreelistPage
  | [], _ => none
  | (x, freed) :: rest, pageId =>
      if pageId = x then some ⟨0, (rest.head?.map Prod.fst).getD 0, freed⟩
      else chainPage rest pageId

/-- Some page cannot be encoded. -/
def Unencodable (C : PageStore.Content) (e : Err) : Prop :=
  (∃ x page, C.pages x = some page ∧ encodePage (.tree page) C.pageSize = .error e) ∨
    ∃ x page, chainPage C.chain x = some page ∧ encodePage (.freelist page) C.pageSize = .error e

theorem ChainFrom.head_eq {view : ℕ → FreelistPage → Prop} {head : ℕ} {chain : List (ℕ × List ℕ)}
    (hc : ChainFrom view head chain) : head = (chain.head?.map Prod.fst).getD 0 := by
  cases chain with
  | nil => exact hc
  | cons e chain => exact hc.1

theorem mem_of_chainPage {chain : List (ℕ × List ℕ)} {page : FreelistPage}
    (h : chainPage chain pageId = some page) : (pageId, page.freedPageIds) ∈ chain := by
  induction chain with
  | nil => simp [chainPage] at h
  | cons e chain ih =>
      obtain ⟨x, freed⟩ := e
      rw [chainPage] at h
      split at h
      · rename_i hid
        rw [← Option.some.inj h, hid]
        exact List.mem_cons_self ..
      · exact List.mem_cons_of_mem _ (ih h)

/-- The LSN of a freelist page is not used, and its link leads to the chain or ends it. -/
theorem chainPage_fields {chain : List (ℕ × List ℕ)} {page : FreelistPage}
    (h : chainPage chain pageId = some page) : page.lastModifiedLsn = 0 ∧
      (page.nextFreelistPageId = 0 ∨ page.nextFreelistPageId ∈ chain.map Prod.fst) := by
  induction chain with
  | nil => simp [chainPage] at h
  | cons e chain ih =>
      obtain ⟨x, freed⟩ := e
      rw [chainPage] at h
      split at h
      · rw [← Option.some.inj h]
        cases chain with
        | nil => exact ⟨rfl, .inl rfl⟩
        | cons e' chain => exact ⟨rfl, .inr (by simp)⟩
      · obtain ⟨hlsn, hlink⟩ := ih h
        exact ⟨hlsn, hlink.imp id (List.mem_cons_of_mem _)⟩

theorem exists_chainPage {chain : List (ℕ × List ℕ)} (h : pageId ∈ chain.map Prod.fst) :
    ∃ page, chainPage chain pageId = some page := by
  induction chain with
  | nil => simp at h
  | cons e chain ih =>
      obtain ⟨x, freed⟩ := e
      rw [chainPage]
      split
      · exact ⟨_, rfl⟩
      · rename_i hne
        simp only [List.map_cons, List.mem_cons] at h
        exact ih (h.resolve_left hne)

/-- The chain in terms of its pages. -/
theorem chainFrom_iff {view : ℕ → FreelistPage → Prop} {head : ℕ} {chain : List (ℕ × List ℕ)}
    (hnodup : (chain.map Prod.fst).Nodup) :
    ChainFrom view head chain ↔ head = (chain.head?.map Prod.fst).getD 0 ∧
      (∀ x ∈ chain.map Prod.fst, x ≠ 0) ∧
      ∀ x page, chainPage chain x = some page → view x page := by
  induction chain generalizing head with
  | nil => simp [ChainFrom, chainPage]
  | cons e chain ih =>
      obtain ⟨pageId, freed⟩ := e
      obtain ⟨hnot, hnodup⟩ := List.nodup_cons.mp hnodup
      constructor
      · rintro ⟨hhead, hne, next, hpage, hrest⟩
        obtain ⟨hnext, hpos, hview⟩ := (ih hnodup).mp hrest
        refine ⟨hhead, ?_, fun x page hx => ?_⟩
        · simp only [List.map_cons, List.mem_cons, forall_eq_or_imp]
          exact ⟨hne, hpos⟩
        · rw [chainPage] at hx
          split at hx
          · rename_i hid
            rw [← Option.some.inj hx, hid, ← hnext]
            exact hpage
          · exact hview x page hx
      · rintro ⟨hhead, hpos, hview⟩
        simp only [List.map_cons, List.mem_cons, forall_eq_or_imp] at hpos
        refine ⟨hhead, hpos.1, _, hview pageId _ (by rw [chainPage, if_pos rfl]),
          (ih hnodup).mpr ⟨rfl, hpos.2, fun x page hx => hview x page ?_⟩⟩
        have hne : x ≠ pageId := by
          rintro rfl
          exact hnot (List.mem_map.mpr ⟨_, mem_of_chainPage hx, rfl⟩)
        rw [chainPage, if_neg hne]
        exact hx

/-! ## What a flush changes -/

/-- The world after a flush has written the data file and cleared dirty flags. -/
def flushedTo (w : World) (power : Option ℕ) (content : Bytes) (cache : List (ℕ × CachedPage))
    (dirty : List ℕ) : World :=
  { w with
    power := power
    disk := { w.disk with data := w.disk.data.map (·.write content) }
    pool := { w.pool with cache := cache }
    pager := { w.pager with dirtyFreelistPageIds := dirty } }

/-- From `w` to `w'` pages other than the meta page were written to the data file, none
of them fsynced, and cached pages lost their dirty flag. -/
structure Flushes (w w' : World) : Prop where
  eq : ∃ power content cache dirty, w' = flushedTo w power content cache dirty
  power : w.power = none → w'.power = none
  metaPage : (readAt (dataContent w) 0 w.pager.pageSizeBytes).length = w.pager.pageSizeBytes →
    readAt (dataContent w') 0 w.pager.pageSizeBytes =
      readAt (dataContent w) 0 w.pager.pageSizeBytes
  cache : w'.pool.cache.map (fun e => (e.1, e.2.page)) =
    w.pool.cache.map fun e => (e.1, e.2.page)

theorem Flushes.refl (w : World) (hdata : w.disk.data.isSome) : Flushes w w := by
  obtain ⟨f, hf⟩ := Option.isSome_iff_exists.mp hdata
  refine ⟨⟨w.power, f.content, w.pool.cache, w.pager.dirtyFreelistPageIds, ?_⟩, id, fun _ => rfl,
    rfl⟩
  simp only [flushedTo, hf, Option.map_some, FileState.write]
  rw [← hf]

theorem Flushes.trans (h : Flushes w w') (h' : Flushes w' w'') : Flushes w w'' := by
  obtain ⟨⟨power, content, cache, dirty, rfl⟩, hpower, hmeta, hcache⟩ := h
  obtain ⟨⟨power', content', cache', dirty', rfl⟩, hpower', hmeta', hcache'⟩ := h'
  refine ⟨⟨power', content', cache', dirty', ?_⟩, fun hw => hpower' (hpower hw), fun hlen => ?_,
    hcache'.trans hcache⟩
  · cases hdata : w.disk.data <;> simp [flushedTo, hdata, FileState.write]
  · have hlen' := hlen
    rw [← hmeta hlen] at hlen'
    exact (hmeta' hlen').trans (hmeta hlen)

/-- A write of one page other than the meta page, after which its dirty flag may be
cleared. -/
theorem Flushes.writePage (hf : w.disk.data = some f) {data : Bytes} (hid : pageId ≠ 0)
    {power : Option ℕ}
    (hpower : w.power = none → power = none) {cache : List (ℕ × CachedPage)}
    (hcache : cache.map (fun e => (e.1, e.2.page)) =
      w.pool.cache.map fun e => (e.1, e.2.page)) :
    Flushes w { w with
      power := power
      disk := { w.disk with
        data := some (f.write (writeAt f.content (pageId * w.pager.pageSizeBytes) data)) }
      pool := { w.pool with cache := cache } } := by
  refine ⟨⟨power, writeAt f.content (pageId * w.pager.pageSizeBytes) data, cache,
    w.pager.dirtyFreelistPageIds, ?_⟩, hpower, fun hinside => ?_, hcache⟩
  · simp only [flushedTo, hf, Option.map_some]
  · simp only [dataContent, hf, Option.map_some, Option.getD_some, FileState.write] at hinside ⊢
    refine readAt_writeAt_of_disjoint hinside (.inl ?_)
    have := Nat.pos_of_ne_zero hid
    nlinarith

/-! ## One write -/

/-- The cache after a page was written. -/
def markedClean (pageId : ℕ) (cache : List (ℕ × CachedPage)) : List (ℕ × CachedPage) :=
  cache.map fun entry =>
    if entry.1 = pageId then (pageId, { entry.2 with isDirty := false }) else entry

theorem map_markedClean (pageId : ℕ) (cache : List (ℕ × CachedPage)) :
    (markedClean pageId cache).map (fun e => (e.1, e.2.page)) =
      cache.map fun e => (e.1, e.2.page) := by
  rw [markedClean, List.map_map]
  refine List.map_congr_left fun e _ => ?_
  by_cases he : e.1 = pageId
  · simp [he]
  · simp [he]

theorem mem_markedClean {cache : List (ℕ × CachedPage)} {x : ℕ} {c : CachedPage}
    (hmem : (x, c) ∈ markedClean pageId cache) (hdirty : c.isDirty = true) :
    x ≠ pageId ∧ (x, c) ∈ cache := by
  obtain ⟨e, he, heq⟩ := List.mem_map.mp hmem
  by_cases hid : e.1 = pageId
  · rw [if_pos hid] at heq
    cases heq
    cases hdirty
  · rw [if_neg hid] at heq
    subst heq
    exact ⟨hid, he⟩

theorem mem_markedClean_of_ne {cache : List (ℕ × CachedPage)} {x : ℕ} {c : CachedPage}
    (hne : x ≠ pageId) (hmem : (x, c) ∈ cache) : (x, c) ∈ markedClean pageId cache :=
  List.mem_map.mpr ⟨(x, c), hmem, if_neg hne⟩

/-- The freelist does not notice a write to a page that is not on its chain. -/
theorem FreelistSim.write {content data : Bytes} {pager : Pager} {head : ℕ}
    {chain : List (ℕ × List ℕ)} (hf : FreelistSim content P pager head chain)
    (hlen : data.length = P) (hnot : pageId ∉ chain.map Prod.fst) :
    FreelistSim (writeAt content (pageId * P) data) P pager head chain where
  linked := hf.linked.congr fun x hx q hq => by
    have hne : x ≠ pageId := fun h => hnot (h ▸ hx)
    exact hq.imp id fun h => ⟨h.1, h.2.write_of_ne hlen hne⟩
  heads := hf.heads
  cached := hf.cached
  clean x q hq hclean := by
    have hx := hf.cached x (List.mem_map_of_mem (f := Prod.fst) (mem_of_lookup hq))
    exact (hf.clean x q hq hclean).write_of_ne hlen fun h => hnot (h ▸ hx)

/-- A page of the tree is written and marked clean. -/
theorem Quiet.writeTree (hq : Quiet w C) (hst : Storable C) (hf : w.disk.data = some f)
    {page : Page} {data : Bytes} (hpage : C.pages pageId = some page)
    (hdata : encodePage (.tree page) C.pageSize = .ok data) (power : Option ℕ) :
    data.length = C.pageSize ∧ Quiet { w with
      power := power
      disk := { w.disk with
        data := some (f.write (writeAt f.content (pageId * w.pager.pageSizeBytes) data)) }
      pool := { w.pool with cache := markedClean pageId w.pool.cache } } C := by
  have hfits : Fits C.pageSize (.tree page) := hst.fits _ _ hpage
  have hencodable := encodable_of_encodePage hst.pageSize hfits hdata
  obtain ⟨hlen, hdisk⟩ := OnDisk.write_self f.content pageId hencodable hdata
  have hsize : w.pager.pageSizeBytes = C.pageSize := hq.pageSize
  have hcontent : dataContent w = f.content := by simp [dataContent, hf]
  have hsome : (C.pages pageId).isSome := by simp [hpage]
  obtain ⟨m, hm, hmeta, hfree⟩ := hq.metaPage
  rw [hcontent] at hfree
  have hpool := hq.pool
  rw [hcontent] at hpool
  refine ⟨hlen, ⟨hq.isOpen, rfl, hq.pageSize, ⟨m, hm, hmeta, ?_⟩, ⟨?_, ?_, ?_, ?_⟩,
    fun h => h.elim, fun h => absurd trivial h⟩⟩
  · rw [hsize]
    exact hfree.write hlen (hst.apart _ hsome)
  · have hkeys := congrArg (List.map Prod.fst) (map_markedClean pageId w.pool.cache)
    rw [List.map_map, List.map_map] at hkeys
    show ((markedClean pageId w.pool.cache).map Prod.fst).Nodup
    rw [show (markedClean pageId w.pool.cache).map Prod.fst = w.pool.cache.map Prod.fst from hkeys]
    exact hpool.nodup
  · intro e he
    simp only [handles, map_markedClean] at he
    exact hpool.object e he
  · intro e he e' he'
    simp only [handles, map_markedClean] at he he'
    exact hpool.single e he e' he'
  · intro x q hx _ hclean
    refine ⟨?_, trivial⟩
    show OnDisk (writeAt f.content (pageId * w.pager.pageSizeBytes) data) C.pageSize x (.tree q)
    rw [hsize]
    -- The page that was written is on disk now; any other keeps the bytes it had.
    by_cases hid : x = pageId
    · subst hid
      obtain rfl : page = q := Option.some.inj (hpage.symm.trans hx)
      exact hdisk
    · have hold := hpool.disk x q hx (by simp) fun c hc => hclean c (mem_markedClean_of_ne hid hc)
      exact hold.1.write_of_ne hlen hid

/-- A cached page of the freelist is the one of the chain. -/
theorem Quiet.chainPage_of_cached (hq : Quiet w C) {page : FreelistPage}
    (hpage : w.pager.freelistCache.lookup pageId = some page) :
    chainPage C.chain pageId = some page := by
  obtain ⟨m, -, -, hfree⟩ := hq.metaPage
  obtain ⟨-, -, hview⟩ := (chainFrom_iff hfree.heads).mp hfree.linked
  obtain ⟨q, hchain⟩ := exists_chainPage
    (hfree.cached pageId (List.mem_map_of_mem (f := Prod.fst) (mem_of_lookup hpage)))
  rcases hview pageId q hchain with h | ⟨h, -⟩
  · exact hchain.trans (h.symm.trans hpage)
  · rw [hpage] at h
    cases h

/-- A cached page of the freelist is written. -/
theorem Quiet.writeFreelist (hq : Quiet w C) (hst : Storable C) (hf : w.disk.data = some f)
    {page : FreelistPage} {data : Bytes} (hpage : w.pager.freelistCache.lookup pageId = some page)
    (hdata : encodePage (.freelist page) C.pageSize = .ok data) (power : Option ℕ) :
    pageId ≠ 0 ∧ data.length = C.pageSize ∧
      OnDisk (writeAt f.content (pageId * w.pager.pageSizeBytes) data) C.pageSize pageId
        (.freelist page) ∧
      Quiet { w with
        power := power
        disk := { w.disk with
          data := some (f.write (writeAt f.content (pageId * w.pager.pageSizeBytes) data)) } }
        C := by
  have hsize : w.pager.pageSizeBytes = C.pageSize := hq.pageSize
  have hcontent : dataContent w = f.content := by simp [dataContent, hf]
  obtain ⟨m, hm, hmeta, hfree⟩ := hq.metaPage
  rw [hcontent] at hfree
  have hpool := hq.pool
  rw [hcontent] at hpool
  have hmem : pageId ∈ C.chain.map Prod.fst :=
    hfree.cached pageId (List.mem_map_of_mem (f := Prod.fst) (mem_of_lookup hpage))
  obtain ⟨-, hpos, -⟩ := (chainFrom_iff hfree.heads).mp hfree.linked
  have hchain := hq.chainPage_of_cached hpage
  -- A page of the chain is not over-full, so its encoding fills one page exactly.
  have hfits : Fits C.pageSize (.freelist page) := by
    have hlen := hst.chainFits _ (mem_of_chainPage hchain)
    have hheader := hst.header
    simp only [getMaxFreedIdsPerFreelistPage, pageHeaderSize, pageIdFieldSize,
      Fits] at hlen hheader ⊢
    omega
  have hencodable := encodable_of_encodePage hst.pageSize hfits hdata
  obtain ⟨hlen, hdisk⟩ := OnDisk.write_self f.content pageId hencodable hdata
  rw [← hsize] at hdisk
  refine ⟨hpos _ hmem, hlen, by rw [← hsize]; exact hdisk, ⟨hq.isOpen, rfl, hq.pageSize,
    ⟨m, hm, hmeta, ⟨?_, hfree.heads, hfree.cached, ?_⟩⟩, { hpool with disk := ?_ },
    fun h => h.elim, fun h => absurd trivial h⟩⟩
  · refine hfree.linked.congr fun x _ q hx => ?_
    rcases hx with hx | ⟨hnone, hx⟩
    · exact .inl hx
    · refine .inr ⟨hnone, ?_⟩
      have hne : x ≠ pageId := by
        rintro rfl
        rw [hpage] at hnone
        cases hnone
      show OnDisk (writeAt f.content (pageId * w.pager.pageSizeBytes) data) C.pageSize x _
      rw [hsize]
      exact hx.write_of_ne hlen hne
  · intro x q hx hclean
    show OnDisk (writeAt f.content (pageId * w.pager.pageSizeBytes) data) C.pageSize x _
    by_cases hid : x = pageId
    · subst hid
      obtain rfl : page = q := Option.some.inj (hpage.symm.trans hx)
      rw [← hsize]
      exact hdisk
    · rw [hsize]
      exact (hfree.clean x q hx hclean).write_of_ne hlen hid
  · intro x q hx hpending hclean
    refine ⟨?_, trivial⟩
    show OnDisk (writeAt f.content (pageId * w.pager.pageSizeBytes) data) C.pageSize x _
    rw [hsize]
    refine (hpool.disk x q hx hpending hclean).1.write_of_ne hlen fun hid => ?_
    -- Tree pages and freelist pages have different ids, so no tree page is overwritten.
    exact hst.apart x (Option.isSome_iff_exists.mpr ⟨q, hx⟩) (hid ▸ hmem)

/-! ## Flushing -/

/-- What a flush may end in. -/
def FlushSpec (C : PageStore.Content) (w : World) (Q : World → Prop) :
    EStateM.Result Err World Unit → Prop
  | .ok _ w' => Quiet w' C ∧ Flushes w w' ∧ Q w'
  | .error e w' => Quiet w' C ∧ Flushes w w' ∧
      ((w.power ≠ none ∧ e = .powerLoss) ∨ Unencodable C e)

theorem FlushSpec.after {Q : World → Prop} {r : EStateM.Result Err World Unit}
    (hflushes : Flushes w w') (h : FlushSpec C w' Q r) : FlushSpec C w Q r := by
  cases r with
  | ok a w'' => exact ⟨h.1, hflushes.trans h.2.1, h.2.2⟩
  | error e w'' =>
      exact ⟨h.1, hflushes.trans h.2.1, h.2.2.imp (fun h => ⟨mt hflushes.power h.1, h.2⟩) id⟩

/-- The loop of `flush_all`: a page that is still dirty is one that is still to come. -/
theorem flushPages_spec (hst : Storable C) (entries : List (ℕ × CachedPage)) :
    ∀ w, Quiet w C →
      (∀ e ∈ entries, (e.1, e.2.page) ∈ w.pool.cache.map fun e => (e.1, e.2.page)) →
      (∀ e ∈ w.pool.cache, e.2.isDirty = true → ∃ e' ∈ entries, e'.1 = e.1 ∧ e'.2.isDirty = true) →
      FlushSpec C w (fun w' => ∀ e ∈ w'.pool.cache, e.2.isDirty = false)
        (BufferPool.flushPages entries w) := by
  induction entries with
  | nil =>
      intro w hq _ hdirty
      refine ⟨hq, .refl w hq.data, fun e he => ?_⟩
      by_contra h
      obtain ⟨e', he', -⟩ := hdirty e he (by simpa using h)
      cases he'
  | cons entry rest ih =>
      intro w hq hmem hdirty
      obtain ⟨pageId, cached⟩ := entry
      have hrest : ∀ e ∈ rest, (e.1, e.2.page) ∈ w.pool.cache.map fun e => (e.1, e.2.page) :=
        fun e he => hmem e (List.mem_cons_of_mem _ he)
      by_cases hc : cached.isDirty = true
      · obtain ⟨f, hf⟩ := Option.isSome_iff_exists.mp hq.data
        obtain ⟨page, hpage, hobject⟩ := hq.pool.object (pageId, cached.page)
          (by simpa [handles] using hmem _ (List.mem_cons_self ..))
        have hpage : C.pages pageId = some page := hpage
        have hderef : Eng.deref cached.page w = .ok page w := by
          simp [Eng.deref, run_bind, hobject]
        have hsize : w.pager.pageSizeBytes = C.pageSize := hq.pageSize
        rw [BufferPool.flushPages]
        simp only [if_pos hc, run_bind, hderef, run_get, hsize]
        cases hdata : encodePage (.tree page) C.pageSize with
        | error e =>
            -- Raised before the write: nothing has changed.
            exact ⟨hq, .refl w hq.data, .inr (.inl ⟨pageId, page, hpage, hdata⟩)⟩
        | ok data =>
            simp only [Eng.codec, run_pure]
            obtain ⟨hpower, hwrite⟩ | ⟨power, hpower, hwrite⟩ :=
              writePage_cases hq.isOpen hf pageId data
            · rw [hwrite]
              exact ⟨hq, .refl w hq.data, .inl ⟨by simp [hpower], rfl⟩⟩
            · simp only [hwrite, BufferPool.setCache, run_modify]
              obtain ⟨hlen, hq'⟩ := hq.writeTree hst hf hpage hdata power
              have hpos := hst.pos pageId (by simp [hpage])
              -- The page is clean in the cache from here on, so it is no longer among those to
              -- come.
              refine .after (.writePage hf hpos hpower
                (map_markedClean pageId w.pool.cache)) (ih _ hq' ?_ ?_)
              · simp only [map_markedClean]
                exact hrest
              · intro e he hdirty'
                obtain ⟨hne, he⟩ := mem_markedClean he hdirty'
                obtain ⟨e', he', hid, hd⟩ := hdirty e he hdirty'
                rcases List.mem_cons.mp he' with rfl | he'
                · exact absurd hid.symm hne
                · exact ⟨e', he', hid, hd⟩
      · rw [BufferPool.flushPages]
        simp only [if_neg hc]
        refine ih w hq hrest fun e he hdirty' => ?_
        obtain ⟨e', he', hid, hd⟩ := hdirty e he hdirty'
        rcases List.mem_cons.mp he' with rfl | he'
        · exact absurd hd hc
        · exact ⟨e', he', hid, hd⟩

/-- `flush_all` leaves no dirty page. -/
theorem flushAll_spec (hst : Storable C) (hq : Quiet w C) :
    FlushSpec C w (fun w' => ∀ e ∈ w'.pool.cache, e.2.isDirty = false)
      (BufferPool.flushAll w) := by
  rw [BufferPool.flushAll, run_bind_ok (run_get w)]
  exact flushPages_spec hst _ w hq (fun e he => List.mem_map_of_mem (f := fun e : ℕ × CachedPage =>
    (e.1, e.2.page)) he) fun e he hd => ⟨e, he, rfl, hd⟩

/-- The write loop of `flush_dirty_freelist_pages`: a cached page that is not on disk is
one that is still to come. -/
theorem flushFreelistPages_spec (hst : Storable C) (ids : List ℕ) :
    ∀ w, Quiet w C →
      (∀ x page, w.pager.freelistCache.lookup x = some page → x ∉ ids →
        OnDisk (dataContent w) C.pageSize x (.freelist page)) →
      FlushSpec C w (fun w' => w'.pool = w.pool ∧
          ∀ x page, w'.pager.freelistCache.lookup x = some page →
            OnDisk (dataContent w') C.pageSize x (.freelist page))
        (Pager.flushFreelistPages ids w) := by
  induction ids with
  | nil =>
      intro w hq hdisk
      exact ⟨hq, .refl w hq.data, rfl, fun x page hx => hdisk x page hx (by simp)⟩
  | cons pageId rest ih =>
      intro w hq hdisk
      rw [Pager.flushFreelistPages, run_bind_ok (run_get w)]
      cases hlookup : w.pager.freelistCache.lookup pageId with
      | none =>
          dsimp only
          -- A dirty id without a cached page is skipped.
          refine ih w hq fun x page hx hnot => hdisk x page hx ?_
          rw [List.mem_cons, not_or]
          refine ⟨?_, hnot⟩
          rintro rfl
          rw [hlookup] at hx
          cases hx
      | some page =>
          obtain ⟨f, hf⟩ := Option.isSome_iff_exists.mp hq.data
          have hsize : w.pager.pageSizeBytes = C.pageSize := hq.pageSize
          have hcontent : dataContent w = f.content := by simp [dataContent, hf]
          simp only [run_bind, hsize]
          cases hdata : encodePage (.freelist page) C.pageSize with
          | error e =>
              have hchain := hq.chainPage_of_cached hlookup
              exact ⟨hq, .refl w hq.data, .inr (.inr ⟨pageId, page, hchain, hdata⟩)⟩
          | ok data =>
              simp only [Eng.codec, run_pure]
              obtain ⟨hpower, hwrite⟩ | ⟨power, hpower, hwrite⟩ :=
                writePage_cases hq.isOpen hf pageId data
              · rw [hwrite]
                exact ⟨hq, .refl w hq.data, .inl ⟨by simp [hpower], rfl⟩⟩
              · rw [hwrite]
                obtain ⟨hpos, hlen, hdisk', hq'⟩ := hq.writeFreelist hst hf hlookup hdata power
                refine .after (.writePage hf hpos hpower rfl)
                  (ih _ hq' fun x q hx hnot => ?_)
                show OnDisk (writeAt f.content (pageId * w.pager.pageSizeBytes) data) C.pageSize x _
                by_cases hid : x = pageId
                · subst hid
                  obtain rfl : page = q := Option.some.inj (hlookup.symm.trans hx)
                  exact hdisk'
                · rw [hsize]
                  have := hdisk x q hx (by simp [hid, hnot])
                  rw [hcontent] at this
                  exact this.write_of_ne hlen hid

/-- `flush_dirty_freelist_pages` leaves no dirty page. -/
theorem flushDirtyFreelistPages_spec (hst : Storable C) (hq : Quiet w C) :
    FlushSpec C w (fun w' => w'.pager.dirtyFreelistPageIds = [] ∧ w'.pool = w.pool)
      (Pager.flushDirtyFreelistPages w) := by
  obtain ⟨m, -, -, hfree⟩ := hq.metaPage
  have hloop := flushFreelistPages_spec hst
    (w.pager.dirtyFreelistPageIds.insertionSort (· ≤ ·)) w hq fun x page hx hnot =>
      hfree.clean x page hx fun h => hnot ((List.perm_insertionSort _ _).mem_iff.mpr h)
  rw [Pager.flushDirtyFreelistPages, run_bind_ok (run_get w), run_bind]
  revert hloop
  cases Pager.flushFreelistPages (w.pager.dirtyFreelistPageIds.insertionSort (· ≤ ·)) w with
  | error e w' => exact id
  | ok _ w' =>
      rintro ⟨hq', hflushes, hpool, hdisk⟩
      refine ⟨?_, ?_, rfl, hpool⟩
      · obtain ⟨m', hm', hmeta', hfree'⟩ := hq'.metaPage
        exact { hq' with metaPage := ⟨m', hm', hmeta',
          ⟨hfree'.linked, hfree'.heads, hfree'.cached, fun x page hx _ => hdisk x page hx⟩⟩ }
      · obtain ⟨⟨power, content, cache, dirty, rfl⟩, hpower, hmetaPage, hcache⟩ := hflushes
        exact ⟨⟨power, content, cache, [], rfl⟩, hpower, hmetaPage, hcache⟩

end BPTreeDB.Engine
