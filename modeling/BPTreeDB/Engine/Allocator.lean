import BPTreeDB.Engine.Pool

/-!
# The allocator in lockstep with the page store

The pager keeps the freelist as linked pages, in its cache and in the file; the page
store keeps it as a list.  Every operation of the allocator looks at the head only.
-/

namespace BPTreeDB.Engine

open Lib Eng Codec Lib.Program

variable {mode : Mode} {live : List (ℕ × Ref)} {w : World} {S : PageStore.Store}
  {content : Bytes} {P head pageId : ℕ} {chain : List (ℕ × List ℕ)} {pager : Pager}

/-! ## The meta page -/

/-- Reading the meta page. -/
theorem Sim.getMeta (hs : Sim mode live w S) :
    ∃ m, Pager.getMeta w = .ok m w ∧ w.pager.metaPage = some m ∧
      MetaSim m S.pageSize S.root S.next ∧
      FreelistSim (dataContent w) S.pageSize w.pager m.freelistHeadPageId S.chain := by
  obtain ⟨m, hm, hmeta, hfree⟩ := hs.metaPage
  exact ⟨m, by simp [Pager.getMeta, run_bind, hm], hm, hmeta, hfree⟩

/-- Reading the meta page, beside reading the state of the store. -/
theorem Sim.getMeta_get (hs : Sim mode live w S) :
    Lockstep mode (fun m (S₀ : PageStore.Store) w' S' => m.pageSizeBytes = S₀.pageSize ∧
      m.rootPageId = S₀.root ∧
      m.nextPageId = S₀.next ∧ Sim mode live w' S') (Pager.getMeta w)
      ((MonadState.get : PageStore.StoreM _) S) := by
  obtain ⟨m, hget, -, hmeta, -⟩ := hs.getMeta
  rw [hget]
  exact ⟨hmeta.pageSize, hmeta.root, hmeta.next, hs⟩

/-- A new root. -/
theorem Sim.setRoot (hs : Sim mode live w S) (root : ℕ) :
    Lockstep mode (fun _ _ w' S' => Sim mode live w' S')
      (Pager.updateMeta (fun m => { m with rootPageId := root }) w) (PageStore.setRoot root S) := by
  obtain ⟨m, hget, hm, hmeta, hfree⟩ := hs.getMeta
  simp only [Pager.updateMeta, run_bind, hget, run_modify, PageStore.setRoot]
  refine { hs with metaPage := ⟨_, rfl, ⟨hmeta.pageSize, rfl, hmeta.next⟩, ?_⟩ }
  exact ⟨hfree.linked, hfree.heads, hfree.cached, hfree.clean⟩

/-! ## Freelist pages -/

theorem FreelistView.append {cache : List (ℕ × FreelistPage)} {page : FreelistPage}
    (h : FreelistView cache content P pageId page) (tail : Bytes) :
    FreelistView cache (content ++ tail) P pageId page :=
  h.imp id fun ⟨hnone, hdisk⟩ => ⟨hnone, hdisk.append tail⟩

/-- The freelist does not see the growth of the file. -/
theorem FreelistSim.append (hf : FreelistSim content P pager head chain) (tail : Bytes) :
    FreelistSim (content ++ tail) P pager head chain where
  linked := hf.linked.congr fun _ _ _ h => h.append tail
  heads := hf.heads
  cached := hf.cached
  clean x page hx hclean := (hf.clean x page hx hclean).append tail

theorem lookup_cons_of_ne {α : Type} {l : List (ℕ × α)} {x y : ℕ} {a : α} (h : x ≠ y) :
    ((y, a) :: l).lookup x = l.lookup x := by
  rw [List.lookup_cons, beq_false_of_ne h]

theorem lookup_filter_of_ne {α : Type} {l : List (ℕ × α)} {x y : ℕ} (h : x ≠ y) :
    (l.filter (·.1 ≠ y)).lookup x = l.lookup x := by
  induction l with
  | nil => rfl
  | cons e l ih =>
      obtain ⟨k, a⟩ := e
      by_cases hk : k = y
      · have hxk : x ≠ k := fun h' => h (h'.trans hk)
        rw [lookup_cons_of_ne hxk, List.filter_cons_of_neg (by simpa using hk), ih]
      · rw [List.filter_cons_of_pos (by simpa using hk)]
        by_cases hxk : x = k
        · subst hxk
          simp
        · rw [lookup_cons_of_ne hxk, lookup_cons_of_ne hxk, ih]

/-- The view of a page does not depend on the other entries of the cache. -/
theorem FreelistView.congr {cache cache' : List (ℕ × FreelistPage)} {page : FreelistPage}
    (h : FreelistView cache content P pageId page)
    (hcache : cache'.lookup pageId = cache.lookup pageId) :
    FreelistView cache' content P pageId page := by
  rwa [FreelistView, hcache]

/-- A page of the chain is read, and kept in the cache. -/
theorem Sim.getFreelistPage {m : MetaPage} {page : FreelistPage} (hs : Sim mode live w S)
    (hm : w.pager.metaPage = some m) (hmeta : MetaSim m S.pageSize S.root S.next)
    (hfree : FreelistSim (dataContent w) S.pageSize w.pager m.freelistHeadPageId S.chain)
    (hmem : pageId ∈ S.chain.map Prod.fst)
    (hview : FreelistView w.pager.freelistCache (dataContent w) S.pageSize pageId page) :
    ∃ cache, Pager.getFreelistPage pageId w =
        .ok page { w with pager := { w.pager with freelistCache := cache } } ∧
      FreelistSim (dataContent w) S.pageSize { w.pager with freelistCache := cache }
        m.freelistHeadPageId S.chain ∧ cache.lookup pageId = some page ∧
      Sim mode live { w with pager := { w.pager with freelistCache := cache } } S := by
  cases hlookup : w.pager.freelistCache.lookup pageId with
  | some page' =>
      obtain rfl : page' = page := by
        rcases hview with h | ⟨h, -⟩
        · rw [hlookup] at h
          exact Option.some.inj h
        · rw [hlookup] at h
          cases h
      refine ⟨w.pager.freelistCache, ?_, hfree, hlookup, hs⟩
      simp [Pager.getFreelistPage, run_bind, hlookup]
  | none =>
      -- A miss: the page is read from the file, where the chain has it.
      have hdisk : OnDisk (dataContent w) S.pageSize pageId (.freelist page) := by
        rcases hview with h | ⟨-, h⟩
        · rw [hlookup] at h
          cases h
        · exact h
      have hdisk' := hdisk
      rw [← hs.pageSize] at hdisk'
      obtain ⟨bytes, hread, hdecode⟩ := readPage_of_onDisk hs.isOpen hs.data hdisk'
      have hfree' : FreelistSim (dataContent w) S.pageSize
          { w.pager with freelistCache := (pageId, page) :: w.pager.freelistCache }
          m.freelistHeadPageId S.chain := by
        -- The cached copy is the page on disk, so the chain reads the same through the cache.
        refine ⟨hfree.linked.congr fun x _ q hq => ?_, hfree.heads, fun x hx => ?_,
          fun x q hq hclean => ?_⟩
        · by_cases hx : x = pageId
          · subst hx
            rcases hq with h | ⟨-, h⟩
            · rw [hlookup] at h
              cases h
            · have : AnyPage.freelist q = .freelist page := by
                have := h.2.symm.trans hdisk.2
                simpa using this
              cases this
              exact .inl (by simp)
          · exact hq.congr (lookup_cons_of_ne hx)
        · simp only [List.map_cons, List.mem_cons] at hx
          rcases hx with rfl | hx
          · exact hmem
          · exact hfree.cached x hx
        · by_cases hx : x = pageId
          · subst hx
            simp only [List.lookup_cons_self, Option.some.injEq] at hq
            exact hq ▸ hdisk
          · exact hfree.clean x q (by rwa [lookup_cons_of_ne hx] at hq) hclean
      refine ⟨(pageId, page) :: w.pager.freelistCache, ?_, hfree', by simp, ?_⟩
      · simp only [Pager.getFreelistPage, run_bind, run_get, hlookup, hread, Eng.codec, hdecode,
          run_pure, run_modify]
      · exact { hs with metaPage := ⟨m, hm, hmeta, hfree'⟩ }

/-- The pager after a freelist page was changed. -/
def dirtied (pager : Pager) (pageId : ℕ) (page : FreelistPage) : Pager :=
  { pager with
    freelistCache := (pageId, page) :: pager.freelistCache.filter (·.1 ≠ pageId)
    dirtyFreelistPageIds := pageId :: pager.dirtyFreelistPageIds.filter (· ≠ pageId) }

/-- The pager after a page left the freelist. -/
def forgotten (pager : Pager) (pageId : ℕ) : Pager :=
  { pager with
    freelistCache := pager.freelistCache.filter (·.1 ≠ pageId)
    dirtyFreelistPageIds := pager.dirtyFreelistPageIds.filter (· ≠ pageId) }

theorem lookup_dirtied_of_ne {x : ℕ} (page : FreelistPage) (h : x ≠ pageId) :
    (dirtied pager pageId page).freelistCache.lookup x = pager.freelistCache.lookup x := by
  rw [dirtied, lookup_cons_of_ne h, lookup_filter_of_ne h]

/-- The head page gets a new list of ids. -/
theorem FreelistSim.setHead {freed : List ℕ} (freed' : List ℕ) {rest : List (ℕ × List ℕ)}
    (hf : FreelistSim content P pager head ((pageId, freed) :: rest)) {next : ℕ}
    (hview : FreelistView pager.freelistCache content P pageId ⟨0, next, freed⟩) :
    FreelistSim content P (dirtied pager pageId ⟨0, next, freed'⟩) head
      ((pageId, freed') :: rest) := by
  obtain ⟨hhead, hne, next', hview', hrest⟩ := hf.linked
  have hpage : (⟨0, next, freed⟩ : FreelistPage) = ⟨0, next', freed⟩ := by
    rcases hview with h | ⟨h, hd⟩
    · rcases hview' with h' | ⟨h', -⟩
      · exact Option.some.inj (h.symm.trans h')
      · rw [h] at h'
        cases h'
    · rcases hview' with h' | ⟨-, hd'⟩
      · rw [h] at h'
        cases h'
      · simpa using hd.2.symm.trans hd'.2
  obtain rfl : next = next' := by simpa using hpage
  have hnot : pageId ∉ rest.map Prod.fst := (List.nodup_cons.mp hf.heads).1
  refine ⟨⟨hhead, hne, next, .inl (by simp [dirtied]), hrest.congr fun x hx q hq => ?_⟩,
    hf.heads, fun x hx => ?_, fun x q hq hclean => ?_⟩
  · exact hq.congr (lookup_dirtied_of_ne _ fun h => hnot (h ▸ hx))
  · simp only [dirtied, List.map_cons, List.mem_cons] at hx
    rcases hx with rfl | hx
    · simp
    · exact hf.cached x ((List.filter_sublist.map _).subset hx)
  · have hx : x ≠ pageId := by
      rintro rfl
      exact hclean (by simp [dirtied])
    rw [lookup_dirtied_of_ne _ hx] at hq
    refine hf.clean x q hq fun h => hclean ?_
    simp [dirtied, hx, h]

/-- Forgetting a page that is not on the chain. -/
theorem FreelistSim.forget (hf : FreelistSim content P pager head chain)
    (hnot : pageId ∉ chain.map Prod.fst) : FreelistSim content P (forgotten pager pageId) head chain
    where
  linked := hf.linked.congr fun _ hx _ h =>
    h.congr (lookup_filter_of_ne fun heq => hnot (heq ▸ hx))
  heads := hf.heads
  cached x hx := hf.cached x ((List.filter_sublist.map _).subset hx)
  clean x q hq hclean := by
    have hx : x ≠ pageId := by
      rintro rfl
      have hmem := List.mem_map_of_mem (f := Prod.fst) (mem_of_lookup hq)
      simp [forgotten] at hmem
    rw [forgotten, lookup_filter_of_ne hx] at hq
    refine hf.clean x q hq fun h => hclean ?_
    simp [forgotten, hx, h]

/-- The head page itself is recycled. -/
theorem FreelistSim.popHead {freed : List ℕ} {rest : List (ℕ × List ℕ)} {next : ℕ}
    (hf : FreelistSim content P pager head ((pageId, freed) :: rest))
    (hview : FreelistView pager.freelistCache content P pageId ⟨0, next, freed⟩) :
    FreelistSim content P (forgotten pager pageId) next rest := by
  have hset := hf.setHead freed hview
  obtain ⟨-, -, next', hview', hrest⟩ := hset.linked
  have hnot : pageId ∉ rest.map Prod.fst := (List.nodup_cons.mp hf.heads).1
  have hnext : next' = next := by
    rcases hview' with h | ⟨h, -⟩
    · simp [dirtied] at h
      exact h.symm
    · simp [dirtied] at h
  subst hnext
  refine ⟨hrest.congr fun x hx q hq => ?_, (List.nodup_cons.mp hf.heads).2, fun x hx => ?_,
    fun x q hq hclean => ?_⟩
  · have hx' : x ≠ pageId := fun h => hnot (h ▸ hx)
    exact hq.congr ((lookup_filter_of_ne hx').trans (lookup_dirtied_of_ne _ hx').symm)
  · obtain ⟨e, he, rfl⟩ := List.mem_map.mp hx
    obtain ⟨he, hne⟩ := List.mem_filter.mp he
    have hchain := hf.cached e.1 (List.mem_map_of_mem he)
    simp only [List.map_cons, List.mem_cons] at hchain
    exact hchain.resolve_left (by simpa using hne)
  · have hx : x ≠ pageId := by
      rintro rfl
      have hmem := List.mem_map_of_mem (f := Prod.fst) (mem_of_lookup hq)
      simp [forgotten] at hmem
    rw [forgotten, lookup_filter_of_ne hx] at hq
    refine hf.clean x q hq fun h => hclean ?_
    simp [forgotten, hx, h]

/-- A new head page. -/
theorem FreelistSim.pushHead {new : ℕ} (hf : FreelistSim content P pager head chain)
    (hnew : new ≠ 0 ∧ new ∉ chain.map Prod.fst) (freed : List ℕ) :
    FreelistSim content P (dirtied pager new ⟨0, head, freed⟩) new ((new, freed) :: chain) := by
  refine ⟨⟨rfl, hnew.1, head, .inl (by simp [dirtied]), hf.linked.congr fun x hx q hq => ?_⟩,
    List.nodup_cons.mpr ⟨hnew.2, hf.heads⟩, fun x hx => ?_, fun x q hq hclean => ?_⟩
  · exact hq.congr (lookup_dirtied_of_ne _ fun h => hnew.2 (h ▸ hx))
  · simp only [dirtied, List.map_cons, List.mem_cons] at hx
    rcases hx with rfl | hx
    · simp
    · exact List.mem_cons_of_mem _ (hf.cached x ((List.filter_sublist.map _).subset hx))
  · have hx : x ≠ new := by
      rintro rfl
      exact hclean (by simp [dirtied])
    rw [lookup_dirtied_of_ne _ hx] at hq
    refine hf.clean x q hq fun h => hclean ?_
    simp [dirtied, hx, h]

/-! ## Allocating and freeing -/

theorem PoolSim.append {kept : ℕ → Page → Prop} {pages : ℕ → Option Page} {pending : List ℕ}
    {pool : BufferPool}
    (hp : PoolSim kept pages pending content P live pool) (tail : Bytes) :
    PoolSim kept pages pending (content ++ tail) P live pool :=
  { hp with disk := fun x page hpage hpending hx =>
    (hp.disk x page hpage hpending hx).imp (·.append tail) id }

/-- `_bump_allocate_one_page`. -/
theorem Sim.bumpAllocateOnePage (hs : Sim mode live w S) :
    Lockstep mode (fun a b w' S' => a = b ∧ Sim mode live w' S') (Pager.bumpAllocateOnePage w)
      (PageStore.bumpAllocateOnePage S) := by
  obtain ⟨m, hget, hm, hmeta, hfree⟩ := hs.getMeta
  obtain ⟨f, hf⟩ := Option.isSome_iff_exists.mp hs.data
  have hfile : Pager.file w = .ok f w := by simp [Pager.file, run_bind, hs.isOpen, hf]
  have hcontent : dataContent w = f.content := by simp [dataContent, hf]
  simp only [Pager.bumpAllocateOnePage, run_bind, hget, Pager.extendFileByOnePage, hfile, run_get]
  obtain ⟨hpower, hcall⟩ | ⟨power, hpower, hcall⟩ := fileSystemCall_cases w
  · rw [hcall]
    refine .of_escape (.inr ⟨?_, rfl⟩)
    by_contra hlossy
    rw [hs.power hlossy] at hpower
    cases hpower
  · simp only [hcall, Pager.setFile, run_modify, Pager.updateMeta, Pager.getMeta, run_bind, run_get,
      hm, run_pure, PageStore.bumpAllocateOnePage, run_set]
    set tail : Bytes := List.replicate w.pager.pageSizeBytes 0
    have hcontent' : dataContent { w with power := power, disk := { w.disk with
        data := some (f.write (f.content ++ tail)) } } = dataContent w ++ tail := by
      simp [dataContent, hf, FileState.write]
    refine ⟨hmeta.next, ⟨hs.isOpen, rfl, hs.pageSize,
      ⟨_, rfl, ⟨hmeta.pageSize, hmeta.root, ?_⟩, ?_⟩,
      ?_, hs.room, fun h => hpower (hs.power h)⟩⟩
    · show m.nextPageId + 1 = S.next + 1
      rw [hmeta.next]
    · have := hfree.append tail
      rw [← hcontent'] at this
      exact ⟨this.linked, this.heads, this.cached, this.clean⟩
    · have := hs.pool.append tail
      rw [← hcontent'] at this
      exact this

/-- `allocate_page`. -/
theorem Sim.allocatePage (hs : Sim mode live w S) :
    Lockstep mode (fun a b w' S' => a = b ∧ Sim mode live w' S') (Pager.allocatePage w)
      (PageStore.allocatePage S) := by
  obtain ⟨m, hget, hm, hmeta, hfree⟩ := hs.getMeta
  rw [Pager.allocatePage, run_bind_ok hget, PageStore.allocatePage, run_bind_ok (run_get S)]
  cases hchain : S.chain with
  | nil =>
      have hhead : m.freelistHeadPageId = 0 := by
        have := hfree.linked
        rw [hchain] at this
        exact this
      rw [if_neg (by simp [hhead])]
      exact hs.bumpAllocateOnePage
  | cons e rest =>
      obtain ⟨headId, freed⟩ := e
      have hlinked := hfree.linked
      rw [hchain] at hlinked
      obtain ⟨hhead, hne, next, hview, -⟩ := hlinked
      obtain ⟨cache, hrun, hfree', hlookup, hs'⟩ := hs.getFreelistPage hm hmeta hfree
        (by rw [hchain]; simp) hview
      rw [if_pos (by rw [hhead]; exact hne), hhead, run_bind_ok hrun]
      rw [hchain] at hfree'
      cases hlast : freed.getLast? with
      | some pageId =>
          simp only [hlast]
          refine Lockstep.require fun hnot => ?_
          rw [run_bind_ok (run_set _ _)]
          refine ⟨rfl, { hs' with metaPage := ⟨m, hm, hmeta, ?_⟩ }⟩
          exact (hfree'.setHead freed.dropLast (.inl hlookup)).forget hnot
      | none =>
          simp only [Pager.updateMeta, Pager.getMeta, run_bind, run_get, hm, run_pure, run_modify,
            Pager.forgetFreelistPage, run_set, hlast]
          refine ⟨rfl, { hs' with
            metaPage := ⟨_, rfl, ⟨hmeta.pageSize, hmeta.root, hmeta.next⟩, ?_⟩ }⟩
          have := hfree'.popHead (.inl hlookup)
          exact ⟨this.linked, this.heads, this.cached, this.clean⟩

/-- Starting a new freelist head. -/
theorem Sim.pushFreelistHead (hs : Sim mode live w S) (pageId : ℕ) :
    Lockstep mode (fun _ _ w' S' => Sim mode live w' S') (Pager.pushFreelistHead pageId w)
      (PageStore.pushFreelistHead pageId S) := by
  refine hs.bumpAllocateOnePage.bind ?_
  rintro new _ w' S' ⟨rfl, hs'⟩
  obtain ⟨m, hget, hm, hmeta, hfree⟩ := hs'.getMeta
  rw [run_bind_ok hget, run_bind_ok (run_get S')]
  refine Lockstep.require fun hnew => ?_
  simp only [Pager.markFreelistPageDirty, Pager.updateMeta, Pager.getMeta, run_bind, run_get, hm,
    run_pure, run_modify, run_set]
  refine { hs' with metaPage := ⟨_, rfl, ⟨hmeta.pageSize, hmeta.root, hmeta.next⟩, ?_⟩ }
  have := hfree.pushHead hnew [pageId]
  exact ⟨this.linked, this.heads, this.cached, this.clean⟩

/-- `free_page`. -/
theorem Sim.freePage (hs : Sim mode live w S) (pageId : ℕ) :
    Lockstep mode (fun _ _ w' S' => Sim mode live w' S') (Pager.freePage pageId w)
      (PageStore.freePage pageId S) := by
  obtain ⟨m, hget, hm, hmeta, hfree⟩ := hs.getMeta
  rw [Pager.freePage, run_bind_ok hget, PageStore.freePage, run_bind_ok (run_get S)]
  cases hchain : S.chain with
  | nil =>
      have hhead : m.freelistHeadPageId = 0 := by
        have := hfree.linked
        rw [hchain] at this
        exact this
      rw [if_neg (by simp [hhead])]
      exact hs.pushFreelistHead pageId
  | cons e rest =>
      obtain ⟨headId, freed⟩ := e
      have hlinked := hfree.linked
      rw [hchain] at hlinked
      obtain ⟨hhead, hne, next, hview, -⟩ := hlinked
      obtain ⟨cache, hrun, hfree', hlookup, hs'⟩ := hs.getFreelistPage hm hmeta hfree
        (by rw [hchain]; simp) hview
      rw [if_pos (by rw [hhead]; exact hne), hhead, run_bind_ok hrun, run_bind_ok (run_get _)]
      by_cases hroom : freed.length < getMaxFreedIdsPerFreelistPage S.pageSize
      · have hroom' : freed.length < getMaxFreedIdsPerFreelistPage w.pager.pageSizeBytes := by
          rw [hs.pageSize]
          exact hroom
        dsimp only
        rw [if_pos hroom', if_pos hroom, run_set]
        rw [hchain] at hfree'
        refine { hs' with metaPage := ⟨m, hm, hmeta, ?_⟩ }
        exact hfree'.setHead (freed ++ [pageId]) (.inl hlookup)
      · have hroom' : ¬ freed.length < getMaxFreedIdsPerFreelistPage w.pager.pageSizeBytes := by
          rw [hs.pageSize]
          exact hroom
        dsimp only
        rw [if_neg hroom', if_neg hroom]
        exact hs'.pushFreelistHead pageId

end BPTreeDB.Engine
