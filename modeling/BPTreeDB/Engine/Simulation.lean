import BPTreeDB.PageStore.Program
import BPTreeDB.Engine.Frame

/-!
# The engine and the page store

`Sim mode live w S` relates a database process `w` to an ideal page store `S`: page
objects, cached pages and the data file together hold the pages of `S`, and the
freelist of the pager is that of `S`.  `live` lists the page objects that the running
operation still refers to, each with its page id.

Two switches describe how the engine may leave the lockstep with the store.  A `strict`
pool has room for every page that the operation touches, so that it neither overflows
nor evicts a page in use; otherwise the exceptions for these two cases are allowed.  On a
`lossy` machine any file-system call may be the last one.
-/

namespace BPTreeDB.Engine

open Lib Eng Codec Lib.Program

/-! ## Pages on disk -/

/-- The data file holds `page` under the given id. -/
def OnDisk (content : Bytes) (P pageId : ℕ) (page : AnyPage) : Prop :=
  (readAt content (pageId * P) P).length = P ∧
    decodePage (readAt content (pageId * P) P) = .ok page

/-- A file that grows keeps its pages. -/
theorem OnDisk.append {content : Bytes} {P pageId : ℕ} {page : AnyPage}
    (h : OnDisk content P pageId page) (tail : Bytes) :
    OnDisk (content ++ tail) P pageId page := by
  rw [OnDisk, readAt_append h.1]
  exact h

/-- The bytes of the data file. -/
def dataContent (w : World) : Bytes := (w.disk.data.map (·.content)).getD []

/-! ## The freelist -/

/-- The freelist page that the pager would use: from its cache, else from the file. -/
def FreelistView (cache : List (ℕ × FreelistPage)) (content : Bytes) (P pageId : ℕ)
    (page : FreelistPage) : Prop :=
  cache.lookup pageId = some page ∨
    (cache.lookup pageId = none ∧ OnDisk content P pageId (.freelist page))

/-- The freelist pages from `head` on are those of the chain. -/
def ChainFrom (view : ℕ → FreelistPage → Prop) : ℕ → List (ℕ × List ℕ) → Prop
  | head, [] => head = 0
  | head, (pageId, freed) :: rest => head = pageId ∧ pageId ≠ 0 ∧
      ∃ next, view pageId ⟨0, next, freed⟩ ∧ ChainFrom view next rest

theorem ChainFrom.congr {view view' : ℕ → FreelistPage → Prop} {head : ℕ}
    {chain : List (ℕ × List ℕ)} (hc : ChainFrom view head chain)
    (hview : ∀ pageId ∈ chain.map Prod.fst, ∀ page, view pageId page → view' pageId page) :
    ChainFrom view' head chain := by
  induction chain generalizing head with
  | nil => exact hc
  | cons e chain ih =>
      obtain ⟨pageId, freed⟩ := e
      obtain ⟨hhead, hne, next, hpage, hrest⟩ := hc
      exact ⟨hhead, hne, next, hview pageId (by simp) _ hpage,
        ih hrest fun x hx => hview x (List.mem_cons_of_mem _ hx)⟩

/-- The pager keeps the freelist `chain` in memory and in the file. -/
structure FreelistSim (content : Bytes) (P : ℕ) (pager : Pager) (head : ℕ)
    (chain : List (ℕ × List ℕ)) : Prop where
  linked : ChainFrom (FreelistView pager.freelistCache content P) head chain
  heads : (chain.map Prod.fst).Nodup
  cached : ∀ pageId ∈ pager.freelistCache.map Prod.fst, pageId ∈ chain.map Prod.fst
  clean : ∀ pageId page, pager.freelistCache.lookup pageId = some page →
    pageId ∉ pager.dirtyFreelistPageIds → OnDisk content P pageId (.freelist page)

/-! ## Page objects and cached pages -/

/-- The page objects in use: those of the running operation and those of the pool. -/
def handles (live : List (ℕ × Ref)) (cache : List (ℕ × CachedPage)) : List (ℕ × Ref) :=
  live ++ cache.map fun e => (e.1, e.2.page)

/-- Cached pages, page objects and the data file hold the pages of the store.  `kept` is
what else is known of a page that the running operation has not marked dirty. -/
structure PoolSim (kept : ℕ → Page → Prop) (pages : ℕ → Option Page) (pending : List ℕ)
    (content : Bytes) (P : ℕ)
    (live : List (ℕ × Ref)) (pool : BufferPool) : Prop where
  nodup : (pool.cache.map Prod.fst).Nodup
  /-- An object in use has the content of its page. -/
  object : ∀ e ∈ handles live pool.cache,
    ∃ page, pages e.1 = some page ∧ pool.objects[e.2]? = some page
  /-- A page has one object, and an object belongs to one page. -/
  single : ∀ e ∈ handles live pool.cache, ∀ e' ∈ handles live pool.cache,
    e.1 = e'.1 ↔ e.2 = e'.2
  /-- A page that was not changed since it was read or written is on disk. -/
  disk : ∀ pageId page, pages pageId = some page → pageId ∉ pending →
    (∀ c, (pageId, c) ∈ pool.cache → c.isDirty = false) →
      OnDisk content P pageId (.tree page) ∧ kept pageId page

/-- The pool has room for the rest of the operation: the pages it touched are resident
and come last, and dirty pages, touched pages and the budget fit into the capacity.  A pool
that does not evict and began with the pages `start` holds these and the touched ones, as
long as they are in use. -/
structure Room (start : Option (Finset ℕ)) (pages : ℕ → Option Page) (touched : List ℕ)
    (budget : ℕ) (pool : BufferPool) : Prop where
  touchedNodup : touched.Nodup
  last : pool.cache.Pairwise fun e e' => e.1 ∈ touched → e'.1 ∈ touched
  resident : ∀ pageId ∈ touched, (pages pageId).isSome → pageId ∈ pool.cache.map Prod.fst
  space : pool.evictionEnabled = true →
    pool.cache.countP (fun e => e.2.isDirty && decide (e.1 ∉ touched)) + touched.length + budget ≤
      pool.capacityPages
  held : ∀ ids ∈ start, pool.evictionEnabled = false ∧ ∀ x,
    x ∈ pool.cache.map Prod.fst ↔ (x ∈ ids ∨ x ∈ touched) ∧ (pages x).isSome

/-! ## The simulation relation -/

/-- How the engine may leave the lockstep, what is known of the pages that it has not marked
dirty, and with which pages a pool began that does not evict. -/
structure Mode where
  strict : Prop
  lossy : Prop
  kept : ℕ → Page → Prop
  start : Option (Finset ℕ)

/-- The exceptions that leave the lockstep. -/
def Mode.escape (mode : Mode) (e : Err) : Prop :=
  (¬ mode.strict ∧ (e = .bufferPoolOverflow ∨ ∃ pageId, e = .keyError pageId)) ∨
    (mode.lossy ∧ e = .powerLoss)

/-- The meta page agrees with the store. -/
structure MetaSim (m : MetaPage) (P root next : ℕ) : Prop where
  pageSize : m.pageSizeBytes = P
  root : m.rootPageId = root
  next : m.nextPageId = next

/-- The database process `w` holds the page store `S`. -/
structure Sim (mode : Mode) (live : List (ℕ × Ref)) (w : World) (S : PageStore.Store) : Prop where
  isOpen : w.pager.isOpen = true
  data : w.disk.data.isSome
  pageSize : w.pager.pageSizeBytes = S.pageSize
  metaPage : ∃ m, w.pager.metaPage = some m ∧ MetaSim m S.pageSize S.root S.next ∧
    FreelistSim (dataContent w) S.pageSize w.pager m.freelistHeadPageId S.chain
  pool : PoolSim mode.kept S.pages S.pending (dataContent w) S.pageSize live w.pool
  room : mode.strict → Room mode.start S.pages S.touched S.budget w.pool
  power : ¬ mode.lossy → w.power = none

variable {mode : Mode} {live live' : List (ℕ × Ref)} {w : World} {S : PageStore.Store} {α β : Type}

theorem handles_subset {cache : List (ℕ × CachedPage)} (hsub : ∀ e ∈ live', e ∈ live) :
    ∀ e ∈ handles live' cache, e ∈ handles live cache := by
  intro e he
  simp only [handles, List.mem_append] at he ⊢
  exact he.imp (hsub e) id

/-- An operation may forget page objects. -/
theorem Sim.forget (hs : Sim mode live w S) (hsub : ∀ e ∈ live', e ∈ live) : Sim mode live' w S :=
  { hs with
    pool := { hs.pool with
      object := fun e he => hs.pool.object e (handles_subset hsub e he)
      single := fun e he e' he' => hs.pool.single e (handles_subset hsub e he) e'
        (handles_subset hsub e' he') } }

theorem Sim.forgetAll (hs : Sim mode live w S) : Sim mode [] w S := hs.forget (by simp)

/-- Both programs ended with the same exception, in related states. -/
def Ends (mode : Mode) (e : Err) (d : PageStore.Fault) (w : World) (S : PageStore.Store) : Prop :=
  d = .raised e ∧ Sim mode [] w S

/-- A run of the engine and a run of the page store in lockstep. -/
abbrev Lockstep (mode : Mode) (Q : α → β → World → PageStore.Store → Prop) :=
  Refines (· = PageStore.Fault.undisciplined) mode.escape (Ends mode) Q

/-- Both programs raise the same exception. -/
theorem Sim.raise (hs : Sim mode live w S) {Q : α → β → World → PageStore.Store → Prop} (e : Err) :
    Lockstep mode Q ((throw e : Eng α) w) (PageStore.raise e S) :=
  .inr (.inr ⟨rfl, hs.forgetAll⟩)

/-- A rule of the store that is broken promises nothing. -/
theorem Lockstep.require {Q : α → β → World → PageStore.Store → Prop} {c : Prop} [Decidable c]
    {r : EStateM.Result Err World α} {g : PUnit → PageStore.StoreM β}
    (h : c → Lockstep mode Q r (g ⟨⟩ S)) :
    Lockstep mode Q r ((PageStore.require c >>= g) S) := by
  by_cases hc : c
  · rw [PageStore.require, if_pos hc]
    exact h hc
  · rw [PageStore.require, if_neg hc]
    exact .of_undefined rfl

theorem Sim.codec (hs : Sim mode live w S) (x : Except Err α) :
    Lockstep mode (fun a b w' S' => a = b ∧ x = .ok a ∧ Sim mode live w' S') (codec x w)
      (PageStore.codec x S) := by
  cases x with
  | ok a => exact ⟨rfl, rfl, hs⟩
  | error e => exact hs.raise e

/-! ## Reading and changing page objects -/

theorem Sim.deref {pageId : ℕ} {ref : Ref} (hs : Sim mode live w S) (hmem : (pageId, ref) ∈ live) :
    Lockstep mode (fun a b w' S' => a = b ∧ S'.pages pageId = some b ∧ Sim mode live w' S')
      (Eng.deref ref w) (PageStore.deref pageId S) := by
  obtain ⟨page, hpage, hobject⟩ := hs.pool.object (pageId, ref) (by simp [handles, hmem])
  simp only [Eng.deref, PageStore.deref, run_bind, run_get, hpage, hobject, run_pure]
  exact ⟨rfl, hpage, hs⟩

theorem Sim.derefInternal {pageId : ℕ} {ref : Ref} (hs : Sim mode live w S)
    (hmem : (pageId, ref) ∈ live) :
    Lockstep mode (fun a b w' S' => a = b ∧ Sim mode live w' S')
      (Eng.derefInternal ref w) (PageStore.derefInternal pageId S) := by
  refine (hs.deref hmem).bind ?_
  rintro a b w' S' ⟨rfl, -, hs'⟩
  cases a with
  | leaf page => exact hs'.raise _
  | internal page => exact ⟨rfl, hs'⟩

theorem Sim.derefLeaf {pageId : ℕ} {ref : Ref} (hs : Sim mode live w S)
    (hmem : (pageId, ref) ∈ live) :
    Lockstep mode (fun a b w' S' => a = b ∧ Sim mode live w' S')
      (BPlusTree.derefLeaf ref w) (PageStore.derefLeaf pageId S) := by
  refine (hs.deref hmem).bind ?_
  rintro a b w' S' ⟨rfl, -, hs'⟩
  cases a with
  | leaf page => exact ⟨rfl, hs'⟩
  | internal page => exact hs'.raise _

theorem Room.congr_pages {start : Option (Finset ℕ)} {pages pages' : ℕ → Option Page}
    {touched : List ℕ} {budget : ℕ} {pool : BufferPool} (hr : Room start pages touched budget pool)
    (hpages : ∀ x, (pages' x).isSome = (pages x).isSome) : Room start pages' touched budget pool :=
  { hr with
    resident := fun x hx hsome => hr.resident x hx (hpages x ▸ hsome)
    held := fun ids hids => by
      obtain ⟨heviction, hcached⟩ := hr.held ids hids
      refine ⟨heviction, fun x => ?_⟩
      rw [hpages]
      exact hcached x }

/-- The object of a page and its content change together. -/
theorem PoolSim.update {kept : ℕ → Page → Prop} {pages : ℕ → Option Page}
    {pending pending' : List ℕ} {content : Bytes}
    {P pageId : ℕ} {ref : Ref} {pool : BufferPool} {cache : List (ℕ × CachedPage)} (page : Page)
    (hp : PoolSim kept pages pending content P live pool)
    (hmem : (pageId, ref) ∈ handles live pool.cache)
    (hcache : cache.map (fun e => (e.1, e.2.page)) = pool.cache.map (fun e => (e.1, e.2.page)))
    (hdisk : pageId ∈ pending' ∨ ∃ c, (pageId, c) ∈ cache ∧ c.isDirty = true)
    (hpending : ∀ x ∈ pending, x ≠ pageId → x ∈ pending')
    (hclean : ∀ x c, x ≠ pageId → (x, c) ∈ pool.cache → (x, c) ∈ cache) :
    PoolSim kept (Function.update pages pageId (some page)) pending' content P live
      { pool with cache := cache, objects := pool.objects.set ref page } where
  nodup := by
    have hkeys : cache.map Prod.fst = pool.cache.map Prod.fst := by
      have := congrArg (List.map Prod.fst) hcache
      rwa [List.map_map, List.map_map] at this
    rw [hkeys]
    exact hp.nodup
  object e he := by
    have he' : e ∈ handles live pool.cache := by
      simp only [handles, hcache] at he ⊢
      exact he
    -- One handle for each page and one page for each handle, so only the handles of this page see
    -- the new content.
    obtain ⟨old, hold, hobject⟩ := hp.object e he'
    have hsingle := hp.single e he' _ hmem
    by_cases hid : e.1 = pageId
    · refine ⟨page, by rw [hid]; simp, ?_⟩
      rw [hsingle.mp hid] at hobject ⊢
      rw [List.getElem?_set_self (List.getElem?_eq_some_iff.mp hobject).1]
    · refine ⟨old, by rw [Function.update_of_ne hid]; exact hold, ?_⟩
      rw [List.getElem?_set_ne fun h => hid (hsingle.mpr h.symm)]
      exact hobject
  single e he e' he' := by
    simp only [handles, hcache] at he he'
    exact hp.single e he e' he'
  disk x q hq hnot hx := by
    by_cases hid : x = pageId
    · subst hid
      obtain hmem' | ⟨c, hc, hdirty⟩ := hdisk
      · exact absurd hmem' hnot
      · exact absurd (hx c hc) (by simp [hdirty])
    · rw [Function.update_of_ne hid] at hq
      exact hp.disk x q hq (fun h => hnot (hpending x h hid)) fun c hc => hx c (hclean x c hid hc)

theorem isSome_update {pages : ℕ → Option Page} {pageId : ℕ} (page : Page) {old : Page}
    (hold : pages pageId = some old) (x : ℕ) :
    (Function.update pages pageId (some page) x).isSome = (pages x).isSome := by
  by_cases hid : x = pageId
  · rw [hid, hold, Function.update_self]
    rfl
  · rw [Function.update_of_ne hid]

theorem Sim.assign {pageId : ℕ} {ref : Ref} (hs : Sim mode live w S) (hmem : (pageId, ref) ∈ live)
    (page : Page) :
    Lockstep mode (fun _ _ w' S' => Sim mode live w' S') (Eng.assign ref page w)
      (PageStore.assign pageId page S) := by
  have hhandle : (pageId, ref) ∈ handles live w.pool.cache := by simp [handles, hmem]
  obtain ⟨old, hold, -⟩ := hs.pool.object _ hhandle
  refine { hs with pool := ?_, room := fun hstrict => ?_ }
  · exact hs.pool.update page hhandle rfl (.inl (List.mem_cons_self ..))
      (fun x hx _ => List.mem_cons_of_mem _ hx) fun _ _ _ hc => hc
  · have hroom := (hs.room hstrict).congr_pages (isSome_update page hold)
    exact ⟨hroom.touchedNodup, hroom.last, hroom.resident, hroom.space, hroom.held⟩

end BPTreeDB.Engine
