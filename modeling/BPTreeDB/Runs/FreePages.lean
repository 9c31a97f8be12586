import BPTreeDB.Runs.TreeRuns

/-!
# The page allocator

Every run of `allocate_page`, `free_page`, `flush_dirty_freelist_pages` and closing and
opening again, on a pager of its own.  A free id is one that is listed in the freelist or is
a page of it.  The run lemma `PagerRun.allocating` says that the ids that were handed out
and the free ids are the ids below `next_page_id`, each of them once; what one call does to
the free ids is read off this and the growth of the file.
-/

namespace BPTreeDB.Runs

open Lib Eng Codec Lib.Program PageStore Engine

variable {C C' : Content} {owned : List ℕ} {w w' : World} {config : Config} {x id : ℕ}

/-! ## Calls -/

/-- A call on the pager. -/
inductive PagerCall where
  | allocate
  | free (pageId : ℕ)
  | flush
  | reopen
  deriving DecidableEq, Repr

/-- A call, with the id that it hands out. -/
def PagerCall.run : PagerCall → Eng (Option ℕ)
  | .allocate => do return some (← Pager.allocatePage)
  | .free pageId => do
      Pager.freePage pageId
      return none
  | .flush => do
      Pager.flushDirtyFreelistPages
      return none
  | .reopen => do
      Pager.close
      Pager.open_
      return none

/-- The ids that are handed out after a run, its last call first.  A new file starts with
one page. -/
def held : List (PagerCall × Option ℕ) → List ℕ
  | [] => [1]
  | (.allocate, some id) :: trace => id :: held trace
  | (.free id, _) :: trace => (held trace).erase id
  | _ :: trace => held trace

/-- The ids that were freed and not handed out again. -/
def freed : List (PagerCall × Option ℕ) → List ℕ
  | [] => []
  | (.allocate, some id) :: trace => (freed trace).filter (· ≠ id)
  | (.free id, _) :: trace => id :: freed trace
  | _ :: trace => freed trace

/-- Only ids that are handed out are freed. -/
def PagerCall.Legal (trace : List (PagerCall × Option ℕ)) : PagerCall → Prop
  | .free id => id ∈ held trace
  | _ => True

/-- Runs of a pager on a new file, the last call first. -/
inductive PagerRun (config : Config) : List (PagerCall × Option ℕ) → World → Prop
  | start {w : World} : Pager.open_ (newTree config true) = .ok () w → PagerRun config [] w
  | call {trace : List (PagerCall × Option ℕ)} {c : PagerCall} {out : Option ℕ} {w w' : World} :
      PagerRun config trace w → c.Legal trace → c.run w = .ok out w' →
        PagerRun config ((c, out) :: trace) w'

/-! ## The invariant -/

/-- The pager keeps the freelist of `C`, and accounts for the ids in `owned`. -/
structure Allocating (C : Content) (owned : List ℕ) (w : World) : Prop where
  quiet : Quiet w C
  noPages : C.pages = fun _ => none
  accounted : Accounted C.next C.chain owned
  chainFits : ChainFits C.pageSize C.chain
  large : minPageSize ≤ C.pageSize
  small : C.pageSize < 256 ^ 4
  power : w.power = none
  next_pos : 1 ≤ C.next
  /-- The file has its first page. -/
  firstPage : (readAt (dataContent w) 0 C.pageSize).length = C.pageSize
  /-- A meta page that is not dirty is in the file. -/
  metaPage : ∀ m, w.pager.metaPage = some m → m.rootPageId < 256 ^ 8 ∧
    m.lastCheckpointLsn < 256 ^ 8 ∧
    (w.pager.isMetaDirty = false → MetaEncodable m ∧ metaBytes m <+: dataContent w)

/-- What an allocation or a free does to the meta page: nothing, or it marks it dirty. -/
def MetaMarked (w w' : World) : Prop :=
  w'.pager.isMetaDirty = true ∨
    w'.pager.metaPage = w.pager.metaPage ∧ w'.pager.isMetaDirty = w.pager.isMetaDirty

instance : Std.Refl MetaMarked := ⟨fun _ => .inr ⟨rfl, rfl⟩⟩

instance : IsTrans World MetaMarked where
  trans w w' w'' h h' := by
    rcases h' with h' | ⟨hmeta', hdirty'⟩
    · exact .inl h'
    · rcases h with h | ⟨hmeta, hdirty⟩
      · exact .inl (hdirty'.trans h)
      · exact .inr ⟨hmeta'.trans hmeta, hdirty'.trans hdirty⟩

theorem metaMarked_getMeta : Keeps MetaMarked Pager.getMeta := by
  refine keeps_get.bind fun w => ?_
  split
  · exact keeps_pure _
  · exact keeps_throw _

theorem metaMarked_updateMeta (update : MetaPage → MetaPage) :
    Keeps MetaMarked (Pager.updateMeta update) :=
  metaMarked_getMeta.bind fun _ => keeps_modify fun _ => .inl rfl

theorem metaMarked_file : Keeps MetaMarked Pager.file := by
  refine keeps_get.bind fun w => ?_
  split
  · exact keeps_pure _
  · exact keeps_throw _

theorem metaMarked_codec {α : Type} (r : Except Err α) : Keeps MetaMarked (codec r) := by
  cases r with
  | ok a => exact keeps_pure a
  | error e => exact keeps_throw e

theorem metaMarked_getFreelistPage (pageId : ℕ) :
    Keeps MetaMarked (Pager.getFreelistPage pageId) := by
  have hread : Keeps MetaMarked (Pager.readPage pageId) := by
    refine metaMarked_file.bind fun f => keeps_get.bind fun w => ?_
    dsimp only
    split
    · exact (keeps_throw _).bind fun _ => keeps_pure _
    · exact keeps_pure _
  refine keeps_get.bind fun w => ?_
  split
  · exact keeps_pure _
  · refine hread.bind fun data => (metaMarked_codec _).bind fun page => ?_
    split
    · exact (keeps_modify fun _ => .inr ⟨rfl, rfl⟩).bind fun _ => keeps_pure _
    · exact keeps_throw _

theorem metaMarked_bumpAllocateOnePage : Keeps MetaMarked Pager.bumpAllocateOnePage := by
  have hcall : Keeps MetaMarked fileSystemCall := by
    intro w
    obtain ⟨-, hcall⟩ | ⟨power, -, hcall⟩ := fileSystemCall_cases w
    · rw [hcall]
      exact .inr ⟨rfl, rfl⟩
    · rw [hcall]
      exact .inr ⟨rfl, rfl⟩
  refine metaMarked_getMeta.bind fun m => Keeps.bind ?_ fun _ => ?_
  · refine metaMarked_file.bind fun f => keeps_get.bind fun w => hcall.bind fun _ => ?_
    exact keeps_modify fun _ => .inr ⟨rfl, rfl⟩
  · exact (metaMarked_updateMeta _).bind fun _ => keeps_pure _

theorem metaMarked_allocatePage : Keeps MetaMarked Pager.allocatePage := by
  refine metaMarked_getMeta.bind fun m => ?_
  split
  · refine (metaMarked_getFreelistPage _).bind fun page => ?_
    split
    · refine (keeps_modify fun _ => .inr ⟨rfl, rfl⟩).bind fun _ => ?_
      exact (keeps_modify fun _ => .inr ⟨rfl, rfl⟩).bind fun _ => keeps_pure _
    · refine (metaMarked_updateMeta _).bind fun _ => ?_
      exact (keeps_modify fun _ => .inr ⟨rfl, rfl⟩).bind fun _ => keeps_pure _
  · exact metaMarked_bumpAllocateOnePage

theorem metaMarked_freePage (pageId : ℕ) : Keeps MetaMarked (Pager.freePage pageId) := by
  have hpush : Keeps MetaMarked (Pager.pushFreelistHead pageId) := by
    refine metaMarked_bumpAllocateOnePage.bind fun new => metaMarked_getMeta.bind fun m => ?_
    exact (keeps_modify fun _ => .inr ⟨rfl, rfl⟩).bind fun _ => metaMarked_updateMeta _
  refine metaMarked_getMeta.bind fun m => ?_
  split
  · refine (metaMarked_getFreelistPage _).bind fun page => keeps_get.bind fun w => ?_
    split
    · exact keeps_modify fun _ => .inr ⟨rfl, rfl⟩
    · exact hpush
  · exact hpush

/-! ## Allocating and freeing -/

/-- What an allocation of the page store does to its counter and its chain. -/
theorem allocatePage_cases {S : Store} (h : PageStore.allocatePage ⟨C, [], [], 0⟩ = .ok id S) :
    S = ⟨S.toContent, [], [], 0⟩ ∧
      ((C.chain = [] ∧ id = C.next ∧ S.next = C.next + 1 ∧ S.chain = []) ∨
        (C.chain ≠ [] ∧ S.next = C.next)) := by
  unfold PageStore.allocatePage at h
  rw [run_bind_ok (run_get _)] at h
  cases hchain : C.chain with
  | nil =>
      simp only [hchain] at h
      cases h
      exact ⟨rfl, .inl ⟨rfl, rfl, rfl, hchain⟩⟩
  | cons e rest =>
      obtain ⟨head, ids⟩ := e
      simp only [hchain] at h
      cases hlast : ids.getLast? with
      | none =>
          simp only [hlast] at h
          cases h
          exact ⟨rfl, .inr ⟨by simp, rfl⟩⟩
      | some pageId =>
          simp only [hlast] at h
          obtain ⟨_, S', hrequire, h⟩ := bind_eq_ok.mp h
          unfold require at hrequire
          split at hrequire
          · cases hrequire
            cases h
            exact ⟨rfl, .inr ⟨by simp, rfl⟩⟩
          · cases hrequire

/-- The head of the freelist has room for one more id. -/
def HeadHasRoom (P : ℕ) : List (ℕ × List ℕ) → Prop
  | [] => False
  | (_, ids) :: _ => ids.length < getMaxFreedIdsPerFreelistPage P

theorem pushFreelistHead_cases {S : Store}
    (h : PageStore.pushFreelistHead id ⟨C, [], [], 0⟩ = .ok () S) :
    S = ⟨S.toContent, [], [], 0⟩ ∧ S.next = C.next + 1 ∧ S.chain = (C.next, [id]) :: C.chain := by
  obtain ⟨new, S₁, hbump, h⟩ := bind_eq_ok.mp h
  cases hbump
  rw [run_bind_ok (run_get _)] at h
  obtain ⟨_, S₂, hrequire, h⟩ := bind_eq_ok.mp h
  unfold require at hrequire
  split at hrequire
  · cases hrequire
    cases h
    exact ⟨rfl, rfl, rfl⟩
  · cases hrequire

/-- What a free of the page store does to its counter. -/
theorem freePage_cases {S : Store} (h : PageStore.freePage id ⟨C, [], [], 0⟩ = .ok () S) :
    S = ⟨S.toContent, [], [], 0⟩ ∧
      ((HeadHasRoom C.pageSize C.chain ∧ S.next = C.next) ∨
        (¬ HeadHasRoom C.pageSize C.chain ∧ S.next = C.next + 1 ∧
          S.chain = (C.next, [id]) :: C.chain)) := by
  unfold PageStore.freePage at h
  rw [run_bind_ok (run_get _)] at h
  cases hchain : C.chain with
  | nil =>
      simp only [hchain] at h
      obtain ⟨hshape, hnext⟩ := pushFreelistHead_cases h
      rw [hchain] at hnext
      exact ⟨hshape, .inr ⟨fun h => h, hnext⟩⟩
  | cons e rest =>
      obtain ⟨head, ids⟩ := e
      simp only [hchain] at h
      split at h
      · rename_i hroom
        cases h
        exact ⟨rfl, .inl ⟨hroom, rfl⟩⟩
      · rename_i hfull
        obtain ⟨hshape, hnext⟩ := pushFreelistHead_cases h
        rw [hchain] at hnext
        exact ⟨hshape, .inr ⟨hfull, hnext⟩⟩

theorem Allocating.conf (h : Allocating C owned w) :
    Conf C.pageSize 0 C.root [] owned [] [] 0 ⟨C, [], [], 0⟩ where
  pageSize := rfl
  root_eq := rfl
  next_pos := h.next_pos
  holds := by
    refine ⟨List.nodup_nil, by simp, fun x page hx => ?_⟩
    have hx : C.pages x = some page := hx
    rw [h.noPages] at hx
    cases hx
  accounted := h.accounted
  chainFits := h.chainFits
  pending := by simp
  touched := by simp
  budget := Nat.zero_le _

theorem Allocating.cache_eq_nil (h : Allocating C owned w) : w.pool.cache = [] := by
  cases hcache : w.pool.cache with
  | nil => rfl
  | cons e rest =>
      obtain ⟨page, hpage, -⟩ := h.quiet.pool.object (e.1, e.2.page) (by simp [handles, hcache])
      have hpage : C.pages e.1 = some page := hpage
      rw [h.noPages] at hpage
      cases hpage

theorem Allocating.sim (h : Allocating C owned w) : Sim tightMode [] w ⟨C, [], [], 0⟩ := by
  refine h.quiet.sim ⟨fun _ _ => ?_, fun _ => h.power, fun _ _ _ _ => trivial,
    fun _ h => by cases h⟩
  simp [BufferPool.dirtyCount, h.cache_eq_nil]

/-- A step that writes nothing to the file. -/
theorem Allocating.step (h : Allocating C owned w) {owned' : List ℕ} {S : Store}
    (hs : Sim tightMode [] w' S) (hc : Conf C.pageSize 0 C.root [] owned' [] [] 0 S)
    (hsteal : NoSteal w w') (hmarked : MetaMarked w w') : Allocating S.toContent owned' w' := by
  have hsize : S.pageSize = C.pageSize := hc.pageSize
  have hpending : S.pending = [] := List.eq_nil_iff_forall_not_mem.mpr fun x hx => by
    simpa using hc.pending x hx
  obtain ⟨f, hf⟩ := Option.isSome_iff_exists.mp h.quiet.data
  obtain ⟨k, hdata, -⟩ := hsteal.data
  have hcontent : dataContent w' = dataContent w ++
      List.replicate (k * w.pager.pageSizeBytes) 0 := by
    simp [dataContent, hdata, hf, grow]
  have hquiet := hs.quiet hpending
  refine ⟨hquiet, ?_, hc.accounted, hc.chainFits, ?_, ?_, hsteal.power h.power, hc.next_pos, ?_, ?_⟩
  · funext x
    exact hc.holds.pages_eq_none (by simp)
  · rw [hsize]
    exact h.large
  · rw [hsize]
    exact h.small
  · rw [hcontent, hsize, readAt_append h.firstPage]
    exact h.firstPage
  · intro m' hm'
    obtain ⟨m, hm, hmeta, -⟩ := h.quiet.metaPage
    obtain ⟨m₁, hm₁, hmeta₁, -⟩ := hquiet.metaPage
    obtain rfl : m₁ = m' := Option.some.inj (hm₁.symm.trans hm')
    obtain ⟨hroot, hlsn, hclean⟩ := h.metaPage m hm
    have hfields := congrArg Frozen.metaFields hsteal.frozen
    simp only [frozen, hm, hm', Option.map_some, Option.some.injEq, Prod.mk.injEq] at hfields
    refine ⟨?_, ?_, fun hnotDirty => ?_⟩
    · have hrootEq : m₁.rootPageId = m.rootPageId :=
        hmeta₁.root.trans (hc.root_eq.trans hmeta.root.symm)
      rw [hrootEq]
      exact hroot
    · rw [hfields.2]
      exact hlsn
    -- The meta page is dirty, or neither it nor the mark has moved.
    · rcases hmarked with hdirty | ⟨hsame, hdirty⟩
      · rw [hnotDirty] at hdirty
        cases hdirty
      · obtain rfl : m₁ = m := Option.some.inj (hm'.symm.trans (hsame.trans hm))
        obtain ⟨hencodable, hprefix⟩ := hclean (hdirty.symm.trans hnotDirty)
        rw [hcontent]
        exact ⟨hencodable, hprefix.trans (List.prefix_append _ _)⟩

theorem Allocating.allocatePage (h : Allocating C owned w) :
    ∃ id C' w', Pager.allocatePage w = .ok id w' ∧ Allocating C' (id :: owned) w' ∧ NoSteal w w' ∧
      PageStore.allocatePage ⟨C, [], [], 0⟩ = .ok id ⟨C', [], [], 0⟩ := by
  obtain ⟨id, S, hstore, -, hc⟩ := h.conf.allocatePage
  obtain ⟨a, w', hrun, rfl, hs⟩ :=
    returns_of_lockstep h.sim.allocatePage tightMode_not_escape hstore
  have hsteal := noSteal_allocatePage.ok hrun
  have hshape : S = ⟨S.toContent, [], [], 0⟩ := (allocatePage_cases hstore).1
  refine ⟨a, S.toContent, w', hrun, h.step hs hc hsteal
    (metaMarked_allocatePage.ok hrun), hsteal, ?_⟩
  rw [hstore, ← hshape]

theorem Allocating.freePage (h : Allocating C owned w) (hid : id ∈ owned) :
    ∃ C' w', Pager.freePage id w = .ok () w' ∧ Allocating C' (owned.erase id) w' ∧ NoSteal w w' ∧
      PageStore.freePage id ⟨C, [], [], 0⟩ = .ok () ⟨C', [], [], 0⟩ := by
  have hlarge := h.large
  simp only [minPageSize, metaPageNoCrcSize, crc32FieldSize] at hlarge
  have hc : Conf C.pageSize 0 C.root [] (id :: owned.erase id) [] [] 0 ⟨C, [], [], 0⟩ :=
    h.conf.weaken (.refl _) (List.perm_cons_erase hid) (by simp) (by simp) le_rfl
  obtain ⟨S, hstore, hc'⟩ := hc.freePage (by omega)
  obtain ⟨⟨⟩, w', hrun, hs⟩ :=
    returns_of_lockstep (h.sim.freePage id) tightMode_not_escape hstore
  have hsteal := (noSteal_freePage id).ok hrun
  have hshape : S = ⟨S.toContent, [], [], 0⟩ := (freePage_cases hstore).1
  refine ⟨S.toContent, w', hrun, h.step hs hc' hsteal
    ((metaMarked_freePage id).ok hrun), hsteal, ?_⟩
  rw [hstore, ← hshape]

/-! ## Flushing and opening again -/

theorem prefix_readAt_iff {bytes content : Bytes} {P : ℕ} (hlen : bytes.length ≤ P) :
    bytes <+: readAt content 0 P ↔ bytes <+: content := by
  rw [readAt, List.drop_zero, List.prefix_take_iff]
  exact and_iff_left hlen

theorem Allocating.storable (h : Allocating C owned w) : Storable C where
  pageSize := h.small
  header := by
    have hlarge := h.large
    simp only [minPageSize, metaPageNoCrcSize, crc32FieldSize, pageHeaderSize] at hlarge ⊢
    omega
  apart x hx := by simp [h.noPages] at hx
  pos x hx := by simp [h.noPages] at hx
  fits x page hx := by simp [h.noPages] at hx
  chainFits := h.chainFits

theorem Allocating.flush (h : Allocating C owned w)
    (hrun : Pager.flushDirtyFreelistPages w = .ok () w') :
    Allocating C owned w' ∧ w'.pager.dirtyFreelistPageIds = [] ∧
      w'.pager.metaPage = w.pager.metaPage := by
  have hspec := flushDirtyFreelistPages_spec h.storable h.quiet
  rw [hrun] at hspec
  obtain ⟨hquiet, hflushes, hdirty, -⟩ := hspec
  have hsize : w.pager.pageSizeBytes = C.pageSize := h.quiet.pageSize
  have hfirst := hflushes.metaPage (by rw [hsize]; exact h.firstPage)
  rw [hsize] at hfirst
  obtain ⟨power, content, cache, dirty, hw'⟩ := hflushes.eq
  have hmeta : w'.pager.metaPage = w.pager.metaPage := by rw [hw']; rfl
  have hmark : w'.pager.isMetaDirty = w.pager.isMetaDirty := by rw [hw']; rfl
  have hlen : 52 ≤ C.pageSize := h.large
  refine ⟨⟨hquiet, h.noPages, h.accounted, h.chainFits, h.large, h.small,
    hflushes.power h.power, h.next_pos, ?_, fun m hm => ?_⟩, hdirty, hmeta⟩
  · rw [hfirst]
    exact h.firstPage
  · obtain ⟨hroot, hlsn, hclean⟩ := h.metaPage m (hmeta ▸ hm)
    refine ⟨hroot, hlsn, fun hnot => ?_⟩
    obtain ⟨hencodable, hprefix⟩ := hclean (hmark ▸ hnot)
    refine ⟨hencodable, ?_⟩
    rw [← prefix_readAt_iff (P := C.pageSize) (by rw [length_metaBytes]; exact hlen), hfirst,
      prefix_readAt_iff (by rw [length_metaBytes]; exact hlen)]
    exact hprefix

theorem Allocating.flush_returns (h : Allocating C owned w) (hnext : C.next ≤ 256 ^ 8) :
    ∃ w', Pager.flushDirtyFreelistPages w = .ok () w' := by
  have hspec := flushDirtyFreelistPages_spec h.storable h.quiet
  cases hrun : Pager.flushDirtyFreelistPages w with
  | ok a w' => exact ⟨w', rfl⟩
  | error e w' =>
      rw [hrun] at hspec
      obtain ⟨-, -, ⟨hpower, -⟩ | (⟨x, page, hpage, -⟩ | ⟨x, page, hpage, hencode⟩)⟩ := hspec
      · exact absurd h.power hpower
      · rw [h.noPages] at hpage
        cases hpage
      · obtain ⟨data, hdata, -⟩ := encodePage_spec (encodable_chainPage h.storable
          (fun x hx => Accounted.freeIds_lt h.accounted hnext hx) hpage)
        rw [hencode] at hdata
        cases hdata

/-- The meta page can be encoded. -/
theorem Allocating.encodable (h : Allocating C owned w) (hnext : C.next < 256 ^ 8) {m : MetaPage}
    (hm : w.pager.metaPage = some m) : MetaEncodable m := by
  obtain ⟨m', hm', hmeta, hfree⟩ := h.quiet.metaPage
  obtain rfl : m' = m := Option.some.inj (hm'.symm.trans hm)
  obtain ⟨hroot, hlsn, -⟩ := h.metaPage m' hm
  have hsize : m'.pageSizeBytes = C.pageSize := hmeta.pageSize
  have hcount : m'.nextPageId = C.next := hmeta.next
  have hhead : m'.freelistHeadPageId = (C.chain.head?.map Prod.fst).getD 0 := hfree.linked.head_eq
  refine ⟨by rw [hsize]; exact h.large, by rw [hsize]; exact h.small, hroot,
    by rw [hcount]; exact hnext, ?_, hlsn⟩
  rw [hhead]
  cases hchain : C.chain with
  | nil => simp
  | cons e rest =>
      refine Accounted.freeIds_lt h.accounted hnext.le ?_
      rw [hchain, Conf.freeIds_cons]
      exact List.mem_cons_self ..

theorem Allocating.publishMeta (h : Allocating C owned w) (hnext : C.next < 256 ^ 8)
    (hdirty : w.pager.dirtyFreelistPageIds = []) {m : MetaPage} (hm : w.pager.metaPage = some m) :
    ∃ f, Engine.publishMeta w = .ok () (withMeta w none f m false) ∧ metaBytes m <+: f.content ∧
      PagesOn f.content m.freelistHeadPageId C ∧
      (readAt f.content 0 C.pageSize).length = C.pageSize := by
  obtain ⟨f, hf⟩ := Option.isSome_iff_exists.mp h.quiet.data
  have hopen : w.pager.isOpen = true := h.quiet.isOpen
  have hcontent : dataContent w = f.content := by simp [dataContent, hf]
  obtain ⟨m', hm', hmeta, hpages⟩ := h.quiet.pagesOn (by simp [h.cache_eq_nil]) hdirty
  obtain rfl : m' = m := Option.some.inj (hm'.symm.trans hm)
  have hfirst := h.firstPage
  rw [hcontent] at hpages hfirst
  rw [Engine.publishMeta, run_bind_ok (run_get w)]
  cases hmark : w.pager.isMetaDirty with
  | false =>
      obtain ⟨-, -, hclean⟩ := h.metaPage m' hm
      have hsame : withMeta w none f m' false = w := by
        unfold withMeta
        rw [← h.power, ← hf, ← hm, ← hmark]
      refine ⟨f, ?_, ?_, hpages, hfirst⟩
      · rw [hsame]
        rfl
      · rw [← hcontent]
        exact (hclean hmark).2
  | true =>
      rcases flushMeta_cases hopen hf hm with ⟨hnot, -⟩ | ⟨hpower, -⟩ |
        ⟨hencodable, power, hpower, hrun⟩
      · exact absurd (h.encodable hnext hm) hnot
      · rw [h.power] at hpower
        cases hpower
      · obtain rfl := hpower h.power
        have hsize : m'.pageSizeBytes = C.pageSize := hmeta.pageSize
        refine ⟨f.write (writeAt f.content 0 (metaPageBytes m')), ?_, prefix_writeAt_meta _ _,
          hpages.writeMeta h.storable.pos hencodable hsize, ?_⟩
        · rw [if_pos rfl, hrun, withMeta, ← hm]
        · have hlen := length_metaPageBytes hencodable
          show (readAt (writeAt f.content 0 (metaPageBytes m')) 0 C.pageSize).length = C.pageSize
          rw [← hsize, ← hlen, readAt_writeAt_self]

/-- Closing and opening again keeps the freelist and the meta page. -/
theorem Allocating.reopen (h : Allocating C owned w) (hnext : C.next < 256 ^ 8) :
    ∃ w', PagerCall.reopen.run w = .ok none w' ∧ Allocating C owned w' ∧
      w'.pager.metaPage = w.pager.metaPage := by
  have hflush : ∃ w₁, (if w.pager.dirtyFreelistPageIds ≠ [] then Pager.flushDirtyFreelistPages
      else pure () : Eng Unit) w = .ok () w₁ ∧ Allocating C owned w₁ ∧
        w₁.pager.dirtyFreelistPageIds = [] ∧ w₁.pager.metaPage = w.pager.metaPage := by
    -- `Pager.close` flushes the freelist only where one of its pages is dirty.
    by_cases hdirty : w.pager.dirtyFreelistPageIds = []
    · exact ⟨w, by rw [if_neg (by simpa using hdirty)]; rfl, h, hdirty, rfl⟩
    · obtain ⟨w₁, hrun⟩ := h.flush_returns hnext.le
      rw [if_pos hdirty]
      exact ⟨w₁, hrun, h.flush hrun⟩
  obtain ⟨w₁, hflush, h₁, hclean, hsame⟩ := hflush
  obtain ⟨m, hm, hmeta, -⟩ := h₁.quiet.metaPage
  have hencodable := h₁.encodable hnext hm
  have hsize : m.pageSizeBytes = C.pageSize := hmeta.pageSize
  obtain ⟨f, hpublish, hprefix, hpages, hfirst⟩ := h₁.publishMeta hnext hclean hm
  have hopen₁ : (withMeta w₁ none f m false).pager.isOpen = true := h₁.quiet.isOpen
  obtain ⟨hpower, -⟩ | ⟨power, hpower, hsync⟩ := pagerFsync_cases hopen₁
    (f := f) (show (withMeta w₁ none f m false).disk.data = some f from rfl)
  · cases hpower
  obtain rfl := hpower rfl
  have hopen : w.pager.isOpen = true := h.quiet.isOpen
  set w₂ : World := { withMeta w₁ none f.fsync m false with
    pager := { (withMeta w₁ none f.fsync m false).pager with
      isOpen := false, freelistCache := [], dirtyFreelistPageIds := [] } } with hw₂
  have hclose : Pager.close w = .ok () w₂ := by
    rw [pagerClose_eq hopen, run_bind_ok hflush, run_bind_ok hpublish, releaseFile,
      run_bind_ok hsync]
    rfl
  -- The meta page that `close` published is the one that `open` decodes.
  have hreopen := pagerOpen_existing (m := m) (f := f.fsync) (w := w₂) rfl rfl
    (show minPageSize ≤ w₁.pager.pageSizeBytes by
      have hsize₁ : w₁.pager.pageSizeBytes = C.pageSize := h₁.quiet.pageSize
      rw [hsize₁]
      exact h.large) hencodable hprefix
  refine ⟨{ w₂ with pager := { w₂.pager with
    isOpen := true, metaPage := some m, pageSizeBytes := m.pageSizeBytes } }, ?_, ⟨?_, h.noPages,
      h.accounted, h.chainFits, h.large, h.small, rfl, h.next_pos, hfirst, fun m' hm' => ?_⟩, ?_⟩
  · rw [PagerCall.run, run_bind_ok hclose, run_bind_ok hreopen]
    rfl
  · refine PagesOn.quiet (f := f.fsync) (m := m) rfl rfl hsize rfl hmeta hpages ?_ rfl
    exact h₁.cache_eq_nil
  · obtain rfl : m = m' := Option.some.inj hm'
    obtain ⟨hroot, hlsn, -⟩ := h₁.metaPage m hm
    exact ⟨hroot, hlsn, fun _ => ⟨hencodable, hprefix⟩⟩
  · exact hm.symm.trans hsame

/-- A pager can only be closed while its counter fits into the meta page. -/
theorem Allocating.next_lt_of_close (h : Allocating C owned w) (hrun : Pager.close w = .ok () w') :
    C.next < 256 ^ 8 := by
  rw [pagerClose_eq h.quiet.isOpen] at hrun
  obtain ⟨_, w₁, hflush, hrun⟩ := bind_eq_ok.mp hrun
  obtain ⟨_, w₂, hpublish, -⟩ := bind_eq_ok.mp hrun
  have h₁ : Allocating C owned w₁ := by
    split at hflush
    · exact (h.flush hflush).1
    · cases hflush
      exact h
  obtain ⟨m, hm, hmeta, -⟩ := h₁.quiet.metaPage
  have hnext : m.nextPageId = C.next := hmeta.next
  obtain ⟨f, hf⟩ := Option.isSome_iff_exists.mp h₁.quiet.data
  have hencodable : MetaEncodable m := by
    rw [Engine.publishMeta, run_bind_ok (run_get w₁)] at hpublish
    cases hmark : w₁.pager.isMetaDirty with
    | false =>
        obtain ⟨-, -, hclean⟩ := h₁.metaPage m hm
        exact (hclean hmark).1
    | true =>
        rw [hmark, if_pos rfl] at hpublish
        rcases flushMeta_cases h₁.quiet.isOpen hf hm with
          ⟨-, e, herror⟩ | ⟨-, herror⟩ | ⟨hencodable, -⟩
        · rw [herror] at hpublish
          cases hpublish
        · rw [herror] at hpublish
          cases hpublish
        · exact hencodable
  rw [← hnext]
  exact hencodable.next

/-! ## Runs -/

theorem Accounted.mem_iff {next : ℕ} {chain : List (ℕ × List ℕ)}
    (hacc : Accounted next chain owned) : x ∈ owned ↔ 1 ≤ x ∧ x < next ∧ x ∉ freeIds chain := by
  have hcount := hacc x
  rw [← List.one_le_count_iff, ← List.count_eq_zero]
  split at hcount <;> omega

theorem Accounted.nodup_freeIds {next : ℕ} {chain : List (ℕ × List ℕ)}
    (hacc : Accounted next chain owned) : (freeIds chain).Nodup := by
  refine List.nodup_iff_count_le_one.mpr fun x => ?_
  have := hacc x
  split at this <;> omega

/-- A new file. -/
theorem allocating_of_open (hP : minPageSize ≤ config.pageSizeBytes)
    (hopen : Pager.open_ (newTree config true) = .ok () w) : ∃ C, Allocating C [1] w := by
  have hspec := pagerOpen_new (w := newTree config true) rfl rfl hP
  rw [hopen] at hspec
  obtain ⟨hsmall, content, power, hpower, himage, rfl⟩ := hspec
  set P := config.pageSizeBytes
  have hpages : PagesOn content 0 { emptyContent P with pages := fun _ => none } :=
    ⟨himage.pagesOn.chain, himage.pagesOn.heads, by simp⟩
  have hroot := (himage.pagesOn.pages 1 (.leaf ⟨0, 0, []⟩) rfl).1
  refine ⟨{ emptyContent P with pages := fun _ => none }, ?_, rfl, (storeInv_empty P).accounted,
    (storeInv_empty P).chainFits, hP, hsmall, hpower rfl,
    (show 1 ≤ 2 by decide), ?_, fun m hm => ?_⟩
  · exact hpages.quiet (f := ⟨content, content⟩) rfl rfl rfl rfl himage.fields rfl rfl
  · have hroot : (readAt content (1 * P) P).length = P := hroot
    show (readAt content 0 P).length = P
    simp only [readAt, List.length_take, List.length_drop] at hroot ⊢
    omega
  · obtain rfl : emptyMeta P = m := Option.some.inj hm
    exact ⟨himage.encodable.root, himage.encodable.lsn, fun _ =>
      ⟨himage.encodable, himage.metaPage⟩⟩

theorem PagerRun.allocating {trace : List (PagerCall × Option ℕ)} (h : PagerRun config trace w)
    (hP : minPageSize ≤ config.pageSizeBytes) :
    ∃ C, Allocating C (held trace) w ∧ ∀ x ∈ freed trace, x ∈ freeIds C.chain := by
  induction h with
  | start hopen =>
      obtain ⟨C, hC⟩ := allocating_of_open hP hopen
      exact ⟨C, hC, by simp [freed]⟩
  | @call trace c out w w' _ hlegal hrun ih =>
      obtain ⟨C, hC, hfreed⟩ := ih
      cases c with
      | allocate =>
          obtain ⟨id, C', w₁, halloc, hC', -, hstore⟩ := hC.allocatePage
          have hrun' : PagerCall.allocate.run w = .ok (some id) w₁ := run_bind_ok halloc
          rw [hrun'] at hrun
          cases hrun
          refine ⟨C', hC', fun x hx => ?_⟩
          -- The count of `x` among the free ids does not go down.
          obtain ⟨hx, hne⟩ := List.mem_filter.mp hx
          have hne : x ≠ id := by simpa using hne
          have hcount := hC.accounted x
          have hcount' := hC'.accounted x
          have hfree := List.one_le_count_iff.mpr (hfreed x hx)
          have hnext : C.next ≤ C'.next := by
            rcases (allocatePage_cases hstore).2 with ⟨-, -, hnext, -⟩ | ⟨-, hnext⟩
            · have hnext : C'.next = C.next + 1 := hnext
              omega
            · have hnext : C'.next = C.next := hnext
              omega
          rw [List.count_cons_of_ne hne.symm] at hcount'
          refine List.one_le_count_iff.mp ?_
          split at hcount <;> split at hcount' <;> omega
      | free id =>
          have hlegal : id ∈ held trace := hlegal
          obtain ⟨C', w₁, hfree, hC', -, hstore⟩ := hC.freePage hlegal
          have hrun' : (PagerCall.free id).run w = .ok none w₁ := run_bind_ok hfree
          rw [hrun'] at hrun
          cases hrun
          refine ⟨C', hC', fun x hx => ?_⟩
          have hcount := hC.accounted x
          have hcount' := hC'.accounted x
          have hnext : C.next ≤ C'.next := by
            rcases (freePage_cases hstore).2 with ⟨-, hnext⟩ | ⟨-, hnext, -⟩
            · have hnext : C'.next = C.next := hnext
              omega
            · have hnext : C'.next = C.next + 1 := hnext
              omega
          have hheld := List.nodup_iff_count_le_one.mp hC.accounted.nodup x
          refine List.one_le_count_iff.mp ?_
          rcases List.mem_cons.mp hx with rfl | hx
          · have hone := List.one_le_count_iff.mpr hlegal
            rw [List.count_erase_self] at hcount'
            split at hcount <;> split at hcount' <;> omega
          · have hfree := List.one_le_count_iff.mpr (hfreed x hx)
            have hle : ((held trace).erase id).count x ≤ (held trace).count x :=
              List.erase_sublist.count_le x
            split at hcount <;> split at hcount' <;> omega
      | flush =>
          obtain ⟨_, w₁, hflush, hpure⟩ := bind_eq_ok.mp hrun
          cases hpure
          exact ⟨C, (hC.flush hflush).1, hfreed⟩
      | reopen =>
          obtain ⟨_, w₁, hclose, -⟩ := bind_eq_ok.mp hrun
          obtain ⟨w₂, hrun', hC', -⟩ := hC.reopen (hC.next_lt_of_close hclose)
          rw [hrun'] at hrun
          cases hrun
          exact ⟨C, hC', hfreed⟩

/-! ## The contract -/

/-- The meta page of a pager and its freelist. -/
structure FreelistOf (w : World) (m : MetaPage) (chain : List (ℕ × List ℕ)) : Prop where
  metaPage : w.pager.metaPage = some m
  chain : ChainFrom (fun x page => freelistPage w x = some page) m.freelistHeadPageId chain

theorem Allocating.freelistOf (h : Allocating C owned w) :
    ∃ m, FreelistOf w m C.chain ∧ m.nextPageId = C.next := by
  obtain ⟨m, hm, hmeta, hchain⟩ := h.quiet.freelist
  exact ⟨m, ⟨hm, hchain⟩, hmeta.next⟩

/-- The file grows by the pages that the counter grows by. -/
theorem dataContent_of_noSteal (h : Allocating C owned w) (hsteal : NoSteal w w') {m m' : MetaPage}
    (hm : w.pager.metaPage = some m) (hm' : w'.pager.metaPage = some m') :
    dataContent w' = dataContent w ++
      List.replicate ((m'.nextPageId - m.nextPageId) * w.pager.pageSizeBytes) 0 := by
  obtain ⟨f, hf⟩ := Option.isSome_iff_exists.mp h.quiet.data
  obtain ⟨k, hdata, hnext⟩ := hsteal.data
  rw [hm, hm'] at hnext
  have hk : m'.nextPageId = m.nextPageId + k := Option.some.inj hnext
  have hgrowth : m'.nextPageId - m.nextPageId = k := by omega
  rw [hgrowth]
  simp [dataContent, hdata, hf, grow]

/-- What `allocate_page` does in a process with the freelist `chain`. -/
structure Allocates (w : World) (m : MetaPage) (chain : List (ℕ × List ℕ)) (id : ℕ) (w' : World)
    (m' : MetaPage) (chain' : List (ℕ × List ℕ)) : Prop where
  run : Pager.allocatePage w = .ok id w'
  freelist : FreelistOf w' m' chain'
  recycled : chain ≠ [] → id ∈ freeIds chain ∧
    (∀ x, x ∈ freeIds chain' ↔ x ∈ freeIds chain ∧ x ≠ id) ∧ m'.nextPageId = m.nextPageId ∧
      dataContent w' = dataContent w
  bumped : chain = [] → id = m.nextPageId ∧ m'.nextPageId = m.nextPageId + 1 ∧ chain' = [] ∧
    dataContent w' = dataContent w ++ List.replicate w.pager.pageSizeBytes 0

/-- What `free_page` does in a process with the freelist `chain`. -/
structure Frees (w : World) (m : MetaPage) (chain : List (ℕ × List ℕ)) (id : ℕ) (w' : World)
    (m' : MetaPage) (chain' : List (ℕ × List ℕ)) : Prop where
  run : Pager.freePage id w = .ok () w'
  freelist : FreelistOf w' m' chain'
  listed : HeadHasRoom w.pager.pageSizeBytes chain →
    (∀ x, x ∈ freeIds chain' ↔ x ∈ freeIds chain ∨ x = id) ∧ m'.nextPageId = m.nextPageId ∧
      dataContent w' = dataContent w
  pushed : ¬ HeadHasRoom w.pager.pageSizeBytes chain →
    (∀ x, x ∈ freeIds chain' ↔ x ∈ freeIds chain ∨ x = id ∨ x = m.nextPageId) ∧
      chain' = (m.nextPageId, [id]) :: chain ∧ m'.nextPageId = m.nextPageId + 1 ∧
      dataContent w' = dataContent w ++ List.replicate w.pager.pageSizeBytes 0

theorem Allocating.allocates (h : Allocating C owned w) {m : MetaPage}
    (hm : FreelistOf w m C.chain) (hnext : m.nextPageId = C.next) :
    ∃ id w' m' chain', Allocates w m C.chain id w' m' chain' ∧ id ∉ owned := by
  obtain ⟨id, C', w', hrun, h', hsteal, hstore⟩ := h.allocatePage
  obtain ⟨m', hm', hnext'⟩ := h'.freelistOf
  have hdata := dataContent_of_noSteal h hsteal hm.metaPage hm'.metaPage
  have hnot : id ∉ owned := (List.nodup_cons.mp h'.accounted.nodup).1
  refine ⟨id, w', m', C'.chain, ⟨hrun, hm', fun hchain => ?_, fun hchain => ?_⟩, hnot⟩
  · have hsame : C'.next = C.next := by
      rcases (allocatePage_cases hstore).2 with ⟨hnil, -⟩ | ⟨-, hsame⟩
      · exact absurd hnil hchain
      · exact hsame
    -- Each id below the counter is listed or owned, once; the id has changed sides.
    have hiff : ∀ x, x ∈ freeIds C'.chain ↔ x ∈ freeIds C.chain ∧ x ≠ id := by
      intro x
      have hcount := h.accounted x
      have hcount' := h'.accounted x
      rw [hsame, List.count_cons] at hcount'
      rw [← List.one_le_count_iff, ← List.one_le_count_iff]
      by_cases hx : x = id
      · subst hx
        simp only [beq_self_eq_true, if_true] at hcount'
        have hzero : ¬ 1 ≤ (freeIds C'.chain).count x := by
          split at hcount' <;> omega
        simp [hzero]
      · have hne : (id == x) = false := by simpa using fun h => hx h.symm
        simp only [hne, Bool.false_eq_true, if_false, Nat.add_zero] at hcount'
        constructor
        · intro hmem
          exact ⟨by omega, hx⟩
        · rintro ⟨hmem, -⟩
          omega
    refine ⟨?_, hiff, by rw [hnext', hnext, hsame], ?_⟩
    · have hcount := h.accounted id
      have hcount' := h'.accounted id
      rw [hsame, List.count_cons_self] at hcount'
      rw [List.count_eq_zero_of_not_mem hnot] at hcount hcount'
      rw [← List.one_le_count_iff]
      omega
    · rw [hdata, hnext', hnext, hsame, Nat.sub_self, Nat.zero_mul]
      simp
  · have hbump : id = C.next ∧ C'.next = C.next + 1 ∧ C'.chain = [] := by
      rcases (allocatePage_cases hstore).2 with ⟨-, hbump⟩ | ⟨hne, -⟩
      · exact hbump
      · exact absurd hchain hne
    obtain ⟨hid, hbumped, hempty⟩ := hbump
    refine ⟨by rw [hid, hnext], by rw [hnext', hnext, hbumped], hempty, ?_⟩
    have hone : m'.nextPageId - m.nextPageId = 1 := by omega
    rw [hdata, hone, Nat.one_mul]

theorem Allocating.frees (h : Allocating C owned w) {m : MetaPage} (hm : FreelistOf w m C.chain)
    (hnext : m.nextPageId = C.next) (hid : id ∈ owned) :
    ∃ w' m' chain', Frees w m C.chain id w' m' chain' := by
  obtain ⟨C', w', hrun, h', hsteal, hstore⟩ := h.freePage hid
  obtain ⟨m', hm', hnext'⟩ := h'.freelistOf
  have hsize : w.pager.pageSizeBytes = C.pageSize := h.quiet.pageSize
  have hdata := dataContent_of_noSteal h hsteal hm.metaPage hm'.metaPage
  have hcases := (freePage_cases hstore).2
  refine ⟨w', m', C'.chain, hrun, hm', fun hroom => ?_, fun hfull => ?_⟩
  · rw [hsize] at hroom
    have hsame : C'.next = C.next := by
      rcases hcases with ⟨-, hsame⟩ | ⟨hfull, -⟩
      · exact hsame
      · exact absurd hroom hfull
    refine ⟨fun x => ?_, by rw [hnext', hnext, hsame], ?_⟩
    -- The counts of the listed and the owned ids before and after the call decide where each id is.
    · have hcount := h.accounted x
      have hcount' := h'.accounted x
      rw [hsame] at hcount'
      have hone := List.one_le_count_iff.mpr hid
      rw [← List.one_le_count_iff, ← List.one_le_count_iff]
      by_cases hx : x = id
      · subst hx
        rw [List.count_erase_self] at hcount'
        have hlisted : 1 ≤ (freeIds C'.chain).count x := by
          split at hcount <;> split at hcount' <;> omega
        simp [hlisted]
      · rw [List.count_erase_of_ne hx] at hcount'
        simp only [hx, or_false]
        omega
    · rw [hdata, hnext', hnext, hsame, Nat.sub_self, Nat.zero_mul]
      simp
  · rw [hsize] at hfull
    have hpush : C'.next = C.next + 1 ∧ C'.chain = (C.next, [id]) :: C.chain := by
      rcases hcases with ⟨hroom, -⟩ | ⟨-, hpush⟩
      · exact absurd hroom hfull
      · exact hpush
    obtain ⟨hbumped, hchain⟩ := hpush
    refine ⟨fun x => ?_, by rw [hchain, hnext], by rw [hnext', hnext, hbumped], ?_⟩
    · rw [hchain, hnext, Conf.freeIds_cons]
      simp only [List.cons_append, List.mem_cons, List.nil_append]
      tauto
    · have hone : m'.nextPageId - m.nextPageId = 1 := by omega
      rw [hdata, hone, Nat.one_mul]

/-- The contract of the allocator, after every run: what the next call does to the free ids,
that an id that is handed out is not handed out again, that a freed id is not forgotten, and
that closing and opening again keeps the freelist. -/
theorem allocator_contract (config : Config) (trace : List (PagerCall × Option ℕ)) (w : World)
    (hP : minPageSize ≤ config.pageSizeBytes) (h : PagerRun config trace w) :
    ∃ m chain, FreelistOf w m chain ∧ (freeIds chain).Nodup ∧
      (∀ x, x ∈ held trace ↔ 1 ≤ x ∧ x < m.nextPageId ∧ x ∉ freeIds chain) ∧
      (∀ x ∈ freed trace, x ∈ freeIds chain) ∧
      (∃ id w' m' chain', Allocates w m chain id w' m' chain' ∧ id ∉ held trace) ∧
      (∀ id ∈ held trace, ∃ w' m' chain', Frees w m chain id w' m' chain') ∧
      (m.nextPageId < 256 ^ 8 →
        (∃ w', Pager.flushDirtyFreelistPages w = .ok () w' ∧ FreelistOf w' m chain) ∧
          ∃ w', PagerCall.reopen.run w = .ok none w' ∧ FreelistOf w' m chain) := by
  obtain ⟨C, hC, hfreed⟩ := h.allocating hP
  obtain ⟨m, hm, hnext⟩ := hC.freelistOf
  refine ⟨m, C.chain, hm, Accounted.nodup_freeIds hC.accounted, fun x => ?_, hfreed,
    hC.allocates hm hnext, fun id hid => hC.frees hm hnext hid, fun hsmall => ⟨?_, ?_⟩⟩
  · rw [hnext]
    exact Accounted.mem_iff hC.accounted
  · rw [hnext] at hsmall
    obtain ⟨w', hrun⟩ := hC.flush_returns hsmall.le
    obtain ⟨hC', -, hsame⟩ := hC.flush hrun
    obtain ⟨m', hm', -⟩ := hC'.freelistOf
    obtain rfl : m' = m := Option.some.inj (hm'.metaPage.symm.trans (hsame.trans hm.metaPage))
    exact ⟨w', hrun, hm'⟩
  · rw [hnext] at hsmall
    obtain ⟨w', hrun, hC', hsame⟩ := hC.reopen hsmall
    obtain ⟨m', hm', -⟩ := hC'.freelistOf
    obtain rfl : m' = m := Option.some.inj (hm'.metaPage.symm.trans (hsame.trans hm.metaPage))
    exact ⟨w', hrun, hm'⟩

/-- A run on a new file with the given outcomes, its last call first. -/
def playTrace : List (PagerCall × Option ℕ) → Eng Unit
  | [] => Pager.open_
  | (c, out) :: trace => do
      playTrace trace
      assert (decide ((← c.run) = out)) "the call hands out this page"

/-- Every free of a run is legal. -/
def LegalTrace : List (PagerCall × Option ℕ) → Prop
  | [] => True
  | (c, _) :: trace => c.Legal trace ∧ LegalTrace trace

theorem pagerRun_of_playTrace : ∀ {trace : List (PagerCall × Option ℕ)} {w : World},
    LegalTrace trace → playTrace trace (newTree config true) = .ok () w →
      PagerRun config trace w := by
  intro trace
  induction trace with
  | nil =>
      intro w _ hrun
      exact .start hrun
  | cons e trace ih =>
      intro w hlegal hrun
      obtain ⟨c, out⟩ := e
      obtain ⟨_, w₁, hplay, hrun⟩ := bind_eq_ok.mp hrun
      obtain ⟨out', w₂, hcall, hrun⟩ := bind_eq_ok.mp hrun
      by_cases hout : out' = out
      · rw [decide_eq_true hout] at hrun
        cases hrun
        subst hout
        exact .call (ih hlegal.2 hplay) hlegal.1 hcall
      · rw [decide_eq_false hout] at hrun
        cases hrun

/-- Two pages are handed out and freed, and one of them comes back after a reopening. -/
def sampleTrace : List (PagerCall × Option ℕ) :=
  [(.allocate, some 3), (.reopen, none), (.free 3, none), (.flush, none), (.free 2, none),
    (.allocate, some 3), (.allocate, some 2)]

set_option maxRecDepth 100000 in
theorem allocator_contract_sampleTrace : ∃ w m chain, PagerRun smallConfig sampleTrace w ∧
    FreelistOf w m chain ∧
      ∃ id w' m' chain', Allocates w m chain id w' m' chain' ∧ id ∉ held sampleTrace := by
  have hrun : raisedBy (playTrace sampleTrace (newTree smallConfig true)) = none := by
    decide +kernel
  obtain ⟨⟨⟩, w, hw⟩ := raisedBy_eq_none hrun
  have hlegal : LegalTrace sampleTrace :=
    ⟨trivial, trivial, show 3 ∈ [3, 1] by decide, trivial, show 2 ∈ [3, 2, 1] by decide, trivial,
      trivial, trivial⟩
  have hreached := pagerRun_of_playTrace hlegal hw
  obtain ⟨m, chain, hm, -, -, -, hallocates, -⟩ :=
    allocator_contract smallConfig sampleTrace w (by decide) hreached
  exact ⟨w, m, chain, hreached, hm, hallocates⟩

end BPTreeDB.Runs
