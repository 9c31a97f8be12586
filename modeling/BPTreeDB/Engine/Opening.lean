import BPTreeDB.Engine.Holding
import BPTreeDB.Format.MetaPage

/-!
# Data files and opening the pager

`PagesOn content head C`: the bytes of a data file hold the pages of `C`.  A process whose
pages are all clean has such a file, and a pager that opens such a file holds `C` again.
The file that the pager creates for a new database holds a single empty leaf.
-/

namespace BPTreeDB.Engine

open Lib Eng Codec Lib.Program PageStore

variable {R : Regime} {L H : ℕ} {T : Tree H} {C : Content} {M : KeyMap} {w w' : World}
  {m : MetaPage} {f : FileState} {content : Bytes}

/-! ## Data files -/

/-- The bytes of a data file hold the tree pages and the freelist pages of `C`. -/
structure PagesOn (content : Bytes) (head : ℕ) (C : Content) : Prop where
  chain : ChainFrom (fun x page => OnDisk content C.pageSize x (.freelist page)) head C.chain
  heads : (C.chain.map Prod.fst).Nodup
  pages : ∀ x page, C.pages x = some page → OnDisk content C.pageSize x (.tree page)

/-- A data file with the meta page `m` and the content `C`. -/
structure Image (content : Bytes) (m : MetaPage) (C : Content) : Prop where
  encodable : MetaEncodable m
  metaPage : metaBytes m <+: content
  fields : MetaSim m C.pageSize C.root C.next
  pagesOn : PagesOn content m.freelistHeadPageId C

/-- A file that grows keeps its pages. -/
theorem PagesOn.append {head : ℕ} (h : PagesOn content head C) (tail : Bytes) :
    PagesOn (content ++ tail) head C where
  chain := h.chain.congr fun _ _ _ hx => hx.append tail
  heads := h.heads
  pages x page hx := (h.pages x page hx).append tail

theorem Image.append (h : Image content m C) (tail : Bytes) : Image (content ++ tail) m C :=
  ⟨h.encodable, h.metaPage.trans (List.prefix_append _ _), h.fields, h.pagesOn.append tail⟩

/-- A process without dirty pages has its content on disk. -/
theorem Quiet.pagesOn (hq : Quiet w C) (hclean : ∀ e ∈ w.pool.cache, e.2.isDirty = false)
    (hdirty : w.pager.dirtyFreelistPageIds = []) :
    ∃ m, w.pager.metaPage = some m ∧ MetaSim m C.pageSize C.root C.next ∧
      PagesOn (dataContent w) m.freelistHeadPageId C := by
  obtain ⟨m, hm, hmeta, hfree⟩ := hq.metaPage
  refine ⟨m, hm, hmeta, ?_, hfree.heads, fun x page hx => ?_⟩
  · refine hfree.linked.congr fun x _ page hx => ?_
    rcases hx with hx | ⟨-, hx⟩
    · exact hfree.clean x page hx (by simp [hdirty])
    · exact hx
  · exact (hq.pool.disk x page hx (by simp) fun c hc => hclean _ hc).1

/-- The pool holds unchanged pages of `C` only. -/
structure CleanPool (C : Content) (pool : BufferPool) : Prop where
  nodup : (pool.cache.map Prod.fst).Nodup
  object : ∀ e ∈ handles [] pool.cache,
    ∃ page, C.pages e.1 = some page ∧ pool.objects[e.2]? = some page
  single : ∀ e ∈ handles [] pool.cache, ∀ e' ∈ handles [] pool.cache, e.1 = e'.1 ↔ e.2 = e'.2
  clean : ∀ e ∈ pool.cache, e.2.isDirty = false

theorem cleanPool_nil {pool : BufferPool} (hcache : pool.cache = []) : CleanPool C pool :=
  ⟨by simp [hcache], by simp [handles, hcache], by simp [handles, hcache], by simp [hcache]⟩

/-- A pager that has just opened a data file, with unchanged pages in its pool, holds the
content of the file. -/
theorem PagesOn.quiet_of_clean (hopen : w.pager.isOpen = true) (hf : w.disk.data = some f)
    (hsize : w.pager.pageSizeBytes = C.pageSize) (hm : w.pager.metaPage = some m)
    (hmeta : MetaSim m C.pageSize C.root C.next)
    (h : PagesOn f.content m.freelistHeadPageId C) (hpool : CleanPool C w.pool)
    (hfree : w.pager.freelistCache = []) : Quiet w C := by
  have hcontent : dataContent w = f.content := by simp [dataContent, hf]
  refine ⟨hopen, by simp [hf], hsize, ⟨m, hm, hmeta, ?_⟩, ?_, fun h => h.elim,
    fun h => absurd trivial h⟩
  · rw [hcontent]
    refine ⟨h.chain.congr fun x _ page hx => ?_, h.heads, by simp [hfree], by simp [hfree]⟩
    exact .inr ⟨by simp [hfree], hx⟩
  · rw [hcontent]
    exact ⟨hpool.nodup, hpool.object, hpool.single, fun x page hx _ _ =>
      ⟨h.pages x page hx, trivial⟩⟩

/-- A pager that has just opened a data file, with an empty pool, holds its content. -/
theorem PagesOn.quiet (hopen : w.pager.isOpen = true) (hf : w.disk.data = some f)
    (hsize : w.pager.pageSizeBytes = C.pageSize) (hm : w.pager.metaPage = some m)
    (hmeta : MetaSim m C.pageSize C.root C.next)
    (h : PagesOn f.content m.freelistHeadPageId C) (hcache : w.pool.cache = [])
    (hfree : w.pager.freelistCache = []) : Quiet w C :=
  h.quiet_of_clean hopen hf hsize hm hmeta (cleanPool_nil hcache) hfree

/-- The meta page is read back from the start of the file. -/
theorem decodeMeta_of_prefix {P : ℕ} (hsize : minPageSize ≤ P) (hencodable : MetaEncodable m)
    (hmeta : metaBytes m <+: content) : decodeMetaPage (readAt content 0 P) = .ok m := by
  have hprefix : metaBytes m <+: readAt content 0 P := by
    rw [readAt, List.drop_zero, List.prefix_take_iff, length_metaBytes]
    exact ⟨hmeta, hsize⟩
  obtain ⟨tail, htail⟩ := hprefix
  rw [← htail]
  exact decodeMetaPage_metaBytes hencodable tail

/-- `Pager.open` of an existing file. -/
theorem pagerOpen_existing (hclosed : w.pager.isOpen = false) (hf : w.disk.data = some f)
    (hsize : minPageSize ≤ w.pager.pageSizeBytes) (hencodable : MetaEncodable m)
    (hmeta : metaBytes m <+: f.content) :
    Pager.open_ w = .ok () { w with pager := { w.pager with
      isOpen := true, metaPage := some m, pageSizeBytes := m.pageSizeBytes } } := by
  have hread : Pager.readPage Pager.metaPageId
      { w with pager := { w.pager with isOpen := true } } =
        .ok (readAt f.content 0 w.pager.pageSizeBytes)
          { w with pager := { w.pager with isOpen := true } } := by
    simp [Pager.readPage, Pager.file, run_bind, hf, Pager.metaPageId]
  have hdecode := decodeMeta_of_prefix hsize hencodable hmeta
  simp only [Pager.open_, run_bind, run_get, hclosed, hf, Bool.false_eq_true, if_false, run_modify,
    hread, hdecode, Eng.codec, run_pure]

/-! ## Writing the meta page -/

/-- `Pager.fsync` on an open file: it takes place, or the machine has lost its power. -/
theorem pagerFsync_cases (hopen : w.pager.isOpen = true) (hf : w.disk.data = some f) :
    (w.power = some 0 ∧ Pager.fsync w = .error .powerLoss w) ∨
      ∃ power, (w.power = none → power = none) ∧
        Pager.fsync w = .ok () { w with power := power, disk := { w.disk with
          data := some f.fsync } } := by
  have hfile : Pager.file w = .ok f w := by simp [Pager.file, run_bind, hopen, hf]
  obtain ⟨hpower, hcall⟩ | ⟨power, hpower, hcall⟩ := fileSystemCall_cases w
  · exact .inl ⟨hpower, by simp only [Pager.fsync, run_bind, hfile, hcall]⟩
  · exact .inr ⟨power, hpower, by
      simp only [Pager.fsync, run_bind, hfile, hcall, Pager.setFile, run_modify]⟩

/-- A page written over the meta page. -/
def metaPageBytes (m : MetaPage) : Bytes :=
  metaBytes m ++ List.replicate (m.pageSizeBytes - minPageSize) 0

theorem length_metaPageBytes (h : MetaEncodable m) :
    (metaPageBytes m).length = m.pageSizeBytes := by
  have := h.large
  simp only [metaPageBytes, List.length_append, length_metaBytes, List.length_replicate,
    minPageSize,
    metaPageNoCrcSize, crc32FieldSize] at this ⊢
  omega

/-- `flush_meta` on an open file: the meta page is written, or it cannot be encoded, or
the machine has lost its power. -/
theorem flushMeta_cases (hopen : w.pager.isOpen = true) (hf : w.disk.data = some f)
    (hm : w.pager.metaPage = some m) :
    (¬ MetaEncodable m ∧ ∃ e, Pager.flushMeta w = .error e w) ∨
      (w.power = some 0 ∧ Pager.flushMeta w = .error .powerLoss w) ∨
        MetaEncodable m ∧ ∃ power, (w.power = none → power = none) ∧
          Pager.flushMeta w = .ok () { w with
            power := power
            disk := { w.disk with data := some (f.write (writeAt f.content 0 (metaPageBytes m))) }
            pager := { w.pager with isMetaDirty := false } } := by
  have hget : Pager.getMeta w = .ok m w := by simp [Pager.getMeta, run_bind, hm]
  by_cases hencodable : MetaEncodable m
  · have hencode := encodeMetaPage_eq_ok hencodable
    obtain ⟨hpower, hwrite⟩ | ⟨power, hpower, hwrite⟩ :=
      writePage_cases hopen hf Pager.metaPageId (metaPageBytes m)
    · refine .inr (.inl ⟨hpower, ?_⟩)
      simp only [Pager.flushMeta, run_bind, hget, hencode, Eng.codec, run_pure]
      rw [← metaPageBytes, hwrite]
    · refine .inr (.inr ⟨hencodable, power, hpower, ?_⟩)
      simp only [Pager.flushMeta, run_bind, hget, hencode, Eng.codec, run_pure]
      rw [← metaPageBytes, hwrite]
      simp [Pager.metaPageId]
  · refine .inl ⟨hencodable, ?_⟩
    cases hencode : encodeMetaPage m with
    | ok data => exact absurd (metaEncodable_of_encodeMetaPage hencode) hencodable
    | error e =>
        exact ⟨e, by simp only [Pager.flushMeta, run_bind, hget, hencode, Eng.codec, run_throw]⟩

/-- A write of the meta page keeps the other pages. -/
theorem PagesOn.writeMeta {head : ℕ} (h : PagesOn content head C)
    (hst : ∀ x, (C.pages x).isSome → x ≠ 0)
    (hm : MetaEncodable m) (hsize : m.pageSizeBytes = C.pageSize) :
    PagesOn (writeAt content 0 (metaPageBytes m)) head C := by
  have hlen : (metaPageBytes m).length = C.pageSize := (length_metaPageBytes hm).trans hsize
  have hzero : (0 : ℕ) = 0 * C.pageSize := (Nat.zero_mul _).symm
  have hpos := ((chainFrom_iff h.heads).mp h.chain).2.1
  refine ⟨h.chain.congr fun x hx page hpage => ?_, h.heads, fun x page hpage => ?_⟩
  · rw [hzero]
    exact hpage.write_of_ne hlen (hpos x hx)
  · rw [hzero]
    exact (h.pages x page hpage).write_of_ne hlen (hst x (by simp [hpage]))

theorem prefix_writeAt_meta (content : Bytes) (m : MetaPage) :
    metaBytes m <+: writeAt content 0 (metaPageBytes m) := by
  simp only [writeAt, List.take_zero, Nat.zero_sub, List.replicate_zero, List.append_nil,
    List.nil_append, metaPageBytes, List.append_assoc]
  exact List.prefix_append _ _

/-! ## Closing the file -/

/-- The part of `Pager.close` that writes the meta page if it is dirty. -/
def publishMeta : Eng Unit := do
  if (← get).pager.isMetaDirty then Pager.flushMeta

/-- The end of `Pager.close`. -/
def releaseFile : Eng Unit := do
  Pager.fsync
  modify fun w => { w with pager := { w.pager with
    isOpen := false, freelistCache := [], dirtyFreelistPageIds := [] } }

theorem pagerClose_eq (hopen : w.pager.isOpen = true) :
    Pager.close w = ((if w.pager.dirtyFreelistPageIds ≠ [] then Pager.flushDirtyFreelistPages
      else pure ()) >>= fun _ => publishMeta >>= fun _ => releaseFile) w := by
  have hpublish : (publishMeta >>= fun _ => releaseFile) = (do
      if (← get).pager.isMetaDirty then do
        Pager.flushMeta
        releaseFile
      else releaseFile : Eng Unit) := by
    unfold publishMeta
    rw [bind_assoc]
    refine bind_congr fun w => ?_
    split
    · rfl
    · rfl
  rw [hpublish, Pager.close, run_bind_ok (run_get w), if_neg (by simp [hopen])]
  split
  · rfl
  · rfl

/-! ## A new database -/

/-- The content of a new database: one empty leaf. -/
def emptyContent (P : ℕ) : Content where
  pageSize := P
  pages x := if x = 1 then some (.leaf ⟨0, 0, []⟩) else none
  root := 1
  next := 2
  chain := []

/-- The tree of a new database. -/
def emptyTree : Tree 0 := .leaf ⟨1, 0, []⟩

/-- The meta page of a new database. -/
def emptyMeta (P : ℕ) : MetaPage := ⟨P, 1, 2, 0, 0⟩

theorem storeInv_empty (P : ℕ) : StoreInv 0 (emptyContent P) emptyTree where
  root := rfl
  holds := by
    refine ⟨by simp [emptyTree, Tree.pages], fun p hp => ?_, fun x page hx => ?_⟩
    · obtain rfl : p = (1, .leaf ⟨0, 0, []⟩) := by simpa [emptyTree, Tree.pages] using hp
      exact ⟨_, rfl, rfl, le_rfl⟩
    · by_cases h : x = 1
      · simp [emptyTree, Tree.pages, h]
      · simp [emptyContent, h] at hx
  accounted x := by
    show [1].count x + 0 = if 1 ≤ x ∧ x < 2 then 1 else 0
    by_cases h : x = 1
    · simp [h]
    · rw [List.count_eq_zero_of_not_mem (by simp [h]), if_neg (by omega)]
  chainFits := by simp [ChainFits, emptyContent]
  ordered := by
    refine ⟨?_, ?_⟩
    · simp [emptyTree, tokens, slotTokens]
    · exact ⟨rfl, trivial⟩

theorem represents_empty : Represents (fun _ => none) (entriesOf (Tree.items 0 emptyTree)) := by
  intro key value
  simp [emptyTree]

theorem good_emptyTree (hP : pageHeaderSize ≤ R.pageSize) : Tree.Good R true 0 emptyTree := by
  refine Tree.good_iff.mpr ⟨Tree.rootGood_leaf.mpr ?_, trivial⟩
  exact ⟨by simp [Regime.CappedSlots], by simpa [leafSize] using hP, by simp, by simp⟩

/-- A world with other power, another data file and another meta page. -/
def withMeta (w : World) (power : Option ℕ) (f : FileState) (m : MetaPage) (dirty : Bool) : World :=
  { w with
    power := power
    disk := { w.disk with data := some f }
    pager := { w.pager with metaPage := some m, isMetaDirty := dirty } }

/-- `allocate_page` without a freelist: a page from the end of the file, or the machine
has lost its power. -/
theorem allocatePage_cases_of_no_freelist (hopen : w.pager.isOpen = true)
    (hf : w.disk.data = some f) (hm : w.pager.metaPage = some m)
    (hhead : m.freelistHeadPageId = 0) :
    (w.power = some 0 ∧ Pager.allocatePage w = .error .powerLoss w) ∨
      ∃ power, (w.power = none → power = none) ∧ Pager.allocatePage w =
        .ok m.nextPageId (withMeta w power
          (f.write (f.content ++ List.replicate w.pager.pageSizeBytes 0))
          { m with nextPageId := m.nextPageId + 1 } true) := by
  have hfile : Pager.file w = .ok f w := by simp [Pager.file, run_bind, hopen, hf]
  have hget : Pager.getMeta w = .ok m w := by simp [Pager.getMeta, run_bind, hm]
  obtain ⟨hpower, hcall⟩ | ⟨power, hpower, hcall⟩ := fileSystemCall_cases w
  · refine .inl ⟨hpower, ?_⟩
    simp only [Pager.allocatePage, run_bind, hget, hhead, ne_eq, not_true_eq_false, if_false,
      Pager.bumpAllocateOnePage, Pager.extendFileByOnePage, hfile, run_get, hcall]
  · refine .inr ⟨power, hpower, ?_⟩
    simp only [Pager.allocatePage, run_bind, hhead, ne_eq, not_true_eq_false, if_false,
      Pager.bumpAllocateOnePage, Pager.extendFileByOnePage, hfile, run_get, hcall, Pager.setFile,
      run_modify, Pager.updateMeta, Pager.getMeta, hm, run_pure, withMeta]

theorem encodable_emptyLeaf {P : ℕ} (hP : minPageSize ≤ P) (hsmall : P < 256 ^ 4) :
    Encodable P (.tree (.leaf ⟨0, 0, []⟩)) := by
  refine ⟨hsmall, ?_, by norm_num, by norm_num⟩
  simp only [minPageSize, metaPageNoCrcSize, crc32FieldSize] at hP
  simp only [calculatePageSize, slotSizes, pageHeaderSize, List.map_nil, List.sum_nil]
  omega

/-- What creating a database may end in: its pages are written, or the page size does not
fit its field, or the machine has lost its power. -/
def BootSpec (w : World) : EStateM.Result Err World Unit → Prop
  | .ok _ w' => w.pager.pageSizeBytes < 256 ^ 4 ∧
      ∃ content power, (w.power = none → power = none) ∧
        Image content (emptyMeta w.pager.pageSizeBytes) (emptyContent w.pager.pageSizeBytes) ∧
        w' = withMeta w power ⟨content, content⟩ (emptyMeta w.pager.pageSizeBytes) false
  | .error _ _ => w.power ≠ none ∨ 256 ^ 4 ≤ w.pager.pageSizeBytes

/-- `_bootstrap_initial_db`. -/
theorem bootstrapInitialDb_spec (hopen : w.pager.isOpen = true) (hf : w.disk.data = some f)
    (hP : minPageSize ≤ w.pager.pageSizeBytes) : BootSpec w (Pager.bootstrapInitialDb w) := by
  have hstart : Pager.bootstrapInitialDb w = (do
      let leafPageId ← Pager.allocatePage
      let w ← get
      let data ← Eng.codec (encodePage (.tree (.leaf ⟨0, 0, []⟩)) w.pager.pageSizeBytes)
      Pager.writePage leafPageId data
      Pager.flushMeta
      Pager.fsync : Eng Unit)
        (withMeta w w.power f ⟨w.pager.pageSizeBytes, 1, 1, 0, 0⟩ w.pager.isMetaDirty) := by
    rw [Pager.bootstrapInitialDb, run_bind_ok (run_modify _ _), withMeta, ← hf]
    rfl
  rw [hstart]
  rcases allocatePage_cases_of_no_freelist (w := withMeta w w.power f
      ⟨w.pager.pageSizeBytes, 1, 1, 0, 0⟩ w.pager.isMetaDirty) hopen rfl rfl rfl with
    ⟨hpower, halloc⟩ | ⟨power₁, hpower₁, halloc⟩
  · rw [run_bind_error halloc]
    exact .inl fun hw => by cases hw.symm.trans hpower
  rw [run_bind_ok halloc, run_bind_ok (run_get _)]
  show BootSpec w ((Eng.codec
    (encodePage (.tree (.leaf ⟨0, 0, []⟩)) w.pager.pageSizeBytes) >>= _) _)
  cases hencode : encodePage (.tree (.leaf ⟨0, 0, []⟩)) w.pager.pageSizeBytes with
  | error e =>
      refine .inr ?_
      by_contra hsmall
      obtain ⟨data, hdata, -⟩ := encodePage_spec (encodable_emptyLeaf hP (by omega))
      rw [hencode] at hdata
      cases hdata
  | ok data =>
      show BootSpec w ((do Pager.writePage 1 data; Pager.flushMeta; Pager.fsync : Eng Unit)
        (withMeta w power₁ (f.write (f.content ++ List.replicate w.pager.pageSizeBytes 0))
          (emptyMeta w.pager.pageSizeBytes) true))
      rcases writePage_cases (w := withMeta w power₁
          (f.write (f.content ++ List.replicate w.pager.pageSizeBytes 0))
          (emptyMeta w.pager.pageSizeBytes) true) hopen rfl 1 data with
        ⟨hpower, hwrite⟩ | ⟨power₂, hpower₂, hwrite⟩
      · rw [run_bind_error hwrite]
        exact .inl fun hw => by cases (hpower₁ hw).symm.trans hpower
      rw [run_bind_ok hwrite]
      set page₁ := writeAt (f.content ++ List.replicate w.pager.pageSizeBytes 0)
        (1 * w.pager.pageSizeBytes) data with hpage₁
      show BootSpec w ((do Pager.flushMeta; Pager.fsync : Eng Unit)
        (withMeta w power₂ (f.write page₁) (emptyMeta w.pager.pageSizeBytes) true))
      rcases flushMeta_cases (w := withMeta w power₂ (f.write page₁)
          (emptyMeta w.pager.pageSizeBytes) true) hopen rfl rfl with
        ⟨hencodable, e, hflush⟩ | ⟨hpower, hflush⟩ | ⟨hencodable, power₃, hpower₃, hflush⟩
      · rw [run_bind_error hflush]
        refine .inr ?_
        by_contra hsmall
        exact hencodable ⟨hP, by simpa [emptyMeta] using hsmall, by norm_num [emptyMeta],
          by norm_num [emptyMeta], by norm_num [emptyMeta], by norm_num [emptyMeta]⟩
      · rw [run_bind_error hflush]
        exact .inl fun hw => by cases (hpower₂ (hpower₁ hw)).symm.trans hpower
      rw [run_bind_ok hflush]
      set content := writeAt page₁ 0 (metaPageBytes (emptyMeta w.pager.pageSizeBytes)) with hcontent
      show BootSpec w (Pager.fsync
        (withMeta w power₃ (f.write content) (emptyMeta w.pager.pageSizeBytes) false))
      rcases pagerFsync_cases (w := withMeta w power₃ (f.write content)
          (emptyMeta w.pager.pageSizeBytes) false) hopen rfl with
        ⟨hpower, hsync⟩ | ⟨power₄, hpower₄, hsync⟩
      · rw [hsync]
        exact .inl fun hw => by cases (hpower₃ (hpower₂ (hpower₁ hw))).symm.trans hpower
      rw [hsync]
      -- What is on the disk is the image of an empty leaf with its meta page.
      refine ⟨hencodable.pageSize, content, power₄,
        fun hw => hpower₄ (hpower₃ (hpower₂ (hpower₁ hw))), ⟨hencodable, prefix_writeAt_meta _ _,
          ⟨rfl, rfl, rfl⟩, ?_⟩, rfl⟩
      refine PagesOn.writeMeta ⟨rfl, List.nodup_nil, fun x page hx => ?_⟩
        (fun x hx => ?_) hencodable
        rfl
      · by_cases h1 : x = 1
        · subst h1
          obtain rfl : Page.leaf ⟨0, 0, []⟩ = page := by simpa [emptyContent] using hx
          exact (OnDisk.write_self _ 1 (encodable_emptyLeaf hP hencodable.pageSize) hencode).2
        · simp [emptyContent, h1] at hx
      · by_cases h1 : x = 1
        · omega
        · simp [emptyContent, h1] at hx

/-- `Pager.open` on a directory without a data file. -/
theorem pagerOpen_new (hclosed : w.pager.isOpen = false) (hdata : w.disk.data = none)
    (hP : minPageSize ≤ w.pager.pageSizeBytes) :
    BootSpec { w with pager := { w.pager with isOpen := true } } (Pager.open_ w) := by
  rw [Pager.open_, run_bind_ok (run_get w)]
  simp only [hclosed, Bool.false_eq_true, if_false, hdata]
  obtain ⟨hpower, hcall⟩ | ⟨power₁, hpower₁, hcall⟩ := fileSystemCall_cases w
  · rw [run_bind_error hcall]
    exact .inl (by simp [hpower])
  rw [run_bind_ok hcall, run_bind_ok (run_modify _ _)]
  have hboot := bootstrapInitialDb_spec (w := { w with
    power := power₁, disk := { w.disk with data := some .empty },
    pager := { w.pager with isOpen := true } }) rfl rfl hP
  revert hboot
  cases Pager.bootstrapInitialDb _ with
  | ok _ w' =>
      rintro ⟨hsmall, content, power, hpower, himage, rfl⟩
      exact ⟨hsmall, content, power, fun hw => hpower (hpower₁ hw), himage, rfl⟩
  | error e w' =>
      rintro (hpower | hlarge)
      · exact .inl fun hw => hpower (hpower₁ hw)
      · exact .inr hlarge

end BPTreeDB.Engine
