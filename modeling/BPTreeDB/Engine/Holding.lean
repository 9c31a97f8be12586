import BPTreeDB.Engine.Flush
import BPTreeDB.PageStore.Pages

/-!
# Processes that hold a map

`Stands R L M w`: between two operations the process `w` holds a good tree whose records
are those of the map `M`, with LSNs of at most `L`.  The operations of the tree keep this,
and do to `M` what their names say, unless they leave the lockstep with the page store.
-/

namespace BPTreeDB.Engine

open Lib Eng Codec Lib.Program PageStore

variable {R : Regime} {L L' lsn H n : ℕ} {T : Tree H} {C : Content} {M : KeyMap} {w w' : World}
  {key value : Bytes} {mode : Mode}

/-! ## Processes at rest -/

/-- The process holds the tree `T` in the content `C`, with the records of `M`. -/
structure Holding (R : Regime) (L : ℕ) (M : KeyMap) (C : Content) (T : Tree H) (w : World) :
    Prop where
  quiet : Quiet w C
  inv : StoreInv L C T
  good : Tree.Good R true H T
  pageSize : C.pageSize = R.pageSize
  records : Represents M (entriesOf (Tree.items H T))

/-- The process holds a good tree with the records of `M`. -/
def Stands (R : Regime) (L : ℕ) (M : KeyMap) (w : World) : Prop :=
  ∃ (C : Content) (H : ℕ) (T : Tree H), Holding R L M C T w

theorem Holding.mono (hL : L ≤ L') (h : Holding R L M C T w) : Holding R L' M C T w :=
  { h with inv := h.inv.mono hL }

theorem Stands.mono (hL : L ≤ L') (h : Stands R L M w) : Stands R L' M w := by
  obtain ⟨C, H, T, h⟩ := h
  exact ⟨C, H, T, h.mono hL⟩

/-- What an operation in the given mode that touches `n` pages asks of the process. -/
structure Mode.Allows (mode : Mode) (n : ℕ) (C : Content) (w : World) : Prop where
  room : mode.strict → w.pool.evictionEnabled = true → w.pool.dirtyCount + n ≤ w.pool.capacityPages
  power : ¬ mode.lossy → w.power = none
  kept : ∀ x page, C.pages x = some page →
    (∀ c, (x, c) ∈ w.pool.cache → c.isDirty = false) → mode.kept x page
  start : ∀ ids ∈ mode.start, w.pool.evictionEnabled = false ∧
    ∀ x, x ∈ w.pool.cache.map Prod.fst ↔ x ∈ ids

/-- The start of an operation. -/
theorem Quiet.sim (hq : Quiet w C) (hmode : mode.Allows n C w) : Sim mode [] w ⟨C, [], [], n⟩ where
  isOpen := hq.isOpen
  data := hq.data
  pageSize := hq.pageSize
  metaPage := hq.metaPage
  pool := { hq.pool with disk := fun x page hx hpending hclean =>
    ⟨(hq.pool.disk x page hx hpending hclean).1, hmode.kept x page hx hclean⟩ }
  room hstrict := by
    refine ⟨List.nodup_nil, ?_, by simp, fun henabled => ?_, fun ids hids => ?_⟩
    · exact List.pairwise_of_forall_mem_list fun _ _ _ _ h => absurd h (by simp)
    · have hspace := hmode.room hstrict henabled
      have hcount : (w.pool.cache.countP fun e => e.2.isDirty && decide (e.1 ∉ ([] : List ℕ))) =
          w.pool.dirtyCount := by
        simp [BufferPool.dirtyCount]
      show _ + 0 + n ≤ _
      rw [hcount]
      exact hspace
    · obtain ⟨heviction, hstart⟩ := hmode.start ids hids
      refine ⟨heviction, fun x => ?_⟩
      have hsome : x ∈ w.pool.cache.map Prod.fst → (C.pages x).isSome := by
        intro hx
        obtain ⟨e, he, rfl⟩ := List.mem_map.mp hx
        obtain ⟨page, hpage, -⟩ := hq.pool.object (e.1, e.2.page)
          (List.mem_append_right _ (List.mem_map.mpr ⟨e, he, rfl⟩))
        have hpage : C.pages e.1 = some page := hpage
        simp [hpage]
      rw [← hstart x]
      simpa using hsome
  power := hmode.power

/-- The end of an operation. -/
theorem Sim.quiet {S : Store} (hs : Sim mode [] w S) (hpending : S.pending = []) :
    Quiet w S.toContent where
  isOpen := hs.isOpen
  data := hs.data
  pageSize := hs.pageSize
  metaPage := hs.metaPage
  pool := by
    have hpool := hs.pool
    rw [hpending] at hpool
    exact { hpool with disk := fun x page hx hnot hclean =>
      ⟨(hpool.disk x page hx hnot hclean).1, trivial⟩ }
  room h := h.elim
  power h := absurd trivial h

theorem Holding.resting (h : Holding R L M C T w) (n : ℕ) : Resting R L T ⟨C, [], [], n⟩ :=
  ⟨h.inv, h.good, h.pageSize, rfl⟩

theorem Holding.of_content {S : Store} (h : Holding R L M C T w) (hs : Sim mode [] w' S)
    (hcontent : S.toContent = C) (hpending : S.pending = []) : Holding R L M C T w' :=
  { h with quiet := hcontent ▸ hs.quiet hpending }

/-! ## Operations of the tree -/

/-- The pages that an operation on a tree of `h + 1` levels may touch. -/
def touchBound (h : ℕ) : ℕ := 3 * (h + 1) + 2

/-- A run in lockstep with a disciplined run of the store: both return, or the engine
raises what the store raises or leaves the lockstep. -/
theorem Lockstep.outcome {α β : Type} {Q : α → β → World → Store → Prop}
    {r : EStateM.Result Err World α} {r' : EStateM.Result Fault Store β}
    (h : Lockstep mode Q r r') (hdisciplined : ∀ S, r' ≠ .error .undisciplined S) :
    (∃ a w b S, r = .ok a w ∧ r' = .ok b S ∧ Q a b w S) ∨
      ∃ e w, r = .error e w ∧
        (mode.escape e ∨ ∃ S, r' = .error (.raised e) S ∧ Sim mode [] w S) := by
  cases r with
  | ok a w =>
      cases r' with
      | ok b S => exact .inl ⟨a, w, b, S, rfl, rfl, h⟩
      | error d S =>
          obtain rfl : d = .undisciplined := h
          exact absurd rfl (hdisciplined S)
  | error e w =>
      refine .inr ⟨e, w, rfl, ?_⟩
      cases r' with
      | ok b S => exact .inl h
      | error d S =>
          rcases h with rfl | hescape | ⟨rfl, hs⟩
          · exact absurd rfl (hdisciplined S)
          · exact .inl hescape
          · exact .inr ⟨S, rfl, hs⟩

/-- What an operation that returned did: the page store did the same, and holds a good
tree with the records of `M`. -/
structure Done (mode : Mode) (R : Regime) (L : ℕ) (M : KeyMap) (S : Store) (w : World) : Prop where
  sim : Sim mode [] w S
  pending : S.pending = []
  holding : ∃ (H : ℕ) (T : Tree H), Holding R L M S.toContent T w

theorem Done.stands {S : Store} (h : Done mode R L M S w) : Stands R L M w := by
  obtain ⟨H, T, h⟩ := h.holding
  exact ⟨S.toContent, H, T, h⟩

theorem Done.of_content {S : Store} (h : Holding R L M C T w) (hs : Sim mode [] w' S)
    (hcontent : S.toContent = C) (hpending : S.pending = []) : Done mode R L M S w' :=
  ⟨hs, hpending, H, T, hcontent ▸ h.of_content hs hcontent hpending⟩

theorem Done.of_settled {S : Store} {entries : List LeafSlot} (hs : Sim mode [] w S)
    (hsettled : Settled R L entries S) (hM : Represents M entries) : Done mode R L M S w := by
  obtain ⟨H, T, hr, rfl⟩ := settled_iff.mp hsettled
  exact ⟨hs, hr.pending, H, T, hs.quiet hr.pending, hr.inv, hr.good, hr.pageSize, hM⟩

theorem Holding.search (h : Holding R L M C T w) (hmode : mode.Allows n C w)
    (hn : touchBound H ≤ n) (key : Bytes) :
    (∃ w' S, BPlusTree.search key w = .ok (M key) w' ∧
      PageStore.search key ⟨C, [], [], n⟩ = .ok (M key) S ∧ S.toContent = C ∧
      Done mode R L M S w') ∨
      ∃ e w', BPlusTree.search key w = .error e w' ∧ mode.escape e := by
  obtain ⟨S', hrun, hcontent, hpending⟩ := search_spec (h.resting n) h.records key
    (show H + 1 ≤ n by unfold touchBound at hn; omega)
  have hlock := lockstep_search key (h.quiet.sim hmode)
  rw [hrun] at hlock
  rcases hlock.outcome (by simp) with ⟨a, w', b, S, hengine, hstore, rfl, hs⟩ | ⟨e, w', hengine, he⟩
  · cases hstore
    exact .inl ⟨w', S', hengine, hrun, hcontent, .of_content h hs hcontent hpending⟩
  · refine .inr ⟨e, w', hengine, he.resolve_right ?_⟩
    rintro ⟨S, hstore, -⟩
    cases hstore

/-- The size check reads the page size from the meta page. -/
theorem Quiet.raiseIfRecordTooLarge (hq : Quiet w C) (key value : Bytes) :
    BPlusTree.raiseIfRecordTooLarge key value w =
      if getMaxLeafRecordSize C.pageSize < calculateLeafRecordSize key value then
        .error (.recordTooLarge (getMaxLeafRecordSize C.pageSize)
          (calculateLeafRecordSize key value)) w
      else .ok () w := by
  obtain ⟨m, hget, -, hmeta, -⟩ := Sim.getMeta hq
  have hsize : m.pageSizeBytes = C.pageSize := hmeta.pageSize
  simp only [BPlusTree.raiseIfRecordTooLarge, run_bind, hget, hsize]
  split <;> rfl

theorem Holding.insert (h : Holding R L M C T w) (hmode : mode.Allows n C w)
    (hn : touchBound H ≤ n)
    (hfits : (calculateLeafRecordSize key value : ℤ) ≤ getMaxLeafRecordSize R.pageSize)
    (hkey : key.length ≤ R.maxKey) (hlsn : lsn ≤ L) :
    (∃ w' S, BPlusTree.insert key value lsn w = .ok () w' ∧
      PageStore.insert key value lsn ⟨C, [], [], n⟩ = .ok () S ∧
      Done mode R L (Function.update M key (some value)) S w') ∨
      ∃ e w', BPlusTree.insert key value lsn w = .error e w' ∧ (mode.escape e ∨ Tolerated R e) := by
  obtain ⟨entries, hM, hspec⟩ := insert_spec (h.resting n) h.records hfits hkey hlsn hn
  have hlock := lockstep_insert key value lsn (h.quiet.sim hmode)
  have hdisciplined : ∀ S, PageStore.insert key value lsn ⟨C, [], [], n⟩ ≠
      .error .undisciplined S := by
    intro S hS
    rw [hS] at hspec
    exact hspec
  rcases hlock.outcome hdisciplined with ⟨a, w', b, S, hengine, hstore, hs⟩ | ⟨e, w', hengine, he⟩
  · rw [hstore] at hspec
    exact .inl ⟨w', S, hengine, hstore, .of_settled hs hspec hM⟩
  · refine .inr ⟨e, w', hengine, he.imp id ?_⟩
    rintro ⟨S, hstore, -⟩
    rw [hstore] at hspec
    exact hspec.1

theorem Holding.delete (h : Holding R L M C T w) (hmode : mode.Allows n C w)
    (hn : touchBound H ≤ n) (key : Bytes) (hlsn : lsn ≤ L) :
    (∃ w' S, BPlusTree.delete key lsn w = .ok (M key).isSome w' ∧
      PageStore.delete key lsn ⟨C, [], [], n⟩ = .ok (M key).isSome S ∧
      Done mode R L (Function.update M key none) S w') ∨
      ∃ e w', BPlusTree.delete key lsn w = .error e w' ∧ (mode.escape e ∨ Tolerated R e) := by
  have hlock := lockstep_delete key lsn (h.quiet.sim hmode)
  cases hkey : M key with
  | none =>
      obtain ⟨S', hrun, hcontent, hpending⟩ := delete_absent lsn (h.resting n) h.records
        hkey (show H + 1 ≤ n by unfold touchBound at hn; omega)
      rw [hrun] at hlock
      rcases hlock.outcome (by simp) with
        ⟨a, w', b, S, hengine, hstore, rfl, hs⟩ | ⟨e, w', hengine, he⟩
      · cases hstore
        have hsame : Function.update M key none = M := Function.update_eq_self_iff.mpr hkey.symm
        rw [hsame]
        exact .inl ⟨w', S', hengine, hrun, .of_content h hs hcontent hpending⟩
      · refine .inr ⟨e, w', hengine, .inl (he.resolve_right ?_)⟩
        rintro ⟨S, hstore, -⟩
        cases hstore
  | some v =>
      obtain ⟨entries, hM, hspec⟩ := delete_spec (h.resting n) h.records hkey hlsn hn
      have hdisciplined : ∀ S, PageStore.delete key lsn ⟨C, [], [], n⟩ ≠
          .error .undisciplined S := by
        intro S hS
        rw [hS] at hspec
        exact hspec
      rcases hlock.outcome hdisciplined with
        ⟨a, w', b, S, hengine, hstore, rfl, hs⟩ | ⟨e, w', hengine, he⟩
      · rw [hstore] at hspec
        obtain ⟨rfl, hsettled⟩ := hspec
        exact .inl ⟨w', S, hengine, hstore, .of_settled hs hsettled hM⟩
      · refine .inr ⟨e, w', hengine, he.imp id ?_⟩
        rintro ⟨S, hstore, -⟩
        rw [hstore] at hspec
        exact hspec.1

/-- A scan that is consumed, on a pool of any size. -/
theorem Holding.scan (h : Holding R L M C T w) (start stop : Option Bytes) :
    (∃ w', BPlusTree.scan start stop w =
        .ok (inRange (start.getD []) stop (entriesOf (Tree.items H T))) w' ∧
      Holding R L M C T w') ∨
      ∃ e w', BPlusTree.scan start stop w = .error e w' ∧
        Mode.escape ⟨False, True, fun _ _ => True, none⟩ e := by
  have hallows : Mode.Allows ⟨False, True, fun _ _ => True, none⟩ (touchBound H) C w :=
    ⟨fun h => h.elim, fun h => absurd trivial h, fun _ _ _ _ => trivial, fun _ h => by cases h⟩
  obtain ⟨S', hrun, hcontent, hpending⟩ := scan_spec (h.resting (touchBound H)) start stop
    (show H + 1 ≤ touchBound H by unfold touchBound; omega)
  obtain ⟨S₁, c, l, lsn, hfind, -, -, -, hfound⟩ := findLeaf_spec (n := 0)
    (h.resting (touchBound H)) (start.getD [])
    (show 0 + H + 1 ≤ touchBound H by unfold touchBound; omega)
  have hlock := lockstep_scan id start stop (h.quiet.sim hallows) hfind hfound.pending
  rw [hrun] at hlock
  rcases hlock.outcome (by simp) with ⟨a, w', b, S, hengine, hstore, rfl, hs⟩ | ⟨e, w', hengine, he⟩
  · cases hstore
    exact .inl ⟨w', hengine, h.of_content hs hcontent hpending⟩
  · refine .inr ⟨e, w', hengine, he.resolve_right ?_⟩
    rintro ⟨S, hstore, -⟩
    cases hstore

/-! ## Flushes -/

/-- The pages of a good tree and of the freelist can be written without touching each
other. -/
theorem Holding.storable (h : Holding R L M C T w) (hP : C.pageSize < 256 ^ 4)
    (hheader : pageHeaderSize ≤ C.pageSize) : Storable C where
  pageSize := hP
  header := hheader
  apart x hx hmem := by
    obtain ⟨page, hpage⟩ := Option.isSome_iff_exists.mp hx
    have howned := h.inv.holds.only x page hpage
    obtain ⟨e, he, rfl⟩ := List.mem_map.mp hmem
    have hfree : e.1 ∈ freeIds C.chain :=
      List.mem_flatMap.mpr ⟨e, he, List.mem_cons_self ..⟩
    have h1 := List.one_le_count_iff.mpr howned
    have h2 := List.one_le_count_iff.mpr hfree
    have hcount := h.inv.accounted e.1
    simp only [Tree.pageIds] at hcount
    split at hcount <;> omega
  pos x hx := by
    obtain ⟨page, hpage⟩ := Option.isSome_iff_exists.mp hx
    have := (h.inv.accounted.lt (h.inv.holds.only x page hpage)).1
    omega
  fits x page hpage := by
    obtain ⟨root, hgood, -⟩ := h.inv.pageGood h.good hpage
    rw [h.pageSize]
    exact hgood.fits
  chainFits := h.inv.chainFits

/-- A page of the freelist with ids within the fields of the format is encodable. -/
theorem encodable_chainPage (hst : Storable C) (hfree : ∀ x ∈ freeIds C.chain, x < 256 ^ 8) {x : ℕ}
    {page : FreelistPage} (hpage : chainPage C.chain x = some page) :
    Encodable C.pageSize (.freelist page) := by
  have hlen := hst.chainFits _ (mem_of_chainPage hpage)
  have hheader := hst.header
  obtain ⟨hlsn, hlink⟩ := chainPage_fields hpage
  refine ⟨hst.pageSize, ?_, by rw [hlsn]; norm_num, ?_, fun y hy => hfree y ?_⟩
  · simp only [getMaxFreedIdsPerFreelistPage, pageHeaderSize, pageIdFieldSize] at hlen hheader ⊢
    omega
  · rcases hlink with hzero | hlink
    · rw [hzero]
      norm_num
    · obtain ⟨e, he, hid⟩ := List.mem_map.mp hlink
      exact hfree _ (List.mem_flatMap.mpr ⟨e, he, hid ▸ List.mem_cons_self ..⟩)
  · exact List.mem_flatMap.mpr ⟨_, mem_of_chainPage hpage, List.mem_cons_of_mem _ hy⟩

theorem Accounted.freeIds_lt {next bound x : ℕ} {chain : List (ℕ × List ℕ)} {owned : List ℕ}
    (hacc : Accounted next chain owned) (hnext : next ≤ bound) (hx : x ∈ freeIds chain) :
    x < bound := by
  have hcount := List.one_le_count_iff.mpr hx
  have := hacc x
  split at this <;> omega

/-- A content with LSNs and page ids within the fields of the format is encodable. -/
theorem Holding.not_unencodable (h : Holding R L M C T w) (hst : Storable C) (hL : L < 256 ^ 8)
    (hnext : C.next ≤ 256 ^ 8) (e : Err) : ¬ Unencodable C e := by
  rintro (⟨x, page, hpage, hencode⟩ | ⟨x, page, hpage, hencode⟩)
  · obtain ⟨data, hdata, -⟩ := encodePage_spec (h.inv.encodable h.good h.pageSize hst.pageSize hL
      hnext hpage)
    rw [hencode] at hdata
    cases hdata
  · obtain ⟨data, hdata, -⟩ := encodePage_spec (encodable_chainPage hst
      (fun x hx => Accounted.freeIds_lt h.inv.accounted hnext hx) hpage)
    rw [hencode] at hdata
    cases hdata

theorem Holding.of_quiet (h : Holding R L M C T w) (hq : Quiet w' C) : Holding R L M C T w' :=
  { h with quiet := hq }

end BPTreeDB.Engine
